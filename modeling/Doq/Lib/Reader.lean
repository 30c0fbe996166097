/-
  Doq.Lib.Reader — a stream of bytes that is read in pieces, as Go's `io.Reader`.

  A `Reader` is any machine that hands out the bytes it has left, in order: each read gives
  some of them, at most as many as fit the buffer, and may say that the stream has ended once
  none is left, with the last bytes or after them. It may give nothing for a while, but not
  forever. How it splits its bytes is otherwise its own affair.

  `readFull` is `io.ReadFull`: it reads until the buffer is full. What it answers depends only
  on the bytes left (`readFull_filled`).
-/

import Mathlib.Data.Prod.Lex
import Mathlib.Data.List.Basic

namespace Doq.Lib

structure Reader (σ : Type) where
  /-- One read into a buffer of the given size: the bytes, whether the stream ended, and the
      reader afterwards. -/
  read : σ → Nat → List UInt8 × Bool × σ
  left : σ → List UInt8
  /-- Bounds how many reads in a row give nothing. -/
  idle : σ → Nat
  fits : ∀ s n, (read s n).1.length ≤ n
  takes : ∀ s n, left s = (read s n).1 ++ left (read s n).2.2
  ends : ∀ s n, (read s n).2.1 = true → left (read s n).2.2 = []
  moves : ∀ s n, 0 < n → (read s n).2.1 = false → (read s n).1 = [] → idle (read s n).2.2 < idle s

inductive ReadError where
  | eof
  | unexpectedEOF
  deriving DecidableEq, Repr

namespace Reader

variable {σ : Type} (r : Reader σ)

theorem left_shorter {s : σ} {n : Nat} (hn : 0 < n) (he : (r.read s n).2.1 = false) :
    Prod.Lex (· < ·) (· < ·) ((r.left (r.read s n).2.2).length, r.idle (r.read s n).2.2) ((r.left s).length, r.idle s) := by
  have htakes := congrArg List.length (r.takes s n)
  rw [List.length_append] at htakes
  by_cases hnil : (r.read s n).1 = []
  · rw [hnil, List.length_nil, Nat.zero_add] at htakes
    rw [htakes]
    exact Prod.Lex.right _ (r.moves s n hn he hnil)
  · have hpos := List.length_pos_iff.mpr hnil
    exact Prod.Lex.left _ _ (by omega)

/-- The loop of `io.ReadAtLeast` for a whole buffer of `n` bytes, `buf` of them read. -/
def readLoop (n : Nat) (buf : List UInt8) (s : σ) : List UInt8 × Option ReadError × σ :=
  if n ≤ buf.length then (buf, none, s)
  else
    let answer := r.read s (n - buf.length)
    let buf := buf ++ answer.1
    if answer.2.1 then
      if n ≤ buf.length then (buf, none, answer.2.2)
      else if buf = [] then (buf, some .eof, answer.2.2)
      else (buf, some .unexpectedEOF, answer.2.2)
    else readLoop n buf answer.2.2
termination_by ((r.left s).length, r.idle s)
decreasing_by exact r.left_shorter (by omega) (Bool.not_eq_true _ ▸ ‹_›)

def readFull (s : σ) (n : Nat) : List UInt8 × Option ReadError × σ := r.readLoop n [] s

/-- What the loop answers, from the bytes there are: those read and those left. -/
structure Filled (n : Nat) (all : List UInt8) (answer : List UInt8 × Option ReadError × σ) : Prop where
  full : n ≤ all.length → answer.1 = all.take n ∧ answer.2.1 = none ∧ r.left answer.2.2 = all.drop n
  ended : all = [] → 0 < n → answer.2.1 = some .eof
  short : all ≠ [] → all.length < n → answer.2.1 = some .unexpectedEOF

theorem Filled.exact {n : Nat} {buf : List UInt8} {s : σ} (h : buf.length = n) : r.Filled n (buf ++ r.left s) (buf, none, s) := by
  refine ⟨fun _ => ⟨?_, rfl, ?_⟩, fun hnil hpos => ?_, fun _ hlt => ?_⟩
  · rw [← h, List.take_left]
  · rw [← h, List.drop_left]
  · rw [(List.append_eq_nil_iff.mp hnil).1, List.length_nil] at h
    omega
  · rw [List.length_append] at hlt
    omega

theorem Filled.length_le {n : Nat} {all : List UInt8} {answer : List UInt8 × Option ReadError × σ} (h : r.Filled n all answer)
    (hnone : answer.2.1 = none) : n ≤ all.length := by
  by_contra hlt
  by_cases hnil : all = []
  · have he := h.ended hnil (by omega)
    rw [hnone] at he
    cases he
  · have he := h.short hnil (by omega)
    rw [hnone] at he
    cases he

theorem readLoop_filled (n : Nat) (buf : List UInt8) (s : σ) (hbuf : buf.length ≤ n) :
    r.Filled n (buf ++ r.left s) (r.readLoop n buf s) := by
  -- a read moves bytes from those left to those read, so what there is stays the same
  have hall : ∀ (buf : List UInt8) (s : σ) (k : Nat), buf ++ r.left s = (buf ++ (r.read s k).1) ++ r.left (r.read s k).2.2 :=
    fun buf s k => by rw [List.append_assoc, ← r.takes]
  have hle : ∀ (buf : List UInt8) (s : σ), buf.length ≤ n → (buf ++ (r.read s (n - buf.length)).1).length ≤ n := fun buf s h => by
    have := r.fits s (n - buf.length)
    rw [List.length_append]; omega
  fun_induction r.readLoop n buf s with
  | case1 buf s h => exact Filled.exact r (Nat.le_antisymm hbuf h)
  | case2 buf s h answer buf' he hfull =>
    rw [hall buf s (n - buf.length)]
    exact Filled.exact r (Nat.le_antisymm (hle buf s hbuf) hfull)
  | case3 buf s h answer buf' he hfull hnil =>
    have hend : r.left answer.2.2 = [] := r.ends s _ he
    have hnone : buf ++ r.left s = [] := by
      rw [hall buf s (n - buf.length)]; show buf' ++ r.left answer.2.2 = []; rw [hnil, hend]; rfl
    rw [hnone]
    exact ⟨fun hn => absurd hn (by rw [hnil] at hfull; exact hfull), fun _ _ => rfl, fun hne => absurd rfl hne⟩
  | case4 buf s h answer buf' he hfull hnil =>
    have hend : r.left answer.2.2 = [] := r.ends s _ he
    have hsome : buf ++ r.left s = buf' := by
      rw [hall buf s (n - buf.length)]; show buf' ++ r.left answer.2.2 = buf'; rw [hend, List.append_nil]
    rw [hsome]
    exact ⟨fun hn => absurd hn hfull, fun hn => absurd hn hnil, fun _ _ => rfl⟩
  | case5 buf s h answer buf' he ih =>
    rw [hall buf s (n - buf.length)]
    exact ih (hle buf s hbuf)

theorem readFull_filled (s : σ) (n : Nat) : r.Filled n (r.left s) (r.readFull s n) := r.readLoop_filled n [] s (Nat.zero_le n)

end Reader

/-! ## Readers over given pieces -/

/-- The reads of a stream whose pieces are given: a piece longer than the buffer is handed out
    over several reads, and the end is told after the last. -/
def readPiece : List (List UInt8) → Nat → List UInt8 × Bool × List (List UInt8)
  | [], _ => ([], true, [])
  | piece :: pieces, n => if piece.length ≤ n then (piece, false, pieces) else (piece.take n, false, piece.drop n :: pieces)

theorem readPiece_cons (piece : List UInt8) (pieces : List (List UInt8)) (n : Nat) :
    (piece.length ≤ n ∧ readPiece (piece :: pieces) n = (piece, false, pieces)) ∨
    (n < piece.length ∧ readPiece (piece :: pieces) n = (piece.take n, false, piece.drop n :: pieces)) := by
  by_cases h : piece.length ≤ n
  · exact Or.inl ⟨h, if_pos h⟩
  · exact Or.inr ⟨Nat.lt_of_not_le h, if_neg h⟩

/-- The reader that hands out its bytes in the given pieces. -/
def Reader.ofPieces : Reader (List (List UInt8)) where
  read := readPiece
  left := List.flatten
  idle := List.length
  fits s n := by
    cases s with
    | nil => exact Nat.zero_le n
    | cons piece pieces =>
      rcases readPiece_cons piece pieces n with ⟨h, e⟩ | ⟨_, e⟩ <;> rw [e]
      · exact h
      · exact List.length_take_le n piece
  takes s n := by
    cases s with
    | nil => rfl
    | cons piece pieces =>
      rcases readPiece_cons piece pieces n with ⟨_, e⟩ | ⟨_, e⟩ <;> rw [e]
      · rfl
      · rw [List.flatten_cons, List.flatten_cons, ← List.append_assoc, List.take_append_drop]
  ends s n he := by
    cases s with
    | nil => rfl
    | cons piece pieces => rcases readPiece_cons piece pieces n with ⟨_, e⟩ | ⟨_, e⟩ <;> rw [e] at he <;> cases he
  moves s n hn he hnil := by
    cases s with
    | nil => cases he
    | cons piece pieces =>
      rcases readPiece_cons piece pieces n with ⟨_, e⟩ | ⟨hlt, e⟩ <;> rw [e] at hnil ⊢
      · exact Nat.lt_succ_self _
      · have hlen := congrArg List.length hnil
        rw [List.length_take, List.length_nil] at hlen
        omega

end Doq.Lib
