/-
  Doq.Storage.Keys — the byte keys of the store (see `Doq.Storage.Store`).

  All messages share one key space. A message's key is "messages:<queue>:" and eight raw
  bytes, so the key determines the queue and the id (`messagesKey_inj`), but a scan for one
  queue's prefix also meets the keys of a queue whose name goes on with a colon after the
  scanned name, and those of a queue whose ids happen to spell the rest of the scanned
  name. Between names without a colon neither can happen (`scanned_iff`).
-/

import Doq.Storage.Store
import Mathlib.Data.List.Infix

namespace Doq.Storage

open Lib

/-! ## Text as bytes -/

theorem bytes_append (s t : String) : bytes (s ++ t) = bytes s ++ bytes t := by
  unfold bytes
  rw [String.toList_append, List.flatMap_append]

theorem bytes_inj {s t : String} (h : bytes s = bytes t) : s = t := by
  have he : s.toList.utf8Encode = t.toList.utf8Encode := congrArg List.toByteArray h
  have hd : some t.toList.toArray = some s.toList.toArray := by
    rw [← List.utf8Decode?_utf8Encode, ← List.utf8Decode?_utf8Encode, he]
  rw [Option.some.injEq, Array.mk.injEq] at hd
  exact String.toList_inj.mp hd.symm

/-- `sort.Slice` by a text: Go compares the bytes. -/
theorem pairwise_mergeSort_bytes {α : Type} (key : α → String) (l : List α) :
    (l.mergeSort fun a b => decide (bytes (key a) ≤ bytes (key b))).Pairwise fun a b => bytes (key a) ≤ bytes (key b) := by
  refine (List.pairwise_mergeSort (fun a b c hab hbc => ?_) (fun a b => ?_) l).imp of_decide_eq_true
  · exact decide_eq_true (List.le_trans (of_decide_eq_true hab) (of_decide_eq_true hbc))
  · rw [Bool.or_eq_true, decide_eq_true_iff, decide_eq_true_iff]
    exact List.le_total _ _

/-- The byte of the colon. -/
def colon : UInt8 := 0x3A

theorem ofNat_eq_colon {n : Nat} (h : colon = UInt8.ofNat n) : n % 256 = 58 := by
  have := congrArg UInt8.toNat h
  rw [UInt8.toNat_ofNat'] at this
  exact this.symm

/-- The other bytes of a text are not the colon's: beyond the first 128 characters every
    byte has its top bit set. -/
theorem colon_of_mem_char {c : Char} (h : colon ∈ String.utf8EncodeChar c) : c = ':' := by
  unfold String.utf8EncodeChar at h
  dsimp only at h
  split at h
  · rename_i hv
    rw [List.mem_singleton] at h
    have := ofNat_eq_colon h
    have hn : c.val.toNat = 58 := by omega
    exact Char.ext (UInt32.toNat_inj.mp hn)
  · exfalso
    split at h
    · simp only [List.mem_cons, List.not_mem_nil, or_false] at h
      rcases h with h | h <;> have := ofNat_eq_colon h <;> omega
    · split at h
      · simp only [List.mem_cons, List.not_mem_nil, or_false] at h
        rcases h with h | h | h <;> have := ofNat_eq_colon h <;> omega
      · simp only [List.mem_cons, List.not_mem_nil, or_false] at h
        rcases h with h | h | h | h <;> have := ofNat_eq_colon h <;> omega

theorem colon_of_mem {s : String} (h : colon ∈ bytes s) : ':' ∈ s.toList := by
  obtain ⟨c, hc, hmem⟩ := List.mem_flatMap.mp h
  rw [← colon_of_mem_char hmem]
  exact hc

/-! ## Ids as bytes -/

theorem byte_toNat (u shift : UInt64) (h : shift.toNat < 64) : (u >>> shift).toUInt8.toNat = u.toNat / 2 ^ shift.toNat % 256 := by
  rw [UInt64.toNat_toUInt8, UInt64.toNat_shiftRight, Nat.mod_eq_of_lt h, Nat.shiftRight_eq_div_pow]

/-- A number is its digits. -/
theorem mod_pow_eq_of_digits {b u v : Nat} (k : Nat) (h : ∀ i < k, u / b ^ i % b = v / b ^ i % b) : u % b ^ k = v % b ^ k := by
  induction k with
  | zero => rw [Nat.pow_zero, Nat.mod_one, Nat.mod_one]
  | succ k ih => rw [Nat.mod_pow_succ, Nat.mod_pow_succ, ih fun i hi => h i (Nat.lt_succ_of_lt hi), h k (Nat.lt_succ_self k)]

theorem uint64ToBytes_inj {u v : UInt64} (h : uint64ToBytes u = uint64ToBytes v) : u = v := by
  have hshift : ∀ i < 8, (UInt64.ofNat (8 * i)).toNat = 8 * i ∧
    UInt64.ofNat (8 * i) ∈ ([56, 48, 40, 32, 24, 16, 8, 0] : List UInt64) := by
    decide
  have hbyte : ∀ i < 8, u.toNat / 256 ^ i % 256 = v.toNat / 256 ^ i % 256 := by
    intro i hi
    obtain ⟨hn, hmem⟩ := hshift i hi
    have hlt : (UInt64.ofNat (8 * i)).toNat < 64 := by omega
    have hsame := List.map_inj_left.mp h _ hmem
    have hpow : 2 ^ (UInt64.ofNat (8 * i)).toNat = 256 ^ i := by rw [hn, Nat.pow_mul]
    rw [← hpow, ← byte_toNat u _ hlt, ← byte_toNat v _ hlt, hsame]
  have hmod : u.toNat % 256 ^ 8 = v.toNat % 256 ^ 8 := mod_pow_eq_of_digits 8 hbyte
  rw [Nat.mod_eq_of_lt (show u.toNat < 256 ^ 8 from u.toNat_lt),
    Nat.mod_eq_of_lt (show v.toNat < 256 ^ 8 from v.toNat_lt)] at hmod
  exact UInt64.toNat_inj.mp hmod

/-! ## Keys -/

theorem messagesPrefix_eq (name : String) : messagesPrefix name = bytes "messages:" ++ (bytes name ++ [colon]) := by
  unfold messagesPrefix
  rw [bytes_append, bytes_append, List.append_assoc]
  rfl

theorem messagesKey_inj {n n' : String} {id id' : UInt64} (h : messagesKey n id = messagesKey n' id') : n = n' ∧ id = id' := by
  unfold messagesKey at h
  obtain ⟨hp, hid⟩ := List.append_inj' h rfl
  rw [messagesPrefix_eq, messagesPrefix_eq] at hp
  have hn : bytes n = bytes n' := List.append_cancel_right (List.append_cancel_left hp)
  exact ⟨bytes_inj hn, uint64ToBytes_inj hid⟩

/-- What stands before the first separator. -/
theorem eq_of_prefix_sep {α : Type} {c : α} {z : List α} : ∀ {x y : List α}, x ++ [c] <+: y ++ c :: z → c ∉ x → c ∉ y → x = y
  | [], [], _, _, _ => rfl
  | [], d :: y, h, _, hy => by
    have hd : c = d := (List.cons_prefix_cons.mp h).1
    exact absurd (hd ▸ List.mem_cons_self) hy
  | d :: x, [], h, hx, _ => by
    have hd : d = c := (List.cons_prefix_cons.mp h).1
    exact absurd (hd ▸ List.mem_cons_self) hx
  | d :: x, e :: y, h, hx, hy => by
    obtain ⟨rfl, h'⟩ := List.cons_prefix_cons.mp h
    rw [eq_of_prefix_sep h' (fun hc => hx (List.mem_cons_of_mem _ hc)) fun hc => hy (List.mem_cons_of_mem _ hc)]

theorem scanned_self (name : String) (id : UInt64) : scanned name (name, id) = true := by
  simp [scanned, messagesKey]

/-- Between names without a colon a scan meets only its own queue's messages. -/
theorem scanned_iff {a : String} {key : String × UInt64} (ha : ':' ∉ a.toList) (hb : ':' ∉ key.1.toList) :
    scanned a key = true ↔ key.1 = a := by
  constructor
  · intro h
    have hp : messagesPrefix a <+: messagesKey key.1 key.2 := List.isPrefixOf_iff_prefix.mp h
    unfold messagesKey at hp
    rw [messagesPrefix_eq, messagesPrefix_eq, List.append_assoc, List.prefix_append_right_inj, List.append_assoc] at hp
    exact (bytes_inj (eq_of_prefix_sep hp (fun hc => ha (colon_of_mem hc)) fun hc => hb (colon_of_mem hc))).symm
  · rintro rfl
    exact scanned_self key.1 key.2

end Doq.Storage
