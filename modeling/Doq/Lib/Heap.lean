/-
  Doq.Lib.Heap — the binary heap of Go's `container/heap`, over any container that can
  compare and swap two of its positions.

  `up`, `down`, `fix`, `remove` and `pop` are the package's loops, as it documents
  them; the container itself appends and cuts the last position. A loop's counter is
  spent one swap at a time and is never short (`up_step`, `down_step`).

  Proved:
  - `up_keeps` … `pop_keeps`: whatever a swap inside the bound keeps, every operation
    keeps. Permutations, lengths and position indexes are all of this kind.
  - `up_ordered`, `fix_ordered`, `remove_ordered`, `pop_ordered`: over a strict weak order, an operation
    started where the callers start it ends with every position at or after its parent.
  - `Ordered.root_first`: then no position is before the root.
-/

import Mathlib.Logic.Basic
import Mathlib.Tactic.Common

namespace Doq.Lib.Heap

variable {σ α : Type}

structure Interface (σ : Type) where
  less : σ → Nat → Nat → Bool
  swap : σ → Nat → Nat → σ

variable (H : Interface σ)

def upN : Nat → σ → Nat → σ
  | 0, s, _ => s
  | k + 1, s, j =>
    let i := (j - 1) / 2
    if i = j ∨ H.less s j i = false then s else upN k (H.swap s i j) i

def up (s : σ) (j : Nat) : σ := upN H j s j

/-- The child `down` compares with: the right one when it is inside the bound and before
    the left. -/
def pick (s : σ) (i n : Nat) : Nat :=
  if 2 * i + 2 < n ∧ H.less s (2 * i + 2) (2 * i + 1) = true then 2 * i + 2 else 2 * i + 1

def downN : Nat → σ → Nat → Nat → σ × Nat
  | 0, s, i, _ => (s, i)
  | k + 1, s, i, n =>
    if n ≤ 2 * i + 1 then (s, i)
    else if H.less s (pick H s i n) i = false then (s, i)
    else downN k (H.swap s i (pick H s i n)) (pick H s i n) n

/-- The sifted container, and whether the element moved. -/
def down (s : σ) (i n : Nat) : σ × Bool :=
  let r := downN H (n - i) s i n
  (r.1, decide (i < r.2))

def fix (s : σ) (i n : Nat) : σ :=
  let r := down H s i n
  if r.2 then r.1 else up H r.1 i

/-- Bring position `i` to the end of the first `n + 1`, the rest a heap: what `Remove`
    does before it cuts the last position. -/
def remove (s : σ) (i n : Nat) : σ := if n = i then s else fix H (H.swap s i n) i n

def pop (s : σ) (n : Nat) : σ := (down H (H.swap s 0 n) 0 n).1

/-! ## The loops' counters -/

theorem parent_lt {j : Nat} (h : 0 < j) : (j - 1) / 2 < j := by omega

theorem upN_ge (k : Nat) : ∀ (s : σ) (j m : Nat), j ≤ k → j ≤ m → upN H k s j = upN H m s j := by
  induction k with
  | zero =>
    intro s j m hj _
    have : j = 0 := by omega
    subst this
    cases m <;> simp [upN]
  | succ k ih =>
    intro s j m hj hm
    cases m with
    | zero =>
      have : j = 0 := by omega
      subst this; simp [upN]
    | succ m =>
      simp only [upN]
      split
      · rfl
      · rename_i h
        have : (j - 1) / 2 ≠ j := fun e => h (Or.inl e)
        exact ih _ _ _ (by omega) (by omega)

/-- One turn of `up`'s loop. -/
theorem up_step (s : σ) (j : Nat) :
    up H s j = if (j - 1) / 2 = j ∨ H.less s j ((j - 1) / 2) = false then s
      else up H (H.swap s ((j - 1) / 2) j) ((j - 1) / 2) := by
  cases j with
  | zero => simp [up, upN]
  | succ j =>
    show upN H (j + 1) s (j + 1) = _
    simp only [upN]
    split
    · rfl
    · exact upN_ge H _ _ _ _ (by omega) (Nat.le_refl _)

theorem pick_bounds {s : σ} {i n : Nat} (h : ¬ n ≤ 2 * i + 1) :
    i < pick H s i n ∧ pick H s i n < n ∧ (pick H s i n - 1) / 2 = i := by
  unfold pick
  split <;> omega

theorem downN_ge (k : Nat) : ∀ (s : σ) (i n m : Nat), n - i ≤ k → n - i ≤ m → downN H k s i n = downN H m s i n := by
  induction k with
  | zero =>
    intro s i n m hk _
    cases m with
    | zero => rfl
    | succ m => simp only [downN]; rw [if_pos (by omega)]
  | succ k ih =>
    intro s i n m hk hm
    cases m with
    | zero => simp only [downN]; rw [if_pos (by omega)]
    | succ m =>
      simp only [downN]
      split
      · rfl
      · rename_i h
        split
        · rfl
        · have := pick_bounds H (s := s) h
          exact ih _ _ _ _ (by omega) (by omega)

/-- One turn of `down`'s loop. -/
theorem down_step (s : σ) (i n : Nat) :
    downN H (n - i) s i n = if n ≤ 2 * i + 1 then (s, i)
      else if H.less s (pick H s i n) i = false then (s, i)
      else downN H (n - pick H s i n) (H.swap s i (pick H s i n)) (pick H s i n) n := by
  cases hk : n - i with
  | zero => simp only [downN]; rw [if_pos (by omega)]
  | succ k =>
    simp only [downN]
    split
    · rfl
    · rename_i h
      split
      · rfl
      · have := pick_bounds H (s := s) h
        exact downN_ge H _ _ _ _ _ (by omega) (Nat.le_refl _)

/-! ## What swaps keep, the operations keep -/

section Keeps

variable {H} {P : σ → Prop} {b : Nat} (hP : ∀ s i j, i < b → j < b → P s → P (H.swap s i j))
include hP

theorem up_keeps {s : σ} {j : Nat} (hj : j < b) (h : P s) : P (up H s j) := by
  induction j using Nat.strongRecOn generalizing s with
  | ind j ih =>
    rw [up_step]
    split
    · exact h
    · rename_i hc
      have : (j - 1) / 2 ≠ j := fun e => hc (Or.inl e)
      exact ih _ (by omega) (by omega) (hP _ _ _ (by omega) hj h)

theorem downN_keeps {n : Nat} (hn : n ≤ b) (k : Nat) : ∀ {s : σ} {i : Nat}, n - i = k → P s → P (downN H (n - i) s i n).1 := by
  induction k using Nat.strongRecOn with
  | ind k ih =>
    intro s i hk h
    rw [down_step]
    split
    · exact h
    · rename_i hc
      split
      · exact h
      · have := pick_bounds H (s := s) hc
        exact ih _ (by omega) rfl (hP _ _ _ (by omega) (by omega) h)

theorem down_keeps {s : σ} {i n : Nat} (hn : n ≤ b) (h : P s) : P (down H s i n).1 :=
  downN_keeps hP hn _ rfl h

theorem fix_keeps {s : σ} {i n : Nat} (hi : i < b) (hn : n ≤ b) (h : P s) : P (fix H s i n) := by
  simp only [fix]
  split
  · exact down_keeps hP hn h
  · exact up_keeps hP hi (down_keeps hP hn h)

theorem remove_keeps {s : σ} {i n : Nat} (hi : i < b) (hn : n < b) (h : P s) : P (remove H s i n) := by
  unfold remove
  split
  · exact h
  · exact fix_keeps hP hi (by omega) (hP _ _ _ hi hn h)

theorem pop_keeps {s : σ} {n : Nat} (hn : n < b) (h : P s) : P (pop H s n) :=
  down_keeps hP (by omega) (hP _ _ _ (by omega) hn h)

end Keeps

/-! ## Order -/

/-- A strict weak order, as a Boolean comparison. -/
structure StrictWeak (lt : α → α → Bool) : Prop where
  asymm : ∀ {a b}, lt a b = true → lt b a = false
  negTrans : ∀ {a b c}, lt a b = false → lt b c = false → lt a c = false

namespace StrictWeak

variable {lt : α → α → Bool} (h : StrictWeak lt)
include h

theorem irrefl (a : α) : lt a a = false := by
  cases e : lt a a with
  | false => rfl
  | true => have := h.asymm e; rw [e] at this; cases this

theorem trans {a b c : α} (hab : lt a b = true) (hbc : lt b c = true) : lt a c = true := by
  cases e : lt a c with
  | true => rfl
  | false => have := h.negTrans e (h.asymm hbc); rw [hab] at this; cases this

/-- `c` at or after `b`, and `a` before `b`: `c` is not before `a`. -/
theorem not_before {a b c : α} (hcb : lt c b = false) (hab : lt a b = true) : lt c a = false := by
  cases e : lt c a with
  | false => rfl
  | true => have := h.trans e hab; rw [hcb] at this; cases this

end StrictWeak

/-- The container holds `at s k` at position `k < len s`, compares positions by their
    entries, and a swap exchanges two of them. -/
structure Lawful (len : σ → Nat) (ent : σ → Nat → α) (lt : α → α → Bool) : Prop where
  less : ∀ s i j, H.less s i j = lt (ent s i) (ent s j)
  len_swap : ∀ s i j, len (H.swap s i j) = len s
  ent_swap : ∀ s i j k, i < len s → j < len s →
    ent (H.swap s i j) k = if k = i then ent s j else if k = j then ent s i else ent s k

section Order

variable {H} {len : σ → Nat} {ent : σ → Nat → α} {lt : α → α → Bool}

/-- Every one of the first `n` positions is at or after its parent. -/
def Ordered (lt : α → α → Bool) (e : Nat → α) (n : Nat) : Prop :=
  ∀ c, 0 < c → c < n → lt (e c) (e ((c - 1) / 2)) = false

/-- Ordered, but for position `j` and its parent. -/
structure UpOrder (lt : α → α → Bool) (e : Nat → α) (j n : Nat) : Prop where
  rest : ∀ c, 0 < c → c < n → c ≠ j → lt (e c) (e ((c - 1) / 2)) = false
  grand : 0 < j → ∀ c, 0 < c → c < n → (c - 1) / 2 = j → lt (e c) (e ((j - 1) / 2)) = false

/-- Ordered, but for position `i` against its parent and its children. -/
structure HoleOrder (lt : α → α → Bool) (e : Nat → α) (i n : Nat) : Prop where
  rest : ∀ c, 0 < c → c < n → c ≠ i → (c - 1) / 2 ≠ i → lt (e c) (e ((c - 1) / 2)) = false
  grand : 0 < i → ∀ c, 0 < c → c < n → (c - 1) / 2 = i → lt (e c) (e ((i - 1) / 2)) = false

theorem Ordered.mono {e : Nat → α} {n m : Nat} (h : Ordered lt e n) (hm : m ≤ n) : Ordered lt e m :=
  fun c h0 hc => h c h0 (by omega)

theorem Ordered.up_append {e e' : Nat → α} {n : Nat} (h : Ordered lt e n) (he : ∀ k < n, e' k = e k) :
    UpOrder lt e' n (n + 1) where
  rest c h0 hc hn := by rw [he c (by omega), he _ (by omega)]; exact h c h0 (by omega)
  grand _ c _ hc hp := by omega

variable (hw : StrictWeak lt) (hl : Lawful H len ent lt)
include hw

/-- No position is before the root: each step up to the parent keeps or lowers the entry. -/
theorem Ordered.root_first {e : Nat → α} {n i : Nat} (h : Ordered lt e n) (hi : i < n) : lt (e i) (e 0) = false := by
  induction i using Nat.strongRecOn with
  | ind i ih =>
    rcases Nat.eq_zero_or_pos i with rfl | h0
    · exact hw.irrefl _
    · have hup := ih _ (parent_lt h0) (Nat.lt_trans (parent_lt h0) hi)
      exact hw.negTrans (h i h0 hi) hup

/-- An ordered heap with one entry replaced. -/
theorem Ordered.hole {e e' : Nat → α} {i n : Nat} (h : Ordered lt e n) (he : ∀ k, k ≠ i → e' k = e k) :
    HoleOrder lt e' i n where
  rest c h0 hc hi hp := by rw [he c hi, he _ hp]; exact h c h0 hc
  grand hi c h0 hc hp := by
    have hci : c ≠ i := by omega
    have hpi : (i - 1) / 2 ≠ i := by omega
    rw [he c hci, he _ hpi]
    have h1 := h c h0 hc
    rw [hp] at h1
    exact hw.negTrans h1 (h i hi (by omega))

include hl

theorem up_ordered {s : σ} {j n : Nat} (hj : j < n) (hn : n ≤ len s) (h : UpOrder lt (ent s) j n) :
    Ordered lt (ent (up H s j)) n := by
  induction j using Nat.strongRecOn generalizing s with
  | ind j ih =>
    rw [up_step]
    split
    · rename_i hc
      intro c h0 hcn
      by_cases hcj : c = j
      · subst hcj
        rcases hc with hc | hc
        · omega
        · rwa [hl.less] at hc
      · exact h.rest c h0 hcn hcj
    · rename_i hc
      have hj0 : (j - 1) / 2 ≠ j := fun e => hc (Or.inl e)
      have hlt : lt (ent s j) (ent s ((j - 1) / 2)) = true := by
        cases e : lt (ent s j) (ent s ((j - 1) / 2)) with
        | true => rfl
        | false => exact absurd (Or.inr (by rw [hl.less, e])) hc
      generalize hp : (j - 1) / 2 = p at *
      have hpj : p < j := by omega
      have hsw : ∀ k, ent (H.swap s p j) k = if k = p then ent s j else if k = j then ent s p else ent s k :=
        fun k => hl.ent_swap s p j k (by omega) (by omega)
      refine ih p hpj (by omega) (by rw [hl.len_swap]; exact hn) ⟨?_, ?_⟩
      · intro c h0 hcn hcp
        rw [hsw c, hsw ((c - 1) / 2), if_neg hcp]
        by_cases hcj : c = j
        · subst hcj
          rw [if_pos rfl, hp, if_pos rfl]
          exact hw.asymm hlt
        rw [if_neg hcj]
        have hr := h.rest c h0 hcn hcj
        by_cases h1 : (c - 1) / 2 = p
        · rw [if_pos h1]; rw [h1] at hr
          exact hw.not_before hr hlt
        rw [if_neg h1]
        by_cases h2 : (c - 1) / 2 = j
        · rw [if_pos h2]
          have := h.grand (by omega) c h0 hcn h2
          rwa [hp] at this
        rw [if_neg h2]; exact hr
      · intro hp0 c h0 hcn hcp
        have hpp : (p - 1) / 2 ≠ p ∧ (p - 1) / 2 ≠ j := by omega
        rw [hsw c, hsw ((p - 1) / 2), if_neg hpp.1, if_neg hpp.2, if_neg (by omega)]
        have hup := h.rest p hp0 (by omega) (by omega)
        by_cases hcj : c = j
        · rw [if_pos hcj]; exact hup
        · rw [if_neg hcj]
          have hr := h.rest c h0 hcn hcj
          rw [hcp] at hr
          exact hw.negTrans hr hup

/-- The child `down` picks is not after either child. -/
theorem pick_first {s : σ} {i n : Nat} {c : Nat} (h0 : 0 < c) (hc : c < n) (hp : (c - 1) / 2 = i) :
    lt (ent s c) (ent s (pick H s i n)) = false := by
  have hcc : c = 2 * i + 1 ∨ c = 2 * i + 2 := by omega
  unfold pick
  split
  · rename_i h
    rw [hl.less] at h
    rcases hcc with rfl | rfl
    · exact hw.asymm h.2
    · exact hw.irrefl _
  · rename_i h
    rw [hl.less] at h
    rcases hcc with rfl | rfl
    · exact hw.irrefl _
    · cases e : lt (ent s (2 * i + 2)) (ent s (2 * i + 1)) with
      | false => rfl
      | true => exact absurd ⟨hc, e⟩ h

/-- One swap of `down`: the hole moves to the picked child, which is then at or after its
    new parent. -/
theorem HoleOrder.sink {s : σ} {i n : Nat} (h : HoleOrder lt (ent s) i n) (hn : n ≤ len s) (hc : ¬ n ≤ 2 * i + 1)
    (hlt : lt (ent s (pick H s i n)) (ent s i) = true) :
    HoleOrder lt (ent (H.swap s i (pick H s i n))) (pick H s i n) n ∧
      lt (ent (H.swap s i (pick H s i n)) (pick H s i n))
        (ent (H.swap s i (pick H s i n)) ((pick H s i n - 1) / 2)) = false := by
  have hb := pick_bounds H (s := s) hc
  have hfirst := fun d h0 hd hp => pick_first hw hl (s := s) (i := i) (n := n) (c := d) h0 hd hp
  generalize pick H s i n = c at *
  obtain ⟨hic, hcn, hpc⟩ := hb
  have hsw : ∀ k, ent (H.swap s i c) k = if k = i then ent s c else if k = c then ent s i else ent s k :=
    fun k => hl.ent_swap s i c k (by omega) (by omega)
  refine ⟨⟨?_, ?_⟩, ?_⟩
  · intro d h0 hd hdc hpd
    rw [hsw d, hsw ((d - 1) / 2), if_neg hdc, if_neg hpd]
    by_cases hdi : d = i
    · subst hdi
      rw [if_pos rfl, if_neg (by omega)]
      exact h.grand h0 c (by omega) hcn hpc
    rw [if_neg hdi]
    by_cases hpi : (d - 1) / 2 = i
    · rw [if_pos hpi]; exact hfirst d h0 hd hpi
    · rw [if_neg hpi]; exact h.rest d h0 hd hdi hpi
  · intro _ d h0 hd hpd
    rw [hsw d, hsw ((c - 1) / 2), if_neg (by omega), if_neg (by omega), if_pos hpc]
    have := h.rest d h0 hd (by omega) (by omega)
    rwa [hpd] at this
  · rw [hsw c, hsw ((c - 1) / 2), if_neg (by omega), if_pos rfl, if_pos hpc]
    exact hw.asymm hlt

/-- `down` from a hole that is at or after its parent. -/
theorem downN_ordered {n : Nat} (k : Nat) : ∀ {s : σ} {i : Nat}, n - i = k → n ≤ len s → HoleOrder lt (ent s) i n →
    (0 < i → lt (ent s i) (ent s ((i - 1) / 2)) = false) → Ordered lt (ent (downN H (n - i) s i n).1) n := by
  induction k using Nat.strongRecOn with
  | ind k ih =>
    intro s i hk hn h habove
    -- the loop stops here: no child inside the bound is before position `i`
    have stop : (∀ c, 0 < c → c < n → (c - 1) / 2 = i → lt (ent s c) (ent s i) = false) → Ordered lt (ent s) n := by
      intro hch c h0 hc
      by_cases hci : c = i
      · subst hci; exact habove h0
      by_cases hp : (c - 1) / 2 = i
      · rw [hp]; exact hch c h0 hc hp
      · exact h.rest c h0 hc hci hp
    rw [down_step]
    split
    · exact stop fun c h0 hc hp => by omega
    · rename_i hb
      split
      · rename_i hless
        rw [hl.less] at hless
        exact stop fun c h0 hc hp => hw.negTrans (pick_first hw hl h0 hc hp) hless
      · rename_i hless
        rw [hl.less, Bool.not_eq_false] at hless
        have hpb := pick_bounds H (s := s) hb
        obtain ⟨h', ha⟩ := h.sink hw hl hn hb hless
        exact ih _ (by omega) rfl (by rw [hl.len_swap]; exact hn) h' fun _ => ha

omit hw hl in
theorem downN_mono {n : Nat} (k : Nat) : ∀ {s : σ} {i : Nat}, n - i = k → i ≤ (downN H (n - i) s i n).2 := by
  induction k using Nat.strongRecOn with
  | ind k ih =>
    intro s i hk
    rw [down_step]
    split
    · exact Nat.le_refl _
    · rename_i hb
      split
      · exact Nat.le_refl _
      · have hpb := pick_bounds H (s := s) hb
        have := ih (n - pick H s i n) (by omega) (s := H.swap s i (pick H s i n)) (i := pick H s i n) rfl
        omega

omit hw hl in
theorem fix_eq (s : σ) (i n : Nat) :
    fix H s i n = if i < (downN H (n - i) s i n).2 then (downN H (n - i) s i n).1
      else up H (downN H (n - i) s i n).1 i := by
  unfold fix down
  by_cases h : i < (downN H (n - i) s i n).2 <;> simp [h]

/-- `Fix` of one replaced entry. -/
theorem fix_ordered {s : σ} {i n : Nat} (hi : i < n) (hn : n ≤ len s) (h : HoleOrder lt (ent s) i n) :
    Ordered lt (ent (fix H s i n)) n := by
  -- the element stays: its children are in order, so only its parent is left to `up`
  have stay : (∀ c, 0 < c → c < n → (c - 1) / 2 = i → lt (ent s c) (ent s i) = false) →
      Ordered lt (ent (up H s i)) n := by
    intro hch
    refine up_ordered hw hl hi hn ⟨fun c h0 hc hci => ?_, h.grand⟩
    by_cases hp : (c - 1) / 2 = i
    · rw [hp]; exact hch c h0 hc hp
    · exact h.rest c h0 hc hci hp
  rw [fix_eq, down_step]
  split
  · rw [if_neg (Nat.lt_irrefl _)]
    exact stay fun c h0 hc hp => by omega
  · rename_i hb
    split
    · rename_i hless
      rw [hl.less] at hless
      rw [if_neg (Nat.lt_irrefl _)]
      exact stay fun c h0 hc hp => hw.negTrans (pick_first hw hl h0 hc hp) hless
    · rename_i hless
      rw [hl.less, Bool.not_eq_false] at hless
      have hpb := pick_bounds H (s := s) hb
      obtain ⟨h', ha⟩ := h.sink hw hl hn hb hless
      have hmono := downN_mono (H := H) (n := n) _ (s := H.swap s i (pick H s i n)) (i := pick H s i n) rfl
      rw [if_pos (by omega)]
      exact downN_ordered hw hl _ rfl (by rw [hl.len_swap]; exact hn) h' fun _ => ha

/-- `Pop` leaves the first `n` positions in order, the old root at position `n`. -/
theorem pop_ordered {s : σ} {n : Nat} (hn : n < len s) (h : Ordered lt (ent s) (n + 1)) :
    Ordered lt (ent (pop H s n)) n := by
  have hsw : ∀ k, k ≠ 0 → k < n → ent (H.swap s 0 n) k = ent s k := fun k h0 hk => by
    rw [hl.ent_swap s 0 n k (by omega) hn, if_neg h0, if_neg (by omega)]
  refine downN_ordered hw hl _ rfl (by rw [hl.len_swap]; omega) ⟨fun c h0 hc _ hp => ?_, fun h => by omega⟩
    fun h => by omega
  rw [hsw c (by omega) hc, hsw _ hp (by omega)]
  exact h c h0 (by omega)

/-- `Remove` leaves the first `n` positions in order. -/
theorem remove_ordered {s : σ} {i n : Nat} (hi : i ≤ n) (hn : n < len s) (h : Ordered lt (ent s) (n + 1)) :
    Ordered lt (ent (remove H s i n)) n := by
  unfold remove
  split
  · exact h.mono (by omega)
  · rename_i hni
    have hin : i < n := by omega
    refine fix_ordered hw hl hin (by rw [hl.len_swap]; omega) ?_
    have hh : HoleOrder lt (fun k => if k = i then ent s n else ent s k) i n :=
      Ordered.hole hw (h.mono (Nat.le_succ n)) fun k hk => if_neg hk
    have he : ∀ k < n, ent (H.swap s i n) k = if k = i then ent s n else ent s k := fun k hk => by
      rw [hl.ent_swap s i n k (by omega) hn]
      simp only [show k ≠ n by omega, if_false]
    refine ⟨fun c h0 hc hci hp => ?_, fun h0 c hc0 hc hp => ?_⟩
    · rw [he c hc, he _ (by omega)]; exact hh.rest c h0 hc hci hp
    · rw [he c hc, he _ (by omega)]; exact hh.grand h0 c hc0 hc hp

end Order

end Doq.Lib.Heap
