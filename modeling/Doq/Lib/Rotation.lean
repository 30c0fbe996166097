/-
  Doq.Lib.Rotation — the order in which a rotation visits a list.

  `turns l s` is the list from `s` on and around: each element once, `s` first. `after l c`
  is the element the rotation moves to from `c`.

  Proved, for lists without repetition: the turns from any later element are the same
  order, shifted (`turns_shift`), so after a visit to `c` the order is the old one with
  what came up to `c` moved to its end (`turns_after`); a removal elsewhere takes its
  element out of the order (`turns_erase`); and an element put at the end of the list
  comes after those from `s` on and before those behind `s` (`turns_concat`).

  `laps R l N` is what a rotation serves in `R` rounds over `l` when each element can be
  served `N` times: every round serves, in the order of `l`, the elements that have
  something left. Serving the first element and moving it to the end goes on with the same
  laps (`laps_cons`), and two elements with something left are never more than one apart
  (`laps_balanced`).
-/

import Mathlib.Data.List.TakeWhile
import Mathlib.Data.List.Nodup
import Mathlib.Logic.Function.Basic

namespace Doq.Lib.Rotation

variable {α : Type} [DecidableEq α] {l before later done todo : List α} {s c x : α}

def turns (l : List α) (s : α) : List α := l.dropWhile (· ≠ s) ++ l.takeWhile (· ≠ s)

def after (l : List α) (c : α) : Option α := (l.dropWhile (· ≠ c)).tail.head?.or l.head?

theorem dropWhile_ne (h : s ∉ before) : (before ++ s :: later).dropWhile (· ≠ s) = s :: later := by
  rw [List.dropWhile_append_of_pos fun x hx => by simpa using ne_of_mem_of_not_mem hx h, List.dropWhile_cons_of_neg (by simp)]

theorem takeWhile_ne (h : s ∉ before) : (before ++ s :: later).takeWhile (· ≠ s) = before := by
  rw [List.takeWhile_append_of_pos fun x hx => by simpa using ne_of_mem_of_not_mem hx h, List.takeWhile_cons_of_neg (by simp),
    List.append_nil]

theorem turns_eq (h : s ∉ before) : turns (before ++ s :: later) s = s :: later ++ before := by
  unfold turns
  rw [dropWhile_ne h, takeWhile_ne h]

theorem turns_perm (l : List α) (s : α) : (turns l s).Perm l := by
  unfold turns
  refine List.perm_append_comm.trans ?_
  rw [List.takeWhile_append_dropWhile]

theorem mem_turns : x ∈ turns l s ↔ x ∈ l := (turns_perm l s).mem_iff

theorem turns_nodup (h : l.Nodup) : (turns l s).Nodup := (turns_perm l s).nodup_iff.mpr h

theorem head_turns (h : s ∈ l) : (turns l s).head? = some s := by
  obtain ⟨before, later, rfl, hs⟩ := List.eq_append_cons_of_mem h
  rw [turns_eq hs]
  rfl

/-- The same order seen from a later element. -/
theorem turns_shift (hl : l.Nodup) (hs : s ∈ l) (h : turns l s = done ++ c :: todo) : turns l c = c :: todo ++ done := by
  obtain ⟨before, later, rfl, hnot⟩ := List.eq_append_cons_of_mem hs
  rw [turns_eq hnot] at h
  rcases List.append_eq_append_iff.mp h with ⟨mid, rfl, hb⟩ | ⟨mid, hd, ht⟩
  · -- the element lies before `s` in the list
    rw [hb] at hl ⊢
    rw [List.append_assoc, List.cons_append]
    rw [turns_eq fun hm => ?_]
    · simp
    · rw [List.append_assoc] at hl
      exact (List.nodup_append.mp hl).2.2 c hm c List.mem_cons_self rfl
  · cases mid with
    | nil =>
      simp only [List.append_nil, List.nil_append] at hd ht
      rw [← ht, hd]
      have he : turns ([] ++ c :: (todo ++ done)) c = c :: (todo ++ done) ++ [] := turns_eq List.not_mem_nil
      simpa using he
    | cons x mid =>
      obtain ⟨rfl, rfl⟩ : c = x ∧ todo = mid ++ before := by simpa using ht
      rw [hd] at hl ⊢
      rw [← List.append_assoc] at hl ⊢
      rw [turns_eq fun hm => (List.nodup_append.mp hl).2.2 c hm c List.mem_cons_self rfl]
      simp

theorem after_eq (hl : l.Nodup) (hs : s ∈ l) (h : turns l s = done ++ c :: todo) : after l c = (todo ++ done ++ [c]).head? := by
  have hc : c ∈ l := mem_turns.mp (h ▸ List.mem_append_right _ List.mem_cons_self)
  have hshift := turns_shift hl hs h
  obtain ⟨before, later, rfl, hnot⟩ := List.eq_append_cons_of_mem hc
  rw [turns_eq hnot] at hshift
  have hrest : later ++ before = todo ++ done := by simpa using hshift
  unfold after
  rw [dropWhile_ne hnot, List.tail_cons, ← hrest]
  cases later with
  | nil => cases before <;> simp
  | cons x later => rfl

/-- The order after a visit to `c`. -/
theorem turns_after (hl : l.Nodup) (hs : s ∈ l) (h : turns l s = done ++ c :: todo) (hx : after l c = some x) :
    turns l x = todo ++ done ++ [c] := by
  have hc : c ∈ l := mem_turns.mp (h ▸ List.mem_append_right _ List.mem_cons_self)
  have hshift := turns_shift hl hs h
  rw [after_eq hl hs h] at hx
  cases hr : todo ++ done with
  | nil =>
    rw [hr] at hx
    obtain rfl : c = x := by simpa using hx
    rw [hshift, List.cons_append, hr]
    rfl
  | cons y rest =>
    rw [hr] at hx
    obtain rfl : y = x := by simpa using hx
    rw [List.cons_append, hr] at hshift
    exact turns_shift hl hc (show turns l c = [c] ++ y :: rest from hshift)

theorem turns_erase (hl : l.Nodup) (hs : s ∈ l) (hne : x ≠ s) : turns (l.erase x) s = (turns l s).erase x := by
  obtain ⟨before, later, rfl, hnot⟩ := List.eq_append_cons_of_mem hs
  rw [turns_eq hnot]
  by_cases hb : x ∈ before
  · have hlater : x ∉ s :: later := fun hm => (List.nodup_append.mp hl).2.2 x hb x hm rfl
    rw [List.erase_append_left _ hb, List.erase_append_right _ hlater, turns_eq fun hm => hnot (List.mem_of_mem_erase hm)]
  · rw [List.erase_append_right _ hb, List.erase_cons_tail (by simpa using hne.symm), turns_eq hnot, List.cons_append,
      List.cons_append, List.erase_cons_tail (by simpa using hne.symm)]
    by_cases hlt : x ∈ later
    · rw [List.erase_append_left _ hlt]
    · rw [List.erase_append_right _ hlt, List.erase_of_not_mem hlt, List.erase_of_not_mem hb]

theorem turns_head (l : List α) : turns l (l.head?.getD x) = l := by
  cases l with
  | nil => rfl
  | cons y l =>
    have he : turns ([] ++ y :: l) y = y :: l ++ [] := turns_eq List.not_mem_nil
    simpa using he

/-- When the first of the order is removed, going on from the head of the list is going on in
    order only if it was at one of the list's ends. -/
theorem turns_erase_first (hl : l.Nodup) (hs : s ∈ l) :
    l.erase s = (turns l s).erase s ↔ l.head? = some s ∨ l.getLast? = some s := by
  obtain ⟨before, later, rfl, hnot⟩ := List.eq_append_cons_of_mem hs
  have hlater : s ∉ later := fun hm => (List.nodup_cons.mp (List.nodup_append.mp hl).2.1).1 hm
  rw [turns_eq hnot, List.erase_append_right _ hnot, List.erase_cons_head, List.cons_append, List.erase_cons_head]
  constructor
  · intro he
    cases before with
    | nil => exact Or.inl rfl
    | cons x before =>
      cases later with
      | nil => exact Or.inr List.getLast?_concat
      | cons y later =>
        obtain ⟨rfl, _⟩ : x = y ∧ _ := by simpa using he
        exact absurd rfl ((List.nodup_append.mp hl).2.2 x List.mem_cons_self x (by simp))
  · rintro (hh | hh)
    · cases before with
      | nil => rw [List.nil_append, List.append_nil]
      | cons x before => exact absurd (Option.some.inj hh) fun e => hnot (e ▸ List.mem_cons_self)
    · rcases List.eq_nil_or_concat later with rfl | ⟨later, y, rfl⟩
      · rw [List.append_nil, List.nil_append]
      · rw [List.concat_eq_append] at hh hlater
        rw [← List.cons_append, ← List.append_assoc, List.getLast?_concat] at hh
        exact absurd (Option.some.inj hh ▸ List.mem_append_right _ List.mem_cons_self) hlater

/-- A new element comes in before those behind `s`. -/
theorem turns_concat (hs : s ∈ l) : turns (l ++ [x]) s = l.dropWhile (· ≠ s) ++ x :: l.takeWhile (· ≠ s) := by
  obtain ⟨before, later, rfl, hnot⟩ := List.eq_append_cons_of_mem hs
  rw [dropWhile_ne hnot, takeWhile_ne hnot, List.append_assoc, List.cons_append, turns_eq hnot]
  simp

theorem turns_sublist_concat (hs : s ∈ l) : (turns l s).Sublist (turns (l ++ [x]) s) := by
  rw [turns_concat hs]
  exact List.Sublist.append (List.Sublist.refl _) (List.sublist_cons_self _ _)

omit [DecidableEq α] in
/-- A pair in order whose first element is not in the first part is in the second. -/
theorem pair_right {x y : α} {u v : List α} (h : [x, y].Sublist (u ++ v)) (hx : x ∉ u) : [x, y].Sublist v := by
  obtain ⟨a, b, he, ha, hb⟩ := List.sublist_append_iff.mp h
  cases a with
  | nil => rw [he]; exact hb
  | cons z a =>
    obtain ⟨rfl, _⟩ : x = z ∧ [y] = a ++ b := by simpa using he
    exact absurd (ha.subset List.mem_cons_self) hx

omit [DecidableEq α] in
/-- In a list without repetition, what comes before `y` came up before it. -/
theorem mem_of_pair {x y : α} (hl : (done ++ y :: todo).Nodup) (hne : x ≠ y)
    (h : [x, y].Sublist (done ++ y :: todo)) : x ∈ done := by
  by_contra hx
  rw [List.append_cons] at h hl
  have hlater := pair_right h (by simp [hx, hne])
  exact (List.nodup_append.mp hl).2.2 y (by simp) y (hlater.subset (by simp)) rfl

/-! ## Laps -/

def laps (R : Nat) (l : List α) (N : α → Nat) : List α := (List.range R).flatMap fun lap => l.filter fun c => lap < N c

/-- Once served. -/
def spend (N : α → Nat) (c : α) : α → Nat := Function.update N c (N c - 1)

variable {N N' : α → Nat} {R : Nat}

omit [DecidableEq α] in
theorem laps_nil (R : Nat) (N : α → Nat) : laps R [] N = [] := by simp [laps]

omit [DecidableEq α] in
/-- An element that cannot be served has no place in any round. -/
theorem laps_concat_zero (h : N c = 0) : laps R (l ++ [c]) N = laps R l N := by
  have hnone : ∀ lap, [c].filter (fun x => decide (lap < N x)) = [] := fun lap => by simp [h]
  unfold laps
  congr 1
  funext lap
  rw [List.filter_append, hnone, List.append_nil]

theorem spend_self : spend N c c = N c - 1 := Function.update_self c _ N

theorem spend_other (h : x ≠ c) : spend N c x = N x := Function.update_of_ne h _ N

theorem laps_cons (hc : c ∉ l) (hpos : 0 < N c) (hle : N c ≤ R) : laps R (c :: l) N = c :: laps R (l ++ [c]) (spend N c) := by
  have hrest : ∀ lap, l.filter (fun x => lap < spend N c x) = l.filter fun x => lap < N x := fun lap =>
    List.filter_congr fun x hx => by rw [spend_other (ne_of_mem_of_not_mem hx hc)]
  -- the element's place moves from the head of a round to the end of the one before
  have hshift : ∀ R, laps R (c :: l) N ++ [c].filter (fun x => R < N x) = c :: laps R (l ++ [c]) (spend N c) := by
    intro R
    induction R with
    | zero => simp [laps, hpos]
    | succ R ih =>
      have hfirst : (c :: l).filter (fun x => R < N x) = [c].filter (fun x => R < N x) ++ l.filter fun x => R < N x :=
        List.filter_append [c] l
      have hlast : [c].filter (fun x => decide (R < spend N c x)) = [c].filter fun x => R + 1 < N x := by
        simp only [List.filter_singleton, spend_self, Nat.lt_sub_iff_add_lt]
      have hround : laps (R + 1) (l ++ [c]) (spend N c) =
          laps R (l ++ [c]) (spend N c) ++ (l.filter (fun x => R < N x) ++ [c].filter fun x => R + 1 < N x) := by
        unfold laps
        rw [List.range_succ, List.flatMap_append, List.flatMap_singleton, List.filter_append, hrest, hlast]
      have hround' : laps (R + 1) (c :: l) N =
          laps R (c :: l) N ++ ([c].filter (fun x => R < N x) ++ l.filter fun x => R < N x) := by
        unfold laps
        rw [List.range_succ, List.flatMap_append, List.flatMap_singleton, hfirst]
      rw [hround, hround', ← List.append_assoc (laps R (c :: l) N), ih]
      simp
  have := hshift R
  rwa [List.filter_eq_nil_iff.mpr (by simpa using hle), List.append_nil] at this

/-- The order after `c`, at its head, was served: `c` goes to the end, or out with its last. -/
def pass (c : α) (l : List α) (N : α → Nat) : List α := if N c = 1 then l else l ++ [c]

/-- Every element of the list, each there once, can be served, and at most `R` times. -/
structure Stocked (R : Nat) (l : List α) (N : α → Nat) : Prop where
  nodup : l.Nodup
  pos : ∀ c ∈ l, 0 < N c
  le : ∀ c ∈ l, N c ≤ R

omit [DecidableEq α] in
theorem sublist_pass : l.Sublist (pass c l N) := by
  unfold pass
  split
  · exact List.Sublist.refl l
  · exact List.sublist_append_left l [c]

theorem Stocked.pass (h : Stocked R (c :: l) N) : Stocked R (pass c l N) (spend N c) := by
  obtain ⟨hc, hl⟩ := List.nodup_cons.mp h.nodup
  have hpos := h.pos c List.mem_cons_self
  have hle := h.le c List.mem_cons_self
  have hother : ∀ x ∈ l, spend N c x = N x := fun x hx => spend_other (ne_of_mem_of_not_mem hx hc)
  have hall : ∀ x ∈ Rotation.pass c l N, 0 < spend N c x ∧ spend N c x ≤ R := by
    intro x hx
    by_cases hxl : x ∈ l
    · rw [hother x hxl]
      exact ⟨h.pos x (List.mem_cons_of_mem _ hxl), h.le x (List.mem_cons_of_mem _ hxl)⟩
    · unfold Rotation.pass at hx
      split at hx
      · exact absurd hx hxl
      · rename_i hmore
        rw [(List.mem_append.mp hx).resolve_left hxl |> List.mem_singleton.mp, spend_self]
        omega
  refine ⟨?_, fun x hx => (hall x hx).1, fun x hx => (hall x hx).2⟩
  unfold Rotation.pass
  split
  · exact hl
  · exact List.nodup_append.mpr ⟨hl, List.nodup_singleton c, fun a ha b hb => by
      rw [List.mem_singleton.mp hb]; exact ne_of_mem_of_not_mem ha hc⟩

theorem Stocked.laps_eq (h : Stocked R (c :: l) N) : laps R (c :: l) N = c :: laps R (Rotation.pass c l N) (spend N c) := by
  rw [laps_cons (List.nodup_cons.mp h.nodup).1 (h.pos c List.mem_cons_self) (h.le c List.mem_cons_self)]
  unfold Rotation.pass
  split
  · rename_i hone
    rw [laps_concat_zero (by rw [spend_self, hone])]
  · rfl

/-- Of two elements that both have something left before the last one served here, the first in
    the order is served as often as the other, or once more. -/
theorem laps_balanced (A : List α) {e : α} {B : List α} : ∀ {l : List α} {N : α → Nat} {x y : α}, Stocked R l N → x ≠ y →
    [x, y].Sublist l → laps R l N = A ++ e :: B → A.count x < N x → A.count y < N y →
    (A ++ [e]).count y ≤ (A ++ [e]).count x ∧ (A ++ [e]).count x ≤ (A ++ [e]).count y + 1 := by
  induction A with
  | nil =>
    intro l N x y h hxy hsub hl _ _
    cases l with
    | nil => cases hsub
    | cons z l =>
      rw [h.laps_eq] at hl
      obtain ⟨rfl, _⟩ := List.cons.inj hl
      have hy : z ≠ y := fun e => by
        subst e
        exact List.not_mem_nil (mem_of_pair (show ([] ++ z :: l).Nodup from h.nodup) hxy hsub)
      simp only [List.nil_append, List.count_singleton, beq_iff_eq, if_neg hy]
      split <;> omega
  | cons a A ih =>
    intro l N x y h hxy hsub hl hx hy
    cases l with
    | nil => cases hsub
    | cons z l =>
      rw [h.laps_eq] at hl
      obtain ⟨rfl, hnext⟩ := List.cons.inj hl
      have hzy : z ≠ y := fun e => by
        subst e
        exact List.not_mem_nil (mem_of_pair (show ([] ++ z :: l).Nodup from h.nodup) hxy hsub)
      rw [List.count_cons_of_ne hzy] at hy
      rw [List.cons_append, List.count_cons_of_ne hzy]
      by_cases hzx : z = x
      · -- served, it goes behind the other one
        subst hzx
        rw [List.count_cons_self] at hx ⊢
        have hyl : y ∈ l := (List.mem_cons.mp (hsub.subset (by simp))).resolve_left hxy.symm
        have hpass : pass z l N = l ++ [z] := if_neg (by omega)
        have hback : [y, z].Sublist (pass z l N) := by
          rw [hpass]
          exact List.Sublist.append (List.singleton_sublist.mpr hyl) (List.Sublist.refl [z])
        have := ih h.pass hxy.symm hback hnext (by rw [spend_other hxy.symm]; exact hy) (by rw [spend_self]; omega)
        omega
      · rw [List.count_cons_of_ne hzx] at hx ⊢
        have hrest : [x, y].Sublist l := pair_right (u := [z]) hsub (by simpa using fun e : x = z => hzx e.symm)
        exact ih h.pass hxy (hrest.trans sublist_pass) hnext (by rw [spend_other fun e => hzx e.symm]; exact hx)
          (by rw [spend_other hzy.symm]; exact hy)

/-- The same for any first part of the laps. -/
theorem laps_lead {A B : List α} {x y : α} (h : Stocked R l N) (hxy : x ≠ y) (hsub : [x, y].Sublist l) (hl : laps R l N = A ++ B)
    (hx : A.dropLast.count x < N x) (hy : A.dropLast.count y < N y) : A.count y ≤ A.count x ∧ A.count x ≤ A.count y + 1 := by
  cases hA : A.reverse with
  | nil => rw [List.reverse_eq_nil_iff.mp hA]; simp
  | cons e A' =>
    obtain rfl : A = A'.reverse ++ [e] := by rw [← List.reverse_reverse A, hA, List.reverse_cons]
    rw [List.dropLast_concat] at hx hy
    exact laps_balanced A'.reverse h hxy hsub (by rw [hl, List.append_assoc]; rfl) hx hy

omit [DecidableEq α] in
theorem pair_of_mem {x y : α} (hx : x ∈ l) (hy : y ∈ l) (hxy : x ≠ y) : [x, y].Sublist l ∨ [y, x].Sublist l := by
  obtain ⟨u, v, rfl⟩ := List.append_of_mem hx
  rcases List.mem_append.mp hy with hu | hv
  · exact Or.inr (List.Sublist.append (List.singleton_sublist.mpr hu) (List.singleton_sublist.mpr List.mem_cons_self))
  · have hv := (List.mem_cons.mp hv).resolve_left hxy.symm
    refine Or.inl ((List.Sublist.cons_cons x (List.singleton_sublist.mpr hv)).trans (List.sublist_append_right _ _))

end Doq.Lib.Rotation
