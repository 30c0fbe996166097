/-
  Doq.WeightedAvlProofs — the weighted AVL tree keeps its shape, its order and its cached
  sums (see `Doq.WeightedAvl`).

  Proved:
  - `insert_spec`, `delete_spec`: on a valid tree neither panics, and the result is valid
    and holds what the operation says.
  - `sample_eq`: a sample walks the tree's entries in key order, so it is decided by the
    entries and not by the shape.
  - `toList_ext`: two valid trees that answer alike have the same entries in the same order.
  - `sample_hits`: every key with a weight is sampled by some seed.
-/

import Doq.WeightedAvl
import Mathlib.Order.Lattice
import Mathlib.Order.Defs.LinearOrder
import Mathlib.Data.List.Sort
import Mathlib.Algebra.Order.BigOperators.Group.List

namespace Doq.WeightedAvl

open Lib

namespace Node

variable {κ ω : Type}

/-- The entries, in key order. -/
def toList : Node κ ω → List (κ × ω)
  | nil => []
  | node k w _ _ l r => l.toList ++ (k, w) :: r.toList

@[simp] theorem height_nil : (nil : Node κ ω).height = 0 := rfl
@[simp] theorem sum_nil [Add ω] [Zero ω] : (nil : Node κ ω).sum = 0 := rfl
@[simp] theorem toList_nil : (nil : Node κ ω).toList = [] := rfl
@[simp] theorem height_node (k : κ) (w s : ω) (h : Int) (l r : Node κ ω) : (node k w s h l r).height = h := rfl
@[simp] theorem sum_node [Add ω] [Zero ω] (k : κ) (w s : ω) (h : Int) (l r : Node κ ω) : (node k w s h l r).sum = s := rfl
@[simp] theorem toList_node (k : κ) (w s : ω) (h : Int) (l r : Node κ ω) :
    (node k w s h l r).toList = l.toList ++ (k, w) :: r.toList := rfl

@[simp] theorem toList_update [Add ω] [Zero ω] (k : κ) (w : ω) (l r : Node κ ω) :
    (update k w l r).toList = l.toList ++ (k, w) :: r.toList := rfl

@[simp] theorem height_update [Add ω] [Zero ω] (k : κ) (w : ω) (l r : Node κ ω) :
    (update k w l r).height = 1 + max l.height r.height := rfl

theorem node_of_pos {n : Node κ ω} (hpos : 0 < n.height) : ∃ k w s h l r, n = node k w s h l r := by
  cases n with
  | nil => simp [height] at hpos
  | node k w s h l r => exact ⟨k, w, s, h, l, r, rfl⟩

variable [LinearOrder κ] [AddCommMonoid ω]

/-- A search tree, balanced, with true caches. -/
inductive Valid : Node κ ω → Prop
  | nil : Valid nil
  | node {k : κ} {w s : ω} {h : Int} {l r : Node κ ω} (left : Valid l) (right : Valid r)
    (before : ∀ e ∈ l.toList, e.1 < k) (after : ∀ e ∈ r.toList, k < e.1)
    (sum : s = w + l.sum + r.sum) (height : h = 1 + max l.height r.height)
    (low : l.height ≤ r.height + 1) (high : r.height ≤ l.height + 1) : Valid (node k w s h l r)

theorem Valid.update {k : κ} {w : ω} {l r : Node κ ω} (hl : Valid l) (hr : Valid r)
    (before : ∀ e ∈ l.toList, e.1 < k) (after : ∀ e ∈ r.toList, k < e.1)
    (low : l.height ≤ r.height + 1) (high : r.height ≤ l.height + 1) : Valid (update k w l r) :=
  .node hl hr before after rfl rfl low high

theorem Valid.height_nonneg {n : Node κ ω} (h : Valid n) : 0 ≤ n.height := by
  induction h with
  | nil => exact Int.le_refl _
  | node _ _ _ _ _ hh _ _ ihl ihr => simp only [height_node, hh]; omega

theorem Valid.sum_eq {n : Node κ ω} (h : Valid n) : n.sum = (n.toList.map (·.2)).sum := by
  induction h with
  | nil => rfl
  | node _ _ _ _ hs _ _ _ ihl ihr =>
    simp only [sum_node, toList_node, List.map_append, List.map_cons, List.sum_append, List.sum_cons, hs, ihl, ihr]
    rw [add_assoc]
    exact add_left_comm _ _ _

/-! ## Rotations -/

section Rotations

variable {k lk rk mk : κ} {w lw rw mw ls rs ms : ω} {lh rh mh : Int} {a b c l r : Node κ ω}

theorem valid_rotateRight (hl : Valid (node lk lw ls lh a b)) (hr : Valid r)
    (before : ∀ e ∈ (node lk lw ls lh a b).toList, e.1 < k) (after : ∀ e ∈ r.toList, k < e.1)
    (h2 : lh = r.height + 2) (hab : b.height ≤ a.height) : Valid (update lk lw a (update k w b r)) := by
  cases hl with
  | node ha hb hla hlb _ hh low high =>
    have hk : lk < k := before (lk, lw) (by simp [toList])
    refine .update ha (.update hb hr (fun e he => before e (by simp [toList, he])) after ?_ ?_) hla ?_ ?_ ?_
    · omega
    · omega
    · intro e he
      simp only [toList_update, List.mem_append, List.mem_cons] at he
      rcases he with he | rfl | he
      · exact hlb e he
      · exact hk
      · exact lt_trans hk (after e he)
    · simp only [height_update]; omega
    · simp only [height_update]; omega

theorem valid_rotateLeft (hr : Valid (node rk rw rs rh b c)) (hl : Valid l)
    (before : ∀ e ∈ l.toList, e.1 < k) (after : ∀ e ∈ (node rk rw rs rh b c).toList, k < e.1)
    (h2 : rh = l.height + 2) (hbc : b.height ≤ c.height) : Valid (update rk rw (update k w l b) c) := by
  cases hr with
  | node hb hc hlb hlc _ hh low high =>
    have hk : k < rk := after (rk, rw) (by simp [toList])
    refine .update (.update hl hb before (fun e he => after e (by simp [toList, he])) ?_ ?_) hc ?_ hlc ?_ ?_
    · omega
    · omega
    · intro e he
      simp only [toList_update, List.mem_append, List.mem_cons] at he
      rcases he with he | rfl | he
      · exact lt_trans (before e he) hk
      · exact hk
      · exact hlb e he
    · simp only [height_update]; omega
    · simp only [height_update]; omega

theorem valid_rotateLeftRight (hl : Valid (node lk lw ls lh a (node mk mw ms mh b c))) (hr : Valid r)
    (before : ∀ e ∈ (node lk lw ls lh a (node mk mw ms mh b c)).toList, e.1 < k) (after : ∀ e ∈ r.toList, k < e.1)
    (h2 : lh = r.height + 2) (ham : mh = a.height + 1) :
    Valid (update mk mw (update lk lw a b) (update k w c r)) := by
  cases hl with
  | node ha hm hla hlm _ hh low high =>
    cases hm with
    | node hb hc hbm hcm _ hmh _ _ =>
      simp only [height_node] at hh low high
      have hmk : mk < k := before (mk, mw) (by simp [toList])
      have hlm' : lk < mk := hlm (mk, mw) (by simp [toList])
      refine .update (.update ha hb hla (fun e he => hlm e (by simp [toList, he])) ?_ ?_)
        (.update hc hr (fun e he => before e (by simp [toList, he])) after ?_ ?_) ?_ ?_ ?_ ?_
      any_goals simp only [height_update]
      any_goals omega
      · intro e he
        simp only [toList_update, List.mem_append, List.mem_cons] at he
        rcases he with he | rfl | he
        · exact lt_trans (hla e he) hlm'
        · exact hlm'
        · exact hbm e he
      · intro e he
        simp only [toList_update, List.mem_append, List.mem_cons] at he
        rcases he with he | rfl | he
        · exact hcm e he
        · exact hmk
        · exact lt_trans hmk (after e he)

theorem valid_rotateRightLeft (hr : Valid (node rk rw rs rh (node mk mw ms mh b c) a)) (hl : Valid l)
    (before : ∀ e ∈ l.toList, e.1 < k) (after : ∀ e ∈ (node rk rw rs rh (node mk mw ms mh b c) a).toList, k < e.1)
    (h2 : rh = l.height + 2) (ham : mh = a.height + 1) :
    Valid (update mk mw (update k w l b) (update rk rw c a)) := by
  cases hr with
  | node hm ha hrm hra _ hh low high =>
    cases hm with
    | node hb hc hbm hcm _ hmh _ _ =>
      simp only [height_node] at hh low high
      have hmk : k < mk := after (mk, mw) (by simp [toList])
      have hmr : mk < rk := hrm (mk, mw) (by simp [toList])
      refine .update (.update hl hb before (fun e he => after e (by simp [toList, he])) ?_ ?_)
        (.update hc ha (fun e he => hrm e (by simp [toList, he])) hra ?_ ?_) ?_ ?_ ?_ ?_
      any_goals simp only [height_update]
      any_goals omega
      · intro e he
        simp only [toList_update, List.mem_append, List.mem_cons] at he
        rcases he with he | rfl | he
        · exact lt_trans (before e he) hmk
        · exact hmk
        · exact hbm e he
      · intro e he
        simp only [toList_update, List.mem_append, List.mem_cons] at he
        rcases he with he | rfl | he
        · exact hcm e he
        · exact hmr
        · exact lt_trans hmr (hra e he)

end Rotations

/-! ## Insertion -/

section Insert

variable {key k : κ} {w : ω} {l r : Node κ ω}

/-- What a node two levels too deep on one side owes to the insertion: the deep child leans
    towards the new key. -/
def Leans (key : κ) (n : Node κ ω) : Prop :=
  ∃ k w s h l r, n = node k w s h l r ∧
    (key < k ∧ l.height = r.height + 1 ∨ k < key ∧ r.height = l.height + 1)

theorem rebalanceInsert_left (hl : Valid l) (hr : Valid r) (before : ∀ e ∈ l.toList, e.1 < k)
    (after : ∀ e ∈ r.toList, k < e.1) (low : l.height ≤ r.height + 2) (high : r.height ≤ l.height + 1)
    (lean : l.height = r.height + 2 → Leans key l) :
    Returns (rebalanceInsert key (update k w l r)) fun n =>
      Valid n ∧ n.toList = l.toList ++ (k, w) :: r.toList ∧
        (l.height = r.height + 2 → n.height = r.height + 2) ∧ (l.height ≤ r.height + 1 → n = update k w l r) := by
  unfold rebalanceInsert update
  simp only
  by_cases hb : 1 < l.height - r.height
  · have h2 : l.height = r.height + 2 := by omega
    obtain ⟨lk, lw, ls, lh, a, b, rfl, hside⟩ := lean h2
    simp only [height_node] at h2
    rw [if_pos hb]
    simp only
    rcases hside with ⟨hk, hab⟩ | ⟨hk, hab⟩
    · rw [if_pos hk]
      refine .intro ⟨valid_rotateRight hl hr before after h2 (by omega), by simp, fun _ => ?_, fun h => ?_⟩
      · cases hl; simp only [height_update]; omega
      · simp only [height_node] at h; omega
    · rw [if_neg (not_lt_of_gt hk), if_pos hk]
      have hpos : 0 < b.height := by cases hl with | node ha => have := ha.height_nonneg; omega
      obtain ⟨mk, mw, ms, mh, c, d, rfl⟩ := node_of_pos hpos
      refine .of_eq rfl ⟨valid_rotateLeftRight hl hr before after h2 (by simpa using hab), by simp, fun _ => ?_, fun h => ?_⟩
      · cases hl with | node _ hm => cases hm; simp only [height_update, height_node] at *; omega
      · simp only [height_node] at h; omega
  · rw [if_neg hb, if_neg (by omega)]
    exact .intro ⟨.update hl hr before after (by omega) high, rfl, fun h => by omega, fun _ => rfl⟩

theorem rebalanceInsert_right (hl : Valid l) (hr : Valid r) (before : ∀ e ∈ l.toList, e.1 < k)
    (after : ∀ e ∈ r.toList, k < e.1) (low : l.height ≤ r.height + 1) (high : r.height ≤ l.height + 2)
    (lean : r.height = l.height + 2 → Leans key r) :
    Returns (rebalanceInsert key (update k w l r)) fun n =>
      Valid n ∧ n.toList = l.toList ++ (k, w) :: r.toList ∧
        (r.height = l.height + 2 → n.height = l.height + 2) ∧ (r.height ≤ l.height + 1 → n = update k w l r) := by
  unfold rebalanceInsert update
  simp only
  rw [if_neg (by omega)]
  by_cases hb : l.height - r.height < -1
  · have h2 : r.height = l.height + 2 := by omega
    obtain ⟨rk, rw', rs, rh, b, c, rfl, hside⟩ := lean h2
    simp only [height_node] at h2
    rw [if_pos hb]
    simp only
    rcases hside with ⟨hk, hbc⟩ | ⟨hk, hbc⟩
    · rw [if_neg (not_lt_of_gt hk), if_pos hk]
      have hpos : 0 < b.height := by cases hr with | node _ hc => have := hc.height_nonneg; omega
      obtain ⟨mk, mw, ms, mh, c', d, rfl⟩ := node_of_pos hpos
      refine .of_eq rfl ⟨valid_rotateRightLeft hr hl before after h2 (by simpa using hbc), by simp, fun _ => ?_, fun h => ?_⟩
      · cases hr with | node hm => cases hm; simp only [height_update, height_node] at *; omega
      · simp only [height_node] at h; omega
    · rw [if_pos hk]
      refine .intro ⟨valid_rotateLeft hr hl before after h2 (by omega), by simp, fun _ => ?_, fun h => ?_⟩
      · cases hr; simp only [height_update]; omega
      · simp only [height_node] at h; omega
  · rw [if_neg hb]
    exact .intro ⟨.update hl hr before after low (by omega), rfl, fun h => by omega, fun _ => rfl⟩

end Insert

/-- The entries after an insertion. -/
def Upserted (key : κ) (w : ω) (n n' : Node κ ω) : Prop :=
  ∀ e, e ∈ n'.toList ↔ e = (key, w) ∨ e ∈ n.toList ∧ e.1 ≠ key

omit [AddCommMonoid ω] in
theorem Upserted.left {key k : κ} {w v : ω} {l l' r : Node κ ω} (h : Upserted key w l l') (hlt : key < k)
    (after : ∀ e ∈ r.toList, k < e.1) (e : κ × ω) :
    e ∈ l'.toList ++ (k, v) :: r.toList ↔ e = (key, w) ∨ e ∈ l.toList ++ (k, v) :: r.toList ∧ e.1 ≠ key := by
  have hk : e = (k, v) → e.1 ≠ key := by rintro rfl; exact ne_of_gt hlt
  have hr : e ∈ r.toList → e.1 ≠ key := fun he => ne_of_gt (lt_trans hlt (after e he))
  simp only [List.mem_append, List.mem_cons, h e]
  grind

omit [AddCommMonoid ω] in
theorem Upserted.right {key k : κ} {w v : ω} {l r r' : Node κ ω} (h : Upserted key w r r') (hlt : k < key)
    (before : ∀ e ∈ l.toList, e.1 < k) (e : κ × ω) :
    e ∈ l.toList ++ (k, v) :: r'.toList ↔ e = (key, w) ∨ e ∈ l.toList ++ (k, v) :: r.toList ∧ e.1 ≠ key := by
  have hk : e = (k, v) → e.1 ≠ key := by rintro rfl; exact ne_of_lt hlt
  have hl : e ∈ l.toList → e.1 ≠ key := fun he => ne_of_lt (lt_trans (before e he) hlt)
  simp only [List.mem_append, List.mem_cons, h e]
  grind

structure Inserted (key : κ) (w : ω) (n n' : Node κ ω) : Prop where
  valid : Valid n'
  mem : Upserted key w n n'
  low : n.height ≤ n'.height
  high : n'.height ≤ n.height + 1
  lean : n'.height = n.height + 1 → n = nil ∨ Leans key n'

/-- A tree that grew was not rotated, and leans towards the new key: the induction carries
    this so that the rotation above it finds the child it lifts. -/
theorem insert_spec {n : Node κ ω} (h : Valid n) (key : κ) (w : ω) : Returns (n.insert key w) (Inserted key w n) := by
  induction h with
  | nil =>
    refine .intro ⟨.node .nil .nil (by simp) (by simp) (by simp) (by simp) (by simp) (by simp), ?_, ?_, ?_, fun _ => Or.inl rfl⟩
    all_goals simp [Upserted]
  | @node k v s h l r hl hr before after _ hh low high ihl ihr =>
    subst hh
    unfold insert
    have hl0 := hl.height_nonneg
    have hr0 := hr.height_nonneg
    by_cases hlt : key < k
    · rw [if_pos hlt]
      refine ihl.bind fun l' il => ?_
      have before' : ∀ e ∈ l'.toList, e.1 < k := fun e he => by
        rcases (il.mem e).mp he with rfl | ⟨he, _⟩
        · exact hlt
        · exact before e he
      have hlow := il.low
      have hhigh := il.high
      refine (rebalanceInsert_left il.valid hr before' after (by omega) (by omega) fun h2 => ?_).mono
        fun n' ⟨hv, hlist, hrot, hsame⟩ => ?_
      · rcases il.lean (by omega) with rfl | hlean
        · simp only [height_nil] at hhigh; omega
        · exact hlean
      have hmem : Upserted key w (node k v s (1 + max l.height r.height) l r) n' := fun e => by
        rw [hlist]; exact il.mem.left hlt after e
      by_cases h2 : l'.height = r.height + 2
      · have := hrot h2
        exact ⟨hv, hmem, by simp only [height_node]; omega, by simp only [height_node]; omega,
          fun h => by simp only [height_node] at h; omega⟩
      · have := hsame (by omega)
        subst this
        refine ⟨hv, hmem, by simp only [height_node, height_update]; omega,
          by simp only [height_node, height_update]; omega, fun h => Or.inr ⟨_, _, _, _, _, _, rfl, Or.inl ⟨hlt, ?_⟩⟩⟩
        simp only [height_node, height_update] at h
        omega
    rw [if_neg hlt]
    by_cases hgt : k < key
    · rw [if_pos hgt]
      refine ihr.bind fun r' ir => ?_
      have after' : ∀ e ∈ r'.toList, k < e.1 := fun e he => by
        rcases (ir.mem e).mp he with rfl | ⟨he, _⟩
        · exact hgt
        · exact after e he
      have hlow := ir.low
      have hhigh := ir.high
      refine (rebalanceInsert_right hl ir.valid before after' (by omega) (by omega) fun h2 => ?_).mono
        fun n' ⟨hv, hlist, hrot, hsame⟩ => ?_
      · rcases ir.lean (by omega) with rfl | hlean
        · simp only [height_nil] at hhigh; omega
        · exact hlean
      have hmem : Upserted key w (node k v s (1 + max l.height r.height) l r) n' := fun e => by
        rw [hlist]; exact ir.mem.right hgt before e
      by_cases h2 : r'.height = l.height + 2
      · have := hrot h2
        exact ⟨hv, hmem, by simp only [height_node]; omega, by simp only [height_node]; omega,
          fun h => by simp only [height_node] at h; omega⟩
      · have := hsame (by omega)
        subst this
        refine ⟨hv, hmem, by simp only [height_node, height_update]; omega,
          by simp only [height_node, height_update]; omega, fun h => Or.inr ⟨_, _, _, _, _, _, rfl, Or.inr ⟨hgt, ?_⟩⟩⟩
        simp only [height_node, height_update] at h
        omega
    rw [if_neg hgt]
    have hk : key = k := le_antisymm (not_lt.mp hgt) (not_lt.mp hlt)
    subst hk
    refine .intro ⟨.update hl hr before after low high, fun e => ?_, ?_, ?_, fun h => ?_⟩
    · have hbl : e ∈ l.toList → e.1 ≠ key := fun he => ne_of_lt (before e he)
      have har : e ∈ r.toList → e.1 ≠ key := fun he => ne_of_gt (after e he)
      have hv : e = (key, v) → e.1 = key := by rintro rfl; rfl
      simp only [toList_update, toList_node, List.mem_append, List.mem_cons]
      grind
    all_goals simp only [height_update, height_node] at *
    all_goals omega

/-! ## Deletion -/

theorem rebalanceDelete_spec {k : κ} {w : ω} {l r : Node κ ω} (hl : Valid l) (hr : Valid r)
    (before : ∀ e ∈ l.toList, e.1 < k) (after : ∀ e ∈ r.toList, k < e.1) (low : l.height ≤ r.height + 2)
    (high : r.height ≤ l.height + 2) :
    Returns (rebalanceDelete (update k w l r)) fun n =>
      Valid n ∧ n.toList = l.toList ++ (k, w) :: r.toList ∧ max l.height r.height ≤ n.height ∧
        n.height ≤ 1 + max l.height r.height ∧
        (l.height ≤ r.height + 1 → r.height ≤ l.height + 1 → n.height = 1 + max l.height r.height) := by
  have hl0 := hl.height_nonneg
  have hr0 := hr.height_nonneg
  unfold rebalanceDelete update
  simp only
  by_cases hb : 1 < l.height - r.height
  · rw [if_pos hb]
    obtain ⟨lk, lw, ls, lh, a, b, rfl⟩ := node_of_pos (show 0 < l.height by omega)
    simp only [height_node] at *
    have hv := hl
    cases hl with
    | node ha hb' _ _ _ hh low' high' =>
      have ha0 := ha.height_nonneg
      have hbal : (node lk lw ls lh a b).getBalance = a.height - b.height := rfl
      by_cases hab : 0 ≤ (node lk lw ls lh a b).getBalance
      · rw [if_pos hab]
        refine .intro ⟨valid_rotateRight hv hr before after (by omega) (by omega), by simp, ?_⟩
        simp only [height_update]
        exact ⟨by omega, by omega, fun _ _ => by omega⟩
      · rw [if_neg hab]
        obtain ⟨mk, mw, ms, mh, c, d, rfl⟩ := node_of_pos (show 0 < b.height by omega)
        simp only [height_node] at *
        refine .of_eq rfl ⟨valid_rotateLeftRight hv hr before after (by omega) (by omega), by simp, ?_⟩
        cases hb' with
        | node =>
          simp only [height_update]
          exact ⟨by omega, by omega, fun _ _ => by omega⟩
  rw [if_neg hb]
  by_cases hb2 : l.height - r.height < -1
  · rw [if_pos hb2]
    obtain ⟨rk, rw', rs, rh, b, c, rfl⟩ := node_of_pos (show 0 < r.height by omega)
    simp only [height_node] at *
    have hv := hr
    cases hr with
    | node hb' hc _ _ _ hh low' high' =>
      have hc0 := hc.height_nonneg
      have hbal : (node rk rw' rs rh b c).getBalance = b.height - c.height := rfl
      by_cases hbc : (node rk rw' rs rh b c).getBalance ≤ 0
      · rw [if_pos hbc]
        refine .intro ⟨valid_rotateLeft hv hl before after (by omega) (by omega), by simp, ?_⟩
        simp only [height_update]
        exact ⟨by omega, by omega, fun _ _ => by omega⟩
      · rw [if_neg hbc]
        obtain ⟨mk, mw, ms, mh, d, e, rfl⟩ := node_of_pos (show 0 < b.height by omega)
        simp only [height_node] at *
        refine .of_eq rfl ⟨valid_rotateRightLeft hv hl before after (by omega) (by omega), by simp, ?_⟩
        cases hb' with
        | node =>
          simp only [height_update]
          exact ⟨by omega, by omega, fun _ _ => by omega⟩
  · rw [if_neg hb2]
    refine .intro ⟨.update hl hr before after (by omega) (by omega), rfl, ?_⟩
    simp only [height_node]
    exact ⟨by omega, by omega, fun _ _ => trivial⟩

theorem minValueNode_spec {n : Node κ ω} (h : Valid n) (hn : n ≠ nil) :
    Returns (minValueNode n) fun t => t ∈ n.toList ∧ ∀ e ∈ n.toList, e = t ∨ t.1 < e.1 := by
  induction h with
  | nil => exact absurd rfl hn
  | @node k v s h l r hl hr before after _ _ _ _ ihl _ =>
    cases l with
    | nil =>
      refine .intro ⟨by simp, fun e he => ?_⟩
      simp only [toList_node, toList_nil, List.nil_append, List.mem_cons] at he
      rcases he with rfl | he
      · exact Or.inl rfl
      · exact Or.inr (after e he)
    | node lk lw ls lh a b =>
      refine (ihl (by simp)).mono fun t ⟨hm, ht⟩ => ⟨by rw [toList_node]; exact List.mem_append_left _ hm, fun e he => ?_⟩
      rw [toList_node, List.mem_append, List.mem_cons] at he
      rcases he with he | rfl | he
      · exact ht e he
      · exact Or.inr (before t hm)
      · exact Or.inr (lt_trans (before t hm) (after e he))

/-- The entries after a deletion. -/
def Removed (key : κ) (l l' : List (κ × ω)) : Prop := ∀ e, e ∈ l' ↔ e ∈ l ∧ e.1 ≠ key

section Removed

variable {key k : κ} {v : ω} {l l' r r' : List (κ × ω)}

omit [AddCommMonoid ω] in
theorem Removed.left (h : Removed key l l') (hlt : key < k) (after : ∀ e ∈ r, k < e.1) :
    Removed key (l ++ (k, v) :: r) (l' ++ (k, v) :: r) := fun e => by
  have hk : e = (k, v) → e.1 ≠ key := by rintro rfl; exact ne_of_gt hlt
  have hr : e ∈ r → e.1 ≠ key := fun he => ne_of_gt (lt_trans hlt (after e he))
  simp only [List.mem_append, List.mem_cons, h e]
  grind

omit [AddCommMonoid ω] in
theorem Removed.right (h : Removed key r r') (hlt : k < key) (before : ∀ e ∈ l, e.1 < k) :
    Removed key (l ++ (k, v) :: r) (l ++ (k, v) :: r') := fun e => by
  have hk : e = (k, v) → e.1 ≠ key := by rintro rfl; exact ne_of_lt hlt
  have hl : e ∈ l → e.1 ≠ key := fun he => ne_of_lt (lt_trans (before e he) hlt)
  simp only [List.mem_append, List.mem_cons, h e]
  grind

omit [AddCommMonoid ω] in
theorem Removed.root (before : ∀ e ∈ l, e.1 < k) (after : ∀ e ∈ r, k < e.1) :
    Removed k (l ++ (k, v) :: r) (l ++ r) := fun e => by
  have hk : e = (k, v) → e.1 = k := by rintro rfl; rfl
  have hl : e ∈ l → e.1 ≠ k := fun he => ne_of_lt (before e he)
  have hr : e ∈ r → e.1 ≠ k := fun he => ne_of_gt (after e he)
  simp only [List.mem_append, List.mem_cons]
  grind

omit [AddCommMonoid ω] in
/-- The first entry of the right part moved to the root's place. -/
theorem Removed.successor {t : κ × ω} (before : ∀ e ∈ l, e.1 < k) (after : ∀ e ∈ r, k < e.1) (ht : t ∈ r)
    (hmin : ∀ e ∈ r, e = t ∨ t.1 < e.1) (h : Removed t.1 r r') :
    Removed k (l ++ (k, v) :: r) (l ++ t :: r') := fun e => by
  have hsame : e ∈ r ↔ e = t ∨ e ∈ r' := by
    rw [h e]
    constructor
    · intro he
      rcases hmin e he with rfl | hlt
      · exact Or.inl rfl
      · exact Or.inr ⟨he, ne_of_gt hlt⟩
    · rintro (rfl | ⟨he, _⟩)
      · exact ht
      · exact he
  rw [← Removed.root before after e, List.mem_append, List.mem_append, List.mem_cons, hsame]

end Removed

structure Deleted (key : κ) (n n' : Node κ ω) : Prop where
  valid : Valid n'
  mem : Removed key n.toList n'.toList
  low : n.height ≤ n'.height + 1
  high : n'.height ≤ n.height

theorem delete_spec {n : Node κ ω} (h : Valid n) (key : κ) : Returns (n.delete key) (Deleted key n) := by
  induction h generalizing key with
  | nil => exact .intro ⟨.nil, by simp [Removed], by simp, Int.le_refl _⟩
  | @node k v s h l r hl hr before after hs hh low high ihl ihr =>
    subst hh
    have hl0 := hl.height_nonneg
    have hr0 := hr.height_nonneg
    unfold delete
    by_cases hlt : key < k
    · rw [if_pos hlt]
      refine (ihl key).bind fun l' il => ?_
      have hlow := il.low
      have hhigh := il.high
      refine (rebalanceDelete_spec il.valid hr (fun e he => before e ((il.mem e).mp he).1) after (by omega) (by omega)).mono
        fun n' ⟨hv, hlist, h1, h2, h3⟩ => ⟨hv, ?_, by simp only [height_node]; omega, by simp only [height_node]; omega⟩
      rw [hlist]
      exact il.mem.left hlt after
    rw [if_neg hlt]
    by_cases hgt : k < key
    · rw [if_pos hgt]
      refine (ihr key).bind fun r' ir => ?_
      have hlow := ir.low
      have hhigh := ir.high
      refine (rebalanceDelete_spec hl ir.valid before (fun e he => after e ((ir.mem e).mp he).1) (by omega) (by omega)).mono
        fun n' ⟨hv, hlist, h1, h2, h3⟩ => ⟨hv, ?_, by simp only [height_node]; omega, by simp only [height_node]; omega⟩
      rw [hlist]
      exact ir.mem.right hgt before
    rw [if_neg hgt]
    have hk : key = k := le_antisymm (not_lt.mp hgt) (not_lt.mp hlt)
    subst hk
    split
    · refine .intro ⟨hr, ?_, by simp only [height_node, height_nil] at *; omega, by simp only [height_node]; omega⟩
      exact Removed.root before after
    · refine .intro ⟨hl, ?_, by simp only [height_node, height_nil] at *; omega, by simp only [height_node]; omega⟩
      simpa using Removed.root (v := v) before after
    · rename_i hnl hnr
      -- two children: the successor takes the node's place, and leaves the right subtree
      refine (minValueNode_spec hr hnr).bind fun t ⟨htm, htmin⟩ => (ihr t.1).bind fun r' ir => ?_
      have hlow := ir.low
      have hhigh := ir.high
      refine (rebalanceDelete_spec hl ir.valid (fun e he => lt_trans (before e he) (after t htm)) (fun e he => ?_)
        (by omega) (by omega)).mono fun n' ⟨hv', hlist, h1, h2, h3⟩ =>
          ⟨hv', ?_, by simp only [height_node]; omega, by simp only [height_node]; omega⟩
      · obtain ⟨he, hne⟩ := (ir.mem e).mp he
        rcases htmin e he with rfl | h
        · exact absurd rfl hne
        · exact h
      · rw [hlist]
        exact Removed.successor before after htm htmin ir.mem

/-! ## Lookups and the order of the entries -/

theorem get_eq_some {n : Node κ ω} (h : Valid n) {key : κ} {w : ω} : n.get key = some w ↔ (key, w) ∈ n.toList := by
  induction h with
  | nil => simp [get]
  | @node k v s h l r hl hr before after _ _ _ _ ihl ihr =>
    have hbl : (key, w) ∈ l.toList → key < k := fun he => before _ he
    have har : (key, w) ∈ r.toList → k < key := fun he => after _ he
    simp only [get, toList_node, List.mem_append, List.mem_cons, Prod.mk.injEq]
    by_cases hlt : key < k
    · rw [if_pos hlt, ihl]
      refine ⟨Or.inl, fun h => ?_⟩
      rcases h with h | h | h
      · exact h
      · exact absurd h.1 (ne_of_lt hlt)
      · exact absurd (har h) (not_lt_of_gt hlt)
    rw [if_neg hlt]
    by_cases hgt : k < key
    · rw [if_pos hgt, ihr]
      refine ⟨fun h => Or.inr (Or.inr h), fun h => ?_⟩
      rcases h with h | h | h
      · exact absurd (hbl h) hlt
      · exact absurd h.1 (ne_of_gt hgt)
      · exact h
    rw [if_neg hgt]
    have hk : key = k := le_antisymm (not_lt.mp hgt) (not_lt.mp hlt)
    subst hk
    have h1 : (key, w) ∉ l.toList := fun h => hlt (hbl h)
    have h2 : (key, w) ∉ r.toList := fun h => hgt (har h)
    simp only [h1, h2, false_or, or_false, true_and, Option.some.injEq]
    exact eq_comm

theorem sorted {n : Node κ ω} (h : Valid n) : n.toList.Pairwise fun a b => a.1 < b.1 := by
  induction h with
  | nil => exact List.Pairwise.nil
  | node hl hr before after _ _ _ _ ihl ihr =>
    refine List.pairwise_append.mpr ⟨ihl, List.pairwise_cons.mpr ⟨after, ihr⟩, fun a ha b hb => ?_⟩
    rcases List.mem_cons.mp hb with rfl | hb
    · exact before a ha
    · exact lt_trans (before a ha) (after b hb)

omit [AddCommMonoid ω] in
theorem nodup_of_sorted {l : List (κ × ω)} (h : l.Pairwise fun a b => a.1 < b.1) : l.Nodup :=
  h.imp fun hlt e => absurd (congrArg Prod.fst e) (ne_of_lt hlt)

omit [AddCommMonoid ω] in
/-- Entries in key order are determined by which they are. -/
theorem sorted_ext {l l' : List (κ × ω)} (hl : l.Pairwise fun a b => a.1 < b.1) (hl' : l'.Pairwise fun a b => a.1 < b.1)
    (h : ∀ e, e ∈ l ↔ e ∈ l') : l = l' := by
  have hp : l.Perm l' := (List.perm_ext_iff_of_nodup (nodup_of_sorted hl) (nodup_of_sorted hl')).mpr h
  exact hp.eq_of_pairwise (fun x y _ _ hxy hyx => absurd hxy (not_lt_of_gt hyx)) hl hl'

/-- Two valid trees with the same entries list them alike, whatever their shapes. -/
theorem toList_ext {a b : Node κ ω} (ha : Valid a) (hb : Valid b) (h : ∀ e, e ∈ a.toList ↔ e ∈ b.toList) :
    a.toList = b.toList :=
  sorted_ext (sorted ha) (sorted hb) h

/-! ## Sampling -/

section Sampling

variable [Inhabited κ]

/-- The key at which the running weight of `l` first exceeds `x`. -/
def pick : List (κ × Int) → Int → κ
  | [], _ => default
  | (k, w) :: l, x => if x < w then k else pick l (x - w)

omit [LinearOrder κ] in
theorem pick_append {l m : List (κ × Int)} (hl : ∀ e ∈ l, 0 ≤ e.2) {x : Int} (hx : 0 ≤ x) :
    pick (l ++ m) x = if x < (l.map (·.2)).sum then pick l x else pick m (x - (l.map (·.2)).sum) := by
  induction l generalizing x with
  | nil => simp [not_lt.mpr hx]
  | cons e l ih =>
    obtain ⟨k, w⟩ := e
    have hw : 0 ≤ w := hl (k, w) (List.mem_cons_self ..)
    have hsum : 0 ≤ (l.map (·.2)).sum := List.sum_nonneg fun y hy => by
      obtain ⟨e, he, rfl⟩ := List.mem_map.mp hy
      exact hl e (List.mem_cons_of_mem _ he)
    simp only [List.cons_append, pick, List.map_cons, List.sum_cons]
    by_cases hxw : x < w
    · rw [if_pos hxw, if_pos (by omega), if_pos hxw]
    rw [if_neg hxw, if_neg hxw, ih (fun e he => hl e (List.mem_cons_of_mem _ he)) (by omega)]
    by_cases hlt : x - w < (l.map (·.2)).sum
    · rw [if_pos hlt, if_pos (by omega)]
    · rw [if_neg hlt, if_neg (by omega), show x - w - (l.map (·.2)).sum = x - (w + (l.map (·.2)).sum) by omega]

/-- A sample is decided by the entries in key order. -/
theorem sample_eq {n : Node κ} (h : Valid n) (hw : ∀ e ∈ n.toList, 0 ≤ e.2) {x : Int} (hx : 0 ≤ x) :
    n.sample x = pick n.toList x := by
  induction h generalizing x with
  | nil => rfl
  | @node k w s h l r hl hr before after _ _ _ _ ihl ihr =>
    have hwl : ∀ e ∈ l.toList, 0 ≤ e.2 := fun e he => hw e (by simp [he])
    have hwr : ∀ e ∈ r.toList, 0 ≤ e.2 := fun e he => hw e (by simp [he])
    have hwk : 0 ≤ w := hw (k, w) (by simp)
    rw [toList_node, pick_append hwl hx, ← hl.sum_eq]
    unfold sample
    by_cases h1 : x < l.sum
    · rw [if_pos h1, if_pos h1, ihl hwl hx]
    rw [if_neg h1, if_neg h1]
    unfold pick
    by_cases h2 : x < l.sum + w
    · rw [if_pos h2, if_pos (by omega)]
    · rw [if_neg h2, if_neg (by omega), ihr hwr (by omega)]

omit [LinearOrder κ] in
/-- The picked entry, and the running weight before it. -/
theorem pick_split {l : List (κ × Int)} {x : Int} (hx : 0 ≤ x) (hs : x < (l.map (·.2)).sum) :
    ∃ before w after, l = before ++ (pick l x, w) :: after ∧ (before.map (·.2)).sum ≤ x ∧ x < (before.map (·.2)).sum + w := by
  induction l generalizing x with
  | nil => simp only [List.map_nil, List.sum_nil] at hs; omega
  | cons e l ih =>
    obtain ⟨k, w⟩ := e
    unfold pick
    by_cases hxw : x < w
    · rw [if_pos hxw]
      exact ⟨[], w, l, rfl, by simpa using hx, by simpa using hxw⟩
    · rw [if_neg hxw]
      simp only [List.map_cons, List.sum_cons] at hs
      obtain ⟨before, w', after, hl, hle, hlt⟩ := ih (x := x - w) (by omega) (by omega)
      refine ⟨(k, w) :: before, w', after, congrArg _ hl, ?_, ?_⟩
      · simp only [List.map_cons, List.sum_cons]; omega
      · simp only [List.map_cons, List.sum_cons]; omega

omit [LinearOrder κ] in
theorem pick_mem {l : List (κ × Int)} {x : Int} (hx : 0 ≤ x) (hs : x < (l.map (·.2)).sum) :
    ∃ w, 0 < w ∧ (pick l x, w) ∈ l := by
  obtain ⟨before, w, after, hl, hle, hlt⟩ := pick_split hx hs
  generalize pick l x = k at hl ⊢
  exact ⟨w, by omega, hl ▸ List.mem_append_right _ List.mem_cons_self⟩

omit [LinearOrder κ] in
/-- Every entry with a weight can be picked. -/
theorem pick_hits {l : List (κ × Int)} (hl : ∀ e ∈ l, 0 ≤ e.2) {k : κ} {w : Int} (he : (k, w) ∈ l) (hw : 0 < w) :
    ∃ x, 0 ≤ x ∧ x < (l.map (·.2)).sum ∧ pick l x = k := by
  induction l with
  | nil => cases he
  | cons e l ih =>
    obtain ⟨k', w'⟩ := e
    have hw' : 0 ≤ w' := hl (k', w') (List.mem_cons_self ..)
    have hrest : ∀ e ∈ l, 0 ≤ e.2 := fun e he => hl e (List.mem_cons_of_mem _ he)
    have hsum : 0 ≤ (l.map (·.2)).sum := List.sum_nonneg fun y hy => by
      obtain ⟨e, he, rfl⟩ := List.mem_map.mp hy
      exact hrest e he
    simp only [List.map_cons, List.sum_cons]
    rcases List.mem_cons.mp he with he | he
    · cases he
      exact ⟨0, by omega, by omega, if_pos hw⟩
    · obtain ⟨x, h0, hlt, hx⟩ := ih hrest he
      refine ⟨w' + x, by omega, by omega, ?_⟩
      unfold pick
      rw [if_neg (by omega), show w' + x - w' = x by omega, hx]

omit [LinearOrder κ] in
/-- Entries without a weight make no difference. -/
theorem pick_filter {l : List (κ × Int)} (hl : ∀ e ∈ l, 0 ≤ e.2) {x : Int} (hx : 0 ≤ x) :
    pick (l.filter (0 < ·.2)) x = pick l x ∧ ((l.filter (0 < ·.2)).map (·.2)).sum = (l.map (·.2)).sum := by
  induction l generalizing x with
  | nil => exact ⟨rfl, rfl⟩
  | cons e l ih =>
    obtain ⟨k, w⟩ := e
    obtain ⟨hw, hrest⟩ : 0 ≤ w ∧ ∀ e ∈ l, 0 ≤ e.2 := List.forall_mem_cons.mp hl
    by_cases hpos : 0 < w
    · rw [List.filter_cons_of_pos (by simpa using hpos)]
      simp only [pick, List.map_cons, List.sum_cons, (ih hrest hx).2, and_true]
      split
      · rfl
      · exact (ih hrest (by omega)).1
    · obtain rfl : w = 0 := by omega
      rw [List.filter_cons_of_neg (by simp)]
      simp only [pick, List.map_cons, List.sum_cons, (ih hrest hx).1, (ih hrest hx).2, Int.sub_zero, Int.zero_add, and_true]
      rw [if_neg (by omega)]

end Sampling

end Node

/-! ## Seeds -/

theorem xorShift_surjective {k : Nat} (hk : 64 ≤ 3 * k) (y : BitVec 64) : ∃ x : BitVec 64, x ^^^ (x >>> k) = y := by
  refine ⟨y ^^^ (y >>> k) ^^^ (y >>> (2 * k)), ?_⟩
  have hzero : y >>> (3 * k) = 0#64 := BitVec.ushiftRight_eq_zero hk
  rw [BitVec.ushiftRight_xor_distrib, BitVec.ushiftRight_xor_distrib, ← BitVec.shiftRight_add, ← BitVec.shiftRight_add,
    show k + k = 2 * k by omega, show 2 * k + k = 3 * k by omega, hzero, BitVec.xor_zero, BitVec.xor_assoc y, BitVec.xor_assoc,
    BitVec.xor_self, BitVec.xor_zero]

theorem xorShift64_surjective {k : UInt64} (hk : 64 ≤ 3 * k.toNat) (hlt : k.toNat < 64) (y : UInt64) :
    ∃ x : UInt64, x ^^^ (x >>> k) = y := by
  obtain ⟨x, hx⟩ := xorShift_surjective hk y.toBitVec
  refine ⟨⟨x⟩, UInt64.toBitVec_inj.mp ?_⟩
  rw [UInt64.toBitVec_xor, UInt64.toBitVec_shiftRight, ← hx]
  have hmod : (k.toBitVec % 64#64).toNat = k.toNat := by
    rw [BitVec.toNat_umod]; exact Nat.mod_eq_of_lt hlt
  show x ^^^ (x >>> (k.toBitVec % 64#64)) = _
  rw [BitVec.ushiftRight_eq', hmod]

/-- Each step of the finalizer can be undone: the factors are odd. -/
theorem mix64_surjective : Function.Surjective mix64 := by
  intro y
  obtain ⟨x₃, h₃⟩ := xorShift64_surjective (k := 31) (by decide) (by decide) y
  obtain ⟨x₂, h₂⟩ := xorShift64_surjective (k := 27) (by decide) (by decide) (x₃ * 0x319642b2d24d8ec3)
  obtain ⟨x₁, h₁⟩ := xorShift64_surjective (k := 30) (by decide) (by decide) (x₂ * 0x96de1b173f119089)
  have hinv₁ : (0x96de1b173f119089 : UInt64) * 0xbf58476d1ce4e5b9 = 1 := by decide
  have hinv₂ : (0x319642b2d24d8ec3 : UInt64) * 0x94d049bb133111eb = 1 := by decide
  refine ⟨x₁ - 0x9e3779b97f4a7c15, ?_⟩
  unfold mix64
  simp only [UInt64.sub_add_cancel, h₁]
  rw [UInt64.mul_assoc, hinv₁, UInt64.mul_one, h₂, UInt64.mul_assoc, hinv₂, UInt64.mul_one, h₃]

namespace WeightedAVL

variable {κ : Type} [LinearOrder κ]

theorem update_spec {ω : Type} [AddCommMonoid ω] {t : WeightedAVL κ ω} (h : t.root.Valid) (key : κ) (w : ω) :
    Returns (t.update key w) fun t' => Node.Inserted key w t.root t'.root :=
  (Node.insert_spec h key w).map fun _ hi => hi

theorem remove_spec {ω : Type} [AddCommMonoid ω] {t : WeightedAVL κ ω} (h : t.root.Valid) (key : κ) :
    Returns (t.remove key) fun t' => Node.Deleted key t.root t'.root :=
  (Node.delete_spec h key).map fun _ hd => hd

/-- A valid tree whose weights are not negative. -/
structure Weighed {ω : Type} [AddCommMonoid ω] [LE ω] (tree : WeightedAVL κ ω) : Prop where
  valid : tree.root.Valid
  weight : ∀ e ∈ tree.root.toList, 0 ≤ e.2

theorem offset_eq (x : UInt64) (sum : Int) : Offset.offset x sum = ((x.toNat % sum.toNat : Nat) : Int) := rfl

variable [Inhabited κ]

theorem sample_mem {t : WeightedAVL κ} (h : t.root.Valid) (hw : ∀ e ∈ t.root.toList, 0 ≤ e.2) (hs : t.root.sum ≠ 0)
    (seed : UInt64) : ∃ w, 0 < w ∧ t.get (t.sample seed) = some w := by
  have hnn : 0 ≤ t.root.sum := by
    rw [h.sum_eq]
    exact List.sum_nonneg fun y hy => by obtain ⟨e, he, rfl⟩ := List.mem_map.mp hy; exact hw e he
  have hlt : (mix64 seed).toNat % t.root.sum.toNat < t.root.sum.toNat := Nat.mod_lt _ (by omega)
  obtain ⟨w, hpos, hm⟩ := Node.pick_mem (l := t.root.toList) (x := (((mix64 seed).toNat % t.root.sum.toNat : Nat) : Int))
    (by omega) (by rw [← h.sum_eq]; omega)
  refine ⟨w, hpos, ?_⟩
  unfold get sample
  rw [if_neg hs, offset_eq, Node.sample_eq h hw (by omega)]
  exact (Node.get_eq_some h).mpr hm

/-- Some seed samples a key that has a weight, if the sum of the weights is an `int`. -/
theorem sample_hits {t : WeightedAVL κ} (h : t.root.Valid) (hw : ∀ e ∈ t.root.toList, 0 ≤ e.2) (hs : t.root.sum < 2 ^ 63) {k : κ}
    {w : Int} (he : (k, w) ∈ t.root.toList) (hpos : 0 < w) : ∃ seed, t.sample seed = k := by
  obtain ⟨x, h0, hlt, hx⟩ := Node.pick_hits hw he hpos
  rw [← h.sum_eq] at hlt
  obtain ⟨seed, hseed⟩ := mix64_surjective (UInt64.ofNat x.toNat)
  have hmix : (mix64 seed).toNat = x.toNat := by
    rw [hseed, UInt64.toNat_ofNat_of_lt']
    show x.toNat < 2 ^ 64
    omega
  refine ⟨seed, ?_⟩
  unfold sample
  rw [if_neg (by omega), offset_eq, hmix, Nat.mod_eq_of_lt (by omega), Int.toNat_of_nonneg h0, Node.sample_eq h hw h0, hx]

/-- The entries with a weight decide a sample, whatever operations built the trees. -/
theorem Weighed.sample_congr {tree tree' : WeightedAVL κ} (h : Weighed tree) (h' : Weighed tree')
    (hsame : ∀ k w, 0 < w → (tree'.get k = some w ↔ tree.get k = some w))
    (seed : UInt64) : tree'.sample seed = tree.sample seed := by
  have hl : tree'.root.toList.filter (0 < ·.2) = tree.root.toList.filter (0 < ·.2) := by
    refine Node.sorted_ext ((Node.sorted h'.valid).filter _) ((Node.sorted h.valid).filter _) fun ⟨k, w⟩ => ?_
    rw [List.mem_filter, List.mem_filter, ← Node.get_eq_some h'.valid, ← Node.get_eq_some h.valid]
    refine and_congr_left fun hw => hsame k w ?_
    simpa using hw
  have hs : tree'.root.sum = tree.root.sum := by
    rw [h'.valid.sum_eq, h.valid.sum_eq, ← (Node.pick_filter h'.weight (Int.le_refl 0)).2,
      ← (Node.pick_filter h.weight (Int.le_refl 0)).2, hl]
  unfold sample
  rw [hs]
  split
  · rfl
  · rw [offset_eq, Node.sample_eq h'.valid h'.weight (by omega), Node.sample_eq h.valid h.weight (by omega),
      ← (Node.pick_filter h'.weight (by omega)).1, ← (Node.pick_filter h.weight (by omega)).1, hl]

end WeightedAVL

end Doq.WeightedAvl
