/-
  Doq.WeightedAvlMap — the weighted AVL tree is a finite map, and a sample of it depends on
  that map alone (see `Doq.WeightedAvl`).

  The operations are followed on a finite map beside the tree: `refines_map` says that after
  any of them the tree is a balanced search tree with true caches, which answers as the map
  does. This needs no more of the weights than that they can be added up in any order, so it
  holds of exact integers and of 64-bit ones.

  For weights that are never negative and add up to less than 2^63, a tree over Go's `int`s is
  the tree over the integers (`Fits.sample`). Of that one, `sample_proportional` says which entry
  each number below the sum leads to, and that an entry is met by as many numbers as it weighs;
  entries without a weight, and the shape of the tree, make no difference. `sample_wraps`: above
  2^63 a number below the sum leads to no entry, or one entry hides the others.
-/

import Doq.WeightedAvlProofs
import Mathlib.Data.String.Basic

namespace Doq.WeightedAvl

open Lib

variable {κ ω : Type} [LinearOrder κ]

inductive Op (κ ω : Type) where
  | update (key : κ) (weight : ω)
  | remove (key : κ)
  | increment (key : κ) (delta : ω)
  deriving DecidableEq, Repr

/-- An update to a weight that is not negative, or a removal. -/
def Op.Weighs : Op κ Int64 → Prop
  | .update _ weight => 0 ≤ weight
  | .remove _ => True
  | .increment _ _ => False

instance : (op : Op κ Int64) → Decidable op.Weighs
  | .update _ weight => inferInstanceAs (Decidable (0 ≤ weight))
  | .remove _ => isTrue trivial
  | .increment _ _ => isFalse id

namespace WeightedAVL

variable [AddCommMonoid ω]

def step (tree : WeightedAVL κ ω) : Op κ ω → Go (WeightedAVL κ ω)
  | .update key weight => tree.update key weight
  | .remove key => tree.remove key
  | .increment key delta => tree.increment key delta

/-- The same operation on a finite map. -/
def applied (m : FinMap κ ω) : Op κ ω → FinMap κ ω
  | .update key weight => m.insert key weight
  | .remove key => m.erase key
  | .increment key delta => m.insert key ((m.lookup key).getD 0 + delta)

end WeightedAVL

/-! ## The entries of a tree and of a map -/

namespace Node

variable [AddCommMonoid ω] {n n' : Node κ ω} {key : κ} {w : ω}

theorem get_eq_none (h : Valid n) (hne : ∀ e ∈ n.toList, e.1 ≠ key) : n.get key = none := by
  cases hg : n.get key with
  | none => rfl
  | some w => exact absurd rfl (hne _ ((get_eq_some h).mp hg))

theorem Inserted.get (h : Inserted key w n n') (hv : Valid n) (k : κ) : n'.get k = if k = key then some w else n.get k := by
  refine Option.ext fun v => ?_
  rw [get_eq_some h.valid, h.mem]
  split
  · rename_i e; subst e
    simp [eq_comm]
  · rename_i e
    rw [get_eq_some hv]
    simp [e]

theorem Deleted.get (h : Deleted key n n') (hv : Valid n) (k : κ) : n'.get k = if k = key then none else n.get k := by
  refine Option.ext fun v => ?_
  rw [get_eq_some h.valid, h.mem]
  split
  · rename_i e; subst e
    simp
  · rename_i e
    rw [get_eq_some hv]
    simp [e]

/-- The traversal puts the entries of the tree over those of the map. -/
theorem items_lookup (h : Valid n) (m : FinMap κ ω) (key : κ) : (n.items m).lookup key = (n.get key).or (m.lookup key) := by
  induction h generalizing m with
  | nil => rfl
  | @node k w s h l r hl hr before after _ _ _ _ ihl ihr =>
    rw [items, ihr, FinMap.lookup_insert_eq, ihl, get]
    rcases lt_trichotomy key k with hlt | rfl | hgt
    · rw [if_pos hlt, if_neg (ne_of_lt hlt), get_eq_none hr fun e he => ne_of_gt (lt_trans hlt (after e he)), Option.none_or]
    · rw [if_pos rfl, if_neg (lt_irrefl key), if_neg (lt_irrefl key), get_eq_none hr fun e he => ne_of_gt (after e he)]
      rfl
    · rw [if_neg (not_lt_of_gt hgt), if_pos hgt, if_neg (ne_of_gt hgt),
        get_eq_none hl fun e he => ne_of_lt (lt_trans (before e he) hgt),
        Option.none_or]

/-- The entries of a map that answers like the tree are those of the tree. -/
theorem entries_perm (h : Valid n) {m : FinMap κ ω} (hm : ∀ key, n.get key = m.lookup key) :
    (m.entries.map fun e => (e.1, e.2)).Perm n.toList := by
  have hnodup : (m.entries.map fun e => (e.1, e.2)).Nodup := by
    refine m.nodupKeys.nodup.map ?_
    rintro ⟨k, w⟩ ⟨k', w'⟩ he
    cases he
    rfl
  refine (List.perm_ext_iff_of_nodup hnodup (nodup_of_sorted (sorted h))).mpr fun e => ?_
  rw [← get_eq_some h, hm, ← FinMap.mem_entries, List.mem_map]
  constructor
  · rintro ⟨⟨k, w⟩, he, rfl⟩
    exact he
  · intro he
    exact ⟨_, he, rfl⟩

end Node

/-! ## The tree refines the map -/

namespace WeightedAVL

variable [AddCommMonoid ω] {tree : WeightedAVL κ ω} {m : FinMap κ ω}

/-- A valid tree and the map it stands for. -/
structure Stands (tree : WeightedAVL κ ω) (m : FinMap κ ω) : Prop where
  valid : tree.root.Valid
  get : ∀ key, tree.get key = m.lookup key

theorem new_stands : Stands (new : WeightedAVL κ ω) ∅ := ⟨.nil, fun _ => rfl⟩

theorem Stands.insert (h : Stands tree m) (key : κ) (w : ω) :
    Returns ((tree.root.insert key w).map WeightedAVL.mk) fun tree' => Stands tree' (m.insert key w) := by
  refine (Node.insert_spec h.valid key w).map fun n hn => ⟨hn.valid, fun k => ?_⟩
  show n.get k = _
  rw [hn.get h.valid, FinMap.lookup_insert_eq, ← h.get]
  rfl

theorem Stands.step (h : Stands tree m) (op : Op κ ω) : Returns (tree.step op) fun tree' => Stands tree' (applied m op) := by
  cases op with
  | update key weight => exact h.insert key weight
  | remove key =>
    refine (remove_spec h.valid key).mono fun tree' hd => ⟨hd.valid, fun k => ?_⟩
    show tree'.root.get k = (m.erase key).lookup k
    rw [hd.get h.valid, FinMap.lookup_erase_eq, ← h.get]
    rfl
  | increment key delta =>
    have hget : tree.root.get key = m.lookup key := h.get key
    show Returns (tree.increment key delta) _
    unfold increment
    rw [hget]
    exact h.insert key _

theorem Stands.sum (h : Stands tree m) : tree.sum = FinMap.total (fun _ w => w) m := by
  unfold WeightedAVL.sum FinMap.total
  rw [h.valid.sum_eq, ← ((Node.entries_perm h.valid h.get).map _).sum_eq, List.map_map]
  rfl

/-- After any operations the tree is a balanced search tree in strict key order with true
    heights and sums, and answers as the map after the same operations; no rotation panics. -/
theorem refines_map (ops : List (Op κ ω)) :
    Returns (ops.foldlM step new) fun tree => tree.root.Valid ∧
      (∀ key, tree.get key = (ops.foldl applied ∅).lookup key) ∧
      (∀ key, tree.items.lookup key = (ops.foldl applied ∅).lookup key) ∧
      tree.sum = FinMap.total (fun _ w => w) (ops.foldl applied ∅) := by
  have hrun : Returns (ops.foldlM step new) fun tree => Stands tree (ops.foldl applied ∅) :=
    .foldlM (I := fun done tree => Stands tree (done.foldl applied ∅)) new_stands fun done op _ tree _ h => by
      rw [List.foldl_append]
      exact h.step op
  refine hrun.mono fun tree h => ⟨h.valid, h.get, fun key => ?_, h.sum⟩
  unfold WeightedAVL.items
  rw [Node.items_lookup h.valid, AList.lookup_empty, Option.or_none]
  exact h.get key

end WeightedAVL

/-! ## Sampling -/

namespace Node

variable [Inhabited κ] {l : List (κ × Int)}

/-- How many numbers lead to a key: the weight of its entries. -/
theorem pick_count (hl : ∀ e ∈ l, 0 ≤ e.2) (key : κ) :
    ((List.range (Int.toNat (l.map (·.2)).sum)).countP (fun r : Nat => pick l r = key) : Int) =
    ((l.filter (·.1 = key)).map (·.2)).sum := by
  induction l with
  | nil => rfl
  | cons e l ih =>
    obtain ⟨k, w⟩ := e
    obtain ⟨hw, hrest⟩ : 0 ≤ w ∧ ∀ e ∈ l, 0 ≤ e.2 := List.forall_mem_cons.mp hl
    have hsum : 0 ≤ (l.map (·.2)).sum := List.sum_nonneg fun y hy => by
      obtain ⟨e, he, rfl⟩ := List.mem_map.mp hy
      exact hrest e he
    -- the numbers below the first weight, and the others
    rw [List.map_cons, List.sum_cons, Int.toNat_add hw hsum, List.range_add, List.countP_append, List.countP_map]
    have hfirst : (List.range w.toNat).countP (fun r : Nat => pick ((k, w) :: l) r = key) = if k = key then w.toNat else 0 := by
      have hpick : ∀ r ∈ List.range w.toNat, (decide (pick ((k, w) :: l) (r : Nat) = key) = true ↔
        decide (k = key) = true) := fun r hr => by
        have := List.mem_range.mp hr
        rw [pick, if_pos (by omega)]
      rw [List.countP_congr hpick]
      split
      · rename_i he
        rw [List.countP_eq_length.mpr fun _ _ => by simpa using he, List.length_range]
      · rename_i he
        exact List.countP_eq_zero.mpr fun _ _ => by simpa using he
    have hothers : (List.range (Int.toNat (l.map (·.2)).sum)).countP
      ((fun r : Nat => decide (pick ((k, w) :: l) r = key)) ∘ (w.toNat + ·)) =
        (List.range (Int.toNat (l.map (·.2)).sum)).countP (fun r : Nat => pick l r = key) := by
      refine List.countP_congr fun r _ => ?_
      have hr : ((w.toNat + r : Nat) : Int) - w = r := by omega
      simp only [Function.comp_apply]
      rw [pick, if_neg (by omega), hr]
    rw [hfirst, hothers, Int.natCast_add, ih hrest, List.filter_cons]
    split <;> simp_all

omit [Inhabited κ] in
/-- In key order there is one entry for a key. -/
theorem filter_key (hl : l.Pairwise fun a b => a.1 < b.1) {key : κ} {w : Int} (h : (key, w) ∈ l) :
    l.filter (·.1 = key) = [(key, w)] := by
  obtain ⟨before, after, rfl⟩ := List.append_of_mem h
  obtain ⟨_, htail, hbefore⟩ := List.pairwise_append.mp hl
  have hb : before.filter (·.1 = key) = [] := List.filter_eq_nil_iff.mpr fun e he => by
    simpa using ne_of_lt (hbefore e he (key, w) List.mem_cons_self)
  have ha : after.filter (·.1 = key) = [] := List.filter_eq_nil_iff.mpr fun e he => by
    simpa using ne_of_gt ((List.pairwise_cons.mp htail).1 e he)
  rw [List.filter_append, List.filter_cons, hb, ha]
  simp

end Node

/-! ## Go's weights -/

instance addCommMonoidInt64 : AddCommMonoid Int64 where
  add_assoc := Int64.add_assoc
  zero_add := Int64.zero_add
  add_zero := Int64.add_zero
  add_comm := Int64.add_comm
  nsmul := nsmulRec

theorem toInt_add_of_lt {a b : Int64} (h0 : 0 ≤ a.toInt + b.toInt) (h : a.toInt + b.toInt < 2 ^ 63) :
    (a + b).toInt = a.toInt + b.toInt := by
  rw [Int64.toInt_add]
  exact Int.bmod_eq_of_le (by omega) (by omega)

theorem toInt_sub_of_le {a b : Int64} (h0 : 0 ≤ b.toInt) (h : b.toInt ≤ a.toInt) : (a - b).toInt = a.toInt - b.toInt := by
  have := a.toInt_lt
  rw [Int64.toInt_sub]
  exact Int.bmod_eq_of_le (by omega) (by omega)

namespace Node

/-- The tree with its weights and sums as integers. -/
def widen : Node κ Int64 → Node κ
  | nil => nil
  | node k w s h l r => node k w.toInt s.toInt h l.widen r.widen

variable {n : Node κ Int64}

omit [LinearOrder κ] in
theorem toList_widen (n : Node κ Int64) : n.widen.toList = n.toList.map fun e => (e.1, e.2.toInt) := by
  induction n with
  | nil => rfl
  | node k w s h l r ihl ihr => simp [widen, ihl, ihr]

omit [LinearOrder κ] in
theorem height_widen (n : Node κ Int64) : n.widen.height = n.height := by cases n <;> rfl

omit [LinearOrder κ] in
theorem sum_widen (n : Node κ Int64) : n.widen.sum = n.sum.toInt := by cases n <;> rfl

theorem get_widen (n : Node κ Int64) (key : κ) : n.widen.get key = (n.get key).map Int64.toInt := by
  induction n with
  | nil => rfl
  | node k w s h l r ihl ihr =>
    simp only [widen, get, ihl, ihr]
    split
    · rfl
    · split <;> rfl

/-- The sum of the weights as integers. -/
def total (n : Node κ Int64) : Int := (n.toList.map fun e => e.2.toInt).sum

omit [LinearOrder κ] in
theorem total_node (k : κ) (w s : Int64) (h : Int) (l r : Node κ Int64) :
    (node k w s h l r).total = l.total + (w.toInt + r.total) := by
  simp [total]

omit [LinearOrder κ] in
theorem sum_toList_widen (n : Node κ Int64) : (n.widen.toList.map (·.2)).sum = n.total := by
  rw [toList_widen, List.map_map]
  rfl

/-- No weight is negative, and together they are an `int`. -/
structure Fits (n : Node κ Int64) : Prop where
  weight : ∀ e ∈ n.widen.toList, 0 ≤ e.2
  total : n.total < 2 ^ 63

omit [LinearOrder κ] in
theorem total_nonneg (h : ∀ e ∈ n.widen.toList, 0 ≤ e.2) : 0 ≤ n.total := by
  rw [← sum_toList_widen]
  refine List.sum_nonneg fun y hy => ?_
  obtain ⟨e, he, rfl⟩ := List.mem_map.mp hy
  exact h e he

omit [LinearOrder κ] in
/-- What fits, fits in its parts. -/
theorem Fits.parts {k : κ} {w s : Int64} {h : Int} {l r : Node κ Int64} (hn : Fits (node k w s h l r)) :
    Fits l ∧ Fits r ∧ 0 ≤ l.total ∧ 0 ≤ w.toInt ∧ 0 ≤ r.total ∧ l.total + (w.toInt + r.total) < 2 ^ 63 := by
  have hl : ∀ e ∈ l.widen.toList, 0 ≤ e.2 := fun e he => hn.weight e (by simp [widen, he])
  have hr : ∀ e ∈ r.widen.toList, 0 ≤ e.2 := fun e he => hn.weight e (by simp [widen, he])
  have hw : 0 ≤ w.toInt := hn.weight (k, w.toInt) (by simp [widen])
  have hl0 := total_nonneg hl
  have hr0 := total_nonneg hr
  have htotal := total_node k w s h l r ▸ hn.total
  exact ⟨⟨hl, by omega⟩, ⟨hr, by omega⟩, hl0, hw, hr0, htotal⟩

theorem Valid.widen (h : Valid n) (hn : Fits n) : Valid n.widen := by
  induction h with
  | nil => exact .nil
  | @node k w s h l r hl hr before after hs hh low high ihl ihr =>
    obtain ⟨hnl, hnr, hl0, hw, hr0, hlt⟩ := hn.parts
    have hl := ihl hnl
    have hr := ihr hnr
    rw [← sum_toList_widen, ← hl.sum_eq, sum_widen] at hl0
    rw [← sum_toList_widen, ← sum_toList_widen, ← hl.sum_eq, ← hr.sum_eq, sum_widen, sum_widen] at hlt
    rw [← sum_toList_widen, ← hr.sum_eq, sum_widen] at hr0
    refine .node hl hr ?_ ?_ ?_ ?_ ?_ ?_
    · intro e he
      rw [toList_widen] at he
      obtain ⟨x, hx, rfl⟩ := List.mem_map.mp he
      exact before x hx
    · intro e he
      rw [toList_widen] at he
      obtain ⟨x, hx, rfl⟩ := List.mem_map.mp he
      exact after x hx
    · have hwl : (w + l.sum).toInt = w.toInt + l.sum.toInt := toInt_add_of_lt (by omega) (by omega)
      rw [hs, sum_widen, sum_widen, toInt_add_of_lt (by omega) (by omega), hwl]
    · rw [height_widen, height_widen, hh]
    · rw [height_widen, height_widen]; exact low
    · rw [height_widen, height_widen]; exact high

/-- The cached sum is the sum of the weights as integers. -/
theorem Valid.sum_toInt (h : Valid n) (hn : Fits n) : n.sum.toInt = n.total := by
  rw [← sum_widen, (h.widen hn).sum_eq, sum_toList_widen]

variable [Inhabited κ]

theorem Valid.sample_widen (h : Valid n) (hn : Fits n) {x : Int64} (hx : 0 ≤ x.toInt) : n.sample x = n.widen.sample x.toInt := by
  induction h generalizing x with
  | nil => rfl
  | @node k w s h l r hl hr _ _ _ _ _ _ ihl ihr =>
    obtain ⟨hnl, hnr, hl0, hw, hr0, hlt⟩ := hn.parts
    rw [← hl.sum_toInt hnl] at hl0 hlt
    have hlw : (l.sum + w).toInt = l.sum.toInt + w.toInt := toInt_add_of_lt (by omega) (by omega)
    show (if x < l.sum then _ else if x < l.sum + w then _ else _) =
      if x.toInt < l.widen.sum then _ else if x.toInt < l.widen.sum + w.toInt then _ else _
    simp only [sum_widen, ← hlw, Int64.lt_iff_toInt_lt]
    split
    · exact ihl hnl hx
    · split
      · rfl
      · -- the number that is left for the right subtree does not wrap either
        rename_i hleft hhere
        have hxl : (x - l.sum).toInt = x.toInt - l.sum.toInt := toInt_sub_of_le hl0 (by omega)
        have hxr : (x - l.sum - w).toInt = x.toInt - l.sum.toInt - w.toInt := by
          rw [toInt_sub_of_le hw (by omega), hxl]
        rw [← hxr]
        exact ihr hnr (by omega)

end Node

namespace WeightedAVL

variable {tree tree' : WeightedAVL κ Int64} {ops ops' : List (Op κ Int64)}

theorem Weighed.step {op : Op κ Int64} (h : Weighed tree) (hop : op.Weighs) : Returns (tree.step op) Weighed := by
  cases op with
  | update key weight =>
    refine (update_spec h.valid key weight).mono fun tree' hi => ⟨hi.valid, fun e he => ?_⟩
    rcases (hi.mem e).mp he with rfl | ⟨he, _⟩
    · exact hop
    · exact h.weight e he
  | remove key =>
    refine (remove_spec h.valid key).mono fun tree' hd => ⟨hd.valid, fun e he => ?_⟩
    exact h.weight e ((hd.mem e).mp he).1
  | increment key delta => exact hop.elim

theorem Runs.weighed (hops : ∀ op ∈ ops, op.Weighs) (hrun : ops.foldlM WeightedAVL.step new = some tree) : Weighed tree := by
  refine (Returns.foldlM (I := fun _ tree => Weighed tree) ⟨.nil, fun _ he => absurd he List.not_mem_nil⟩ ?_).result hrun
  intro done op rest tree hl h
  exact h.step (hops op (hl ▸ List.mem_append_right _ List.mem_cons_self))

/-- The same tree over the integers. -/
def widen (tree : WeightedAVL κ Int64) : WeightedAVL κ := ⟨tree.root.widen⟩

/-- The sum of the weights as integers. -/
def total (tree : WeightedAVL κ Int64) : Int := tree.root.total

theorem get_widen (tree : WeightedAVL κ Int64) (key : κ) : tree.widen.root.get key = (tree.get key).map Int64.toInt :=
  Node.get_widen tree.root key

theorem Weighed.fits (h : Weighed tree) (hlt : tree.total < 2 ^ 63) : tree.root.Fits := by
  refine ⟨fun e he => ?_, hlt⟩
  rw [Node.toList_widen] at he
  obtain ⟨x, hx, rfl⟩ := List.mem_map.mp he
  exact Int64.le_iff_toInt_le.mp (h.weight x hx)

theorem Weighed.widen (h : Weighed tree) (hlt : tree.total < 2 ^ 63) : Weighed tree.widen :=
  ⟨h.valid.widen (h.fits hlt), (h.fits hlt).weight⟩

theorem toInt_offset {sum : Int64} (h : 0 < sum.toInt) (x : UInt64) :
    (Offset.offset x sum).toInt = Offset.offset x sum.toInt := by
  have hsum : sum.toUInt64.toNat = sum.toInt.toNat := Int64.toNat_toUInt64_of_le (Int64.le_iff_toInt_le.mpr (Int.le_of_lt h))
  have hmod : (x % sum.toUInt64).toNat = x.toNat % sum.toInt.toNat := by rw [UInt64.toNat_mod, hsum]
  have hlt := Nat.mod_lt x.toNat (Int.pos_iff_toNat_pos.mp h)
  have := sum.toInt_lt
  rw [offset_eq, ← hmod]
  exact BitVec.toInt_eq_toNat_of_lt (x := (x % sum.toUInt64).toBitVec) (by
    show 2 * (x % sum.toUInt64).toNat < 2 ^ 64
    omega)

variable [Inhabited κ]

/-- While the weights together are an `int`, a sample is the one of the tree over the integers. -/
theorem Weighed.sample_widen (h : Weighed tree) (hlt : tree.total < 2 ^ 63) (seed : UInt64) :
    tree.sample seed = tree.widen.sample seed := by
  have hsum := h.valid.sum_toInt (h.fits hlt)
  have h0 := Node.total_nonneg (h.fits hlt).weight
  unfold sample
  rw [show tree.widen.root.sum = tree.root.sum.toInt from Node.sum_widen _]
  by_cases hz : tree.root.sum = 0
  · rw [if_pos hz, if_pos (by rw [hz]; rfl)]
  · have hz' : tree.root.sum.toInt ≠ 0 := fun e => hz (Int64.toInt_inj.mp e)
    have hpos : 0 < tree.root.sum.toInt := by omega
    rw [if_neg hz, if_neg hz', ← toInt_offset hpos]
    refine h.valid.sample_widen (h.fits hlt) ?_
    rw [toInt_offset hpos, offset_eq]
    exact Int.natCast_nonneg _

/-- A sample is the key at which the running weight in key order first exceeds the number; as
    many numbers lead to a key as it weighs; and only the entries with a weight matter. -/
theorem sample_proportional (hops : ∀ op ∈ ops, op.Weighs) (hrun : ops.foldlM WeightedAVL.step new = some tree)
    (hfits : tree.total < 2 ^ 63) :
    tree.sum.toInt = tree.total ∧
    (∀ x : Int64, 0 ≤ x → x < tree.sum → ∃ (l before after : List (κ × Int)) (w : Int),
      l.Pairwise (fun a b => a.1 < b.1) ∧ (∀ key v, (key, v) ∈ l ↔ (tree.get key).map Int64.toInt = some v) ∧
      l = before ++ (tree.root.sample x, w) :: after ∧
      (before.map (·.2)).sum ≤ x.toInt ∧ x.toInt < (before.map (·.2)).sum + w) ∧
    (∀ key, ((List.range tree.total.toNat).countP (fun r => tree.root.sample (Int64.ofNat r) = key) : Int) =
      ((tree.get key).getD 0).toInt) ∧
    (∀ (ops' : List (Op κ Int64)) (tree' : WeightedAVL κ Int64), (∀ op ∈ ops', op.Weighs) →
      ops'.foldlM WeightedAVL.step new = some tree' → tree'.total < 2 ^ 63 →
      (∀ key w, 0 < w → (tree'.get key = some w ↔ tree.get key = some w)) → ∀ seed, tree'.sample seed = tree.sample seed) := by
  have h := Runs.weighed hops hrun
  have hn := h.fits hfits
  have hw := h.widen hfits
  have hsum := h.valid.sum_toInt hn
  have htotal : tree.total = (tree.widen.root.toList.map (·.2)).sum := (Node.sum_toList_widen _).symm
  refine ⟨hsum, fun x hx hlt => ?_, fun key => ?_, fun ops' tree' hops' hrun' hfits' hsame seed => ?_⟩
  · have hx : 0 ≤ x.toInt := Int64.le_iff_toInt_le.mp hx
    have hlt : x.toInt < tree.total := (Int64.lt_iff_toInt_lt.mp hlt).trans_eq hsum
    rw [h.valid.sample_widen hn hx, show tree.root.widen = tree.widen.root from rfl, Node.sample_eq hw.valid hw.weight hx]
    obtain ⟨before, w, after, hsplit⟩ := Node.pick_split hx (htotal ▸ hlt)
    refine ⟨tree.widen.root.toList, before, after, w, Node.sorted hw.valid, fun key v => ?_, hsplit⟩
    rw [← Node.get_eq_some hw.valid, get_widen]
  · have hpick : ∀ r ∈ List.range tree.total.toNat, (decide (tree.root.sample (Int64.ofNat r) = key) = true ↔
        decide (Node.pick tree.widen.root.toList (r : Int) = key) = true) := fun r hr => by
      have hr : (r : Int) < 2 ^ 63 := by
        have := List.mem_range.mp hr
        omega
      have hofNat : (Int64.ofNat r).toInt = r := Int64.toInt_ofNat_of_lt (by omega)
      rw [h.valid.sample_widen hn (by omega), hofNat, show tree.root.widen = tree.widen.root from rfl,
        Node.sample_eq hw.valid hw.weight (Int.natCast_nonneg r)]
    rw [List.countP_congr hpick, htotal, Node.pick_count hw.weight key]
    cases hg : tree.get key with
    | some w =>
      have hget : tree.widen.root.get key = some w.toInt := by rw [get_widen, hg]; rfl
      rw [Node.filter_key (Node.sorted hw.valid) ((Node.get_eq_some hw.valid).mp hget)]
      exact Int.add_zero _
    | none =>
      have hget : tree.widen.root.get key = none := by rw [get_widen, hg]; rfl
      rw [List.filter_eq_nil_iff.mpr fun e he => ?_]
      · rfl
      · rintro hk
        have hsome := (Node.get_eq_some hw.valid).mpr he
        rw [of_decide_eq_true hk, hget] at hsome
        cases hsome
  · have h' := Runs.weighed hops' hrun'
    rw [h'.sample_widen hfits', h.sample_widen hfits]
    refine hw.sample_congr (h'.widen hfits') (fun k v hv => ?_) seed
    show tree'.widen.root.get k = some v ↔ tree.widen.root.get k = some v
    rw [get_widen, get_widen, Option.map_eq_some_iff, Option.map_eq_some_iff]
    refine exists_congr fun w => and_congr_left fun hwv => hsame k w (Int64.lt_iff_toInt_lt.mpr ?_)
    rw [hwv]
    exact hv

/-- Three keys, one of them without a weight. -/
def threeWeights : List (Op String Int64) := [.update "a" 2, .update "c" 0, .update "b" 4, .remove "d"]

theorem threeWeights_runs : (threeWeights.foldlM WeightedAVL.step new).isSome := by decide +kernel

theorem sample_proportional_three :
    let tree := (threeWeights.foldlM WeightedAVL.step new).get threeWeights_runs
    tree.total = 6 ∧ ((List.range 6).countP (fun r => tree.root.sample (Int64.ofNat r) = "b") : Int) = 4 := by
  intro tree
  have htotal : tree.total = 6 := by decide +kernel
  have hget : tree.get "b" = some 4 := by decide +kernel
  have h := (sample_proportional (by decide +kernel) (Option.some_get threeWeights_runs).symm (htotal ▸ by decide)).2.2.1 "b"
  rw [show ((threeWeights.foldlM WeightedAVL.step new).get threeWeights_runs) = tree from rfl, htotal, hget] at h
  refine ⟨htotal, ?_⟩
  convert h <;> rfl

/-- Three keys of the same weight. -/
def heavy (weight : Int64) : Option (WeightedAVL String Int64) :=
  [Op.update "a" weight, .update "b" weight, .update "c" weight].foldlM WeightedAVL.step new

/-- Of the weight 2^62 each: the running weight passes 2^62 at `b`, and that number leads to no
    key. Of the weight 2^63 - 1 each: `Sum` is 2^63 - 3, and the largest number below it still
    leads to `a`. -/
theorem sample_wraps :
    (heavy (2 ^ 62)).map (fun tree => (tree.root.sample (2 ^ 62), tree.get "b")) = some ("", some (2 ^ 62)) ∧
      (heavy (2 ^ 63 - 1)).map (fun tree => (tree.sum, tree.root.sample (2 ^ 63 - 4), tree.get "b")) =
        some (2 ^ 63 - 3, "a", some (2 ^ 63 - 1)) := by
  decide +kernel

end WeightedAVL

end Doq.WeightedAvl
