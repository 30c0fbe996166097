/-
  Doq.Lib.LinkedList — a doubly linked list in a heap of cells
  (`pkg/queue/memory/linked_list.go`).

  `Links` is the pointers alone: the cells by address, the two ends, the length, and the
  next free address. `Linked addrs` says that they spell the list of addresses `addrs`:
  every cell's `prev` and `next` are its neighbours, the ends are the first and the last,
  and the length is theirs. A `LinkedList` carries such a list, so one whose pointers
  disagree cannot be built.

  Proved: `append` and `remove` keep the pointers in step, and read through `toList` (the
  walk from the head) they are `++ [v]` and `erase v`; `first` and `next` are the head and
  the element after.
-/

import Doq.Lib.FinMap
import Mathlib.Data.List.Induction
import Mathlib.Data.List.TakeWhile

namespace Doq.Lib

variable {α : Type}

structure Cell (α : Type) where
  value : α
  prev : Option Nat
  next : Option Nat

structure Links (α : Type) where
  cells : FinMap Nat (Cell α)
  head : Option Nat
  tail : Option Nat
  total : Nat
  fresh : Nat

/-- A write through a pointer that may be nil. -/
def Cell.write (cells : FinMap Nat (Cell α)) (p : Option Nat) (f : Cell α → Cell α) : FinMap Nat (Cell α) :=
  match p with
  | none => cells
  | some a =>
    match cells.lookup a with
    | none => cells
    | some c => cells.insert a (f c)

namespace Links

def empty : Links α := ⟨∅, none, none, 0, 0⟩

def append (l : Links α) (v : α) : Links α :=
  match l.head with
  | none =>
    { cells := l.cells.insert l.fresh ⟨v, none, none⟩, head := some l.fresh, tail := some l.fresh
      total := l.total + 1, fresh := l.fresh + 1 }
  | some _ =>
    { l with
      cells := (Cell.write l.cells l.tail fun c => { c with next := some l.fresh }).insert l.fresh ⟨v, l.tail, none⟩
      tail := some l.fresh, total := l.total + 1, fresh := l.fresh + 1 }

/-- Unlink the cell `node` at the address `a`; its memory is free again. -/
def unlink (l : Links α) (a : Nat) (node : Cell α) : Links α :=
  { l with
    cells := (Cell.write (Cell.write l.cells node.prev fun c => { c with next := node.next }) node.next
      fun c => { c with prev := node.prev }).erase a
    head := if node.prev = none then node.next else l.head
    tail := if node.next = none then node.prev else l.tail
    total := l.total - 1 }

/-- The walk along the `next` pointers, at most `fuel` cells. -/
def walk (cells : FinMap Nat (Cell α)) : Nat → Option Nat → List α
  | 0, _ => []
  | _ + 1, none => []
  | fuel + 1, some a =>
    match cells.lookup a with
    | none => []
    | some c => c.value :: walk cells fuel c.next

/-- The first cell with the value, on the same walk. -/
def seek [DecidableEq α] (cells : FinMap Nat (Cell α)) (v : α) : Nat → Option Nat → Option (Nat × Cell α)
  | 0, _ => none
  | _ + 1, none => none
  | fuel + 1, some a =>
    match cells.lookup a with
    | none => none
    | some c => if c.value = v then some (a, c) else seek cells v fuel c.next

def toList (l : Links α) : List α := walk l.cells l.total l.head

def remove [DecidableEq α] (l : Links α) (v : α) : Links α :=
  match seek l.cells v l.total l.head with
  | none => l
  | some (a, node) => l.unlink a node

def valueAt (l : Links α) (p : Option Nat) : Option α := (p.bind l.cells.lookup).map (·.value)

def first (l : Links α) : Option α := l.valueAt l.head

/-- The value after the first `v`. -/
def next [DecidableEq α] (l : Links α) (v : α) : Option α :=
  match seek l.cells v l.total l.head with
  | none => none
  | some (_, node) => l.valueAt node.next

/-! ## Segments -/

/-- The cells of `addrs` are chained, between the neighbours `prev` and `next`. -/
def Seg (cells : FinMap Nat (Cell α)) : Option Nat → List Nat → Option Nat → Prop
  | _, [], _ => True
  | prev, a :: rest, next =>
    (∃ c, cells.lookup a = some c ∧ c.prev = prev ∧ c.next = rest.head?.or next) ∧ Seg cells (some a) rest next

structure Linked (l : Links α) (addrs : List Nat) : Prop where
  seg : Seg l.cells none addrs none
  nodup : addrs.Nodup
  head : l.head = addrs.head?
  tail : l.tail = addrs.getLast?
  total : l.total = addrs.length
  fresh : ∀ a ∈ addrs, a < l.fresh

variable {cells cells' : FinMap Nat (Cell α)} {p n p' n' : Option Nat} {xs ys : List Nat} {a b : Nat} {l : Links α} {v : α}

theorem Seg.congr (h : Seg cells p xs n) (he : ∀ a ∈ xs, cells'.lookup a = cells.lookup a) : Seg cells' p xs n := by
  induction xs generalizing p with
  | nil => trivial
  | cons a xs ih =>
    obtain ⟨⟨c, hc, hp, hn⟩, hrest⟩ := h
    exact ⟨⟨c, by rw [he a List.mem_cons_self, hc], hp, hn⟩, ih hrest fun b hb => he b (List.mem_cons_of_mem _ hb)⟩

theorem seg_append : Seg cells p (xs ++ ys) n ↔ Seg cells p xs (ys.head?.or n) ∧ Seg cells (xs.getLast?.or p) ys n := by
  induction xs generalizing p with
  | nil => simp [Seg]
  | cons a xs ih =>
    have hlast : (a :: xs).getLast?.or p = xs.getLast?.or (some a) := by
      rw [List.getLast?_cons]
      cases xs.getLast? <;> rfl
    have hhead : (xs ++ ys).head?.or n = xs.head?.or (ys.head?.or n) := by cases xs <;> simp
    simp only [List.cons_append, Seg]
    rw [ih, hlast, hhead, and_assoc]

theorem lookup_write (f : Cell α → Cell α) :
    (Cell.write cells (some a) f).lookup b = (cells.lookup b).map fun c => if b = a then f c else c := by
  by_cases e : b = a
  · subst e
    unfold Cell.write
    cases hc : cells.lookup b with
    | none => simp [hc]
    | some c => simp [hc]
  · have hid : (fun c : Cell α => if b = a then f c else c) = id := funext fun c => if_neg e
    rw [hid, Option.map_id, id]
    unfold Cell.write
    simp only
    split
    · rfl
    · rw [FinMap.lookup_insert_eq, if_neg e]

/-- The last cell's `next` rewritten. -/
theorem Seg.setNext (h : Seg cells p xs n) (hx : xs.Nodup) :
    Seg (Cell.write cells xs.getLast? fun c => { c with next := n' }) p xs n' := by
  cases xs using List.reverseRecOn with
  | nil => trivial
  | append_singleton xs b =>
    rw [seg_append] at h ⊢
    obtain ⟨hxs, ⟨c, hc, hp, _⟩, _⟩ := h
    rw [List.getLast?_concat]
    refine ⟨hxs.congr fun a ha => ?_, ⟨_, by rw [lookup_write, hc]; rfl, ?_, ?_⟩, trivial⟩
    · have hne : a ≠ b := fun e => (List.nodup_append.mp hx).2.2 a ha b (List.mem_singleton_self b) e
      rw [lookup_write]; simp [hne]
    · simpa using hp
    · simp

/-- The first cell's `prev` rewritten. -/
theorem Seg.setPrev (h : Seg cells p xs n) (hx : xs.Nodup) :
    Seg (Cell.write cells xs.head? fun c => { c with prev := p' }) p' xs n := by
  cases xs with
  | nil => trivial
  | cons b xs =>
    obtain ⟨⟨c, hc, _, hn⟩, hrest⟩ := h
    refine ⟨⟨_, by rw [List.head?_cons, lookup_write, hc]; rfl, by simp, by simpa using hn⟩, hrest.congr fun a ha => ?_⟩
    have hne : a ≠ b := fun e => (List.nodup_cons.mp hx).1 (e ▸ ha)
    rw [List.head?_cons, lookup_write]; simp [hne]

/-! ## Walks -/

/-- The values at the addresses. -/
def values (cells : FinMap Nat (Cell α)) (xs : List Nat) : List α := xs.filterMap fun a => (cells.lookup a).map (·.value)

theorem values_append (xs ys : List Nat) : values cells (xs ++ ys) = values cells xs ++ values cells ys := List.filterMap_append

theorem values_congr (he : ∀ a ∈ xs, (cells'.lookup a).map (·.value) = (cells.lookup a).map (·.value)) :
    values cells' xs = values cells xs := List.filterMap_congr he

theorem Seg.length_values (h : Seg cells p xs n) : (values cells xs).length = xs.length := by
  induction xs generalizing p with
  | nil => rfl
  | cons a xs ih =>
    obtain ⟨⟨c, hc, _⟩, hrest⟩ := h
    have hcons : values cells (a :: xs) = c.value :: values cells xs := by simp [values, hc]
    rw [hcons, List.length_cons, List.length_cons, ih hrest]

theorem Seg.walk (h : Seg cells p xs none) : Links.walk cells xs.length xs.head? = values cells xs := by
  induction xs generalizing p with
  | nil => rfl
  | cons a xs ih =>
    obtain ⟨⟨c, hc, _, hn⟩, hrest⟩ := h
    rw [Option.or_none] at hn
    simp only [List.length_cons, List.head?_cons, Links.walk, hc, hn, ih hrest]
    simp [values, hc]

variable [DecidableEq α]

/-- The walk finds the first cell with the value, or there is none. -/
theorem Seg.seek (h : Seg cells p xs none) :
    (seek cells v xs.length xs.head? = none ∧ v ∉ values cells xs) ∨
      ∃ before a after c, xs = before ++ a :: after ∧ Links.seek cells v xs.length xs.head? = some (a, c) ∧
        cells.lookup a = some c ∧ c.value = v ∧ v ∉ values cells before := by
  induction xs generalizing p with
  | nil => exact Or.inl ⟨rfl, by simp [values]⟩
  | cons a xs ih =>
    obtain ⟨⟨c, hc, _, hn⟩, hrest⟩ := h
    rw [Option.or_none] at hn
    have hcons : ∀ ys, values cells (a :: ys) = c.value :: values cells ys := fun ys => by simp [values, hc]
    simp only [List.length_cons, List.head?_cons, Links.seek, hc, hn]
    by_cases hv : c.value = v
    · exact Or.inr ⟨[], a, xs, c, rfl, by rw [if_pos hv], hc, hv, by simp [values]⟩
    · rw [if_neg hv]
      rcases ih hrest with ⟨hs, hnot⟩ | ⟨before, a', after, c', rfl, hs, hc', hv', hnot⟩
      · exact Or.inl ⟨hs, by rw [hcons]; exact List.not_mem_cons_of_ne_of_not_mem (Ne.symm hv) hnot⟩
      · exact Or.inr ⟨a :: before, a', after, c', rfl, hs, hc', hv', by
          rw [hcons]; exact List.not_mem_cons_of_ne_of_not_mem (Ne.symm hv) hnot⟩

omit [DecidableEq α] in
theorem Linked.toList (h : Linked l xs) : l.toList = values l.cells xs := by
  unfold Links.toList
  rw [h.total, h.head]
  exact h.seg.walk

/-! ## The operations -/

omit [DecidableEq α] in
theorem empty_linked : Linked (empty : Links α) [] := ⟨trivial, List.nodup_nil, rfl, rfl, rfl, by simp⟩

omit [DecidableEq α] in
theorem Linked.append (h : Linked l xs) (v : α) :
    Linked (l.append v) (xs ++ [l.fresh]) ∧ (l.append v).toList = l.toList ++ [v] := by
  have hnew : l.fresh ∉ xs := fun hm => Nat.lt_irrefl _ (h.fresh _ hm)
  have hnodup : (xs ++ [l.fresh]).Nodup := List.nodup_append.mpr
    ⟨h.nodup, List.nodup_singleton _, fun a ha b hb e => hnew (List.mem_singleton.mp hb ▸ e ▸ ha)⟩
  have hfresh : ∀ a ∈ xs ++ [l.fresh], a < l.fresh + 1 := by
    intro a ha
    rcases List.mem_append.mp ha with ha | ha
    · exact Nat.lt_succ_of_lt (h.fresh a ha)
    · rw [List.mem_singleton.mp ha]; exact Nat.lt_succ_self _
  suffices hl : Linked (l.append v) (xs ++ [l.fresh]) ∧
    values (l.append v).cells (xs ++ [l.fresh]) = values l.cells xs ++ [v] from
    ⟨hl.1, by rw [hl.1.toList, hl.2, h.toList]⟩
  unfold Links.append
  cases hx : xs with
  | nil =>
    subst hx
    rw [h.head]
    exact ⟨⟨⟨⟨_, AList.lookup_insert _, rfl, rfl⟩, trivial⟩, List.nodup_singleton _, rfl, rfl, by rw [h.total]; rfl, hfresh⟩,
      by simp [values]⟩
  | cons x xs' =>
    rw [← hx, h.head, hx, List.head?_cons, ← hx]
    simp only
    -- the old cells but for the last one's pointer, then the new cell
    have hkeep : ∀ f : Cell α → Cell α, ∀ a ∈ xs,
        ((Cell.write l.cells l.tail f).insert l.fresh ⟨v, l.tail, none⟩).lookup a = (Cell.write l.cells l.tail f).lookup a :=
      fun f a ha => by rw [FinMap.lookup_insert_eq, if_neg (ne_of_mem_of_not_mem ha hnew)]
    refine ⟨⟨?_, hnodup, by rw [hx]; rfl, by rw [List.getLast?_concat], by rw [h.total]; simp, hfresh⟩, ?_⟩
    · refine seg_append.mpr ⟨?_, ⟨_, AList.lookup_insert _, ?_, rfl⟩, trivial⟩
      · refine Seg.congr ?_ (hkeep _)
        rw [h.tail]
        exact h.seg.setNext h.nodup
      · rw [h.tail, Option.or_none]
    · rw [values_append]
      refine congrArg₂ _ (values_congr fun a ha => ?_) (by simp [values])
      rw [hkeep _ a ha, h.tail, hx, List.getLast?_cons, lookup_write, Option.map_map]
      congr 1
      funext c
      simp only [Function.comp_apply]
      split <;> rfl

omit [DecidableEq α] in
/-- A write to a pointer only: the values stay. -/
theorem write_value (f : Cell α → Cell α) (hf : ∀ c, (f c).value = c.value) (p : Option Nat) (a : Nat) :
    ((Cell.write cells p f).lookup a).map (·.value) = (cells.lookup a).map (·.value) := by
  cases p with
  | none => rfl
  | some b =>
    rw [lookup_write, Option.map_map]
    congr 1
    funext c
    simp only [Function.comp_apply]
    split
    · exact hf c
    · rfl

omit [DecidableEq α] in
theorem Linked.unlink {before after : List Nat} {node : Cell α} (h : Linked l (before ++ a :: after))
    (hc : l.cells.lookup a = some node) :
    Linked (l.unlink a node) (before ++ after) ∧ (l.unlink a node).toList = values l.cells before ++ values l.cells after := by
  obtain ⟨hb, ⟨c, hc', hprev, hnext⟩, ha⟩ := seg_append.mp h.seg
  rw [hc] at hc'; cases hc'
  rw [Option.or_none] at hprev hnext
  have hsub : (before ++ after).Sublist (before ++ a :: after) :=
    List.Sublist.append (List.Sublist.refl _) (List.sublist_cons_self _ _)
  have hnot : a ∉ before ++ after := (List.nodup_middle.mp h.nodup |> List.nodup_cons.mp).1
  have hdisj := (List.nodup_append.mp (h.nodup.sublist hsub)).2.2
  have hnb := (List.nodup_append.mp (h.nodup.sublist hsub)).1
  have hna := (List.nodup_append.mp (h.nodup.sublist hsub)).2.1
  have herase : ∀ cells : FinMap Nat (Cell α), ∀ b ∈ before ++ after, (cells.erase a).lookup b = cells.lookup b :=
    fun cells b hb => by rw [FinMap.lookup_erase_eq, if_neg (ne_of_mem_of_not_mem hb hnot)]
  suffices hl : Linked (l.unlink a node) (before ++ after) ∧
      values (l.unlink a node).cells (before ++ after) = values l.cells (before ++ after) from
    ⟨hl.1, by rw [hl.1.toList, hl.2, values_append]⟩
  unfold Links.unlink
  rw [hprev, hnext]
  refine ⟨⟨?_, h.nodup.sublist hsub, ?_, ?_, ?_, fun b hb => h.fresh b (hsub.subset hb)⟩, ?_⟩
  · -- first the last cell before, then the first cell after; neither write reaches the other part
    refine Seg.congr ?_ (herase _)
    refine seg_append.mpr ⟨?_, ?_⟩
    · refine (hb.setNext hnb).congr fun b hbm => ?_
      cases hd : after.head? with
      | none => rfl
      | some d =>
        rw [lookup_write]
        have hne : b ≠ d := fun e => hdisj b hbm d (List.mem_of_mem_head? hd) e
        simp [hne]
    · rw [Option.or_none]
      have hs : Seg (Cell.write l.cells before.getLast? fun c => { c with next := after.head? }) (some a) after none :=
        ha.congr fun b hbm => by
          cases hd : before.getLast? with
          | none => rfl
          | some d =>
            rw [lookup_write]
            have hne : b ≠ d := fun e => hdisj d (List.mem_of_getLast? hd) b hbm e.symm
            simp [hne]
      exact hs.setPrev hna
  · cases before using List.reverseRecOn with
    | nil => rfl
    | append_singleton ys b =>
      dsimp only
      rw [List.getLast?_concat, if_neg (by simp), h.head]
      cases ys <;> rfl
  · cases after with
    | nil => simp
    | cons d zs =>
      dsimp only
      rw [List.head?_cons, if_neg (by simp), h.tail]
      simp [List.getLast?_append, List.getLast?_cons]
  · rw [h.total]; simp
  · refine values_congr fun b hb => ?_
    rw [herase _ b hb]
    refine (write_value _ ?_ _ b).trans (write_value _ ?_ _ b)
    · exact fun _ => rfl
    · exact fun _ => rfl

theorem Linked.remove (h : Linked l xs) (v : α) : ∃ ys, Linked (l.remove v) ys ∧ (l.remove v).toList = l.toList.erase v := by
  have hs := h.seg.seek (v := v)
  rw [← h.total, ← h.head] at hs
  unfold Links.remove
  rcases hs with ⟨hs, hnot⟩ | ⟨before, a, after, c, rfl, hs, hc, hv, hnot⟩
  · rw [hs]
    exact ⟨xs, h, by rw [h.toList, List.erase_of_not_mem hnot]⟩
  · rw [hs]
    obtain ⟨h1, h2⟩ := h.unlink hc
    refine ⟨_, h1, h2.trans ?_⟩
    have hsplit : l.toList = values l.cells before ++ v :: values l.cells after := by
      rw [h.toList, values_append]
      simp [values, hc, hv]
    rw [hsplit, List.erase_append_right _ hnot, List.erase_cons_head]

omit [DecidableEq α] in
theorem Seg.valueAt (h : Seg cells p xs none) :
    xs.head?.bind (fun a => (cells.lookup a).map (·.value)) = (values cells xs).head? := by
  cases xs with
  | nil => rfl
  | cons a xs =>
    obtain ⟨⟨c, hc, _⟩, _⟩ := h
    simp [values, hc]

omit [DecidableEq α] in
theorem Linked.first (h : Linked l xs) : l.first = l.toList.head? := by
  unfold Links.first Links.valueAt
  rw [h.toList, h.head, Option.map_bind, ← h.seg.valueAt]
  rfl

theorem Linked.next (h : Linked l xs) (v : α) : l.next v = (l.toList.dropWhile (· ≠ v)).tail.head? := by
  have hs := h.seg.seek (v := v)
  rw [← h.total, ← h.head] at hs
  unfold Links.next
  rcases hs with ⟨hs, hnot⟩ | ⟨before, a, after, c, rfl, hs, hc, hv, hnot⟩
  · rw [hs, h.toList, List.dropWhile_eq_nil_iff.mpr fun x hx => by simpa using ne_of_mem_of_not_mem hx hnot]
    rfl
  · obtain ⟨_, ⟨c', hc', _, hnext⟩, ha⟩ := seg_append.mp h.seg
    rw [hc] at hc'; cases hc'
    rw [Option.or_none] at hnext
    have hsplit : l.toList = values l.cells before ++ v :: values l.cells after := by
      rw [h.toList, values_append]
      simp [values, hc, hv]
    have hdrop : (values l.cells before ++ v :: values l.cells after).dropWhile (· ≠ v) = v :: values l.cells after := by
      rw [List.dropWhile_append_of_pos fun x hx => by
        simpa using ne_of_mem_of_not_mem hx hnot, List.dropWhile_cons_of_neg (by simp)]
    rw [hs, hsplit, hdrop, List.tail_cons, ← ha.valueAt]
    simp only [Links.valueAt, hnext, Option.map_bind]
    rfl

end Links

/-! ## Linked lists -/

/-- Pointers that spell a list. -/
structure LinkedList (α : Type) where
  links : Links α
  linked : ∃ addrs, links.Linked addrs

namespace LinkedList

variable {l : LinkedList α} {v : α}

def empty : LinkedList α := ⟨.empty, [], Links.empty_linked⟩

def append (l : LinkedList α) (v : α) : LinkedList α :=
  ⟨l.links.append v, by obtain ⟨addrs, h⟩ := l.linked; exact ⟨_, (h.append v).1⟩⟩

def remove [DecidableEq α] (l : LinkedList α) (v : α) : LinkedList α :=
  ⟨l.links.remove v, by obtain ⟨addrs, h⟩ := l.linked; obtain ⟨ys, hy, _⟩ := h.remove v; exact ⟨ys, hy⟩⟩

def toList (l : LinkedList α) : List α := l.links.toList

def len (l : LinkedList α) : Nat := l.links.total

def head? (l : LinkedList α) : Option α := l.links.first

def next [DecidableEq α] (l : LinkedList α) (v : α) : Option α := l.links.next v

@[simp] theorem toList_empty : (empty : LinkedList α).toList = [] := rfl

@[simp] theorem toList_append : (l.append v).toList = l.toList ++ [v] := by
  obtain ⟨addrs, h⟩ := l.linked
  exact (h.append v).2

@[simp] theorem toList_remove [DecidableEq α] : (l.remove v).toList = l.toList.erase v := by
  obtain ⟨addrs, h⟩ := l.linked
  obtain ⟨_, _, he⟩ := h.remove v
  exact he

theorem len_eq : l.len = l.toList.length := by
  obtain ⟨addrs, h⟩ := l.linked
  unfold len toList
  rw [h.total, h.toList]
  exact h.seg.length_values.symm

theorem head?_eq : l.head? = l.toList.head? := by
  obtain ⟨addrs, h⟩ := l.linked
  exact h.first

theorem next_eq [DecidableEq α] : l.next v = (l.toList.dropWhile (· ≠ v)).tail.head? := by
  obtain ⟨addrs, h⟩ := l.linked
  exact h.next v

end LinkedList

end Doq.Lib
