/-
  Doq.Lib.Dotted — dotted names: a string is the list of its components, split at every
  dot. `split` is `strings.Split(s, ".")`; `join` puts the dots back.

  Proved: `join_split` and `split_join`, so that a name is its path and a path of
  dot-free components is its name; `join_concat`, the key of a child from the key of
  its parent.
-/

import Mathlib.Logic.Basic

namespace Doq.Lib.Dotted

def split (s : String) : List String := (s.toList.splitOn '.').map String.ofList

def join (p : List String) : String := String.ofList (List.intercalate ['.'] (p.map String.toList))

def DotFree (c : String) : Prop := '.' ∉ c.toList

instance (c : String) : Decidable (DotFree c) := inferInstanceAs (Decidable (¬ _))

theorem split_ne_nil (s : String) : split s ≠ [] := by simp [split]

theorem join_split (s : String) : join (split s) = s := by
  unfold join split
  rw [List.map_map, show (String.toList ∘ String.ofList) = id from funext fun l => String.toList_ofList, List.map_id,
    List.intercalate_splitOn, String.ofList_toList]

theorem split_inj {s t : String} (h : split s = split t) : s = t := by rw [← join_split s, h, join_split]

theorem split_join {p : List String} (hp : p ≠ []) (hd : ∀ c ∈ p, DotFree c) : split (join p) = p := by
  unfold join split
  rw [String.toList_ofList, List.splitOn_intercalate '.' ?_ (by simpa using hp), List.map_map,
    show (String.ofList ∘ String.toList) = id from funext fun s => String.ofList_toList, List.map_id]
  intro l hl
  obtain ⟨c, hc, rfl⟩ := List.mem_map.mp hl
  exact hd c hc

theorem notMem_of_mem_splitOn {l : List Char} : ∀ c ∈ l.splitOn '.', '.' ∉ c := by
  induction l with
  | nil => simp
  | cons x l ih =>
    rw [List.splitOn_cons_eq_if_modifyHead]
    split
    · intro c hc
      rcases List.mem_cons.mp hc with rfl | hc
      · simp
      · exact ih c hc
    · rename_i hx
      obtain ⟨h, t, e⟩ := List.exists_cons_of_ne_nil (List.splitOn_ne_nil '.' l)
      rw [e] at ih ⊢
      intro c hc
      rcases List.mem_cons.mp hc with rfl | hc
      · have hh := ih h (List.mem_cons_self ..)
        simp only [List.mem_cons, not_or]
        exact ⟨fun e => hx (by simp [← e]), hh⟩
      · exact ih c (List.mem_cons_of_mem _ hc)

theorem dotFree_of_mem_split {s c : String} (h : c ∈ split s) : DotFree c := by
  obtain ⟨l, hl, rfl⟩ := List.mem_map.mp h
  unfold DotFree
  rw [String.toList_ofList]
  exact notMem_of_mem_splitOn l hl

@[simp] theorem join_nil : join [] = "" := rfl

@[simp] theorem join_singleton (c : String) : join [c] = c := by simp [join]

/-- The key of a child: its parent's key, a dot and its name. -/
theorem join_concat {p : List String} (hp : p ≠ []) (c : String) : join (p ++ [c]) = join p ++ "." ++ c := by
  induction p with
  | nil => exact absurd rfl hp
  | cons a p ih =>
    cases p with
    | nil => apply String.toList_inj.mp; simp [join, List.intercalate_cons_cons]
    | cons b p =>
      have := congrArg String.toList (ih (by simp))
      apply String.toList_inj.mp
      simp only [join, String.toList_ofList, String.toList_append, List.cons_append, List.map_cons,
        List.intercalate_cons_cons] at this ⊢
      simp only [this, List.append_assoc]

/-- Only the empty path, or one that starts with an empty component, has the empty key. -/
theorem join_ne_empty {p : List String} (hp : p ≠ []) (hh : p.head? ≠ some "") : join p ≠ "" := by
  cases p with
  | nil => exact absurd rfl hp
  | cons a p =>
    intro h
    have ha : a ≠ "" := fun e => hh (by simp [e])
    have hl : a.toList ≠ [] := fun e => ha (String.toList_inj.mp (by simpa using e))
    have := congrArg String.toList h
    simp only [join, String.toList_ofList, List.map_cons] at this
    cases p with
    | nil => simp at this; exact ha this
    | cons b p => simp [List.intercalate_cons_cons, ha] at this

theorem head?_split_ne_empty {s : String} (h0 : s ≠ "") (hd : s.toList.head? ≠ some '.') : (split s).head? ≠ some "" := by
  unfold split
  cases hl : s.toList with
  | nil => exact absurd (String.toList_inj.mp (by simpa using hl)) h0
  | cons x l =>
    rw [hl] at hd
    have hx : x ≠ '.' := fun e => hd (by simp [e])
    rw [List.splitOn_cons_eq_if_modifyHead, if_neg (by simpa using hx)]
    obtain ⟨h, t, e⟩ := List.exists_cons_of_ne_nil (List.splitOn_ne_nil '.' l)
    rw [e]
    intro heq
    have := congrArg String.toList (Option.some.inj heq)
    simp at this

/-- And only such a name has a first component that is not empty. -/
theorem of_head?_split_ne_empty {s : String} (h : (split s).head? ≠ some "") : s ≠ "" ∧ s.toList.head? ≠ some '.' := by
  constructor
  · rintro rfl
    exact h rfl
  · intro hd
    obtain ⟨l, hl⟩ := List.head?_eq_some_iff.mp hd
    refine h ?_
    unfold split
    rw [hl, List.splitOn_cons_eq_if_modifyHead, if_pos (by simp)]
    rfl

end Doq.Lib.Dotted
