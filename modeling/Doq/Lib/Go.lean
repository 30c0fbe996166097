/-
  Doq.Lib.Go — computations that may panic.

  `Go α` is a Go computation: `none` is the panic. `Returns x P` says that `x` does not
  panic and its result satisfies `P`: a total specification. The rules below are those
  of a straight-line program: a value, a sequence, a weaker postcondition; and three loops
  over a list. `Simulates R x y` relates two computations: if `x` returns, so does `y`, with
  a result in the relation `R`.
-/

import Mathlib.Data.List.Forall2

namespace Doq

abbrev Go := Option

namespace Lib

variable {α β : Type}

def Returns (x : Go α) (P : α → Prop) : Prop := ∃ a, x = some a ∧ P a

namespace Returns

variable {x : Go α} {P Q : α → Prop}

theorem intro {a : α} (h : P a) : Returns (some a) P := ⟨a, rfl, h⟩

theorem of_eq {a : α} (e : x = some a) (h : P a) : Returns x P := ⟨a, e, h⟩

/-- What the specification says of a result that is known. -/
theorem result {a : α} (h : Returns x P) (e : x = some a) : P a := by
  obtain ⟨b, rfl, hb⟩ := h
  cases e
  exact hb

theorem mono (h : Returns x P) (hPQ : ∀ a, P a → Q a) : Returns x Q := by
  obtain ⟨a, e, ha⟩ := h
  exact ⟨a, e, hPQ a ha⟩

theorem bind {f : α → Go β} {R : β → Prop} (h : Returns x P) (hf : ∀ a, P a → Returns (f a) R) : Returns (x >>= f) R := by
  obtain ⟨a, rfl, ha⟩ := h
  exact hf a ha

/-- The first computation of a sequence, when its result is known. -/
theorem bind_eq {f : α → Go β} {R : β → Prop} {a : α} (e : x = some a) (h : Returns (f a) R) : Returns (x >>= f) R := by
  rw [e]; exact h

theorem map {f : α → β} {R : β → Prop} (h : Returns x P) (hf : ∀ a, P a → R (f a)) : Returns (x.map f) R := by
  obtain ⟨a, rfl, ha⟩ := h
  exact ⟨f a, rfl, hf a ha⟩

/-- Two specifications of one computation. -/
theorem and (h : Returns x P) (h' : Returns x Q) : Returns x fun a => P a ∧ Q a := by
  obtain ⟨a, rfl, ha⟩ := h
  obtain ⟨b, e, hb⟩ := h'
  cases e
  exact ⟨a, rfl, ha, hb⟩

/-- A loop over a list that collects its results. -/
theorem mapM {f : α → Go β} {Q : α → β → Prop} : ∀ {l : List α}, (∀ a ∈ l, Returns (f a) (Q a)) →
    Returns (l.mapM f) fun bs => List.Forall₂ Q l bs
  | [], _ => ⟨[], rfl, .nil⟩
  | a :: l, h => by
    rw [List.mapM_cons]
    refine (h a List.mem_cons_self).bind fun b hb => (mapM fun c hc => h c (List.mem_cons_of_mem _ hc)).bind fun bs hbs => ?_
    exact ⟨b :: bs, rfl, .cons hb hbs⟩

/-- A loop that carries a state: an invariant between the elements done and the state. -/
theorem foldlM {σ : Type} {f : σ → α → Go σ} {I : List α → σ → Prop} {l : List α} {s : σ} (h0 : I [] s)
    (hstep : ∀ done a rest s, l = done ++ a :: rest → I done s → Returns (f s a) (I (done ++ [a]))) :
    Returns (l.foldlM f s) (I l) := by
  have key : ∀ (todo done : List α) (s : σ), l = done ++ todo → I done s → Returns (todo.foldlM f s) (I l) := by
    intro todo
    induction todo with
    | nil =>
      intro done s hl hI
      rw [hl, List.append_nil]
      exact .intro hI
    | cons a todo ih =>
      intro done s hl hI
      rw [List.foldlM_cons]
      refine (hstep done a todo s hl hI).bind fun s' hI' => ih (done ++ [a]) s' ?_ hI'
      rw [hl, List.append_assoc, List.singleton_append]
  exact key l [] s rfl h0

/-- A loop over a list that ends at the first hit. -/
theorem anyM {f : α → Go Bool} {Q : α → Prop} : ∀ {l : List α}, (∀ a ∈ l, Returns (f a) fun b => b = true ↔ Q a) →
    Returns (l.anyM f) fun b => b = true ↔ ∃ a ∈ l, Q a
  | [], _ => ⟨false, rfl, by simp⟩
  | a :: l, h => by
    unfold List.anyM
    refine (h a List.mem_cons_self).bind fun b hb => ?_
    cases b with
    | true => exact ⟨true, rfl, by simp [← hb]⟩
    | false =>
      refine (anyM fun c hc => h c (List.mem_cons_of_mem _ hc)).mono fun b hb' => ?_
      rw [hb', List.exists_mem_cons_iff]
      have : ¬ Q a := fun hq => by cases hb.mpr hq
      simp [this]

end Returns

/-- Each result of a loop that returned is the result of one of its elements. -/
theorem of_mem_mapM {f : α → Go β} {b : β} : ∀ {l : List α} {bs : List β}, l.mapM f = some bs → b ∈ bs → ∃ a ∈ l, f a = some b
  | [], _, h, hb => by cases h; cases hb
  | a :: l, bs, h, hb => by
    rw [List.mapM_cons] at h
    obtain ⟨b', hb', h⟩ := Option.bind_eq_some_iff.mp h
    obtain ⟨bs', hbs', h⟩ := Option.bind_eq_some_iff.mp h
    cases h
    rcases List.mem_cons.mp hb with rfl | hb
    · exact ⟨a, List.mem_cons_self, hb'⟩
    · obtain ⟨a', ha', hf⟩ := of_mem_mapM hbs' hb
      exact ⟨a', List.mem_cons_of_mem _ ha', hf⟩

theorem map_of_mapM {f : α → Go β} : ∀ {l : List α} {bs : List β}, l.mapM f = some bs → l.map f = bs.map some
  | [], _, h => by cases h; rfl
  | a :: l, bs, h => by
    rw [List.mapM_cons] at h
    obtain ⟨b, hb, h⟩ := Option.bind_eq_some_iff.mp h
    obtain ⟨bs', hbs', h⟩ := Option.bind_eq_some_iff.mp h
    cases h
    rw [List.map_cons, List.map_cons, hb, map_of_mapM hbs']

theorem of_mapM {f : α → Go β} {l : List α} {bs : List β} (h : l.mapM f = some bs) {a : α} (ha : a ∈ l) : ∃ b, f a = some b := by
  have hin := List.mem_map_of_mem (f := f) ha
  rw [map_of_mapM h] at hin
  obtain ⟨b, _, hb⟩ := List.mem_map.mp hin
  exact ⟨b, hb.symm⟩

/-- When the first computation returns, the second returns a related result. -/
def Simulates (R : α → β → Prop) (x : Go α) (y : Go β) : Prop := ∀ a, x = some a → ∃ b, y = some b ∧ R a b

namespace Simulates

variable {γ δ : Type} {R : α → β → Prop} {S : γ → δ → Prop} {x : Go α} {y : Go β}

theorem intro {a : α} {b : β} (h : R a b) : Simulates R (some a) (some b) := by
  intro c hc
  cases hc
  exact ⟨b, rfl, h⟩

theorem bind {k : α → Go γ} {l : β → Go δ} (h : Simulates R x y) (hk : ∀ a b, R a b → Simulates S (k a) (l b)) :
    Simulates S (x >>= k) (y >>= l) := by
  intro c hc
  obtain ⟨a, ha, hc⟩ := Option.bind_eq_some_iff.mp hc
  obtain ⟨b, hb, hR⟩ := h a ha
  obtain ⟨d, hd, hS⟩ := hk a b hR c hc
  exact ⟨d, Option.bind_eq_some_iff.mpr ⟨b, hb, hd⟩, hS⟩

/-- The same first computation on both sides. -/
theorem bind_same {x : Go α} {k : α → Go γ} {l : α → Go δ} (hk : ∀ a, x = some a → Simulates S (k a) (l a)) :
    Simulates S (x >>= k) (x >>= l) := by
  intro c hc
  obtain ⟨a, ha, hc⟩ := Option.bind_eq_some_iff.mp hc
  obtain ⟨d, hd, hS⟩ := hk a ha c hc
  exact ⟨d, Option.bind_eq_some_iff.mpr ⟨a, ha, hd⟩, hS⟩

theorem map {f : α → γ} {g : β → δ} (h : Simulates R x y) (hf : ∀ a b, R a b → S (f a) (g b)) :
    Simulates S (x.map f) (y.map g) := by
  intro c hc
  obtain ⟨a, ha, rfl⟩ := Option.map_eq_some_iff.mp hc
  obtain ⟨b, hb, hR⟩ := h a ha
  exact ⟨g b, Option.map_eq_some_iff.mpr ⟨b, hb, rfl⟩, hf a b hR⟩

end Simulates

end Lib

end Doq
