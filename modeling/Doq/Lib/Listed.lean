/-
  Doq.Lib.Listed — a multiset that lists the values of a partial map.

  `Listed key s look` says that `s` holds every value of `look` once and nothing else, and
  that `key` leads from a value back to the place it lies under. The rules say how the list
  changes when one place of the map does, and that a map has only one list.
-/

import Mathlib.Data.Multiset.AddSub
import Mathlib.Data.Multiset.MapFold
import Mathlib.Data.Multiset.UnionInter
import Mathlib.Logic.Function.Basic

namespace Doq.Lib

variable {κ α : Type} {key : α → κ} {s rest : Multiset α} {look look' : κ → Option α} {a b : α}

structure Listed (key : α → κ) (s : Multiset α) (look : κ → Option α) : Prop where
  nodup : (s.map key).Nodup
  mem : ∀ a, a ∈ s ↔ look (key a) = some a
  key_eq : ∀ k a, look k = some a → key a = k

namespace Listed

theorem empty : Listed key 0 fun _ => none := ⟨by simp, fun a => by simp, nofun⟩

theorem congr (h : Listed key s look) (he : ∀ k, look' k = look k) : Listed key s look' :=
  ⟨h.nodup, fun a => by rw [he]; exact h.mem a, fun k a hk => h.key_eq k a (by rw [← he]; exact hk)⟩

theorem of_look (h : Listed key s look) {k : κ} (hk : look k = some a) : a ∈ s := by
  rw [h.mem, h.key_eq k a hk]; exact hk

theorem notMem (h : Listed key s look) {k : κ} (hk : look k = none) : ∀ a ∈ s, key a ≠ k := by
  intro a ha e
  rw [h.mem, e, hk] at ha
  cases ha

/-- A map has only one list. -/
theorem unique {t : Multiset α} (h : Listed key s look) (h' : Listed key t look) : s = t :=
  (Multiset.Nodup.ext h.nodup.of_map h'.nodup.of_map).mpr fun a => (h.mem a).trans (h'.mem a).symm

/-- The values with a property are no more than before, apart from those at new places. -/
theorem countP_le {t : Multiset α} {p : α → Prop} [DecidablePred p] (h : Listed key s look) (h' : Listed key t look')
    (extra : Multiset κ) (hsub : ∀ k b, look' k = some b → p b → k ∈ extra ∨ ∃ a, look k = some a ∧ p a) :
    t.countP p ≤ extra.card + s.countP p := by
  have hnodup : ((t.filter p).map key).Nodup := Multiset.nodup_of_le (Multiset.map_le_map (Multiset.filter_le p t)) h'.nodup
  have hle : (t.filter p).map key ≤ extra + (s.filter p).map key := by
    refine (Multiset.le_iff_subset hnodup).mpr fun k hk => ?_
    obtain ⟨b, hb, rfl⟩ := Multiset.mem_map.mp hk
    obtain ⟨hmem, hpb⟩ := Multiset.mem_filter.mp hb
    rcases hsub _ b ((h'.mem b).mp hmem) hpb with hextra | ⟨a, ha, hpa⟩
    · exact Multiset.mem_add.mpr (Or.inl hextra)
    · refine Multiset.mem_add.mpr (Or.inr (Multiset.mem_map.mpr ⟨a, Multiset.mem_filter.mpr ⟨h.of_look ha, hpa⟩, ?_⟩))
      exact h.key_eq _ a ha
  have hcard := Multiset.card_le_card hle
  rwa [Multiset.card_map, Multiset.card_add, Multiset.card_map, ← Multiset.countP_eq_card_filter,
    ← Multiset.countP_eq_card_filter] at hcard

variable [DecidableEq κ]

theorem count_key (h : Listed key s look) (k : κ) : (s.map key).count k = if (look k).isSome then 1 else 0 := by
  cases hk : look k with
  | none =>
    refine Multiset.count_eq_zero.mpr fun hin => ?_
    obtain ⟨a, ha, hak⟩ := Multiset.mem_map.mp hin
    exact h.notMem hk a ha hak
  | some a =>
    have hin : k ∈ s.map key := Multiset.mem_map.mpr ⟨a, h.of_look hk, h.key_eq k a hk⟩
    exact Multiset.count_eq_one_of_mem h.nodup hin

theorem push (h : Listed key s look) (hn : look (key a) = none) :
    Listed key (a ::ₘ s) (Function.update look (key a) (some a)) where
  nodup := by
    rw [Multiset.map_cons, Multiset.nodup_cons]
    refine ⟨fun hin => ?_, h.nodup⟩
    obtain ⟨b, hb, hk⟩ := Multiset.mem_map.mp hin
    exact h.notMem hn b hb hk
  mem b := by
    rw [Multiset.mem_cons]
    by_cases e : key b = key a
    · rw [e, Function.update_self, Option.some.injEq]
      constructor
      · rintro (rfl | hb)
        · rfl
        · exact absurd e (h.notMem hn b hb)
      · intro hab; exact Or.inl hab.symm
    · rw [Function.update_of_ne e, ← h.mem]
      constructor
      · rintro (rfl | hb)
        · exact absurd rfl e
        · exact hb
      · exact Or.inr
  key_eq k b hk := by
    by_cases e : k = key a
    · rw [e, Function.update_self, Option.some.injEq] at hk
      rw [← hk, e]
    · rw [Function.update_of_ne e] at hk
      exact h.key_eq k b hk

theorem pop (h : Listed key s look) (hs : s = a ::ₘ rest) : Listed key rest (Function.update look (key a) none) := by
  have hnd := h.nodup
  rw [hs, Multiset.map_cons, Multiset.nodup_cons] at hnd
  refine ⟨hnd.2, fun b => ?_, fun k b hk => ?_⟩
  · by_cases e : key b = key a
    · rw [e, Function.update_self]
      exact ⟨fun hb => (hnd.1 (e ▸ Multiset.mem_map_of_mem key hb)).elim, nofun⟩
    · rw [Function.update_of_ne e, ← h.mem, hs, Multiset.mem_cons]
      exact ⟨Or.inr, fun hb => hb.resolve_left fun hba => e (by rw [hba])⟩
  · by_cases e : k = key a
    · rw [e, Function.update_self] at hk; cases hk
    · rw [Function.update_of_ne e] at hk
      exact h.key_eq k b hk

/-- The list before one place was emptied. -/
theorem eq_cons {t : Multiset α} (h : Listed key s look) (ht : Listed key t (Function.update look (key a) none))
    (ha : look (key a) = some a) : s = a ::ₘ t := by
  obtain ⟨rest, hs⟩ := Multiset.exists_cons_of_mem ((h.mem a).mpr ha)
  rw [hs, (h.pop hs).unique ht]

theorem replace (h : Listed key s look) (hs : s = a ::ₘ rest) (hk : key b = key a) :
    Listed key (b ::ₘ rest) (Function.update look (key a) (some b)) := by
  have hp := h.pop hs
  have := hp.push (a := b) (by rw [hk, Function.update_self])
  rw [hk, Function.update_idem] at this
  exact this

end Listed

end Doq.Lib
