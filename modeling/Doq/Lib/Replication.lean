/-
  Doq.Lib.Replication — replicas of one machine that follow one log.

  A world has a log that only grows, replicas that have each applied a prefix of it, and the
  snapshots that replicas have saved. At each step an entry is committed, or a replica applies
  the next entry of the log, saves its state, or loads a saved snapshot over the state it is
  in. The answers are kept as a history of who answered which entry how.

  `Replicable` is what the machine needs: a relation between states that cannot be told apart,
  kept by every entry with the same answer, and restored by loading a snapshot of a related
  state. Rule: whatever the interleaving, a world follows the one run of the log
  (`Reaches.follows`), so replicas answer alike and never get stuck.
-/

import Doq.Lib.Run
import Mathlib.Logic.Function.Basic
import Mathlib.Logic.Relation

namespace Doq.Lib

variable {κ σ ι ο δ : Type}

/-! ## Worlds -/

structure Replica (σ : Type) where
  state : σ
  /-- How many entries of the log it has applied. -/
  applied : Nat

structure World (κ σ ι ο δ : Type) where
  log : List ι
  replicas : κ → Replica σ
  /-- The snapshots, each with the number of entries it stands for. -/
  saved : List (Nat × δ)
  /-- Who answered the entry at which index how. -/
  answers : List (κ × Nat × ο)

namespace World

def new (initial : κ → σ) : World κ σ ι ο δ := ⟨[], fun k => ⟨initial k, 0⟩, [], []⟩

inductive Step [DecidableEq κ] (step : σ → ι → Option (ο × σ)) (save : σ → δ → Prop) (load : σ → δ → Option σ) :
    World κ σ ι ο δ → World κ σ ι ο δ → Prop
  | commit (w : World κ σ ι ο δ) (i : ι) : Step step save load w { w with log := w.log ++ [i] }
  | apply (w : World κ σ ι ο δ) (k : κ) {i : ι} {o : ο} {s' : σ} (hi : w.log[(w.replicas k).applied]? = some i)
      (hs : step (w.replicas k).state i = some (o, s')) :
      Step step save load w { w with
        replicas := Function.update w.replicas k ⟨s', (w.replicas k).applied + 1⟩
        answers := (k, (w.replicas k).applied, o) :: w.answers }
  | save (w : World κ σ ι ο δ) (k : κ) {d : δ} (hd : save (w.replicas k).state d) :
      Step step save load w { w with saved := ((w.replicas k).applied, d) :: w.saved }
  | load (w : World κ σ ι ο δ) (k : κ) {n : Nat} {d : δ} {s' : σ} (hd : (n, d) ∈ w.saved)
      (hl : load (w.replicas k).state d = some s') :
      Step step save load w { w with replicas := Function.update w.replicas k ⟨s', n⟩ }

abbrev Reaches [DecidableEq κ] (step : σ → ι → Option (ο × σ)) (save : σ → δ → Prop) (load : σ → δ → Option σ) :
    World κ σ ι ο δ → World κ σ ι ο δ → Prop :=
  Relation.ReflTransGen (Step step save load)

end World

/-! ## The run of the log -/

namespace Run

variable {step : σ → ι → Option (ο × σ)} {s t : σ} {events : List (Event σ ι ο)}

/-- The state after the first `n` events. -/
def stateAt (s : σ) (events : List (Event σ ι ο)) (n : Nat) : σ := (((events.take n).getLast?).map Event.after).getD s

theorem stateAt_succ {n : Nat} {e : Event σ ι ο} (he : events[n]? = some e) : stateAt s events (n + 1) = e.after := by
  unfold stateAt
  rw [List.take_add_one, he, Option.toList_some, List.getLast?_concat]
  rfl

theorem stateAt_eq_before {n : Nat} {e : Event σ ι ο} (h : Run step s events t) (he : events[n]? = some e) :
    stateAt s events n = e.before := by
  induction h generalizing n with
  | nil => cases he
  | @cons s s' t i o events hs hrun ih =>
    cases n with
    | zero => cases he; rfl
    | succ n =>
      have he : events[n]? = some e := he
      rw [← ih he]
      unfold stateAt
      rw [List.take_succ_cons]
      cases hl : events.take n with
      | nil => rfl
      | cons e' l =>
        rw [List.getLast?_cons_cons, List.getLast?_eq_some_getLast (List.cons_ne_nil e' l)]
        rfl

end Run

/-! ## Following it -/

section Replicable

variable {step : σ → ι → Option (ο × σ)} {save : σ → δ → Prop} {load : σ → δ → Option σ} {R : σ → σ → Prop}
  {form : Event σ ι ο → Prop}

/-- The relation `R` holds between states that answer the entries of the form alike, and between
    a state and what is loaded from a snapshot of a related one. -/
structure Replicable (step : σ → ι → Option (ο × σ)) (save : σ → δ → Prop) (load : σ → δ → Option σ) (R : σ → σ → Prop)
    (form : Event σ ι ο → Prop) : Prop where
  step_alike : ∀ (e : Event σ ι ο) (t : σ), form e → step e.before e.input = some (e.output, e.after) → R e.before t →
    ∃ t', step t e.input = some (e.output, t') ∧ R e.after t'
  loads : ∀ (s t u v : σ) (d : δ), R s t → save t d → R v u → ∃ u', load u d = some u' ∧ R s u'

namespace World

variable {w w' : World κ σ ι ο δ} {base : σ} {events : List (Event σ ι ο)}

/-- Every replica and every snapshot stands at a point of the run, and every answer is the run's. -/
structure Follows (save : σ → δ → Prop) (R : σ → σ → Prop) (base : σ) (events : List (Event σ ι ο))
    (w : World κ σ ι ο δ) : Prop where
  replicas : ∀ k, R (Run.stateAt base events (w.replicas k).applied) (w.replicas k).state
  saved : ∀ n d, (n, d) ∈ w.saved → ∃ t, R (Run.stateAt base events n) t ∧ save t d
  answers : ∀ k n o, (k, n, o) ∈ w.answers → ∃ e, events[n]? = some e ∧ e.output = o

/-- The entry a replica applies next is the run's. -/
theorem event_at {k : κ} {i : ι} (hlog : w.log <+: events.map Event.input) (hi : w.log[(w.replicas k).applied]? = some i) :
    ∃ e, events[(w.replicas k).applied]? = some e ∧ e.input = i := by
  obtain ⟨rest, hrest⟩ := hlog
  have hlt := (List.getElem?_eq_some_iff.mp hi).1
  have hm : (events.map Event.input)[(w.replicas k).applied]? = some i := by
    rw [← hrest, List.getElem?_append_left hlt, hi]
  rw [List.getElem?_map] at hm
  exact Option.map_eq_some_iff.mp hm

theorem Follows.answer (h : Follows save R base events w) (hR : Replicable step save load R form) {t : σ}
    (r : Run step base events t) (hform : ∀ e ∈ events, form e) (hlog : w.log <+: events.map Event.input) {k : κ} {i : ι}
    (hi : w.log[(w.replicas k).applied]? = some i) :
    ∃ e s', events[(w.replicas k).applied]? = some e ∧ step (w.replicas k).state i = some (e.output, s') ∧ R e.after s' := by
  obtain ⟨e, he, rfl⟩ := event_at hlog hi
  have hmem := List.mem_of_getElem? he
  have hrel := h.replicas k
  rw [r.stateAt_eq_before he] at hrel
  obtain ⟨s', hs', hrel'⟩ := hR.step_alike e _ (hform e hmem) (r.step_of_mem hmem) hrel
  exact ⟨e, s', he, hs', hrel'⟩

variable [DecidableEq κ]

/-- A replica may be set to a state that stands at a point of the run. -/
theorem Follows.put (h : Follows save R base events w) (k : κ) {r : Replica σ}
    (hr : R (Run.stateAt base events r.applied) r.state) (l : κ) :
    R (Run.stateAt base events (Function.update w.replicas k r l).applied) (Function.update w.replicas k r l).state := by
  by_cases hl : l = k
  · rwa [hl, Function.update_self]
  · rw [Function.update_of_ne hl]
    exact h.replicas l

theorem Step.follows (hstep : Step step save load w w') (hR : Replicable step save load R form) {t : σ}
    (r : Run step base events t) (hform : ∀ e ∈ events, form e) (hlog : w.log <+: events.map Event.input)
    (h : Follows save R base events w) : Follows save R base events w' := by
  cases hstep with
  | commit i => exact ⟨h.replicas, h.saved, h.answers⟩
  | apply k hi hs =>
    obtain ⟨e, s', he, hs', hrel⟩ := h.answer hR r hform hlog hi
    rw [hs] at hs'
    cases hs'
    refine ⟨h.put k (Run.stateAt_succ he ▸ hrel), h.saved, fun l n o hmem => ?_⟩
    rcases List.mem_cons.mp hmem with heq | hmem
    · cases heq
      exact ⟨e, he, rfl⟩
    · exact h.answers l n o hmem
  | save k hd =>
    refine ⟨h.replicas, fun n d hmem => ?_, h.answers⟩
    rcases List.mem_cons.mp hmem with heq | hmem
    · cases heq
      exact ⟨_, h.replicas k, hd⟩
    · exact h.saved n d hmem
  | @load k n d s' hd hl =>
    obtain ⟨t, hrel, hsave⟩ := h.saved n d hd
    obtain ⟨u, hu, hrel'⟩ := hR.loads _ _ _ _ _ hrel hsave (h.replicas k)
    rw [hl] at hu
    cases hu
    exact ⟨h.put k hrel', h.saved, h.answers⟩

theorem Step.log_le (h : Step step save load w w') : w.log <+: w'.log := by
  cases h with
  | commit i => exact ⟨[i], rfl⟩
  | apply k hi hs => exact List.prefix_rfl
  | save k hd => exact List.prefix_rfl
  | load k hd hl => exact List.prefix_rfl

/-- Whatever the interleaving, a world follows the run of its log. -/
theorem Reaches.follows {initial : κ → σ} (h : Reaches step save load (new initial) w) (hR : Replicable step save load R form)
    (h0 : ∀ k, R base (initial k)) {t : σ} (r : Run step base events t) (hform : ∀ e ∈ events, form e)
    (hlog : w.log <+: events.map Event.input) : Follows save R base events w := by
  induction h with
  | refl => exact ⟨h0, fun _ _ hmem => absurd hmem List.not_mem_nil, fun _ _ _ hmem => absurd hmem List.not_mem_nil⟩
  | tail _ hstep ih =>
    have hle := hstep.log_le.trans hlog
    exact hstep.follows hR r hform hle (ih hle)

end World

end Replicable

end Doq.Lib
