/-
  Doq.Lib.Run — finite runs of a deterministic machine that may get stuck.

  A machine is a step function from a state and an input to an output and the next state,
  or to nothing. `Run step s events t` is a run from `s` to `t`, and its events say what
  happened at each step: the state before, the input, the output and the state after.

  Rules: a property that every step keeps holds after a run (`Run.keeps`), also when it
  speaks of a history that the events build up (`Run.history`); a run can be cut at any
  event; a machine that simulates another step by step simulates its runs (`Run.simulate`); the
  steps that a larger machine takes in a smaller one are a run of that one (`Run.project`).
-/

import Mathlib.Data.List.Basic

namespace Doq.Lib

variable {σ τ ι ο : Type}

structure Event (σ ι ο : Type) where
  before : σ
  input : ι
  output : ο
  after : σ

inductive Run (step : σ → ι → Option (ο × σ)) : σ → List (Event σ ι ο) → σ → Prop
  | nil (s : σ) : Run step s [] s
  | cons {s s' t : σ} {i : ι} {o : ο} {events : List (Event σ ι ο)} (h : step s i = some (o, s')) (hrun : Run step s' events t) :
      Run step s (⟨s, i, o, s'⟩ :: events) t

/-- The run over a list of inputs. -/
def exec (step : σ → ι → Option (ο × σ)) (s : σ) : List ι → Option (List (Event σ ι ο) × σ)
  | [] => some ([], s)
  | i :: inputs =>
    match step s i with
    | none => none
    | some (o, s') => (exec step s' inputs).map fun r => (⟨s, i, o, s'⟩ :: r.1, r.2)

namespace Run

variable {step : σ → ι → Option (ο × σ)} {s t u : σ} {events later : List (Event σ ι ο)}

theorem of_exec {inputs : List ι} (h : exec step s inputs = some (events, t)) : Run step s events t := by
  induction inputs generalizing s events with
  | nil => cases h; exact .nil _
  | cons i inputs ih =>
    unfold exec at h
    cases hs : step s i with
    | none => rw [hs] at h; cases h
    | some r =>
      obtain ⟨o, s'⟩ := r
      rw [hs] at h
      obtain ⟨⟨es, t'⟩, hr, he⟩ := Option.map_eq_some_iff.mp h
      cases he
      exact .cons hs (ih hr)

theorem of_exec_isSome {inputs : List ι} (h : (exec step s inputs).isSome) :
    Run step s ((exec step s inputs).get h).1 ((exec step s inputs).get h).2 :=
  of_exec (Option.some_get h).symm

theorem append (h : Run step s events t) (h' : Run step t later u) : Run step s (events ++ later) u := by
  induction h with
  | nil => exact h'
  | cons hs _ ih => exact .cons hs (ih h')

theorem split (h : Run step s (events ++ later) u) : ∃ t, Run step s events t ∧ Run step t later u := by
  induction events generalizing s with
  | nil => exact ⟨s, .nil s, h⟩
  | cons e events ih =>
    cases h with
    | cons hs hrun =>
      obtain ⟨t, h1, h2⟩ := ih hrun
      exact ⟨t, .cons hs h1, h2⟩

/-- A run cut at one of its events. -/
theorem at_event {e : Event σ ι ο} (h : Run step s (events ++ e :: later) u) :
    Run step s events e.before ∧ step e.before e.input = some (e.output, e.after) ∧ Run step e.after later u := by
  obtain ⟨t, h1, h2⟩ := h.split
  cases h2 with
  | cons hs hrun => exact ⟨h1, hs, hrun⟩

/-- A run with an event starts before one. -/
theorem starts {e : Event σ ι ο} (h : Run step s (events ++ [e]) t) : ∃ e' ∈ events ++ [e], e'.before = s := by
  cases events with
  | nil => cases h; exact ⟨_, List.mem_cons_self, rfl⟩
  | cons e' events => cases h; exact ⟨_, List.mem_cons_self, rfl⟩

theorem step_of_mem {e : Event σ ι ο} (h : Run step s events t) (he : e ∈ events) :
    step e.before e.input = some (e.output, e.after) := by
  obtain ⟨before, after, rfl⟩ := List.append_of_mem he
  exact h.at_event.2.1

/-- A relation between the history so far and the state, kept by every step of the run. -/
theorem history {γ : Type} (next : γ → Event σ ι ο → γ) {I : γ → σ → Prop}
    (hstep : ∀ (g : γ) (e : Event σ ι ο), e ∈ events → step e.before e.input = some (e.output, e.after) →
      I g e.before → I (next g e) e.after)
    {g : γ} (h : Run step s events t) (hs : I g s) : I (events.foldl next g) t := by
  induction h generalizing g with
  | nil => exact hs
  | cons hstep' _ ih =>
    refine ih (fun g e he => hstep g e (List.mem_cons_of_mem _ he)) ?_
    exact hstep g _ List.mem_cons_self hstep' hs

theorem keeps {I : σ → Prop}
    (hstep : ∀ e ∈ events, step e.before e.input = some (e.output, e.after) → I e.before → I e.after)
    (h : Run step s events t) (hs : I s) : I t :=
  history (fun (_ : Unit) _ => ()) (I := fun _ => I) (g := ()) (fun _ e he => hstep e he) h hs

/-- What holds of every event, given the history up to it, if a step that starts from `I` has it
    exactly when the event meets `Q`, and ends in `I` when it has it. -/
theorem each_iff {γ : Type} (next : γ → Event σ ι ο → γ) {I : γ → σ → Prop} {P : γ → Event σ ι ο → Prop} {Q : Event σ ι ο → Prop}
    (hstep : ∀ (g : γ) (e : Event σ ι ο), e ∈ events → step e.before e.input = some (e.output, e.after) → I g e.before →
      (P (next g e) e ↔ Q e))
    (hkeep : ∀ (g : γ) (e : Event σ ι ο), P g e → I g e.after) {g : γ} (h : Run step s events t) (hs : I g s) :
    (∀ earlier e later, events = earlier ++ e :: later → P ((earlier ++ [e]).foldl next g) e) ↔ ∀ e ∈ events, Q e := by
  induction h generalizing g with
  | nil => exact iff_of_true (fun earlier e later he => absurd he (by simp)) nofun
  | @cons s s' t i o events hs' _ ih =>
    have hfirst := hstep g _ List.mem_cons_self hs' hs
    have hrest := fun hP => ih (fun g e he => hstep g e (List.mem_cons_of_mem _ he))
      (hkeep (next g ⟨s, i, o, s'⟩) ⟨s, i, o, s'⟩ hP)
    rw [List.forall_mem_cons, ← hfirst]
    constructor
    · intro hall
      have hP := hall [] _ events rfl
      refine ⟨hP, (hrest hP).mp fun earlier e later he => ?_⟩
      exact hall (_ :: earlier) e later (by rw [he]; rfl)
    · rintro ⟨hP, hall⟩ earlier e later he
      cases earlier with
      | nil => cases he; exact hP
      | cons first earlier =>
        cases he
        exact (hrest hP).mpr hall earlier e later rfl

/-- Induction along a run, from its last event. -/
theorem snoc_rec {P : List (Event σ ι ο) → σ → Prop} (hnil : P [] s)
    (hsnoc : ∀ (events : List (Event σ ι ο)) (e : Event σ ι ο), Run step s events e.before →
      step e.before e.input = some (e.output, e.after) → P events e.before → P (events ++ [e]) e.after)
    (h : Run step s events t) : P events t := by
  have hrest : ∀ {mid : σ} {rest : List (Event σ ι ο)}, Run step mid rest t → ∀ past, Run step s past mid → P past mid →
      P (past ++ rest) t := by
    intro mid rest hr
    induction hr with
    | nil =>
      intro past _ hP
      rwa [List.append_nil]
    | @cons mid mid' t i o rest hs _ ih =>
      intro past hpast hP
      have hnext := ih h (past ++ [⟨mid, i, o, mid'⟩]) (hpast.append (.cons hs (.nil _))) (hsnoc past _ hpast hs hP)
      rwa [List.append_assoc] at hnext
  exact hrest h [] (.nil s) hnil

/-- A simulation: the other machine takes the same inputs to the same outputs. -/
theorem simulate {step' : τ → ι → Option (ο × τ)} {R : σ → τ → Prop} {t' : τ}
    (hstep : ∀ (e : Event σ ι ο) (b : τ), e ∈ events → step e.before e.input = some (e.output, e.after) → R e.before b →
      ∃ b', step' b e.input = some (e.output, b') ∧ R e.after b')
    (h : Run step s events t) (hs : R s t') :
    ∃ events' u', Run step' t' events' u' ∧ R t u' ∧ events'.map Event.input = events.map Event.input ∧
      events'.map Event.output = events.map Event.output := by
  induction h generalizing t' with
  | nil => exact ⟨[], t', .nil t', hs, rfl, rfl⟩
  | cons hstep' _ ih =>
    obtain ⟨b', hb, hR⟩ := hstep _ _ List.mem_cons_self hstep' hs
    obtain ⟨es, u', hrun, hR', hin, hout⟩ := ih (fun e b he => hstep e b (List.mem_cons_of_mem _ he)) hR
    exact ⟨_, u', .cons hb hrun, hR', by simp only [List.map_cons, hin], by simp only [List.map_cons, hout]⟩

/-- A machine inside another: each step of the outer one is a step of the inner one, or leaves it
    alone. -/
theorem project {κ ρ : Type} {inner : τ → κ → Option (ρ × τ)} (view : σ → τ) (log : Event σ ι ο → Option (Event τ κ ρ))
    {I : σ → Prop} (hkeep : ∀ e : Event σ ι ο, step e.before e.input = some (e.output, e.after) → I e.before → I e.after)
    (hstep : ∀ e : Event σ ι ο, step e.before e.input = some (e.output, e.after) → I e.before →
      (∃ e', log e = some e' ∧ e'.before = view e.before ∧ e'.after = view e.after ∧
        inner e'.before e'.input = some (e'.output, e'.after)) ∨
      log e = none ∧ view e.after = view e.before)
    (h : Run step s events t) (hs : I s) : Run inner (view s) (events.filterMap log) (view t) := by
  induction h with
  | nil => exact .nil _
  | @cons s s' t i o events hs' _ ih =>
    have hnext := ih (hkeep ⟨s, i, o, s'⟩ hs' hs)
    rcases hstep ⟨s, i, o, s'⟩ hs' hs with ⟨⟨before, input, output, after⟩, hlog, rfl, rfl, hinner⟩ | ⟨hlog, hsame⟩
    · rw [List.filterMap_cons_some hlog]
      exact .cons hinner hnext
    · rw [List.filterMap_cons_none hlog, ← show view s' = view s from hsame]
      exact hnext

end Run

end Doq.Lib
