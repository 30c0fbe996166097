/-
  Doq.Lib.Sessions — any number of sessions on one shared state.

  Each session is a small machine with a state of its own; a step of it reads and changes the
  shared state too. Between any two steps of one session the others may take theirs, and the
  shared state may change for other reasons (`aside`). A run of the whole is a run of one
  machine, so the rules of `Doq.Lib.Run` apply, and here is the one that speaks of one session:
  what its own steps build up, while the others only keep an invariant of the shared state
  (`history_of`). What a step is to one session says `turn`.
-/

import Doq.Lib.Run

namespace Doq.Lib

structure Sessions (σ τ : Type) where
  shared : σ
  session : Nat → τ

namespace Sessions

variable {σ τ α β ο γ δ : Type}

inductive Act (α β : Type) where
  | aside (input : β)
  | own (i : Nat) (act : α)
  deriving DecidableEq

/-- The outside steps of the shared state, and the steps of a session. -/
structure Rules (σ τ α β ο : Type) where
  aside : σ → β → Option (ο × σ)
  own : σ → τ → α → Option (ο × σ × τ)

variable (rules : Rules σ τ α β ο)

def step (w : Sessions σ τ) : Act α β → Option (ο × Sessions σ τ)
  | .aside input => do
    let (out, s) ← rules.aside w.shared input
    some (out, { w with shared := s })
  | .own i act => do
    let (out, s, t) ← rules.own w.shared (w.session i) act
    some (out, ⟨s, Function.update w.session i t⟩)

variable {rules} {w w' : Sessions σ τ} {e : Event (Sessions σ τ) (Act α β) ο} {events : List (Event (Sessions σ τ) (Act α β) ο)}
  {i : Nat}

/-- What a step is. -/
inductive Stepped (rules : Rules σ τ α β ο) : Event (Sessions σ τ) (Act α β) ο → Prop
  | aside {s s' : σ} {session : Nat → τ} {input : β} {out : ο} (h : rules.aside s input = some (out, s')) :
      Stepped rules ⟨⟨s, session⟩, .aside input, out, ⟨s', session⟩⟩
  | own {s s' : σ} {session : Nat → τ} {i : Nat} {act : α} {out : ο} {t : τ}
      (h : rules.own s (session i) act = some (out, s', t)) :
      Stepped rules ⟨⟨s, session⟩, .own i act, out, ⟨s', Function.update session i t⟩⟩

theorem stepped (h : step rules e.before e.input = some (e.output, e.after)) : Stepped rules e := by
  obtain ⟨⟨s, session⟩, input, out, after⟩ := e
  cases input with
  | aside input =>
    obtain ⟨⟨out', s'⟩, ha, heq⟩ :=
      Option.bind_eq_some_iff.mp (show step rules ⟨s, session⟩ (.aside input) = some (out, after) from h)
    cases heq
    exact .aside ha
  | own i act =>
    obtain ⟨⟨out', s', t⟩, ho, heq⟩ :=
      Option.bind_eq_some_iff.mp (show step rules ⟨s, session⟩ (.own i act) = some (out, after) from h)
    cases heq
    exact .own ho

/-- What a step is to one session: its own, or none. -/
theorem turn (h : step rules e.before e.input = some (e.output, e.after)) (i : Nat) :
    (∃ act, e.input = .own i act ∧
      rules.own e.before.shared (e.before.session i) act = some (e.output, e.after.shared, e.after.session i)) ∨
    (∀ act, e.input ≠ .own i act) ∧ e.after.session i = e.before.session i := by
  cases stepped h with
  | aside ha => exact Or.inr ⟨fun _ => by simp, rfl⟩
  | @own s s' session j act out t ho =>
    by_cases hj : j = i
    · subst hj
      exact Or.inl ⟨act, rfl, by simpa using ho⟩
    · exact Or.inr ⟨fun _ => by simp [hj], Function.update_of_ne (Ne.symm hj) _ _⟩

theorem own_step {act : α} (h : step rules e.before e.input = some (e.output, e.after)) (hin : e.input = .own i act) :
    rules.own e.before.shared (e.before.session i) act = some (e.output, e.after.shared, e.after.session i) := by
  rcases turn h i with ⟨act', hin', ho⟩ | ⟨hother, _⟩
  · rw [hin] at hin'
    cases hin'
    exact ho
  · exact absurd hin (hother act)

/-- What is read off a session's own steps. -/
def seen (read : α → ο → Option δ) (i : Nat) (e : Event (Sessions σ τ) (Act α β) ο) : Option δ :=
  match e.input with
  | .own j act => if j = i then read act e.output else none
  | .aside _ => none

theorem seen_eq_some {read : α → ο → Option δ} {d : δ} :
    seen read i e = some d ↔ ∃ act, e.input = .own i act ∧ read act e.output = some d := by
  unfold seen
  cases he : e.input with
  | aside input => simp
  | own j act =>
    by_cases hj : j = i
    · simp [hj]
    · simp [hj]

/-- What a session's own steps build up. -/
def along (next : γ → α → ο → γ) (i : Nat) (g : γ) (e : Event (Sessions σ τ) (Act α β) ο) : γ :=
  match e.input with
  | .own j act => if j = i then next g act e.output else g
  | .aside _ => g

theorem along_own {next : γ → α → ο → γ} {g : γ} {act : α} (h : e.input = .own i act) :
    along next i g e = next g act e.output := by
  simp [along, h]

theorem along_other {next : γ → α → ο → γ} {g : γ} (h : ∀ act, e.input ≠ .own i act) : along next i g e = g := by
  unfold along
  split
  · rename_i j act hin
    exact if_neg fun (hj : j = i) => h act (hj ▸ hin)
  · rfl

theorem history_of (next : γ → α → ο → γ) {J : σ → Prop} {I : γ → τ → Prop} {g : γ}
    (hshared : ∀ e : Event (Sessions σ τ) (Act α β) ο, step rules e.before e.input = some (e.output, e.after) →
      J e.before.shared → J e.after.shared)
    (hown : ∀ g s t act out s' t', rules.own s t act = some (out, s', t') → J s → I g t → I (next g act out) t')
    (hrun : Run (step rules) w events w') (hJ : J w.shared) (h : I g (w.session i)) :
    I (events.foldl (along next i) g) (w'.session i) := by
  refine (hrun.history (along next i) (I := fun g w => J w.shared ∧ I g (w.session i)) (fun g e _ hs hI => ?_) ⟨hJ, h⟩).2
  refine ⟨hshared e hs hI.1, ?_⟩
  rcases turn hs i with ⟨act, hin, ho⟩ | ⟨hother, hsame⟩
  · rw [along_own hin]
    exact hown g _ _ act _ _ _ ho hI.1 hI.2
  · rw [along_other hother, hsame]
    exact hI.2

end Sessions

end Doq.Lib
