/-
  Doq.Grpc.Serving — a node that serves streams (`pkg/grpc/server.go`).

  A stream's handler runs in a goroutine of its own, on the node that all of them share. Between
  its steps the other handlers take theirs, and entries of other clients are applied. A run is one
  term: whether the node leads does not change in it.

  What a kind of stream has to say of itself is which of its steps apply an entry, and that no
  other step changes the state machine (`Service.applies`). What the node applies is then a run of
  the state machine (`Service.runs_logged`), so what is known of such runs holds for streams too.
-/

import Doq.Lib.Sessions
import Doq.Raft.Commands
import Doq.Raft.Delivery

namespace Doq

open Lib

namespace Serving

inductive Out where
  | nothing
  | reply (reply : Reply)
  | sent (message : Message)
  deriving DecidableEq

/-- A step of the node that applies an entry, or none. -/
structure Applies (n : Node) (entry : Option Entry) (out : Out) (n' : Node) : Prop where
  leading : n'.leading = n.leading
  applied : ∀ ent, entry = some ent → ∃ reply, out = .reply reply ∧ n.fsm.apply ent = some (reply, n'.fsm)
  same : entry = none → n'.fsm = n.fsm

theorem Applies.nothing (n : Node) (out : Out) : Applies n none out n where
  leading := rfl
  applied _ h := by cases h
  same _ := rfl

theorem Applies.one {n : Node} {entry : Entry} {reply : Reply} {f : FSM} (h : n.fsm.apply entry = some (reply, f)) :
    Applies n (some entry) (.reply reply) { n with fsm := f } where
  leading := rfl
  applied _ he := Option.some.inj he ▸ ⟨reply, rfl, h⟩
  same he := by cases he

theorem Applies.safe {n n' : Node} {entry : Option Entry} {out : Out} (h : Applies n entry out n') (hsafe : n.fsm.Safe) :
    n'.fsm.Safe := by
  cases entry with
  | none => exact h.same rfl ▸ hsafe
  | some entry =>
    obtain ⟨_, _, happly⟩ := h.applied entry rfl
    exact hsafe.step happly

/-- A kind of stream. -/
structure Service (τ α : Type) where
  step : Node → τ → α → Option (Out × Node × τ)
  /-- The entry that a step applies. -/
  entry : τ → α → Option Entry
  applies : ∀ {n n' : Node} {s s' : τ} {act : α} {out : Out}, n.fsm.Safe → step n s act = some (out, n', s') →
    Applies n (entry s act) out n'

/-- An entry of another client is applied. -/
def applyEntry (n : Node) (entry : Entry) : Option (Out × Node) := do
  let (reply, f) ← n.fsm.apply entry
  some (.reply reply, { n with fsm := f })

theorem applies_applyEntry {n n' : Node} {entry : Entry} {out : Out} (h : applyEntry n entry = some (out, n')) :
    Applies n (some entry) out n' := by
  obtain ⟨⟨reply, f⟩, happly, heq⟩ := Option.bind_eq_some_iff.mp h
  cases heq
  exact .one happly

namespace Service

variable {τ α : Type} (S : Service τ α)

def rules : Sessions.Rules Node τ α Entry Out := ⟨applyEntry, S.step⟩

abbrev World (_ : Service τ α) := Sessions Node τ

abbrev Act (_ : Service τ α) := Sessions.Act α Entry

abbrev run : S.World → S.Act → Option (Out × S.World) := Sessions.step S.rules

abbrev Ev := Event S.World S.Act Out

/-- The entry that a step of the node applies, its own or a stream's. -/
def entryOf (e : S.Ev) : Option Entry :=
  match e.input with
  | .aside entry => some entry
  | .own i act => S.entry (e.before.session i) act

/-- What the state machine sees of a step. -/
def logged (e : S.Ev) : Option (Event FSM Entry Reply) :=
  match S.entryOf e, e.output with
  | some entry, .reply reply => some ⟨e.before.shared.fsm, entry, reply, e.after.shared.fsm⟩
  | _, _ => none

variable {S}

/-- A stream's own entry is seen. -/
theorem logged_own {e : S.Ev} {i : Nat} {act : α} {entry : Entry} {reply : Reply} (hin : e.input = .own i act)
    (hentry : S.entry (e.before.session i) act = some entry) (hout : e.output = .reply reply) :
    S.logged e = some ⟨e.before.shared.fsm, entry, reply, e.after.shared.fsm⟩ := by
  simp only [logged, entryOf, hin, hentry, hout]

variable {w w' : S.World} {e : S.Ev} {events : List S.Ev}

theorem applies_run (hs : S.run e.before e.input = some (e.output, e.after)) (hsafe : e.before.shared.fsm.Safe) :
    Applies e.before.shared (S.entryOf e) e.output e.after.shared := by
  cases Sessions.stepped hs with
  | aside ha => exact applies_applyEntry ha
  | own ho => exact S.applies hsafe ho

theorem safe_run (hs : S.run e.before e.input = some (e.output, e.after)) (hsafe : e.before.shared.fsm.Safe) :
    e.after.shared.fsm.Safe :=
  (applies_run hs hsafe).safe hsafe

/-- A step is seen as one entry or not at all. -/
theorem logged_run (hs : S.run e.before e.input = some (e.output, e.after)) (hsafe : e.before.shared.fsm.Safe) :
    (∃ fe, S.logged e = some fe ∧ fe.before = e.before.shared.fsm ∧ fe.after = e.after.shared.fsm ∧
      fe.before.apply fe.input = some (fe.output, fe.after)) ∨
    S.logged e = none ∧ e.after.shared.fsm = e.before.shared.fsm := by
  have happlies := applies_run hs hsafe
  cases he : S.entryOf e with
  | none => exact Or.inr ⟨by simp only [logged, he], happlies.same he⟩
  | some entry =>
    obtain ⟨reply, hout, happly⟩ := happlies.applied entry he
    exact Or.inl ⟨⟨e.before.shared.fsm, entry, reply, e.after.shared.fsm⟩, by simp only [logged, he, hout], rfl, rfl, happly⟩

theorem same_run (hs : S.run e.before e.input = some (e.output, e.after)) (hsafe : e.before.shared.fsm.Safe)
    (hnone : S.entryOf e = none) : e.after.shared.fsm = e.before.shared.fsm :=
  (applies_run hs hsafe).same hnone

theorem runs_logged (hsafe : w.shared.fsm.Safe) (hrun : Run S.run w events w') :
    FSM.Runs w.shared.fsm (events.filterMap S.logged) w'.shared.fsm :=
  hrun.project (fun w => w.shared.fsm) S.logged (I := fun w => w.shared.fsm.Safe) (fun _ => safe_run) (fun _ => logged_run)
    hsafe

/-- Whether the node leads, and that its state machine is safe, stays as it was. -/
theorem leading_run {leading : Bool} (hs : S.run e.before e.input = some (e.output, e.after))
    (h : e.before.shared.leading = leading ∧ e.before.shared.fsm.Safe) :
    e.after.shared.leading = leading ∧ e.after.shared.fsm.Safe :=
  ⟨(applies_run hs h.2).leading.trans h.1, safe_run hs h.2⟩

/-- What a stream's steps build up, on a node that leads or on one that does not. -/
theorem history_of {γ : Type} (next : γ → α → Out → γ) {leading : Bool} {I : γ → τ → Prop} {g : γ} {i : Nat}
    (hown : ∀ g n s act out n' s', S.step n s act = some (out, n', s') → n.leading = leading → n.fsm.Safe → I g s →
      I (next g act out) s')
    (hrun : Run S.run w events w') (hl : w.shared.leading = leading) (hsafe : w.shared.fsm.Safe) (h : I g (w.session i)) :
    I (events.foldl (Sessions.along next i) g) (w'.session i) :=
  Sessions.history_of next (J := fun n => n.leading = leading ∧ n.fsm.Safe) (fun _ => leading_run)
    (fun g n s act out n' s' ho hn hI => hown g n s act out n' s' ho hn.1 hn.2 hI) hrun ⟨hl, hsafe⟩ h

/-- What a stream's own steps keep. -/
theorem stream_keeps {leading : Bool} {P : τ → Prop} {i : Nat}
    (hown : ∀ n s act out n' s', S.step n s act = some (out, n', s') → n.leading = leading → n.fsm.Safe → P s → P s')
    (hrun : Run S.run w events w') (hl : w.shared.leading = leading) (hsafe : w.shared.fsm.Safe) (h : P (w.session i)) :
    P (w'.session i) :=
  history_of (fun g _ _ => g) (I := fun (_ : Unit) s => P s) (g := ()) (fun _ => hown) hrun hl hsafe h

end Service

/-- A leader that has not applied anything. -/
def leader : Node := ⟨⟨"n1", "", "", ""⟩, true, .new FSM.defaults (.new "n1" "" "")⟩

end Serving

end Doq
