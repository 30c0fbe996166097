/-
  Doq.Raft.RestoreBytes — restoring from the bytes of a snapshot (`Restore` of `pkg/raft/fsm.go`,
  with `ReadSnapshotItem` of `pkg/storage/snapshot.go`).

  `Restore` first clears the node and then works on each item as soon as it has read it, so an
  error in the middle leaves it with a part of the snapshot. A snapshot says nowhere how many
  items it has.

  Proved:
  - `restore_cut`: of bytes that were cut off anywhere, exactly the items that are whole are
    restored, without a panic. The error is missing exactly if the cut is between two items.
-/

import Doq.Raft.Safety
import Doq.Raft.Snapshot
import Doq.Storage.Framing

namespace Doq.FSM

open Lib Storage

variable {σ : Type} {codec : Codec (Option SnapshotItem)} {r : Reader σ} {s : σ} {items : List SnapshotItem}

/-- The loop of `Restore`. An item that is none of the known ones decodes to nothing. -/
def restoreFrom.loop (codec : Codec (Option SnapshotItem)) (r : Reader σ) (st : Restoring) (s : σ) : Go (Option String × FSM) :=
  match _h : readSnapshotItem codec r s with
  | (.error .eof, _) => some (none, st.fsm)
  | (.error (.failed text), _) => some (some text, st.fsm)
  | (.ok none, _) => some (some "unknown item in snapshot", st.fsm)
  | (.ok (some item), s') => do
    let st ← restoreItem st item
    loop codec r st s'
termination_by (r.left s).length
decreasing_by exact readSnapshotItem_left _h

/-- `Restore`: the error, and the state it leaves. -/
def restoreFrom (codec : Codec (Option SnapshotItem)) (r : Reader σ) (f : FSM) (s : σ) : Go (Option String × FSM) := do
  let (_, qm) ← f.queueManager.reset
  restoreFrom.loop codec r { fsm := { f with queueManager := qm }, q := none, unacked := none } s

/-- The error for what ended the loop. -/
def ending : SnapshotError → Option String
  | .eof => none
  | .failed text => some text

theorem restoreFrom_error {e : SnapshotError} (h : (readSnapshotItem codec r s).1 = .error e) (st : Restoring) :
    restoreFrom.loop codec r st s = some (ending e, st.fsm) := by
  rw [restoreFrom.loop]
  split <;> rename_i he <;> rw [he] at h <;> cases h <;> rfl

theorem restoreFrom_ok {item : SnapshotItem} {s' : σ} (h : readSnapshotItem codec r s = (.ok (some item), s'))
    (st : Restoring) : restoreFrom.loop codec r st s = (restoreItem st item).bind fun st => restoreFrom.loop codec r st s' := by
  rw [restoreFrom.loop]
  split <;> rename_i he <;> rw [he] at h <;> cases h
  rfl

/-- The loop restores the items that can be read. -/
theorem restoreFrom_loop {e : SnapshotError} (h : readSnapshotItems codec r s = (items.map some, e)) (st : Restoring) :
    restoreFrom.loop codec r st s = (items.foldlM restoreItem st).map fun st => (ending e, st.fsm) := by
  fun_induction readSnapshotItems codec r s generalizing items st with
  | case1 s e' s' hr =>
    obtain ⟨hnil, rfl⟩ := Prod.mk.inj h
    obtain rfl := List.map_eq_nil_iff.mp hnil.symm
    exact restoreFrom_error (by rw [hr]) st
  | case2 s item s' hr rest =>
    rename_i ih
    obtain ⟨hitems, rfl⟩ := Prod.mk.inj h
    obtain ⟨item, items, rfl, rfl, htail⟩ := List.map_eq_cons_iff.mp hitems.symm
    rw [restoreFrom_ok hr, List.foldlM_cons]
    cases hst : restoreItem st item with
    | none => rfl
    | some st' => exact ih (Prod.ext htail.symm rfl) st'

/-- The first items of a snapshot that can be restored can be restored. -/
theorem restore_take {prior f' : FSM} (h : prior.restore items = some f') (k : Nat) :
    ∃ g, prior.restore (items.take k) = some g := by
  obtain ⟨qm, hqm, st, hst, rfl⟩ := restore_some h
  rw [← List.take_append_drop k items, List.foldlM_append] at hst
  obtain ⟨st₁, hst₁, _⟩ := Option.bind_eq_some_iff.mp hst
  exact ⟨st₁.fsm, by simp only [restore, restoreStopping, hqm, hst₁, Option.bind_eq_bind, Option.bind_some, Option.map_some]⟩

theorem restoreFrom_eq {prior g : FSM} {e : SnapshotError} (h : readSnapshotItems codec r s = (items.map some, e))
    (hg : prior.restore items = some g) : prior.restoreFrom codec r s = some (ending e, g) := by
  obtain ⟨qm, hqm, st, hst, rfl⟩ := restore_some hg
  simp only [restoreFrom, hqm, Option.bind_eq_bind, Option.bind_some]
  rw [restoreFrom_loop h, hst]
  rfl

/-- Of a snapshot that was cut off, exactly the items that are whole are restored; a cut between two
    items is not noticed. -/
theorem restore_cut {sink sink' : Sink} {prior f' : FSM} (hnew : sink.bytes = [])
    (hw : writeSnapshotItems codec sink (items.map some) = .ok sink')
    (hlen : ∀ item ∈ items, ∀ data, codec.marshal (some item) = .ok data → data.length < 2 ^ 32)
    (hfull : prior.restore items = some f') (hcut : r.left s <+: sink'.bytes) :
    ∃ k ≤ items.length, ∃ g err, prior.restore (items.take k) = some g ∧ prior.restoreFrom codec r s = some (err, g) ∧
      (∀ j ≤ items.length, framed codec ((items.take j).map some) <+: r.left s ↔ j ≤ k) ∧
      (err = none ↔ r.left s = framed codec ((items.take k).map some)) ∧
      (r.left s = sink'.bytes → err = none ∧ g = f') := by
  obtain ⟨hmarshal, hbytes⟩ := writeSnapshotItems_ok hw
  rw [hnew, List.nil_append] at hbytes
  have hok : ∀ item ∈ items.map some, ∃ data, codec.marshal item = .ok data ∧ data.length < 2 ^ 32 := by
    intro item hi
    obtain ⟨data, hm⟩ := hmarshal item hi
    obtain ⟨item, hmem, rfl⟩ := List.mem_map.mp hi
    exact ⟨data, hm, hlen item hmem data hm⟩
  obtain ⟨cut, hcut⟩ := hcut
  obtain ⟨k, hk, hj, hitems, hend⟩ := readSnapshotItems_cut hok (hcut.trans hbytes)
  simp only [← List.map_take, List.length_map] at hk hj hitems hend
  obtain ⟨g, hg⟩ := restore_take hfull k
  have hfrom := restoreFrom_eq (Prod.ext hitems rfl) hg
  have herr : ending (readSnapshotItems codec r s).2 = none ↔ r.left s = framed codec ((items.take k).map some) := by
    rw [← hend]
    cases (readSnapshotItems codec r s).2 <;> simp [ending]
  refine ⟨k, hk, g, _, hg, hfrom, hj, herr, fun hwhole => ?_⟩
  -- With no byte missing the last item is whole too.
  have hall : items.length ≤ k := by
    rw [← hj items.length le_rfl, List.take_length, hwhole, hbytes]
  rw [List.take_of_length_le hall] at hg herr
  exact ⟨herr.mpr (hwhole.trans hbytes), Option.some.inj (hg.symm.trans hfull)⟩

/-- A queue and its one message. -/
def smallSnapshot : List SnapshotItem :=
  [.queue ⟨"jobs", "delayed", ⟨.unspecified, 0, 60, 0⟩⟩, .message ⟨"default", 1, 0, "", none, 0⟩]

/-- An encoding in one byte, for these two items. -/
def smallCodec : Codec (Option SnapshotItem) where
  marshal item := if item = smallSnapshot[0] then .ok [1] else if item = smallSnapshot[1] then .ok [2] else .error "too large"
  unmarshal data := if data = [1] then .ok smallSnapshot[0] else if data = [2] then .ok smallSnapshot[1] else .ok none
  lossless item data h := by
    split at h
    · rename_i hitem
      cases h
      exact hitem ▸ rfl
    · split at h <;> cases h
      rename_i hitem
      exact hitem ▸ rfl

theorem smallSnapshot_restores : ((new defaults (.new "n1" "" "")).restore smallSnapshot).isSome := by decide +kernel

/-- Cut after the first item, the snapshot is accepted, and the message is not there. -/
theorem restore_cut_between :
    let prior := new defaults (.new "n1" "" "")
    ∃ g, prior.restoreFrom smallCodec Reader.ofPieces [[1, 0], [0, 0, 1]] = some (none, g) ∧
      prior.restore (smallSnapshot.take 1) = some g ∧ g.queueManager.store.messages.lookup ("jobs", 1) = none := by
  intro prior
  have hdata : ∀ item ∈ smallSnapshot,
      smallCodec.marshal (some item) = .ok [1] ∨ smallCodec.marshal (some item) = .ok [2] := by
    simp [smallSnapshot, smallCodec]
  have hlen : ∀ item ∈ smallSnapshot, ∀ data, smallCodec.marshal (some item) = .ok data → data.length < 2 ^ 32 := by
    intro item hi data hm
    rcases hdata item hi with h | h <;> rw [h] at hm <;> cases hm <;> decide
  have hw : writeSnapshotItems smallCodec ⟨[], []⟩ (smallSnapshot.map some) = .ok ⟨[1, 0, 0, 0, 1, 1, 0, 0, 0, 2], []⟩ := rfl
  obtain ⟨k, _, g, err, hg, hfrom, hwhole, herr, _⟩ := @restore_cut _ _ Reader.ofPieces [[1, 0], [0, 0, 1]]
    _ _ _ _ _ rfl hw hlen (Option.some_get smallSnapshot_restores).symm ⟨[1, 0, 0, 0, 2], rfl⟩
  have hone : 1 ≤ k := (hwhole 1 (by decide)).mp List.prefix_rfl
  have htwo : ¬ 2 ≤ k := fun h => absurd ((hwhole 2 (by decide)).mpr h).length_le (by decide)
  obtain rfl : k = 1 := by omega
  obtain rfl : err = none := herr.mpr rfl
  refine ⟨g, hfrom, hg, ?_⟩
  cases hg
  rfl

end Doq.FSM
