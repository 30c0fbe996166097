/-
  Doq.Raft.PointInTime — a snapshot that is written while entries are applied (see
  `Doq.Raft.Snapshot`).

  `Snapshot` captures the store and the queues' memory under the lock; `Persist` runs later,
  beside `Apply`, and walks the live map of queues with their live configurations.

  Proved:
  - `point_in_time_iff`: whenever `Persist` runs in a window of entries it writes the queues
    as they were at `Snapshot`, if and only if no entry of the window creates a queue,
    deletes one or changes the settings of one. What it then writes, restored into any node,
    answers the entries that follow `Snapshot` as the node did, if the entries up to it kept
    to what a restore needs (`Keeps`).
  - `window_leaks`: a queue created in the window is in the snapshot, and the entry before
    it, which had been refused, is accepted when the window is applied to the restored state.
-/

import Doq.Raft.Equivalence

namespace Doq

open Lib Memory Storage

namespace FSM

variable {s f f' : FSM} {name : String} {entry : Entry} {reply : Reply} {cfg : Config} {K : MemoryQueue.Kind → Prop}

/-! ## What is captured -/

theorem Safe.captureSnapshotState (h : Safe s) : Returns s.queueManager.captureSnapshotState fun states =>
    ∀ name q, s.queueManager.queues.lookup name = some q → states.lookup name = q.captureSnapshotState := by
  unfold QueueManager.captureSnapshotState
  refine (Returns.foldlM (I := fun done (states : FinMap String SnapshotState) =>
    ∀ e ∈ done, states.lookup e.1 = Queue.captureSnapshotState e.2) nofun ?_).mono fun states hI name q hq =>
      hI _ (FinMap.mem_entries.mpr hq)
  intro done e rest states hl hI
  have he : e ∈ s.queueManager.queues.entries := by rw [hl]; simp
  obtain ⟨config, _, hserved⟩ := h.queue e.1 e.2 (FinMap.mem_entries.mp he)
  obtain ⟨state, hstate, _⟩ := hserved.capture
  refine .bind_eq hstate (.intro fun e' he' => ?_)
  rw [FinMap.lookup_insert_eq]
  rcases List.mem_append.mp he' with he' | he'
  · -- a queue captured before has another name
    have hnd : ((done ++ e :: rest).map Sigma.fst).Nodup := hl ▸ s.queueManager.queues.nodupKeys
    rw [List.map_append, List.nodup_append] at hnd
    have hne : e'.1 ≠ e.1 := hnd.2.2 e'.1 (List.mem_map_of_mem he') e.1 (by simp)
    rw [if_neg hne]
    exact hI e' he'
  · rw [List.mem_singleton.mp he', if_pos rfl, hstate]

/-- The queues that `Persist` writes when the live state is `f` are those of `s`: the same
    items in the same order as from a `Persist` with no entry in between. -/
def PointInTime (s f : FSM) : Prop :=
  ∀ names, names.Perm f.queueManager.queues.keys → ∃ snapshot names₀ items, s.snapshot = some snapshot ∧
    names₀.Perm s.queueManager.queues.keys ∧ s.persist names₀ = some (s.leaderItem :: items) ∧
    snapshot.persist f names = some (f.leaderItem :: items)

/-- Every queue is there with the configuration it had. -/
def SameConfigs (s f : FSM) : Prop := ∀ name, f.queueManager.store.queues.lookup name = s.queueManager.store.queues.lookup name

/-- The items of the queues, from what was captured and the live configurations. -/
theorem Safe.persist_captured (h : Safe f) (snapshot : FSMSnapshot) {names : List String}
    (hnames : names.Perm f.queueManager.queues.keys) :
    ∃ configs : String → QueueConfig, (∀ n ∈ names, f.queueManager.store.queues.lookup n = some (configs n)) ∧
      snapshot.persist f names = some (f.leaderItem :: (names.map fun n =>
        block (configs n) ((snapshot.queueStates.lookup n).getD ⟨[], none⟩) (snapshot.txn.scan n)).flatten) := by
  have hblock : ∀ n, ∃ config, n ∈ names → f.queueManager.store.queues.lookup n = some config ∧
      ((f.queueManager.queues.lookup n).bind fun q =>
        q.persistSnapshot snapshot.txn ((snapshot.queueStates.lookup n).getD ⟨[], none⟩)) =
        some (block config ((snapshot.queueStates.lookup n).getD ⟨[], none⟩) (snapshot.txn.scan n)) := by
    intro n
    by_cases hn : n ∈ names
    · obtain ⟨q, hq⟩ := (mem_keys_iff hnames).mp hn
      obtain ⟨config, hc, hserved⟩ := h.queue n q hq
      refine ⟨config, fun _ => ⟨hc, ?_⟩⟩
      rw [hq, Option.bind_some, persistSnapshot_eq hserved.config_eq, hserved.name_eq]
    · exact ⟨⟨"", "", plain⟩, fun h => absurd h hn⟩
  choose configs hconfigs using hblock
  refine ⟨configs, fun n hn => (hconfigs n hn).1, ?_⟩
  simp only [FSMSnapshot.persist, Option.bind_eq_bind, mapM_some fun n hn => (hconfigs n hn).2, Option.bind_some]
  rfl

/-- With no entry in between, `Snapshot` and `Persist` are what `FSM.persist` writes. -/
theorem Safe.persist_eq_captured (h : Safe s) {snapshot : FSMSnapshot} (hs : s.snapshot = some snapshot) {names : List String}
    (hnames : names.Perm s.queueManager.queues.keys) : s.persist names = snapshot.persist s names := by
  obtain ⟨states, hstates, hlook⟩ := h.captureSnapshotState
  unfold FSM.snapshot at hs
  rw [hstates, Option.bind_eq_bind, Option.bind_some, Option.some.injEq] at hs
  subst hs
  obtain ⟨configs, hconfigs, hp⟩ := h.persist_captured ⟨s.queueManager.store, states⟩ hnames
  rw [hp]
  refine persist_eq fun n hn => ?_
  obtain ⟨q, hq⟩ := (mem_keys_iff hnames).mp hn
  obtain ⟨config, state, hc, _, hstate, hpq⟩ := h.persistQueue hq
  rw [hconfigs n hn, Option.some.injEq] at hc
  rw [hpq, hlook n q hq, hstate, hc]
  rfl

/-- The configurations among the items are those of the live queues. -/
theorem Safe.queue_mem_persist (h : Safe f) {snapshot : FSMSnapshot} {names : List String} {items : List SnapshotItem}
    (hnames : names.Perm f.queueManager.queues.keys) (hp : snapshot.persist f names = some (f.leaderItem :: items))
    (config : QueueConfig) :
    .queue config ∈ items ↔ f.queueManager.store.queues.lookup config.name = some config := by
  obtain ⟨configs, hconfigs, hp'⟩ := h.persist_captured snapshot hnames
  rw [hp, Option.some.injEq, List.cons.injEq] at hp'
  rw [hp'.2, List.mem_flatten]
  constructor
  · rintro ⟨items', hitems, hmem⟩
    obtain ⟨n, hn, rfl⟩ := List.mem_map.mp hitems
    rw [queue_mem_block.mp hmem]
    obtain ⟨q, _, hserved⟩ := h.served (hconfigs n hn)
    rw [hserved.name_eq]
    exact hconfigs n hn
  · intro hc
    obtain ⟨q, hq, _⟩ := h.served hc
    have hn : config.name ∈ names := (mem_keys_iff hnames).mpr ⟨q, hq⟩
    refine ⟨_, List.mem_map_of_mem hn, queue_mem_block.mpr ?_⟩
    have hc' := hconfigs _ hn
    rw [hc, Option.some.injEq] at hc'
    exact hc'

theorem Safe.pointInTime_iff (hs : Safe s) (hf : Safe f) : PointInTime s f ↔ SameConfigs s f := by
  constructor
  · intro h name
    obtain ⟨snapshot, names₀, items, hsnap, hnames₀, hp₀, hp⟩ := h _ (.refl _)
    rw [hs.persist_eq_captured hsnap hnames₀] at hp₀
    have hiff : ∀ config, config.name = name →
        (f.queueManager.store.queues.lookup name = some config ↔ s.queueManager.store.queues.lookup name = some config) := by
      rintro config rfl
      rw [← hf.queue_mem_persist (.refl _) hp, ← hs.queue_mem_persist hnames₀ hp₀]
    refine Option.ext fun config => ⟨fun hc => ?_, fun hc => ?_⟩
    · obtain ⟨q, _, hserved⟩ := hf.served hc
      exact (hiff config hserved.name_eq).mp hc
    · obtain ⟨q, _, hserved⟩ := hs.served hc
      exact (hiff config hserved.name_eq).mpr hc
  · intro h names hnames
    have hkeys : names.Perm s.queueManager.queues.keys := by
      refine hnames.trans ((List.perm_ext_iff_of_nodup (AList.keys_nodup _) (AList.keys_nodup _)).mpr fun n => ?_)
      rw [mem_keys_iff (.refl _), mem_keys_iff (.refl _), ← Option.ne_none_iff_exists', ← Option.ne_none_iff_exists',
        ne_eq, ne_eq,
        ← hf.lookup_none, ← hs.lookup_none, h n]
    obtain ⟨states, hstates, _⟩ := hs.captureSnapshotState
    have hsnap : s.snapshot = some ⟨s.queueManager.store, states⟩ := by
      unfold FSM.snapshot; rw [hstates]; rfl
    obtain ⟨configs, hconfigs, hp⟩ := hf.persist_captured ⟨s.queueManager.store, states⟩ hnames
    obtain ⟨configs₀, hconfigs₀, hp₀⟩ := hs.persist_captured ⟨s.queueManager.store, states⟩ hkeys
    have hsame : ∀ n ∈ names, configs₀ n = configs n := by
      intro n hn
      have := hconfigs₀ n hn
      rw [← h n, hconfigs n hn, Option.some.injEq] at this
      exact this.symm
    refine ⟨_, names, _, hsnap, hkeys, (hs.persist_eq_captured hsnap hkeys).trans hp₀, hp.trans ?_⟩
    refine congrArg (fun blocks => some (f.leaderItem :: List.flatten blocks)) (List.map_congr_left fun n hn => ?_)
    rw [hsame n hn]

/-! ## The window -/

/-- The entry neither creates a queue, nor deletes one, nor changes the settings of one. -/
def Quiet (f : FSM) (entry : Entry) : Prop :=
  match entry.command with
  | .createQueue name queueType settings =>
    f.queueManager.queues.lookup name = none → ∃ e, Queue.newSettings f.queueManager.config queueType settings = .error e
  | .updateQueue name settings => ∀ config, f.queueManager.store.queues.lookup name = some config →
    ∀ settings', Queue.changedSettings f.queueManager.config config settings = .ok settings' → settings' = config.settings
  | .deleteQueue name => f.queueManager.queues.lookup name = none
  | _ => True

theorem SameConfigs.symm (h : SameConfigs s f) : SameConfigs f s := fun name => (h name).symm

theorem SameConfigs.trans (h : SameConfigs s f) (h' : SameConfigs f f') : SameConfigs s f' := fun name => (h' name).trans (h name)

theorem Safe.quiet_of_same (h : Safe f) (hs : f.apply entry = some (reply, f')) (hsame : SameConfigs f f') : Quiet f entry := by
  unfold Quiet
  split
  · rename_i name queueType settings hc
    intro hq
    cases configures_create hc hs with
    | notCreated _ _ _ e _ ha => exact ⟨e, ha⟩
    | existing _ _ _ q hq' => rw [hq] at hq'; cases hq'
    | created =>
      have hname : (f.queueManager.store.queues.insert name _).lookup name = _ := hsame name
      rw [FinMap.lookup_insert_eq, if_pos rfl, (h.missing name hq).1] at hname
      cases hname
  · rename_i name settings hc
    intro config hconfig settings' ha
    cases h.configures_update hc hs with
    | notUpdated _ _ config' e hconfig' ha' =>
      rw [hconfig] at hconfig'; cases hconfig'
      rw [ha] at ha'; cases ha'
    | updated _ _ settings₁ config' q m hconfig' _ _ _ ha' =>
      rw [hconfig] at hconfig'; cases hconfig'
      rw [ha] at ha'; cases ha'
      have hname : (f.queueManager.store.queues.insert name { config with settings := settings' }).lookup name = _ := hsame name
      rw [FinMap.lookup_insert_eq, if_pos rfl, hconfig, Option.some.injEq] at hname
      exact congrArg QueueConfig.settings hname
  · rename_i name hc
    cases h.configures_delete hc hs with
    | missing _ hq => exact hq
    | deleted _ config hconfig =>
      have hname : (f.queueManager.store.queues.erase name).lookup name = _ := hsame name
      rw [FinMap.lookup_erase_eq, if_pos rfl, hconfig] at hname
      cases hname
  · trivial

theorem Safe.same_of_quiet (h : Safe f) (hs : f.apply entry = some (reply, f')) (hquiet : Quiet f entry) : SameConfigs f f' := by
  intro name
  unfold Quiet at hquiet
  cases h.seen hs name with
  | elsewhere _ _ hc => exact hc
  | refused _ hf => rw [hf]
  | handled q q' response store' he hq hh hr hf =>
    rw [hf]
    exact congrArg (AList.lookup name) (h.handle_frame he hq hh).queues
  | created queueType settings settings' he hq ha =>
    rw [he] at hquiet
    obtain ⟨e, herr⟩ := hquiet hq
    rw [ha] at herr; cases herr
  | updated q m config settings settings' he hq hc hm ha hf =>
    rw [he] at hquiet
    obtain ⟨stored, hstored, hserved⟩ := h.queue name q hq
    rw [hserved.config_eq] at hc; cases hc
    rw [hf]
    show (f.queueManager.store.queues.insert name { config with settings := settings' }).lookup name = _
    rw [FinMap.lookup_insert_eq, if_pos rfl, hquiet config hstored settings' ha, hstored]
  | deleted he hq =>
    rw [he] at hquiet
    rw [((h.step hs).missing name hq).1, (h.missing name hquiet).1]

/-- `Persist` writes the queues of `s` throughout the window exactly if the window is quiet. -/
theorem Runs.pointInTime_iff {leaderConfig : LeaderConfig} {events window : List (Event FSM Entry Reply)}
    (r : Runs (new cfg leaderConfig) events s) (w : Runs s window f) :
    (∀ done rest g, window = done ++ rest → Runs s done g → PointInTime s g) ↔ ∀ e ∈ window, Quiet e.before e.input := by
  have hsafe : ∀ {done g}, Runs s done g → Safe g := fun w' => Runs.safe (r.append w')
  constructor
  · intro h e he
    obtain ⟨done, rest, rfl⟩ := List.append_of_mem he
    obtain ⟨hdone, hstep, _⟩ := w.at_event
    have hafter : Runs s (done ++ [e]) e.after := hdone.append (.cons hstep (.nil _))
    -- the snapshot is that of `s` before and after the entry
    have h1 := (r.safe.pointInTime_iff (hsafe hdone)).mp (h done (e :: rest) _ rfl hdone)
    have h2 := (r.safe.pointInTime_iff (hsafe hafter)).mp (h (done ++ [e]) rest _ (by simp) hafter)
    exact (hsafe hdone).quiet_of_same hstep (h1.symm.trans h2)
  · rintro h done rest g rfl w'
    refine (r.safe.pointInTime_iff (hsafe w')).mpr (And.right (?_ : Safe g ∧ SameConfigs s g))
    refine w'.keeps (I := fun g => Safe g ∧ SameConfigs s g) (fun e he hstep hI => ?_) ⟨r.safe, fun _ => rfl⟩
    exact ⟨hI.1.step hstep, hI.2.trans (hI.1.same_of_quiet hstep (h e (List.mem_append_left _ he)))⟩

/-! ## Restoring what was written -/

/-- What `Persist` writes when the live state is `f` can be restored into a node in any state,
    which then answers whatever keeps to the form, the entries of the window first, as `s` does. -/
def Resumes (cfg : Config) (K : MemoryQueue.Kind → Prop) (s f : FSM) : Prop :=
  ∀ names, names.Perm f.queueManager.queues.keys → ∀ prior, Reached cfg prior → ∃ snapshot items restored,
    s.snapshot = some snapshot ∧ snapshot.persist f names = some items ∧ prior.restore items = some restored ∧
    AnswersLike (fun e => Keeps K e.before e.input) s restored ∧ AnswersLike (fun e => Keeps K e.before e.input) restored s

/-- The leader's addresses tell no twins apart. -/
theorem Twins.of_queueManager {g : FSM} (h : Twins cfg K f g) (he : f'.queueManager = f.queueManager) : Twins cfg K f' g := by
  obtain ⟨qm, leaderConfig⟩ := f
  obtain ⟨qm', leaderConfig'⟩ := f'
  cases he
  have hsafe : Safe ⟨qm, leaderConfig'⟩ := ⟨h.safe.queue, h.safe.missing⟩
  refine ⟨hsafe, h.safe', h.config, h.config', fun name => ?_⟩
  cases h.queue name with
  | missing hf hg => exact .missing hf hg
  | present b b' hf hg halike hb hn => exact .present b b' ⟨hsafe, hf.absent, hf.present⟩ hg halike hb hn

theorem PointInTime.resumes (h : PointInTime s f) (h10 : 10 ≤ cfg.defaultAckTimeout) (ht : Twins cfg K s s) :
    Resumes cfg K s f := by
  intro names hnames prior hprior
  obtain ⟨snapshot, names₀, items, hsnap, hnames₀, hp₀, hp⟩ := h names hnames
  -- the items are those of `s` with the leader of `f`
  obtain ⟨blocks, hblocks⟩ := ht.safe.blocks hnames₀
  have hs := persist_eq fun n hn => (hblocks n hn).persisted
  rw [hp₀, Option.some.injEq, List.cons.injEq] at hs
  have hlead : (⟨s.queueManager, f.leaderConfig⟩ : FSM).persist names₀ = some (f.leaderItem :: items) := by
    rw [hs.2]
    exact persist_eq fun n hn => (hblocks n hn).persisted
  have hleft : Twins cfg K ⟨s.queueManager, f.leaderConfig⟩ s := ht.of_queueManager rfl
  have htwins : Twins cfg K ⟨s.queueManager, f.leaderConfig⟩ ⟨s.queueManager, f.leaderConfig⟩ := hleft.symm.of_queueManager rfl
  obtain ⟨items', restored, hitems, hrestored, hlike⟩ := htwins.restored hprior.safe.1 hprior.safe.2 hnames₀
  rw [hlead] at hitems
  cases hitems
  have hlike' : Twins cfg K s restored := hlike.of_queueManager rfl
  exact ⟨snapshot, _, restored, hsnap, hp, hrestored, hlike'.answersLike h10 fun _ he => he,
    hlike'.symm.answersLike h10 fun _ he => he⟩

/-- Quiet windows are those in which `Persist` writes the queues of `s`; what it writes resumes
    `s` if the entries up to it kept to what a restore needs. -/
theorem point_in_time_iff {leaderConfig : LeaderConfig} {events window : List (Event FSM Entry Reply)}
    (r : Runs (new cfg leaderConfig) events s) (w : Runs s window f) :
    ((∀ done rest g, window = done ++ rest → Runs s done g → PointInTime s g) ↔ ∀ e ∈ window, Quiet e.before e.input) ∧
    (10 ≤ cfg.defaultAckTimeout → (∀ e ∈ events, Keeps K e.before e.input) → (∀ e ∈ window, Quiet e.before e.input) →
      ∀ done rest g, window = done ++ rest → Runs s done g → Resumes cfg K s g) :=
  ⟨r.pointInTime_iff w, fun h10 hform hquiet done rest g hw w' =>
    ((r.pointInTime_iff w).mpr hquiet done rest g hw w').resumes h10 (r.twins h10 hform)⟩

/-- Deliveries in the window, and a queue that is already there created again. -/
def quietWindow : List Entry :=
  [⟨5, 5, .dequeue "jobs" false⟩, ⟨6, 6, .createQueue "jobs" "delayed" plain⟩, ⟨7, 7, .enqueue "jobs" 9 "h" 1 "" none⟩]

theorem quietWindow_runs : (exec apply restorableState quietWindow).isSome := rfl

theorem restorable_keeps : ∀ e ∈ ((exec apply (new defaults (.new "n1" "" "")) restorable).get restorable_runs).1,
    Keeps (fun _ => True) e.before e.input := by
  decide +kernel

/-- The snapshot of a queue with a message in flight is written after the window. -/
theorem point_in_time_deliveries :
    let f := ((exec apply restorableState quietWindow).get quietWindow_runs).2
    PointInTime restorableState f ∧ Resumes defaults (fun _ => True) restorableState f := by
  intro f
  have w : Runs restorableState _ f := Run.of_exec_isSome quietWindow_runs
  obtain ⟨hiff, hresumes⟩ := point_in_time_iff (K := fun _ => True) (Run.of_exec_isSome restorable_runs) w
  have hquiet : ∀ e ∈ ((exec apply restorableState quietWindow).get quietWindow_runs).1, Quiet e.before e.input := by
    intro e he
    change e ∈ [_, _, _] at he
    simp only [List.mem_cons, List.not_mem_nil, or_false] at he
    obtain rfl | rfl | rfl := he
    · trivial
    · exact fun h => absurd h (by decide)
    · trivial
  exact ⟨hiff.mpr hquiet _ [] _ (List.append_nil _).symm w,
    hresumes (by decide) restorable_keeps hquiet _ [] _ (List.append_nil _).symm w⟩

/-- A message for a queue that is created only after it. -/
def creatingWindow : List Entry := [⟨1, 0, .enqueue "mail" 1 "" 0 "" none⟩, ⟨2, 0, .createQueue "mail" "delayed" plain⟩]

theorem creatingWindow_runs : (exec apply (new defaults (.new "n1" "" "")) creatingWindow).isSome := rfl

/-- The message was refused; after a restore the window enqueues it. -/
theorem window_leaks :
    let s := new defaults (.new "n1" "" "")
    ∃ window f snapshot items g window' f', Runs s window f ∧ s.snapshot = some snapshot ∧
      snapshot.persist f ["mail"] = some items ∧
      ¬ PointInTime s f ∧ s.restore items = some g ∧ Runs g window' f' ∧ window'.map Event.input = window.map Event.input ∧
      f.queueManager.store.messages.lookup ("mail", 1) = none ∧ (f'.queueManager.store.messages.lookup ("mail", 1)).isSome := by
  intro s
  have w := Run.of_exec_isSome creatingWindow_runs
  have hscan : Store.empty.scan "mail" = [] := (Store.scan_perm _ _).eq_nil
  refine ⟨_, _, ⟨.empty, ∅⟩, [s.leaderItem, .queue ⟨"mail", "delayed", ⟨.unspecified, 0, 60, 0⟩⟩], _, _, _, w, rfl, ?_, ?_, rfl,
    @Run.of_exec_isSome _ _ _ _ _ creatingWindow rfl, rfl, rfl, rfl⟩
  · show some (s.leaderItem :: [.queue _ :: ([] ++ (Store.empty.scan "mail").map .message)].flatten) = _
    rw [hscan]; rfl
  · rw [(new_safe _ _).pointInTime_iff (Runs.safe w)]
    intro h
    exact absurd (h "mail") (by decide)

end FSM

end Doq
