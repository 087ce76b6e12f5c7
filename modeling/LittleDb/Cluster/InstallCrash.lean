import LittleDb.Cluster.Install

/-! Crashes within an install: the node comes up as it was or with the snapshot. -/

namespace Cluster

open List

open Store (Dir Options openWith)

section Files

theorem foldl_removeFile (dir : Dir) : (dataFiles dir).foldl removeFile dir = Dir.empty := by
  have tables : ∀ (ids : List Nat) (d : Dir), (ids.map DataFile.table).foldl removeFile d =
      { d with tables := ids.foldl (fun ts id => SortedMap.erase id ts) d.tables } := by
    intro ids
    induction ids with
    | nil => exact fun d => rfl
    | cons id ids ih => exact fun d => ih (removeFile d (.table id))
  have split : dataFiles dir =
      [.wal, .appliedBase, .sessions] ++ (dir.tables.map Prod.fst).map DataFile.table := by
    rw [dataFiles, map_map]
    rfl
  have gone : (dir.tables.filter fun e => decide (e.1 ∉ dir.tables.map Prod.fst)) = [] :=
    filter_eq_nil_iff.mpr fun e listed => by
      simpa using ⟨e.2, listed⟩
  rw [split, foldl_append, tables, SortedMap.foldl_erase]
  simp only [foldl_cons, foldl_nil, removeFile, gone]
  rfl

theorem foldl_copyFile {m : Shipment} {built : Dir} (made : m.build = .ok built) :
    (dataFiles built).foldl (copyFile built) Dir.empty = built := by
  rcases Store.buildSnapshotDB_cases made with ⟨-, rfl⟩ | ⟨t, -, rfl⟩
  · rfl
  · simp [dataFiles, copyFile, SortedMap.get, SortedMap.put, SortedMap.seek, Dir.empty]

end Files

namespace Disk

variable {d : Disk} {built : Dir}

theorem foldl_stage (files : List DataFile) (now : Dir) (staged : d.staged = some now) :
    (files.map (DiskStep.stage built)).foldl exec d =
      { d with staged := some (files.foldl (copyFile built) now) } := by
  induction files generalizing d now with
  | nil => simp [← staged]
  | cons f files ih =>
    have next : (d.exec (.stage built f)).staged = some (copyFile built now f) := by
      simp [exec, staged]
    rw [map_cons, foldl_cons, ih _ next]
    rfl

theorem foldl_remove (files : List DataFile) : ∃ u, (files.map DiskStep.remove).foldl exec d =
    { d with data := files.foldl removeFile d.data, unsynced := u } := by
  induction files generalizing d with
  | nil => exact ⟨d.unsynced, rfl⟩
  | cons f files ih => exact ih (d := d.exec (.remove f))

theorem foldl_copy (files : List DataFile) (staged : d.staged = some built) :
    ∃ u, (files.map DiskStep.copy).foldl exec d =
      { d with data := files.foldl (copyFile built) d.data, unsynced := u } := by
  induction files generalizing d with
  | nil => exact ⟨d.unsynced, rfl⟩
  | cons f files ih =>
    have next : d.exec (.copy f) = { d with data := copyFile built d.data f, unsynced := true } := by
      simp [exec, staged]
    obtain ⟨u, rest⟩ := ih (d := d.exec (.copy f)) (by rw [next]; exact staged)
    refine ⟨u, ?_⟩
    rw [map_cons, foldl_cons, rest, next]
    rfl

theorem foldl_swap {m : Shipment} (made : m.build = .ok built) (staged : d.staged = some built) :
    (swapInStagedDB d.data built).foldl exec d = { d with data := built, unsynced := false } := by
  obtain ⟨u, removed⟩ := foldl_remove (d := d) (dataFiles d.data)
  rw [swapInStagedDB, foldl_append, removed, foldl_removeFile, foldl_append]
  obtain ⟨u', copied⟩ := foldl_copy (d := { d with data := Dir.empty, unsynced := u }) (dataFiles built) staged
  rw [copied, foldl_copyFile made]
  rfl

end Disk

/-- Before the marker: everything the node starts from is the old one. -/
structure Before (start d : Disk) : Prop where
  data : d.data = start.data
  synced : d.unsynced = false
  marker : d.marker = none
  config : d.config = start.config
  log : d.log = start.log

/-- Behind the marker: the staged files are complete, the rest can be redone. -/
structure Pending (m : Shipment) (built : Dir) (start d : Disk) : Prop where
  marker : d.marker = some m.marker
  staged : d.staged = some built
  installConfig : d.installConfig = m.stagedConfig start
  config : d.config = start.config ∨ d.config = foldedConfig (m.stagedConfig start) start.config
  log : ∃ r, LogFile.load d.log = .ok r

structure Replaced (m : Shipment) (built : Dir) (start d : Disk) : Prop where
  data : d.data = built
  synced : d.unsynced = false
  config : d.config = foldedConfig (m.stagedConfig start) start.config
  log : d.log = (LogFile.resetToBase m.lastIncludedIndex m.lastIncludedTerm).bytes

/-- The install is done: everything is replaced, and the marker is gone. -/
structure After (m : Shipment) (built : Dir) (start d : Disk) : Prop extends Replaced m built start d where
  marker : d.marker = none

section Phases

variable {m : Shipment} {built : Dir} {start d : Disk} {opts : Options} {bootstrapConfig : Members}
  {old : Boot}

theorem load_resetToBase {index term : Nat} (small : index < 2 ^ 64) (small' : term < 2 ^ 64) :
    LogFile.load (LogFile.resetToBase index term).bytes = .ok (LogFile.resetToBase index term, []) := by
  have fits : RaftLog.Fits ⟨index, term, []⟩ := ⟨small, small', by simp⟩
  have loaded := (LogFile.mirrors_compact index term []).load fits (.inl rfl)
  rwa [append_nil] at loaded

theorem buildNode_of_marker (none : d.marker = none) :
    buildNode opts bootstrapConfig d = openNode opts bootstrapConfig d := by
  simp [buildNode, completeInstallIfPending, none]

theorem openNode_congr {d' : Disk} (data : d'.data = d.data) (log : d'.log = d.log) (config : d'.config = d.config) :
    openNode opts bootstrapConfig d' = openNode opts bootstrapConfig d := by
  rw [openNode, openNode, data, log, config]

theorem Before.boots (before : Before start d) (running : start.Running)
    (up : buildNode opts bootstrapConfig start = .ok old) : buildNode opts bootstrapConfig d = .ok old := by
  rw [buildNode_of_marker before.marker, openNode_congr before.data before.log before.config,
    ← buildNode_of_marker running.marker, up]

theorem log_config_of_up (running : start.Running) (up : buildNode opts bootstrapConfig start = .ok old) :
    (∃ r, LogFile.load start.log = .ok r) ∧ old.baseConfig = (start.config.map decodeConfig).getD bootstrapConfig := by
  rw [buildNode_of_marker running.marker, openNode] at up
  cases opened : openWith start.data opts with
  | error e => simp [opened] at up
  | ok store =>
    cases loaded : LogFile.load start.log with
    | error e => simp [opened, loaded] at up
    | ok r =>
      simp only [opened, loaded] at up
      split_ifs at up
      exact ⟨⟨r, rfl⟩, by rw [← Except.ok.inj up]⟩

theorem After.boots (opts : Options) (bootstrapConfig : Members) (after : After m built start d)
    (made : m.build = .ok built) (fits : m.Fits) : ∃ b, buildNode opts bootstrapConfig d = .ok b ∧
    b.baseConfig = ((foldedConfig (m.stagedConfig start) start.config).map decodeConfig).getD bootstrapConfig ∧
    (∀ k v, b.store.LivePair k v ↔ (k, v) ∈ m.kvs) ∧ b.store.sessions = m.sessionTable ∧
    b.log = ⟨m.lastIncludedIndex, m.lastIncludedTerm, []⟩ := by
  obtain ⟨store, opened, -, shipped⟩ := Store.openWith_built made fits.index fits.ts opts
  have loaded := load_resetToBase fits.index fits.term
  -- The recovered index is exactly the base of the new log, so the guard lets it pass.
  have guard : ¬ store.recoveredApplied <
      (LogFile.resetToBase m.lastIncludedIndex m.lastIncludedTerm).baseIndex := by
    rw [shipped.recovered]
    exact lt_irrefl _
  refine ⟨⟨store, ⟨m.lastIncludedIndex, m.lastIncludedTerm, []⟩,
    (d.config.map decodeConfig).getD bootstrapConfig⟩, ?_, by rw [after.config], shipped.livePair_iff,
    shipped.sessions, rfl⟩
  rw [buildNode_of_marker after.marker, openNode, after.data, after.log, opened]
  simp only [loaded]
  rw [if_neg guard]
  rfl

theorem Before.crash (before : Before start d) (loss : Loss) : Before start (d.crash loss) where
  data := by simp [Disk.crash, before.synced, before.data]
  synced := rfl
  marker := before.marker
  config := before.config
  log := before.log

theorem Pending.crash (pending : Pending m built start d) (loss : Loss) : Pending m built start (d.crash loss) where
  marker := pending.marker
  staged := by simp [Disk.crash, pending.marker, pending.staged]
  installConfig := pending.installConfig
  config := pending.config
  log := pending.log

theorem After.crash (after : After m built start d) (loss : Loss) : After m built start (d.crash loss) where
  data := by simp [Disk.crash, after.synced, after.data]
  synced := rfl
  config := after.config
  log := after.log
  marker := after.marker

theorem Before.exec {a : DiskStep} (before : Before start d) (listed : a ∈ stageSteps m built) :
    Before start (d.exec a) := by
  have staging : a = .removeStaged ∨ a = .makeStaged ∨ (∃ f, a = .stage built f) ∨
      a = .writeInstallConfig m.config := by
    unfold stageSteps at listed
    split_ifs at listed
    · simp only [append_nil, mem_append, mem_cons, not_mem_nil, or_false, mem_map] at listed
      rcases listed with (rfl | rfl) | ⟨f, -, rfl⟩ <;> simp
    · simp only [mem_append, mem_cons, not_mem_nil, or_false, mem_map] at listed
      rcases listed with (rfl | rfl) | ⟨f, -, rfl⟩ | rfl <;> simp
  rcases staging with rfl | rfl | ⟨f, rfl⟩ | rfl <;>
    exact ⟨before.data, before.synced, before.marker, before.config, before.log⟩

theorem foldl_stageSteps (made : m.build = .ok built) :
    (stageSteps m built).foldl Disk.exec start =
      { start with staged := some built, installConfig := m.stagedConfig start } := by
  have files : ((dataFiles built).map (DiskStep.stage built)).foldl Disk.exec
      { start with staged := some Dir.empty } = { start with staged := some built } := by
    rw [Disk.foldl_stage _ Dir.empty rfl, foldl_copyFile made]
  rw [stageSteps, foldl_append, foldl_append]
  change List.foldl Disk.exec (List.foldl Disk.exec { start with staged := some Dir.empty } _) _ = _
  rw [files, Shipment.stagedConfig]
  split_ifs <;> rfl

theorem Pending.of_marker (loads : ∃ r, LogFile.load start.log = .ok r) :
    Pending m built start
      (Disk.exec { start with staged := some built, installConfig := m.stagedConfig start }
        (.writeInstallMarker m.marker)) :=
  ⟨rfl, rfl, rfl, .inl rfl, loads⟩

section

variable (pending : Pending m built start d)

include pending

theorem Pending.swap {a : DiskStep} {data : Dir}
    (listed : a ∈ swapInStagedDB data built) : Pending m built start (d.exec a) := by
  unfold swapInStagedDB at listed
  simp only [mem_append, mem_map, mem_singleton] at listed
  rcases listed with ⟨f, -, rfl⟩ | ⟨f, -, rfl⟩ | rfl <;>
    exact ⟨pending.marker, pending.staged, pending.installConfig, pending.config, pending.log⟩

theorem Pending.openStore (opts : Options) : Pending m built start (d.exec (.openStore opts)) := by
  simp only [Disk.exec]
  cases openWith d.data opts with
  | error e => exact pending
  | ok db => exact ⟨pending.marker, pending.staged, pending.installConfig, pending.config, pending.log⟩

theorem Pending.config_exec :
    (d.exec .installStagedConfig).config = foldedConfig (m.stagedConfig start) start.config := by
  simp only [Disk.exec, pending.installConfig]
  cases staged : m.stagedConfig start with
  | none => simpa [staged, foldedConfig] using pending.config
  | some encoded => rfl

theorem Pending.installStagedConfig : Pending m built start (d.exec .installStagedConfig) := by
  refine ⟨?_, ?_, ?_, .inr pending.config_exec, ?_⟩
  all_goals simp only [Disk.exec]; split
  · exact pending.marker
  · exact pending.marker
  · exact pending.staged
  · exact pending.staged
  · exact pending.installConfig
  · exact pending.installConfig
  · exact pending.log
  · exact pending.log

theorem Pending.resetLog (fits : m.Fits) :
    Pending m built start (d.exec (.resetLog m.lastIncludedIndex m.lastIncludedTerm)) :=
  ⟨pending.marker, pending.staged, pending.installConfig, pending.config, _, load_resetToBase fits.index fits.term⟩

theorem cut_cleanUp (replaced : Replaced m built start d) (n : Nat) :
    Pending m built start (Run.cut Disk.exec cleanUp n d) ∨ After m built start (Run.cut Disk.exec cleanUp n d) := by
  obtain ⟨data, synced, config, log⟩ := replaced
  cases n with
  | zero => exact .inl pending
  | succ n =>
    -- Nothing behind the removal of the marker touches what the node starts from.
    have done : After m built start (d.exec .clearInstallMarker) := ⟨⟨data, synced, config, log⟩, rfl⟩
    refine .inr (Run.cut_invariant (P := After m built start)
      [DiskStep.clearInstallConfig, DiskStep.removeStaged] n done fun a listed d' after => ?_)
    obtain ⟨⟨data, synced, config, log⟩, marker⟩ := after
    simp only [mem_cons, not_mem_nil, or_false] at listed
    rcases listed with rfl | rfl <;> exact ⟨⟨data, synced, config, log⟩, marker⟩

end

/-- A completion keeps the install pending and then replaces everything. -/
structure Completes (m : Shipment) (built : Dir) (start d : Disk) (steps : List DiskStep) : Prop where
  keeps : ∀ a ∈ steps, ∀ d, Pending m built start d → Pending m built start (d.exec a)
  replaces : Replaced m built start (steps.foldl Disk.exec d)

theorem Completes.cut {steps : List DiskStep} (completes : Completes m built start d steps)
    (pending : Pending m built start d) (n : Nat) : Pending m built start (Run.cut Disk.exec (steps ++ cleanUp) n d) ∨
    After m built start (Run.cut Disk.exec (steps ++ cleanUp) n d) := by
  have whole : Pending m built start (steps.foldl Disk.exec d) := by
    rw [← Run.cut_length]
    exact Run.cut_invariant (P := Pending m built start) _ _ pending completes.keeps
  rcases Run.cut_append Disk.exec steps cleanUp n d with ⟨k, stopped⟩ | ⟨k, stopped⟩
  · rw [stopped]
    exact .inl (Run.cut_invariant (P := Pending m built start) _ _ pending completes.keeps)
  · rw [stopped]
    exact cut_cleanUp whole completes.replaces k

theorem Completes.whole {steps : List DiskStep} (completes : Completes m built start d steps) :
    After m built start ((steps ++ cleanUp).foldl Disk.exec d) := by
  obtain ⟨data, synced, config, log⟩ := completes.replaces
  rw [foldl_append]
  exact ⟨⟨data, synced, config, log⟩, rfl⟩

section

variable (pending : Pending m built start d)
include pending

theorem completes_running (made : m.build = .ok built) (fits : m.Fits) (opts : Options) :
    Completes m built start d (swapInStagedDB d.data built ++
      [.openStore opts, .installStagedConfig, .resetLog m.lastIncludedIndex m.lastIncludedTerm]) := by
  constructor
  · intro a listed d' pending'
    rcases mem_append.mp listed with swap | rest
    · exact pending'.swap swap
    · simp only [mem_cons, not_mem_nil, or_false] at rest
      rcases rest with rfl | rfl | rfl
      · exact pending'.openStore opts
      · exact pending'.installStagedConfig
      · exact pending'.resetLog fits
  · obtain ⟨store, opened, same, -⟩ := Store.openWith_built made fits.index fits.ts opts
    -- Opening the swapped directory leaves it as it is.
    have reopened : Disk.exec { d with data := built, unsynced := false } (.openStore opts) =
        { d with data := built, unsynced := false } := by
      simp [Disk.exec, opened, same]
    have swapped : Pending m built start { d with data := built, unsynced := false } :=
      ⟨pending.marker, pending.staged, pending.installConfig, pending.config, pending.log⟩
    rw [foldl_append, Disk.foldl_swap made pending.staged, foldl_cons, reopened]
    refine ⟨?_, ?_, swapped.config_exec, rfl⟩
    · simp only [foldl_cons, foldl_nil, Disk.exec]
      split <;> rfl
    · simp only [foldl_cons, foldl_nil, Disk.exec]
      split <;> rfl

theorem completes_starting (made : m.build = .ok built) (fits : m.Fits) :
    Completes m built start d (swapInStagedDB d.data built ++
      [.resetLog m.lastIncludedIndex m.lastIncludedTerm, .installStagedConfig]) := by
  constructor
  · intro a listed d' pending'
    rcases mem_append.mp listed with swap | rest
    · exact pending'.swap swap
    · simp only [mem_cons, not_mem_nil, or_false] at rest
      rcases rest with rfl | rfl
      · exact pending'.resetLog fits
      · exact pending'.installStagedConfig
  · have swapped : Pending m built start { d with data := built, unsynced := false } :=
      ⟨pending.marker, pending.staged, pending.installConfig, pending.config, pending.log⟩
    rw [foldl_append, Disk.foldl_swap made pending.staged]
    refine ⟨?_, ?_, (swapped.resetLog fits).config_exec, ?_⟩
    all_goals
      simp only [foldl_cons, foldl_nil, Disk.exec]
      split <;> rfl

theorem completeInstallIfPending_of_pending :
    completeInstallIfPending d = (swapInStagedDB d.data built ++
      [.resetLog m.lastIncludedIndex m.lastIncludedTerm, .installStagedConfig] ++ cleanUp, none) := by
  obtain ⟨r, loaded⟩ := pending.log
  rw [completeInstallIfPending, pending.marker, pending.staged, loaded, append_assoc]
  rfl

end

theorem completeInstallIfPending_of_marker (none : d.marker = none) :
    completeInstallIfPending d = ([], Option.none) := by
  simp [completeInstallIfPending, none]

/-- Where an install and all the restarts after it can have stopped. -/
inductive Phase (m : Shipment) (start d : Disk) : Prop where
  | before (phase : Before start d)
  | pending {built : Dir} (made : m.build = .ok built) (phase : Pending m built start d)
  | after {built : Dir} (made : m.build = .ok built) (phase : After m built start d)

theorem Phase.crash (phase : Phase m start d) (loss : Loss) : Phase m start (d.crash loss) := by
  cases phase with
  | before phase => exact .before (phase.crash loss)
  | pending made phase => exact .pending made (phase.crash loss)
  | after made phase => exact .after made (phase.crash loss)

theorem Phase.cut (phase : Phase m start d) (fits : m.Fits) (n : Nat) :
    Phase m start (Run.cut Disk.exec (completeInstallIfPending d).1 n d) := by
  cases phase with
  | before phase =>
    rw [completeInstallIfPending_of_marker phase.marker]
    simpa [Run.cut] using Phase.before phase
  | pending made phase =>
    rw [completeInstallIfPending_of_pending phase]
    exact ((completes_starting phase made fits).cut phase n).elim (.pending made) (.after made)
  | after made phase =>
    rw [completeInstallIfPending_of_marker phase.marker]
    simpa [Run.cut] using Phase.after made phase

theorem Phase.crashes (phase : Phase m start d) (fits : m.Fits) (stops : List (Nat × Loss)) :
    Phase m start (d.crashes stops) := by
  induction stops generalizing d with
  | nil => exact phase
  | cons stop stops ih => exact ih ((phase.cut fits stop.1).crash stop.2)

theorem phase_installSnapshot (running : start.Running) (loads : ∃ r, LogFile.load start.log = .ok r) (fits : m.Fits)
    (n : Nat) : Phase m start (Run.cut Disk.exec (installSnapshot opts m start) n start) := by
  have untouched : Before start start := ⟨rfl, running.synced, running.marker, rfl, rfl⟩
  unfold installSnapshot
  cases made : m.build with
  | error e =>
    refine .before (Run.cut_invariant (P := Before start) _ _ untouched fun a listed d before => ?_)
    exact before.exec (mem_append_left _ listed : a ∈ stageSteps m Dir.empty)
  | ok built =>
    simp only
    rcases Run.cut_append Disk.exec (stageSteps m built)
      (.writeInstallMarker m.marker :: completeInstall opts m.marker start.data built) n start with
      ⟨k, stopped⟩ | ⟨k, stopped⟩
    · rw [stopped]
      exact .before (Run.cut_invariant (P := Before start) _ _ untouched fun a listed d before =>
        before.exec listed)
    · rw [stopped, foldl_stageSteps made]
      -- From the marker on the install is pending until it is complete.
      cases k with
      | zero => exact .before ⟨rfl, running.synced, running.marker, rfl, rfl⟩
      | succ k =>
        obtain ⟨store, opened, -⟩ := Store.openWith_built made fits.index fits.ts opts
        have pending : Pending m built start _ := Pending.of_marker loads
        have program : completeInstall opts m.marker start.data built = (swapInStagedDB start.data built ++
            [.openStore opts, .installStagedConfig, .resetLog m.lastIncludedIndex m.lastIncludedTerm]) ++
              cleanUp := by
          rw [completeInstall, opened, append_assoc]
          rfl
        rw [program]
        exact ((completes_running pending made fits opts).cut pending k).elim (.pending made) (.after made)

theorem after_installSnapshot (opts : Options) (loads : ∃ r, LogFile.load start.log = .ok r) (fits : m.Fits)
    (made : m.build = .ok built) : After m built start ((installSnapshot opts m start).foldl Disk.exec start) := by
  obtain ⟨store, opened, -⟩ := Store.openWith_built made fits.index fits.ts opts
  have pending : Pending m built start _ := Pending.of_marker loads
  have done := (completes_running pending made fits opts).whole
  unfold installSnapshot completeInstall
  simp only [made, opened]
  rw [foldl_append, foldl_stageSteps made, foldl_cons, ← append_assoc]
  exact done

theorem Pending.buildNode (opts : Options) (bootstrapConfig : Members)
    (pending : Pending m built start d) (made : m.build = .ok built) (fits : m.Fits) : ∃ d', After m built start d' ∧
      buildNode opts bootstrapConfig d = buildNode opts bootstrapConfig d' := by
  have done := (completes_starting pending made fits).whole
  refine ⟨_, done, ?_⟩
  rw [buildNode_of_marker done.marker, Cluster.buildNode, completeInstallIfPending_of_pending pending]

theorem baseConfig_of_folded (running : start.Running)
    (up : buildNode opts bootstrapConfig start = .ok old) (made : m.build = .ok built)
    (fresh : ¬ m.FoldsStale start old) :
    ((foldedConfig (m.stagedConfig start) start.config).map decodeConfig).getD bootstrapConfig =
      if m.config = [] then old.baseConfig else decodeConfig m.config := by
  have same : ∀ encoded, decodeConfig (encodeConfig (decodeConfig encoded)) = decodeConfig encoded :=
    fun encoded => decodeConfig_encodeConfig (decodeConfig_fits encoded)
  unfold Shipment.stagedConfig
  by_cases none : m.config = []
  · rw [if_pos none, if_pos none]
    cases stale : start.installConfig with
    | none => exact (log_config_of_up running up).2.symm
    | some encoded =>
      -- A stale configuration that is not the old one is excluded.
      refine (same encoded).trans (Classical.byContradiction fun other => fresh ?_)
      exact ⟨none, ⟨built, made⟩, encoded, stale, other⟩
  · rw [if_neg none, if_neg none]
    exact same m.config

theorem Phase.boots (phase : Phase m start d) (running : start.Running)
    (up : buildNode opts bootstrapConfig start = .ok old) (fits : m.Fits) (fresh : ¬ m.FoldsStale start old) :
    ∃ b, buildNode opts bootstrapConfig d = .ok b ∧ (b = old ∨ b.Installed old m) := by
  have installed : ∀ {built d'}, m.build = .ok built → After m built start d' →
      ∃ b, buildNode opts bootstrapConfig d' = .ok b ∧ (b = old ∨ b.Installed old m) := by
    intro built d' made after
    obtain ⟨b, starts, config, pairs, sessions, log⟩ := after.boots opts bootstrapConfig made fits
    rw [baseConfig_of_folded running up made fresh] at config
    exact ⟨b, starts, .inr ⟨pairs, sessions, log, config⟩⟩
  cases phase with
  | before phase => exact ⟨old, phase.boots running up, .inl rfl⟩
  | pending made phase =>
    obtain ⟨d', after, same⟩ := phase.buildNode opts bootstrapConfig made fits
    rw [same]
    exact installed made after
  | after made phase => exact installed made phase

end Phases

/--
An install is crash-atomic exactly when it folds in no configuration that an earlier one left behind.

However often the process dies on the way, the node comes up as it was or with the snapshot.
-/
theorem install_crash_atomic {opts : Options} {bootstrapConfig : Members} {start : Disk} {old : Boot}
    (running : start.Running) (up : buildNode opts bootstrapConfig start = .ok old) {m : Shipment}
    (fits : m.Fits) :
    (∀ (n : Nat) (loss : Loss) (stops : List (Nat × Loss)), ∃ b,
      buildNode opts bootstrapConfig
        (((Run.cut Disk.exec (installSnapshot opts m start) n start).crash loss).crashes stops) = .ok b ∧
      (b = old ∨ b.Installed old m)) ↔ ¬ m.FoldsStale start old := by
  have loads := (log_config_of_up running up).1
  constructor
  · rintro atomic ⟨none, ⟨built, made⟩, encoded, stale, other⟩
    -- The install that is not stopped folds the stale configuration in.
    obtain ⟨b, starts, outcome⟩ := atomic (installSnapshot opts m start).length ⟨Dir.empty, Option.none⟩ []
    have after : After m built start _ := (after_installSnapshot opts loads fits made).crash
      ⟨Dir.empty, Option.none⟩
    rw [Run.cut_length] at starts
    obtain ⟨b', starts', config, -⟩ := after.boots opts bootstrapConfig made fits
    obtain rfl := Except.ok.inj (starts.symm.trans starts')
    rw [Shipment.stagedConfig, if_pos none, stale] at config
    have folded : b.baseConfig = decodeConfig encoded :=
      config.trans (decodeConfig_encodeConfig (decodeConfig_fits encoded))
    rcases outcome with rfl | installed
    · exact other folded.symm
    · rw [installed.baseConfig, if_pos none] at folded
      exact other folded.symm
  · intro fresh n loss stops
    exact (((phase_installSnapshot running loads fits n).crash loss).crashes fits stops).boots
      running up fits fresh

def freshDisk : Disk := ⟨Dir.empty, false, none, none, none, none, []⟩

/-- A snapshot of one pair at index one, with a configuration. -/
def onePair (config : List UInt8) : Shipment := ⟨1, 1, 1, [([1], [2])], [], config⟩

theorem onePair_build (config : List UInt8) : ∃ built, (onePair config).build = .ok built := by
  have order : Store.Ascending (Store.snapshotItems [([1], [2])] 1) := pairwise_singleton _ _
  obtain ⟨t, written, -⟩ := Store.Table.write_ok 1 1 order (Store.data_snapshotItems (by decide))
  refine ⟨⟨[], [(1, t)], 1, fun _ => 0⟩, ?_⟩
  rw [Shipment.build, Store.buildSnapshotDB, if_neg (by simp [onePair])]
  exact congrArg (Except.map _) written

theorem onePair_fits (config : List UInt8) : (onePair config).Fits := by
  constructor <;> exact (by decide : 1 < 2 ^ 64)

theorem freshDisk_up (opts : Options) (bootstrapConfig : Members) (staged : Option (List UInt8)) :
    ∃ old, buildNode opts bootstrapConfig { freshDisk with installConfig := staged } = .ok old ∧
      old.baseConfig = bootstrapConfig :=
  ⟨_, rfl, rfl⟩

/-- A fresh node installs a snapshot with a configuration, crashing anywhere. -/
theorem install_crash_atomic_fresh :
    ∃ old, buildNode ⟨1, 2⟩ (.fullConfig 3) freshDisk = .ok old ∧
      ∀ (n : Nat) (loss : Loss) (stops : List (Nat × Loss)), ∃ b,
        buildNode ⟨1, 2⟩ (.fullConfig 3) (((Run.cut Disk.exec
          (installSnapshot ⟨1, 2⟩ (onePair (encodeConfig (.fullConfig 2))) freshDisk) n freshDisk).crash
            loss).crashes stops) = .ok b ∧
        (b = old ∨ b.Installed old (onePair (encodeConfig (.fullConfig 2)))) := by
  obtain ⟨old, up, -⟩ := freshDisk_up ⟨1, 2⟩ (.fullConfig 3) none
  refine ⟨old, up, (install_crash_atomic ⟨rfl, rfl⟩ up (onePair_fits _)).mpr ?_⟩
  rintro ⟨none, -⟩
  exact absurd none (by decide)

/-- What an install that was stopped leaves of a fresh disk. -/
def stoppedInstall (n : Nat) (loss : Loss) : Disk :=
  (Run.cut Disk.exec (installSnapshot ⟨1, 2⟩ (onePair (encodeConfig (.fullConfig 2))) freshDisk) n
    freshDisk).crash loss

/-- An install that dies leaves its staged configuration to a later one. -/
theorem install_folds_stale : ∃ n loss old b,
    buildNode ⟨1, 2⟩ (.fullConfig 3) (stoppedInstall n loss) = .ok old ∧
    buildNode ⟨1, 2⟩ (.fullConfig 3) ((installSnapshot ⟨1, 2⟩ (onePair [])
      (stoppedInstall n loss)).foldl Disk.exec (stoppedInstall n loss)) = .ok b ∧
    b ≠ old ∧ ¬ b.Installed old (onePair []) := by
  obtain ⟨built, made⟩ := onePair_build (encodeConfig (.fullConfig 2))
  obtain ⟨built', made'⟩ := onePair_build []
  -- The first install is stopped right before its marker.
  have stopped : stoppedInstall (stageSteps (onePair (encodeConfig (.fullConfig 2))) built).length
      ⟨Dir.empty, none⟩ = { freshDisk with installConfig := some (encodeConfig (.fullConfig 2)) } := by
    unfold stoppedInstall installSnapshot
    simp only [made]
    rw [Run.cut, take_left, foldl_stageSteps made]
    rfl
  obtain ⟨old, up, config⟩ := freshDisk_up ⟨1, 2⟩ (.fullConfig 3) (some (encodeConfig (.fullConfig 2)))
  have after : After (onePair []) built'
      { freshDisk with installConfig := some (encodeConfig (.fullConfig 2)) } _ :=
    after_installSnapshot ⟨1, 2⟩ ⟨_, rfl⟩ (onePair_fits []) made'
  obtain ⟨b, starts, config', -⟩ := after.boots ⟨1, 2⟩ (.fullConfig 3) made' (onePair_fits [])
  have folded : b.baseConfig = .fullConfig 2 := config'.trans (by decide)
  refine ⟨_, _, old, b, by rw [stopped]; exact up, by rw [stopped]; exact starts, ?_, ?_⟩
  · rintro rfl
    exact absurd (folded.symm.trans config) (by decide)
  · intro installed
    have kept : b.baseConfig = old.baseConfig := installed.baseConfig
    exact absurd (folded.symm.trans (kept.trans config)) (by decide)

end Cluster
