import LittleDb.Store.Journal

/-! What each operation does: the batch it logs, the flush behind it, and what the disk shows on the way. -/

namespace Store

open List Option SortedMap

namespace Db

variable {db done : Db} {dirs : List Dir}

/-- A flush does nothing, or makes a table of the buffer. -/
inductive Flushing (db : Db) : Db → List Dir → Prop where
  | idle : Flushing db db []
  | made (t : Table) (table : FlushTable db t) : Flushing db (db.flushed t) (db.flushDirs t)

theorem flushLocked_cases (ready : db.memtable.Open) (ran : db.flushLocked = .ok (done, dirs)) :
    Flushing db done dirs := by
  rcases flushLocked_ok ready with ⟨_, same⟩ | ⟨t, table, made⟩
  · rw [same] at ran
    cases ran
    exact .idle
  · rw [made] at ran
    cases ran
    exact .made t table

theorem flushIfFull_cases (ready : db.memtable.Open) (ran : db.flushIfFull = .ok (done, dirs)) :
    Flushing db done dirs := by
  unfold flushIfFull at ran
  split_ifs at ran
  · exact flushLocked_cases ready ran
  · cases ran
    exact .idle

/-- A batch was logged and applied, with no flush yet. -/
structure Logged (db db' : Db) (b : Batch) : Prop where
  dir : db'.dir = { db.dir with wal := db.dir.wal ++ Framing.log encode b.records }
  memtable : b.data.foldlM Memtable.apply db.memtable = some db'.memtable
  sessions : db'.sessions = noteSession db.sessions b.marker
  sstables : db'.sstables = db.sstables
  nextID : db'.nextID = db.nextID
  frozen : db'.frozen = db.frozen
  closed : db'.closed = db.closed
  opts : db'.opts = db.opts

@[simp] theorem noteSession_bare (sessions : Sessions) (ts : Nat) :
    noteSession sessions (commitMarker ts) = sessions := by
  simp [noteSession, commitMarker]

/-- A commit that has logged and applied its writes, before its flush. -/
def commitLogged (db : Db) (t : Txn) : Option Db :=
  if t.finished || db.closed || t.writes.isEmpty || db.conflicts t then none
  else
    ((db.logCommit t.writes).applyRecords (dataRecords t.writes db.nextTimestamp)).map fun applied =>
      { applied with appliedTS := db.nextTimestamp }

theorem commitLogged_cases {t : Txn} {db' : Db} (ran : db.commitLogged t = some db') : t.writes.isEmpty = false ∧
    Logged db db' ⟨dataRecords t.writes db.nextTimestamp, commitMarker db.nextTimestamp⟩ ∧
    db'.nextTimestamp = succ64 db.nextTimestamp ∧ db'.appliedTS = db.nextTimestamp ∧
    db'.appliedIndex = db.appliedIndex := by
  unfold commitLogged at ran
  split_ifs at ran with refused
  obtain ⟨applied, wrote, rfl⟩ := map_eq_some_iff.mp ran
  obtain ⟨m, folded, rfl⟩ := map_eq_some_iff.mp wrote
  simp only [Bool.or_eq_true, not_or, Bool.not_eq_true] at refused
  exact ⟨refused.1.2, ⟨rfl, folded, (noteSession_bare ..).symm, rfl, rfl, rfl, rfl, rfl⟩, rfl, rfl, rfl⟩

theorem commit_cases {t : Txn} (ran : db.commit t = .ok (done, dirs)) :
    (t.writes.isEmpty = true ∧ done = db ∧ dirs = []) ∨ ∃ db' flush, db.commitLogged t = some db' ∧
    db'.flushIfFull = .ok (done, flush) ∧ dirs = db'.dir :: flush := by
  unfold commit at ran
  simp only at ran
  split_ifs at ran with ended closed empty conflict
  · cases ran
    exact .inl ⟨empty, rfl, rfl⟩
  · right
    cases applied : (db.logCommit t.writes).applyRecords (dataRecords t.writes db.nextTimestamp) with
    | none => simp only [applied] at ran; cases ran
    | some db₁ =>
      simp only [applied] at ran
      cases finished : db₁.finishCommit db.nextTimestamp with
      | error e => simp only [finished] at ran; cases ran
      | ok result =>
        simp only [finished] at ran
        cases ran
        obtain ⟨m, folded, rfl⟩ := map_eq_some_iff.mp applied
        refine ⟨_, result.2, ?_, finished, rfl⟩
        simp [commitLogged, ended, closed, empty, conflict, applied]

theorem record_cases {data : List Record} {marker : Record} {db₁ : Db} (recorded : db.record data marker = some db₁) :
    Logged db db₁ (db.batchOf data marker) ∧ db₁.appliedIndex = db.appliedIndex ∧
    db₁.nextTimestamp = db.nextTimestamp ∧ db₁.appliedTS = db.appliedTS := by
  unfold record at recorded
  unfold batchOf
  by_cases duplicate : db.duplicate marker = true
  · -- A duplicate carries a number that its session has reached.
    rw [if_pos duplicate] at recorded ⊢
    cases recorded
    have old : decodeSeq marker.value ≤ db.sessions marker.key := by
      simp only [Db.duplicate, decide_eq_true_eq] at duplicate
      exact duplicate.2
    refine ⟨⟨rfl, rfl, ?_, rfl, rfl, rfl, rfl, rfl⟩, rfl, rfl, rfl⟩
    rw [noteSession, if_neg fun newer => absurd newer.2 (not_lt.mpr old)]
    rfl
  · rw [if_neg duplicate] at recorded ⊢
    obtain ⟨db₂, applied, rfl⟩ := map_eq_some_iff.mp recorded
    obtain ⟨m, folded, rfl⟩ := map_eq_some_iff.mp applied
    by_cases bare : marker.key = []
    · rw [if_pos bare]
      refine ⟨⟨rfl, folded, ?_, rfl, rfl, rfl, rfl, rfl⟩, rfl, rfl, rfl⟩
      rw [noteSession, if_neg fun newer => newer.1 bare]
      rfl
    · rw [if_neg bare]
      refine ⟨⟨rfl, folded, ?_, rfl, rfl, rfl, rfl, rfl⟩, rfl, rfl, rfl⟩
      have newer : db.sessions marker.key < decodeSeq marker.value := by
        simp only [Db.duplicate, decide_eq_true_eq, not_and, not_le] at duplicate
        exact duplicate bare
      rw [noteSession, if_pos ⟨bare, newer⟩]
      rfl

theorem applyEntry_cases {idx : Nat} {entry : List UInt8} {data : List Record} {marker : Record}
    (parsed : parseEntry entry = .ok (data, marker)) (ran : db.applyEntry idx entry = .ok (done, dirs)) :
    ∃ db' flush, Logged db db' (db.batchOf data marker) ∧ db'.appliedIndex = max db.appliedIndex idx ∧
    db'.nextTimestamp = (if db.nextTimestamp ≤ marker.timestamp then succ64 marker.timestamp else db.nextTimestamp) ∧
    db'.appliedTS = max db.appliedTS marker.timestamp ∧ db'.flushIfFull = .ok (done, flush) ∧
    dirs = db'.dir :: flush := by
  unfold applyEntry at ran
  split_ifs at ran
  simp only [parsed] at ran
  cases recorded : db.record data marker with
  | none => simp only [recorded] at ran; cases ran
  | some db₁ =>
    simp only [recorded] at ran
    cases finished : (db₁.advance idx marker.timestamp).flushIfFull with
    | error e => simp only [finished] at ran; cases ran
    | ok result =>
      obtain ⟨done', flush⟩ := result
      simp only [finished] at ran
      cases ran
      obtain ⟨logged, index, next, reached⟩ := record_cases recorded
      refine ⟨db₁.advance idx marker.timestamp, flush, ⟨logged.dir, logged.memtable, logged.sessions,
        logged.sstables, logged.nextID, logged.frozen, logged.closed, logged.opts⟩, ?_, ?_, ?_, finished, rfl⟩
      · rw [← index]; rfl
      · rw [← next]; rfl
      · rw [← reached]; rfl

theorem applyControlEntry_cases {idx : Nat} (ran : db.applyControlEntry idx = .ok (done, dirs)) :
    ∃ db' flush, Logged db db' ⟨[], commitMarker db.nextTimestamp⟩ ∧ db'.appliedIndex = max db.appliedIndex idx ∧
    db'.nextTimestamp = succ64 db.nextTimestamp ∧ db'.appliedTS = max db.appliedTS db.nextTimestamp ∧
    db'.flushIfFull = .ok (done, flush) ∧ dirs = db'.dir :: flush := by
  unfold applyControlEntry at ran
  split_ifs at ran
  simp only at ran
  split at ran
  · cases ran
  · next finished =>
    cases ran
    exact ⟨{ { db with nextTimestamp := succ64 db.nextTimestamp }.append
          [commitMarker db.nextTimestamp] with
        appliedTS := max db.appliedTS db.nextTimestamp
        appliedIndex := max db.appliedIndex idx }, _,
      ⟨rfl, rfl, (noteSession_bare ..).symm, rfl, rfl, rfl, rfl, rfl⟩, rfl, rfl, rfl, finished, rfl⟩

theorem pickCompaction_cases {job : Job} (picked : db.pickCompaction = some job) :
    job.inputs = db.sstables.drop (db.sstables.length - db.trigger) ∧ db.trigger ≤ db.sstables.length := by
  unfold pickCompaction at picked
  split_ifs at picked with _ few
  cases picked
  exact ⟨rfl, not_lt.mp few⟩

theorem foldl_removeTable (db : Db) (ids : List Nat) :
    ids.foldl removeTable db =
      { db with dir := { db.dir with
          tables := ids.foldl (fun ts id => SortedMap.erase id ts) db.dir.tables } } := by
  induction ids generalizing db with
  | nil => rfl
  | cons id ids ih => rw [foldl_cons, ih]; rfl

/-- The files once the merged table is in place and some inputs are gone. -/
def compactedFiles (db : Db) (job : Job) (merged : Table) (gone : List Nat) : List (Nat × Table) :=
  gone.foldl (fun ts id => SortedMap.erase id ts) (SortedMap.put job.outputID merged db.dir.tables)

structure Compacting (db : Db) (w : Nat) (done : Db) (dirs : List Dir) (job : Job) (merged : Table) :
    Prop where
  picked : db.pickCompaction = some job
  made : job.merge w = .ok merged
  done : done =
    { db with
      dir := { db.dir with tables := db.compactedFiles job merged job.obsolete }
      sstables := db.sstables.take (db.sstables.length - db.trigger) ++ [(job.outputID, merged)] }
  dirs : dirs = job.obsolete.inits.map fun gone =>
    { db.dir with tables := db.compactedFiles job merged gone }

theorem Compacting.footers {w bound : Nat} {job : Job} {merged : Table}
    (compacts : Compacting db w done dirs job merged) (tables : ∀ e ∈ db.sstables, e.2.appliedIndex ≤ bound)
    (files : ∀ e ∈ db.dir.tables, e.2.appliedIndex ≤ bound) : (∀ e ∈ done.sstables, e.2.appliedIndex ≤ bound) ∧
    ∀ gone, ∀ e ∈ db.compactedFiles job merged gone, e.2.appliedIndex ≤ bound := by
  obtain ⟨inputs, _⟩ := pickCompaction_cases compacts.picked
  -- The merged footer has the highest index of the inputs.
  have made : merged.appliedIndex ≤ bound := by
    rw [compactSSTables_applied compacts.made]
    refine foldl_max_le_iff.mpr ⟨Nat.zero_le _, fun n listed => ?_⟩
    obtain ⟨t, input, rfl⟩ := mem_map.mp listed
    obtain ⟨e, picked, rfl⟩ := mem_map.mp input
    rw [inputs] at picked
    exact tables e (mem_of_mem_drop picked)
  constructor
  · rw [compacts.done]
    intro e listed
    rcases mem_append.mp listed with old | last
    · exact tables e (mem_of_mem_take old)
    · rw [mem_singleton.mp last]
      exact made
  · intro gone
    induction gone using List.reverseRecOn with
    | nil =>
      intro e listed
      rcases of_mem_put listed with rfl | old
      · exact made
      · exact files e old
    | append_singleton gone id ih =>
      intro e listed
      rw [compactedFiles, foldl_append] at listed
      exact ih e (mem_erase.mp listed).1

theorem tryCompactOnce_cases {w : Nat} (running : db.closed = false)
    (ran : db.tryCompactOnce w = .ok (some (done, dirs))) : ∃ job merged, Compacting db w done dirs job merged := by
  unfold tryCompactOnce at ran
  cases picked : db.pickCompaction with
  | none => simp only [picked] at ran; cases ran
  | some job =>
    simp only [picked] at ran
    cases made : job.merge w with
    | error e => simp only [made] at ran; cases ran
    | ok merged =>
      simp only [made] at ran
      obtain ⟨inputs, enough⟩ := pickCompaction_cases picked
      have size : job.inputs.length = db.trigger := by
        rw [inputs, length_drop]
        omega
      -- Nothing has changed since the tables were picked, so the merged one is put in place.
      have installed : (db.writeMerged job merged).installMerged job merged =
          ({ db.writeMerged job merged with
              sstables := db.sstables.take (db.sstables.length - db.trigger) ++ [(job.outputID, merged)] }, true) := by
        have matching : (db.writeMerged job merged).tailMatches job = true := by
          simp only [tailMatches, decide_eq_true_eq, writeMerged, size]
          exact ⟨enough, by rw [inputs]⟩
        have still : ¬ ((db.writeMerged job merged).closed = true ∨
            ¬ (db.writeMerged job merged).tailMatches job = true) := by
          rintro (shut | changed)
          · exact absurd (running.symm.trans shut) (by decide)
          · exact changed matching
        rw [installMerged, if_neg still, size]
        rfl
      rw [installed] at ran
      obtain ⟨rfl, rfl⟩ := Prod.mk.inj (Option.some.inj (Except.ok.inj ran))
      refine ⟨job, merged, picked, made, ?_, ?_⟩
      · rw [foldl_removeTable]
        rfl
      · rw [List.map_map]
        refine map_congr_left fun gone _ => ?_
        rw [Function.comp_apply, foldl_removeTable]
        rfl

end Db

end Store
