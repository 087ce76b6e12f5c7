import LittleDb.Store.Files
import LittleDb.Store.Shelf
import LittleDb.Store.Snapshots

/-! Crash recovery: opening a directory gives back exactly the transactions whose marker is on disk. -/

namespace Store

open Versioned Logbook List

variable {K : Set Key} {compacts : Bool} {db done : Db} {dir : Dir} {l : Ledger}
  {dups new : List Batch} {rest : List Record} {dirs : List Dir} {K' : Set Key} {k : Key} {t : Table} {s : Life}
  {a : Act}

/-- A directory in order whose log was written to its end. -/
def Tidy (K : Set Key) (compacts : Bool) (dir : Dir) (l : Ledger) : Prop :=
  ∃ dups new rest, Walled dir.wal (dups ++ new) rest ∧
    Logbook K compacts dir.tables.reverse l dups new rest ∧ Listed dir.tables dir.tables.reverse

def Abandoned (K : Set Key) (compacts : Bool) (dir : Dir) (l : Ledger) : Prop :=
  ∃ dups new rest, Recovers dir.wal (dups ++ new) rest ∧
    Logbook K compacts dir.tables.reverse l dups new rest ∧ Listed dir.tables dir.tables.reverse

/-- An open database that holds what is on its disk. -/
structure Serving (K : Set Key) (compacts : Bool) (db : Db) (l : Ledger) (dups new : List Batch)
    (rest : List Record) : Prop where
  walled : Walled db.dir.wal (dups ++ new) rest
  book : Logbook K compacts db.sstables l dups new rest
  files : Listed db.dir.tables db.sstables
  ids : ∀ e ∈ db.sstables, e.1 < db.nextID
  ready : db.memtable.Open
  buffer : db.memtable.versions = logVersions dups new
  ahead : ∀ r ∈ batchRecords (dups ++ new) ++ rest, r.timestamp < db.nextTimestamp
  later : ∀ e ∈ db.sstables, e.2.maxTimestamp < db.nextTimestamp
  started : 0 < db.nextTimestamp
  range : db.nextTimestamp < 2 ^ 64
  frozen : db.frozen = none
  running : db.closed = false
  trigger : 0 < db.trigger

theorem Db.Layered.get_iff {s : Nat} {r : Option Value}
    (layered : db.Layered K' db.versions 0) (running : db.closed = false)
    (past : ∀ v ∈ db.versions, v.ts < db.nextTimestamp) (range : db.nextTimestamp < 2 ^ 64) (free : Free K')
    (named : [] ∉ K') (top : db.nextTimestamp ≤ s) : Shows db.versions k s r ↔ db.get k = answerOf r := by
  have reads : ∀ r, Shows db.versions k db.nextTimestamp r → db.get k = answerOf r := by
    intro r shows
    rw [Db.get, running, layered.frozen]
    exact layered.read free named (Nat.zero_le _) range shows
  rw [← shows_top (fun v stored _ => (past v stored).le) top]
  refine ⟨reads r, fun same => ?_⟩
  obtain ⟨r', shows⟩ := exists_shows db.versions k db.nextTimestamp
  obtain rfl : r' = r := by
    have both := (reads r' shows).symm.trans same
    cases r' <;> cases r <;> simp_all [answerOf]
  exact shows

theorem versions_past {tables : List (Nat × Table)} {clock : Nat} (valid : ∀ e ∈ tables, e.2.Valid)
    (ahead : ∀ r ∈ batchRecords (dups ++ new) ++ rest, r.timestamp < clock)
    (later : ∀ e ∈ tables, e.2.maxTimestamp < clock) :
    ∀ v ∈ logVersions dups new ∪ shelfVersions tables, v.ts < clock := by
  rintro v (⟨r, listed, rfl⟩ | ⟨t, listed, stored⟩)
  · obtain ⟨b, held, own⟩ := mem_flatMap.mp listed
    refine ahead r (mem_append_left _ (mem_flatMap.mpr ⟨b, held, ?_⟩))
    simp [Batch.records, own]
  · obtain ⟨e, found, rfl⟩ := mem_map.mp listed
    exact ((valid e found).bounded v stored).trans_lt (later e found)

theorem Tidy.crash {n : Nat} (tidy : Tidy K compacts dir l) (spared : l.covered ≤ n) :
    Abandoned K compacts { dir with wal := dir.wal.take n } (l.cut n) := by
  obtain ⟨dups, new, rest, walled, book, files⟩ := tidy
  obtain ⟨rest', recovers, shape⟩ := walled.cut n
  refine ⟨dups, survivors (n - l.covered) new, rest', ?_, book.cut spared shape, files⟩
  rw [← book.journal.survivors_cut spared]
  exact recovers

namespace Serving

section

variable (serving : Serving K compacts db l dups new rest)

include serving

theorem tidy : Tidy K compacts db.dir l := by
  have same : db.dir.tables.reverse = db.sstables := by
    rw [serving.files.mirrored, reverse_reverse]
  exact ⟨dups, new, rest, serving.walled, same ▸ serving.book, same ▸ serving.files⟩

theorem versions : db.versions = logVersions dups new ∪ shelfVersions db.sstables := by
  rw [Db.versions, serving.buffer]
  rfl

theorem past : ∀ v ∈ logVersions dups new ∪ shelfVersions db.sstables, v.ts < db.nextTimestamp :=
  versions_past serving.book.shelved.valid serving.ahead serving.later

theorem within : ∀ v ∈ db.versions, v.key ∈ K := by
  intro v stored
  rw [serving.versions] at stored
  obtain ⟨r, listed, rfl⟩ := serving.book.sub stored
  exact serving.book.allKeys r listed

theorem layered (within : ∀ v ∈ db.versions, v.key ∈ K') : db.Layered K' db.versions 0 := by
  have book := serving.book
  refine ⟨serving.frozen, serving.ready, fun t listed => ?_, book.shelved.stacked,
    fun t listed => ?_, serving.versions ▸ book.functional, within, .refl _ _, fun _ _ => .refl _ _⟩
  · obtain ⟨e, found, rfl⟩ := mem_map.mp listed
    exact book.shelved.valid e found
  · rw [serving.buffer]
    exact book.logOver.mono fun v stored => ⟨t, listed, stored⟩

theorem get_iff {s : Nat} {r : Option Value} (within : ∀ v ∈ db.versions, v.key ∈ K') (free : Free K')
    (named : [] ∉ K') (top : db.nextTimestamp ≤ s) : Shows db.versions k s r ↔ db.get k = answerOf r := by
  refine (serving.layered within).get_iff serving.running ?_ serving.range free named top
  rw [serving.versions]
  exact serving.past

theorem get (free : Free K) (named : [] ∉ K) (k : Key) : db.get k = answerOf (effect l.batches k) := by
  have shows := (serving.book.shows (k := k) free named fun v stored => (serving.past v stored).le).mpr rfl
  rw [← serving.versions, ← serving.book.batches] at shows
  exact (serving.get_iff serving.within free named (le_refl _)).mp shows

end

theorem logged {db' : Db} {b : Batch} (serving : Serving K compacts db l dups new []) (logs : Db.Logged db db' b)
    (valid : b.Valid) (keys : ∀ r ∈ b.data, r.key ∈ K) (single : b.data.Pairwise fun r r' => r.key ≠ r'.key)
    (stamp : b.marker.timestamp = db.nextTimestamp) (clock : db'.nextTimestamp = db.nextTimestamp + 1)
    (room : db.nextTimestamp + 1 < 2 ^ 64) (trigger : db'.trigger = db.trigger) :
    Serving K compacts db' (l.write b db'.dir.wal.length) dups (new ++ [b]) [] := by
  have grown := serving.walled.append valid (by simp)
  have file : db'.dir.wal = db.dir.wal ++ Framing.log encode b.records := by rw [logs.dir]
  rw [← file, append_assoc] at grown
  -- The new batch lies above everything stored.
  have newer : ∀ v ∈ logVersions dups new ∪ shelfVersions db.sstables, v.ts < b.marker.timestamp := by
    rw [stamp]
    exact serving.past
  have book := serving.book.write valid keys single (by rw [stamp]; exact room) newer grown.length
  have fits : ∀ r ∈ b.data, r.timestamp < 2 ^ 64 :=
    fun r own => (valid.fits r (by simp [Batch.records, own])).timestamp
  obtain ⟨m, folded, ready⟩ := serving.ready.applyAll valid.data fits
  obtain rfl : m = db'.memtable := Option.some.inj (folded.symm.trans logs.memtable)
  have whole : recordVersions b.data ∪ db.memtable.versions = logVersions dups (new ++ [b]) := by
    rw [serving.buffer, logVersions, logVersions, ← append_assoc, batchData_append,
      recordVersions_append, Set.union_comm]
    simp [Set.union_assoc]
  refine ⟨grown, logs.sstables ▸ book, ?_, ?_, ready, ?_, fun r listed => ?_, ?_, clock ▸ Nat.succ_pos _, ?_,
    logs.frozen.trans serving.frozen, logs.closed.trans serving.running,
    trigger ▸ serving.trigger⟩
  · rw [logs.dir, logs.sstables]
    exact serving.files
  · rw [logs.sstables, logs.nextID]
    exact serving.ids
  · rw [serving.ready.versions_applyAll valid.data fits (whole ▸ book.chained.functional) logs.memtable]
    exact whole
  · rw [clock]
    rw [append_nil, ← append_assoc, batchRecords_append] at listed
    rcases mem_append.mp listed with old | young
    · exact (serving.ahead r (by simpa using old)).trans (Nat.lt_succ_self _)
    · have same : r.timestamp = b.marker.timestamp := by
        simp only [batchRecords_cons, batchRecords_nil, mem_append, mem_singleton] at young
        rcases young with data | rfl
        · exact valid.stamped r data
        · rfl
      omega
  · rw [logs.sstables, clock]
    exact fun e found => (serving.later e found).trans (Nat.lt_succ_self _)
  · rw [clock]
    exact room

section

variable (serving : Serving K compacts db l dups new rest)

include serving

theorem shelf_bounds (table : Db.FlushTable db t) :
    (∀ e ∈ (db.nextID, t) :: db.sstables, e.2.maxTimestamp < db.nextTimestamp) ∧
      ∀ e ∈ (db.nextID, t) :: db.sstables, e.1 < db.nextID + 1 := by
  constructor
  · intro e found
    rcases mem_cons.mp found with rfl | old
    · change t.maxTimestamp < db.nextTimestamp
      rcases table.reached with zero | ⟨v, stored, ts⟩
      · rw [zero]
        exact serving.started
      · rw [← ts]
        exact serving.past v (.inl ((table.versions.trans serving.buffer) ▸ stored))
    · exact serving.later e old
  · intro e found
    rcases mem_cons.mp found with rfl | old
    · exact Nat.lt_succ_self _
    · exact (serving.ids e old).trans (Nat.lt_succ_self _)

theorem flushed (low : db.nextID < 10 ^ 6)
    (table : Db.FlushTable db t) : Serving K compacts (db.flushed t) l.held.removed [] [] [] := by
  obtain ⟨later, ids⟩ := serving.shelf_bounds table
  refine ⟨.empty, serving.book.removed table.valid (table.versions.trans serving.buffer) table.reached,
    serving.files.flush serving.ids low, ids, Memtable.open_new, ?_, by simp, later, serving.started,
    serving.range, rfl, serving.running, serving.trigger⟩
  change Memtable.new.versions = _
  simp [logVersions]

theorem heldTwice (low : db.nextID < 10 ^ 6) (table : Db.FlushTable db t) : Serving K compacts
      { db with
        dir := { db.dir with tables := SortedMap.put db.nextID t db.dir.tables }
        sstables := (db.nextID, t) :: db.sstables
        nextID := db.nextID + 1 }
      l.held (dups ++ new) [] rest := by
  obtain ⟨later, ids⟩ := serving.shelf_bounds table
  refine ⟨?_, serving.book.held table.valid (table.versions.trans serving.buffer) table.reached,
    serving.files.flush serving.ids low, ids, serving.ready, ?_, ?_, later, serving.started, serving.range,
    serving.frozen, serving.running, serving.trigger⟩
  · rw [append_nil]
    exact serving.walled
  · change db.memtable.versions = _
    rw [serving.buffer, logVersions, logVersions, append_nil]
  · rw [append_nil]
    exact serving.ahead

theorem flushing (low : db.nextID < 10 ^ 6) (flush : Db.Flushing db done dirs) :
    (∃ dups' new' rest', Serving K compacts done (settled l (flushPoints l dirs)) dups' new' rest') ∧
      ∀ p ∈ flushPoints l dirs, Tidy K compacts p.1 p.2 := by
  cases flush with
  | idle => exact ⟨⟨dups, new, rest, serving⟩, by simp [flushPoints]⟩
  | made t table =>
    have kept := (serving.heldTwice low table).tidy
    have after := serving.flushed low table
    -- Files other than log and tables do not matter.
    have tidyRemoved : ∀ d : Dir, d.wal = [] → d.tables = SortedMap.put db.nextID t db.dir.tables →
        Tidy K compacts d l.held.removed := by
      intro d wal tables
      have tidy := after.tidy
      unfold Tidy at tidy ⊢
      rw [wal, tables]
      exact tidy
    refine ⟨⟨[], [], [], after⟩, fun p found => ?_⟩
    simp only [flushPoints, Db.flushDirs, map_cons, map_nil, mem_cons, not_mem_nil, or_false] at found
    rcases found with rfl | rfl | rfl | rfl
    · exact kept
    · exact tidyRemoved _ rfl rfl
    · exact tidyRemoved _ rfl rfl
    · exact tidyRemoved _ rfl rfl

end

theorem compacting {w : Nat} {job : Job} {merged : Table} (serving : Serving K true db l dups new rest)
    (compacts : Db.Compacting db w done dirs job merged) : Serving K true done l dups new rest := by
  obtain ⟨t, others, inputs, tail⟩ := Db.pickCompaction_inputs compacts.picked serving.trigger
  have ends := compacts.done
  unfold Db.compactedFiles at ends
  generalize db.sstables.take (db.sstables.length - db.trigger) = front at tail ends
  obtain ⟨shelved, fewer, reached⟩ :=
    serving.book.shelved.collect job.outputID serving.frozen tail compacts.made
  have files := serving.files
  have within : ∀ e ∈ front, e ∈ db.sstables := fun e found => by rw [tail]; simp [found]
  have newest : (job.outputID, t) ∈ db.sstables := by rw [tail, inputs]; simp
  -- The merged table takes the place of the newest input.
  rw [tail, inputs] at files
  have left := files.compact merged others.length
  rw [take_length, ← Db.obsolete_eq inputs files, drop_length] at left
  have book := serving.book
  subst ends
  refine ⟨serving.walled, ⟨book.journal, shelved, book.keys, book.chained, book.atop.mono fewer,
    fun v stored => book.newer v (fewer stored), book.small⟩, left, fun e found => ?_,
    serving.ready, serving.buffer, serving.ahead, fun e found => ?_, serving.started, serving.range,
    serving.frozen, serving.running, serving.trigger⟩
  · rcases mem_append.mp found with old | last
    · exact serving.ids e (within e old)
    · rw [mem_singleton.mp last]
      exact (serving.ids _ newest : job.outputID < db.nextID)
  · rcases mem_append.mp found with old | last
    · exact serving.later e (within e old)
    · rw [mem_singleton.mp last]
      rcases reached with zero | ⟨v, stored, ts⟩
      · exact zero ▸ serving.started
      · exact ts ▸ serving.past v (.inr stored)

end Serving

/-- No data records stand behind the last marker in the log. -/
def Db.clean (db : Db) : Bool :=
  match recover db.dir.wal with
  | .error _ => false
  | .ok (records, _) => records.getLast?.all fun r => r.op = .commit

theorem Serving.rest_nil (serving : Serving K compacts db l dups new rest) (clean : db.clean = true) : rest = [] := by
  have read := recover_log serving.walled.fits
  rw [← serving.walled.file] at read
  simp only [Db.clean, read] at clean
  cases last : rest.getLast? with
  | none => exact getLast?_eq_none_iff.mp last
  | some r =>
    rw [getLast?_append, last] at clean
    have data := (serving.walled.loose r (mem_of_getLast? last)).1
    simp [data] at clean

theorem Recovers.buffer {wal : List UInt8} {m : Memtable} (recovers : Recovers wal (dups ++ new) rest)
    (chained : Chained (batchData (dups ++ new)))
    (folded : (batchData (dups ++ new)).foldlM Memtable.apply Memtable.new = some m) :
    m.versions = logVersions dups new := by
  have fits : ∀ r ∈ batchData (dups ++ new), r.op ≠ .commit ∧ r.timestamp < 2 ^ 64 := by
    intro r listed
    obtain ⟨b, held, own⟩ := mem_flatMap.mp listed
    have valid := recovers.valid b held
    exact ⟨valid.data r own, (valid.fits r (by simp [Batch.records, own])).timestamp⟩
  have all := Memtable.open_new.versions_applyAll (fun r listed => (fits r listed).1)
    (fun r listed => (fits r listed).2)
    (by rw [Memtable.versions_new, Set.union_empty]; exact chained.functional) folded
  rw [all, Memtable.versions_new, Set.union_empty]
  rfl

theorem clock_opened (dir : Dir) (rs : List Record)
    (tables : ∀ e ∈ discoverSSTables dir, e.2.maxTimestamp + 1 < 2 ^ 64)
    (records : ∀ r ∈ rs, r.timestamp + 1 < 2 ^ 64) :
    (∀ e ∈ discoverSSTables dir, e.2.maxTimestamp < succ64 (latest (tablesReached dir) rs)) ∧
      (∀ r ∈ rs, r.timestamp < succ64 (latest (tablesReached dir) rs)) ∧
      0 < succ64 (latest (tablesReached dir) rs) ∧ succ64 (latest (tablesReached dir) rs) < 2 ^ 64 ∧
      succ64 (latest (tablesReached dir) rs) = latest (tablesReached dir) rs + 1 := by
  have bound : latest (tablesReached dir) rs ≤ 2 ^ 64 - 2 := by
    refine foldl_max_le_iff.mpr ⟨foldl_max_le_iff.mpr ⟨Nat.zero_le _, fun n listed => ?_⟩, fun n listed => ?_⟩
    · obtain ⟨e, inside, rfl⟩ := mem_map.mp listed
      have room := tables e inside
      omega
    · obtain ⟨r, inside, rfl⟩ := mem_map.mp listed
      have room := records r inside
      omega
  have clock : succ64 (latest (tablesReached dir) rs) = latest (tablesReached dir) rs + 1 := by
    rw [succ64, Nat.mod_eq_of_lt (by omega)]
  obtain ⟨fromTables, fromLog⟩ := foldl_max_le_iff.mp (le_refl (latest (tablesReached dir) rs))
  rw [clock]
  refine ⟨fun e inside => ?_, fun r inside => ?_, Nat.succ_pos _, by omega, rfl⟩
  · refine Nat.lt_succ_of_le (le_trans ?_ fromTables)
    exact (foldl_max_le_iff.mp (le_refl (tablesReached dir))).2 _ (mem_map_of_mem inside)
  · exact Nat.lt_succ_of_le (fromLog _ (mem_map_of_mem inside))

theorem Recovers.serving (recovers : Recovers dir.wal (dups ++ new) rest)
    (book : Logbook K compacts dir.tables.reverse l dups new rest) (files : Listed dir.tables dir.tables.reverse)
    (opts : Options) : ∃ db, openWith dir opts = .ok db ∧ Serving K compacts db l dups new rest ∧
    db.sstables = dir.tables.reverse ∧ db.nextTimestamp = db.appliedTS + 1 := by
  obtain ⟨m, folded, ready, opened, walled⟩ := recovers.opens opts
  have found := files.discover
  have buffer := recovers.buffer book.chained folded
  obtain ⟨later, ahead, started, range, next⟩ := clock_opened dir _
    (fun e inside => book.shelved.small e (mem_reverse.mpr (found ▸ inside))) book.small
  refine ⟨_, opened, ⟨walled, ?_, ?_, ?_, ready, buffer, ahead,
    fun e inside => later e (mem_reverse.mp inside), started, range, rfl, rfl, ?_⟩,
    congrArg List.reverse found, next⟩
  · change Logbook K compacts (discoverSSTables dir).reverse l dups new rest
    rw [found]
    exact book
  · change Listed dir.tables (discoverSSTables dir).reverse
    rw [found]
    exact files
  · intro e inside
    change e ∈ (discoverSSTables dir).reverse at inside
    change e.1 < ((discoverSSTables dir).getLast?.map fun e => e.1 + 1).getD 1
    rw [found] at inside ⊢
    exact files.below_next inside
  · change 0 < (if opts.compactionTrigger < 2 then (4 : Int) else opts.compactionTrigger).toNat
    split_ifs <;> omega

/-- The writes of a transaction: keys in order, that fit the record format. -/
structure Writes.Sane (K : Set Key) (writes : Writes) : Prop where
  sorted : SortedMap.Sorted writes
  keys : ∀ e ∈ writes, e.1 ∈ K
  data : ∀ e ∈ writes, e.2.1 ≠ .commit
  fits : ∀ e ∈ writes, headerSize + e.1.length < 2 ^ 32 ∧ e.2.2.length < 2 ^ 32

theorem Writes.Sane.valid {writes : Writes} {ts : Nat} (sane : writes.Sane K) (range : ts < 2 ^ 64) :
    Batch.Valid ⟨dataRecords writes ts, commitMarker ts⟩ :=
  dataRecords_valid rfl (commitMarker_fits range) sane.data sane.fits

/-- A commit that writes finds no loose records, and there is room. -/
def Work.Sane (K : Set Key) (compacts : Bool) (db : Db) : Work → Prop
  | .commit t => t.writes.isEmpty = false →
      t.writes.Sane K ∧ db.clean = true ∧ db.nextTimestamp + 1 < 2 ^ 64 ∧ db.nextID < 10 ^ 6
  | .apply _ => False
  | .control => False
  | .flush => db.nextID < 10 ^ 6
  | .compact _ => compacts = true

def Work.isCompact : Work → Bool
  | .compact _ => true
  | _ => false

theorem Serving.work {w : Work} {points : List (Dir × Ledger)} (serving : Serving K compacts db l dups new rest)
    (sane : w.Sane K compacts db) (ran : w.run db l = some (done, points)) :
    (∃ dups' new' rest', Serving K compacts done (settled l points) dups' new' rest') ∧
    (w.isCompact = false → ∀ p ∈ points, Tidy K compacts p.1 p.2) := by
  cases Work.ran ran with
  | apply | control => exact sane.elim
  | commit committed =>
    rcases Db.commit_cases committed with ⟨-, rfl, rfl⟩ | ⟨db', flush, logged, flushed, rfl⟩
    · exact ⟨⟨dups, new, rest, serving⟩, by simp [batchPoints]⟩
    · obtain ⟨filled, logs, clock, -⟩ := Db.commitLogged_cases logged
      obtain ⟨writes, clean, room, low⟩ := sane filled
      -- No loose records stand in front of the new batch.
      obtain rfl := serving.rest_nil clean
      have clock' : db'.nextTimestamp = db.nextTimestamp + 1 := by
        rw [clock, succ64, Nat.mod_eq_of_lt room]
      have serving' := serving.logged logs (writes.valid serving.range)
        (fun r listed => by
          obtain ⟨e, found, rfl⟩ := mem_map.mp listed
          exact writes.keys e found)
        (pairwise_map.mpr (writes.sorted.imp fun less same => less.ne same)) rfl clock' room
        (by simp only [Db.trigger, logs.opts])
      obtain ⟨after, stages⟩ := serving'.flushing (logs.nextID ▸ low) (Db.flushIfFull_cases serving'.ready flushed)
      refine ⟨by simpa [batchPoints] using after, fun _ p found => ?_⟩
      rcases mem_cons.mp found with rfl | later
      · exact serving'.tidy
      · exact stages p later
  | flush flushed =>
    obtain ⟨after, stages⟩ := serving.flushing sane (Db.flushLocked_cases serving.ready flushed)
    exact ⟨after, fun _ => stages⟩
  | compact compacted =>
    obtain rfl : compacts = true := sane
    obtain ⟨job, merged, compacting⟩ := Db.tryCompactOnce_cases serving.running compacted
    refine ⟨⟨dups, new, rest, ?_⟩, fun no => absurd no (by simp [Work.isCompact])⟩
    rw [settled_cons, settled_const]
    exact serving.compacting compacting

namespace Life

/-- Recovery is exact for every operation, and no crash hits a compaction. -/
def Sane (K : Set Key) (compacts : Bool) (s : Life) : Act → Prop
  | .work w => ∀ db, s.host = .up db → w.Sane K compacts db
  | .crashIn w _ _ => w.isCompact = false ∧ ∀ db, s.host = .up db → w.Sane K compacts db
  | _ => True

/-- The database holds what is on its disk, or will once opened. -/
def Holds (K : Set Key) (compacts : Bool) (s : Life) : Prop :=
  match s.host with
  | .up db => ∃ dups new rest, Serving K compacts db s.ledger dups new rest
  | .down dir => Abandoned K compacts dir s.ledger

/-- Each step keeps the directory in order. -/
theorem Holds.step {s' : Life} {recorded : List Unit} (holds : s.Holds K compacts) (sane : s.Sane K compacts a)
    (spared : s.spared a = true) (moved : s.step a = some (s', recorded)) : s'.Holds K compacts := by
  cases moves moved with
  | work ran =>
    obtain ⟨dups, new, rest, serving⟩ := holds
    exact (serving.work (sane _ rfl) ran).1
  | crash =>
    obtain ⟨dups, new, rest, serving⟩ := holds
    exact serving.tidy.crash (by simpa [Life.spared] using spared)
  | crashIn ran found =>
    obtain ⟨dups, new, rest, serving⟩ := holds
    have stages := (serving.work (sane.2 _ rfl) ran).2 sane.1
    exact (stages _ (mem_of_getElem? found)).crash (spared_crashIn ran found spared)
  | reopen opened =>
    obtain ⟨dups, new, rest, recovers, book, files⟩ := holds
    obtain ⟨db, opened', serving, _⟩ := recovers.serving book files _
    obtain rfl := Except.ok.inj (opened.symm.trans opened')
    exact ⟨dups, new, rest, serving⟩

/-- Along every run the directory is in order. -/
theorem holds_run {past : List Life} {events : List Unit}
    (run : Run.Reach step (fun s a => s.Sane K compacts a ∧ s.spared a = true) start s past events) :
    s.Holds K compacts := by
  refine run.invariant (P := fun s _ _ => s.Holds K compacts) ?_ ?_
  · exact ⟨[], [], [], ⟨rfl, by simp, by simp [Loose]⟩, .empty K compacts, .empty⟩
  · intro s a s' _ _ _ _ meets moved holds
    exact holds.step meets.1 meets.2 moved

/--
Crash recovery is exact, however often it happens.

No write without its marker on disk is there, all others are unless tables were compacted, and each read returns
the latest of them, for keys that do not extend one another.
-/
theorem recovery_exact (K : Set Key) (compacts : Bool) {s : Life} {past : List Life}
    {events : List Unit} {dir : Dir}
    (run : Run.Reach step (fun s a => s.Sane K compacts a ∧ s.spared a = true) start s past events)
    (left : s.host = .down dir) (opts : Options) :
    ∃ db, openWith dir opts = .ok db ∧
      db.versions ⊆ recordVersions (batchData s.ledger.batches) ∧
      (compacts = false → db.versions = recordVersions (batchData s.ledger.batches)) ∧
      (Free K → [] ∉ K → ∀ k, db.get k = answerOf (effect s.ledger.batches k)) := by
  have holds := holds_run run
  unfold Holds at holds
  rw [left] at holds
  obtain ⟨dups, new, rest, recovers, book, files⟩ := holds
  obtain ⟨db, opened, serving, _⟩ := recovers.serving book files opts
  refine ⟨db, opened, ?_, fun none => ?_, fun free named k => serving.get free named k⟩
  · rw [serving.versions, serving.book.batches]
    exact serving.book.sub
  · rw [serving.versions, serving.book.batches]
    exact serving.book.exact none

/-- A transaction at a snapshot that writes one value to each of some keys. -/
def putting (snapshot : Nat) (keys : List Key) (value : Value) : Txn :=
  ⟨snapshot, keys.map fun k => (k, .put, value), false, [], 0⟩

/-- The condition on a run with keys of one byte, as a check. -/
def saneCheck (s : Life) : Act → Bool
  | .work w => checkWork w s.host
  | .crashIn w _ _ => !w.isCompact && checkWork w s.host
  | _ => true
where
  checkWork (w : Work) : Host → Bool
    | .down _ => true
    | .up db =>
      match w with
      | .commit t => decide (t.writes.Pairwise fun a b => a.1 < b.1) &&
          t.writes.all (fun e => e.1.length = 1 ∧ e.2.1 ≠ .commit ∧ e.2.2.length < 2 ^ 32) &&
          db.clean && decide (db.nextTimestamp + 1 < 2 ^ 64) && decide (db.nextID < 10 ^ 6)
      | .flush => db.nextID < 10 ^ 6
      | .compact _ => true
      | _ => false

theorem sane_of_check (passed : saneCheck s a = true) : s.Sane Engine.oneByte true a := by
  have each : ∀ w db, saneCheck.checkWork w (.up db) = true → w.Sane Engine.oneByte true db := by
    intro w db passed
    cases w with
    | commit t =>
      simp only [saneCheck.checkWork, Bool.and_eq_true, decide_eq_true_eq, all_eq_true] at passed
      obtain ⟨⟨⟨⟨sorted, each⟩, clean⟩, room⟩, low⟩ := passed
      refine fun _ => ⟨⟨sorted, fun e found => (each e found).1, fun e found => (each e found).2.1,
        fun e found => ⟨?_, (each e found).2.2⟩⟩, clean, room, low⟩
      rw [(each e found).1]
      decide
    | flush => simpa [saneCheck.checkWork, Work.Sane] using passed
    | compact w => rfl
    | apply entry => cases passed
    | control => cases passed
  cases a with
  | work w =>
    intro db up
    exact each w db (by rw [← up]; exact passed)
  | crashIn w stage cut =>
    simp only [saneCheck, Bool.and_eq_true, Bool.not_eq_true'] at passed
    exact ⟨passed.1, fun db up => each w db (by rw [← up]; exact passed.2)⟩
  | crash cut => trivial
  | reopen opts => trivial

theorem meets_of_checks (passed : (saneCheck s a && s.spared a) = true) :
    s.Sane Engine.oneByte true a ∧ s.spared a = true := by
  rw [Bool.and_eq_true] at passed
  exact ⟨sane_of_check passed.1, passed.2⟩

/-- Two commits with a flush between, and a third torn behind its data. -/
def tornThird : List Act :=
  [.reopen ⟨0, 0⟩, .work (.commit (putting 0 [[97]] [1])), .work .flush,
    .work (.commit (putting 1 [[98]] [2])), .crashIn (.commit (putting 2 [[97], [98]] [3])) 0 80]

/-- After such a run the first two are there, and nothing of the third. -/
theorem recovery_exact_torn : ∃ s past events dir db,
    Run.Reach step (fun s a => s.Sane Engine.oneByte true a ∧ s.spared a = true) start s past events ∧
    s.host = .down dir ∧ openWith dir ⟨0, 0⟩ = .ok db ∧
    db.get [97] = .ok [1] ∧ db.get [98] = .ok [2] := by
  obtain ⟨s, past, events, run, passed⟩ := Run.exec_exists step
    (fun s a => saneCheck s a && s.spared a) start tornThird
    (fun r => match r.1.host with
      | .up _ => false
      | .down _ => decide (effect r.1.ledger.batches [97] = some [1]) &&
          decide (effect r.1.ledger.batches [98] = some [2])) (by decide +kernel)
  have meets := run.weaken fun _ _ => meets_of_checks
  cases left : s.host with
  | up db => simp [left] at passed
  | down dir =>
    simp only [left, Bool.and_eq_true, decide_eq_true_eq] at passed
    obtain ⟨db, opened, _, _, reads⟩ := recovery_exact Engine.oneByte true meets left ⟨0, 0⟩
    have get := reads Engine.free_oneByte (by simp [Engine.oneByte])
    refine ⟨s, past, events, dir, db, meets, left, opened, ?_, ?_⟩
    · rw [get, passed.1]
      rfl
    · rw [get, passed.2]
      rfl

/-- A commit torn behind its first record, and a commit behind what is left. -/
def commitBehindTorn : List Act :=
  [.reopen ⟨0, 0⟩, .crashIn (.commit (putting 0 [[97], [98]] [1])) 0 30, .reopen ⟨0, 0⟩,
    .work (.commit (putting 1 [[99]] [2])), .crash 200]

/-- After a commit behind a torn one the directory does not open any more. -/
theorem recovery_refused : ∃ s past events dir,
    Run.Reach step (fun s a => s.spared a = true) start s past events ∧
    s.host = .down dir ∧ s.ledger.batches.length = 1 ∧
    openWith dir ⟨0, 0⟩ = .error (.tsMismatch 1 2) := by
  obtain ⟨s, past, events, run, passed⟩ := Run.exec_exists step (fun s a => s.spared a) start
    commitBehindTorn
    (fun r => decide (r.1.ledger.batches.length = 1) &&
      r.1.reopens ⟨0, 0⟩ (Run.fails fun e => decide (e = .tsMismatch 1 2))) (by decide +kernel)
  simp only [Bool.and_eq_true, decide_eq_true_eq] at passed
  obtain ⟨one, refused⟩ := passed
  obtain ⟨dir, left, reopened⟩ := exists_of_reopens refused
  obtain ⟨e, opened, mismatch⟩ := Run.exists_of_fails reopened
  rw [of_decide_eq_true mismatch] at opened
  exact ⟨s, past, events, dir, run, left, one, opened⟩

end Life

end Store
