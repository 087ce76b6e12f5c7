import LittleDb.Store.LifeSteps

/-! The applied index survives crashes: base, log and tables together count the entries on disk. -/

namespace Store

open List Db SortedMap

variable {b : Batch} {n : Nat} {points : List (Dir × Ledger)}

inductive Entry where
  | control
  | data (bytes : List UInt8)
  deriving DecidableEq

namespace Entry

def Holds : Entry → Record → Prop
  | .control, _ => False
  | .data bytes, r => ∃ data marker, parseEntry bytes = .ok (data, marker) ∧ r ∈ data

/-- A batch has the marker of an entry and no data but the entry's. -/
def Gives : Entry → Batch → Prop
  | .control, b => b.data = [] ∧ b.marker.key = []
  | .data bytes, b => ∃ data, parseEntry bytes = .ok (data, b.marker) ∧ ∀ r ∈ b.data, r ∈ data

variable {e : Entry} {r : Record}

theorem Gives.holds (gives : e.Gives b) (own : r ∈ b.data) : e.Holds r := by
  cases e with
  | control => rw [gives.1] at own; cases own
  | data bytes =>
    obtain ⟨data, parsed, within⟩ := gives
    exact ⟨data, b.marker, parsed, within r own⟩

theorem Gives.agree (gives : e.Gives b) (held : e.Holds r) : r.timestamp = b.marker.timestamp := by
  cases e with
  | control => exact held.elim
  | data bytes =>
    obtain ⟨data, parsed, _⟩ := gives
    obtain ⟨data', marker, parsed', listed⟩ := held
    rw [parsed] at parsed'
    obtain ⟨rfl, rfl⟩ := Prod.mk.inj (Except.ok.inj parsed')
    exact (parseEntry_valid parsed).stamped r listed

theorem Gives.extend {rest : List Record} (gives : e.Gives b) (held : ∀ r ∈ rest, e.Holds r) :
    e.Gives ⟨rest ++ b.data, b.marker⟩ := by
  cases e with
  | control =>
    have none : rest = [] := eq_nil_iff_forall_not_mem.mpr held
    exact ⟨by rw [none, gives.1]; rfl, gives.2⟩
  | data bytes =>
    obtain ⟨data, parsed, within⟩ := gives
    refine ⟨data, parsed, fun r listed => ?_⟩
    rcases mem_append.mp listed with front | own
    · obtain ⟨data', marker, parsed', inside⟩ := held r front
      rw [parsed] at parsed'
      obtain ⟨rfl, rfl⟩ := Prod.mk.inj (Except.ok.inj parsed')
      exact inside
    · exact within r own

end Entry

/-- Some batches are those of the entries behind an index. -/
def Matches (source : Nat → Entry) (start : Nat) (bs : List Batch) : Prop :=
  ∀ i b, bs[i]? = some b → (source (start + i + 1)).Gives b

variable {source : Nat → Entry} {start : Nat} {bs bs' : List Batch}

section

variable (matching : Matches source start bs)
include matching

theorem Matches.front (part : bs' <+: bs) : Matches source start bs' := by
  obtain ⟨later, rfl⟩ := part
  intro i b found
  obtain ⟨inside, _⟩ := List.getElem?_eq_some_iff.mp found
  exact matching i b (by rw [getElem?_append_left inside, found])

theorem Matches.snoc (next : (source (start + bs.length + 1)).Gives b) : Matches source start (bs ++ [b]) := by
  intro i b' found
  rcases lt_or_ge i bs.length with inside | past
  · exact matching i b' (by rwa [getElem?_append_left inside] at found)
  · rw [getElem?_append_right past, getElem?_singleton] at found
    split_ifs at found with last
    cases found
    have same : i = bs.length := by omega
    rw [same]
    exact next

theorem Matches.next (part : bs' ++ [b] <+: bs) : (source (start + bs'.length + 1)).Gives b :=
  matching.front part bs'.length b (by simp)

end

/-- Base and logged batches count the entries on disk, and no table more. -/
structure Indexed (source : Nat → Entry) (dir : Dir) (l : Ledger) (dups new : List Batch)
    (rest : List Record) : Prop where
  journal : Journal Batch.marker l dups new
  base : dir.appliedBase + dups.length = l.stored.length
  footers : ∀ e ∈ dir.tables, e.2.appliedIndex ≤ l.stored.length
  entries : Matches source 0 l.batches
  logged : Matches source dir.appliedBase (dups ++ new)
  torn : ∀ r ∈ rest, (source (l.batches.length + 1)).Holds r
  room : l.batches.length < 2 ^ 64

namespace Indexed

variable {dir dir' : Dir} {l : Ledger} {dups new : List Batch} {rest : List Record}

theorem count (indexed : Indexed source dir l dups new rest) :
    dir.appliedBase + (dups ++ new).length = l.batches.length := by
  have base := indexed.base
  have same := indexed.journal.length
  simp only [Ledger.batches, length_append, length_map]
  omega

theorem empty (source : Nat → Entry) : Indexed source .empty .empty [] [] [] :=
  ⟨.empty _, rfl, by simp [Dir.empty], by simp [Matches, Ledger.batches, Ledger.empty],
    by simp [Matches], by simp, by simp [Ledger.batches, Ledger.empty]⟩

variable (indexed : Indexed source dir l dups new rest)

include indexed

theorem congr (base : dir'.appliedBase = dir.appliedBase)
    (footers : ∀ e ∈ dir'.tables, e.2.appliedIndex ≤ l.stored.length) : Indexed source dir' l dups new rest :=
  ⟨indexed.journal, base ▸ indexed.base, footers, indexed.entries, base ▸ indexed.logged, indexed.torn, indexed.room⟩

theorem write {stop : Nat} (gives : (source (l.batches.length + 1)).Gives b)
    (room : l.batches.length + 1 < 2 ^ 64) (ends : stop = extent (dups ++ (new ++ [⟨rest ++ b.data, b.marker⟩]))) :
    Indexed source dir (l.write b stop) dups (new ++ [⟨rest ++ b.data, b.marker⟩]) [] := by
  have grown : (l.write b stop).batches = l.batches ++ [b] := by
    simp [Ledger.batches, Ledger.write]
  refine ⟨indexed.journal.write rfl ends, indexed.base, indexed.footers, ?_, ?_, by simp,
    by simpa [grown] using room⟩
  · rw [grown]
    exact indexed.entries.snoc (by simpa using gives)
  · rw [← append_assoc]
    refine indexed.logged.snoc ?_
    rw [indexed.count]
    exact gives.extend indexed.torn

theorem held (base : dir'.appliedBase = dir.appliedBase)
    (footers : ∀ e ∈ dir'.tables, e.2.appliedIndex ≤ l.batches.length) :
    Indexed source dir' l.held (dups ++ new) [] rest := by
  have same : l.held.batches = l.batches := by simp [Ledger.held, Ledger.batches]
  refine ⟨indexed.journal.held, ?_, footers, ?_, ?_, ?_, same ▸ indexed.room⟩
  · rw [base]
    exact indexed.count
  · rw [same]
    exact indexed.entries
  · rw [base, append_nil]
    exact indexed.logged
  · rw [same]
    exact indexed.torn

theorem based (base : dir'.appliedBase = l.batches.length)
    (footers : ∀ e ∈ dir'.tables, e.2.appliedIndex ≤ l.batches.length) :
    Indexed source dir' l.held.removed [] [] [] := by
  have same : l.held.removed.batches = l.batches := by
    simp [Ledger.held, Ledger.removed, Ledger.batches]
  refine ⟨.removed _ _, base, footers, ?_, by simp [Matches], by simp, same ▸ indexed.room⟩
  rw [same]
  exact indexed.entries

theorem cut {rest' : List Record} (spared : l.covered ≤ n)
    (shape : (survivors n (dups ++ new) = dups ++ new ∧ rest' <+: rest) ∨
      ∃ b, survivors n (dups ++ new) ++ [b] <+: dups ++ new ∧ rest' <+: b.data) :
    Indexed source { dir with wal := dir.wal.take n } (l.cut n) dups (survivors (n - l.covered) new) rest' := by
  have journal := indexed.journal.cut spared
  have left := indexed.journal.survivors_cut spared
  have front : dups ++ survivors (n - l.covered) new <+: dups ++ new := by
    rw [← left]
    exact Framing.wholeIn_front ..
  have fewer : (l.cut n).batches.length =
      dir.appliedBase + (dups ++ survivors (n - l.covered) new).length := by
    have base := indexed.base
    have same := journal.length
    simp only [Ledger.batches, Ledger.cut, length_append, length_map] at same ⊢
    omega
  refine ⟨journal, indexed.base, indexed.footers, indexed.entries.front (indexed.journal.cut_front n),
    indexed.logged.front front, ?_,
    (indexed.journal.cut_front n).length_le.trans_lt indexed.room⟩
  rw [fewer]
  rcases shape with ⟨all, part⟩ | ⟨b, next, part⟩
  · rw [← left, all, indexed.count]
    exact fun r listed => indexed.torn r (part.subset listed)
  · intro r listed
    rw [left] at next
    exact (indexed.logged.next next).holds (part.subset listed)

end Indexed

/-- A directory whose log was written to its end. -/
def Steady (source : Nat → Entry) (dir : Dir) (l : Ledger) : Prop :=
  ∃ dups new rest, Indexed source dir l dups new rest ∧ Walled dir.wal (dups ++ new) rest

def Left (source : Nat → Entry) (dir : Dir) (l : Ledger) : Prop :=
  ∃ dups new rest, Indexed source dir l dups new rest ∧ Recovers dir.wal (dups ++ new) rest

/-- An open database that has applied the entries on its disk. -/
structure Running (source : Nat → Entry) (db : Db) (l : Ledger) : Prop where
  disk : Steady source db.dir l
  index : db.appliedIndex = l.batches.length
  footers : ∀ e ∈ db.sstables, e.2.appliedIndex ≤ l.stored.length
  ready : db.memtable.Open
  clock : db.nextTimestamp < 2 ^ 64
  running : db.closed = false

variable {db done : Db} {dir : Dir} {l : Ledger}

theorem Steady.crash (steady : Steady source dir l) (spared : l.covered ≤ n) :
    Left source { dir with wal := dir.wal.take n } (l.cut n) := by
  obtain ⟨dups, new, rest, indexed, walled⟩ := steady
  obtain ⟨rest', recovers, shape⟩ := walled.cut n
  refine ⟨dups, survivors (n - l.covered) new, rest', indexed.cut spared shape, ?_⟩
  rw [← indexed.journal.survivors_cut spared]
  exact recovers

theorem succ64_lt (n : Nat) : succ64 n < 2 ^ 64 := Nat.mod_lt _ (by decide)

theorem Left.opens (left : Left source dir l) (opts : Options) : ∃ db, openWith dir opts = .ok db ∧
    db.recoveredApplied = l.batches.length ∧ Running source db l := by
  obtain ⟨dups, new, rest, indexed, recovers⟩ := left
  obtain ⟨m, _, ready, opened, walled⟩ := recovers.opens opts
  have fromTables : tablesApplied dir ≤ l.batches.length := by
    refine foldl_max_le_iff.mpr ⟨Nat.zero_le _, fun n listed => ?_⟩
    obtain ⟨e, found, rfl⟩ := mem_map.mp listed
    have bound := indexed.footers e (mem_of_mem_filter found)
    simp only [Ledger.batches, length_append]
    omega
  have counted : max (tablesApplied dir) ((dir.appliedBase + (dups ++ new).length) % 2 ^ 64) =
      l.batches.length := by
    rw [indexed.count, Nat.mod_eq_of_lt indexed.room, max_eq_right fromTables]
  refine ⟨_, opened, counted, ⟨⟨dups, new, rest, indexed.congr rfl indexed.footers, walled⟩, counted,
    fun e listed => ?_, ready, succ64_lt _, rfl⟩⟩
  exact indexed.footers e (mem_of_mem_filter (mem_reverse.mp listed))

/-- The log was removed before the new base: the tables alone count. -/
structure Stale (source : Nat → Entry) (dir : Dir) (l : Ledger) : Prop where
  wal : dir.wal = []
  logged : l.logged = []
  index : tablesApplied dir = l.batches.length
  base : dir.appliedBase < l.batches.length
  entries : Matches source 0 l.batches
  room : l.batches.length < 2 ^ 64

theorem Stale.cut (stale : Stale source dir l) : Stale source { dir with wal := dir.wal.take n } (l.cut n) := by
  have same : (l.cut n).batches = l.batches := by simp [Ledger.batches, Ledger.cut, stale.logged]
  refine ⟨by simp [stale.wal], by simp [Ledger.cut, stale.logged], ?_, ?_, ?_, ?_⟩ <;> rw [same]
  exacts [stale.index, stale.base, stale.entries, stale.room]

theorem Stale.opens (stale : Stale source dir l) (opts : Options) : ∃ db, openWith dir opts = .ok db ∧
    db.recoveredApplied = l.batches.length ∧ Stale source db.dir l ∧ db.appliedIndex = l.batches.length := by
  have empty : Recovers dir.wal [] [] := stale.wal ▸ Walled.empty.recovers
  obtain ⟨m, _, _, opened, _⟩ := empty.opens opts
  have counted : max (tablesApplied dir) ((dir.appliedBase + 0) % 2 ^ 64) = l.batches.length := by
    rw [stale.index, add_zero, max_eq_left ((Nat.mod_le _ _).trans stale.base.le)]
  exact ⟨_, opened, counted, ⟨rfl, stale.logged, stale.index, stale.base, stale.entries, stale.room⟩, counted⟩

namespace Running

variable {dirs : List Dir}

theorem logged {db' : Db} (state : Running source db l) (logs : Db.Logged db db' b) (valid : b.Valid)
    (gives : (source (l.batches.length + 1)).Gives b) (room : l.batches.length + 1 < 2 ^ 64)
    (index : db'.appliedIndex = l.batches.length + 1) (clock : db'.nextTimestamp < 2 ^ 64) :
    Running source db' (l.write b db'.dir.wal.length) := by
  obtain ⟨dups, new, rest, indexed, walled⟩ := state.disk
  have grown := walled.append valid fun r listed => gives.agree (indexed.torn r listed)
  have file : db'.dir.wal = db.dir.wal ++ Framing.log encode b.records := by rw [logs.dir]
  rw [← file, append_assoc] at grown
  obtain ⟨m, folded, ready⟩ := state.ready.applyAll valid.data
    fun r own => (valid.fits r (by simp [Batch.records, own])).timestamp
  obtain rfl : m = db'.memtable := Option.some.inj (folded.symm.trans logs.memtable)
  have same : (l.write b db'.dir.wal.length).batches.length = l.batches.length + 1 := by
    simp [Ledger.batches, Ledger.write, add_assoc]
  refine ⟨⟨dups, _, [], ?_, grown⟩, index.trans same.symm, ?_, ready, clock, logs.closed.trans state.running⟩
  · refine (indexed.write gives room grown.length).congr (by rw [logs.dir]) ?_
    rw [logs.dir]
    exact indexed.footers
  · rw [logs.sstables]
    exact state.footers

theorem flushing (state : Running source db l) (flush : Db.Flushing db done dirs) :
    Running source done (settled l (flushPoints l dirs)) ∧
      ∀ i p, (flushPoints l dirs)[i]? = some p → i ≠ 1 → Steady source p.1 p.2 := by
  cases flush with
  | idle => exact ⟨state, fun i p found => by simp [flushPoints] at found⟩
  | made t table =>
    obtain ⟨dups, new, rest, indexed, walled⟩ := state.disk
    have more : l.stored.length ≤ l.batches.length := by
      simp [Ledger.batches]
    -- The new table counts the entries applied, and the older ones no more than before.
    have footers : ∀ e ∈ SortedMap.put db.nextID t db.dir.tables,
        e.2.appliedIndex ≤ l.batches.length := by
      intro e listed
      rcases of_mem_put listed with rfl | old
      · exact (table.applied.trans state.index).le
      · exact (indexed.footers e old).trans more
    have finished : Indexed source
        { db.dir with tables := SortedMap.put db.nextID t db.dir.tables } l.held (dups ++ new) [] rest :=
      indexed.held rfl footers
    have based : ∀ dir' : Dir, dir'.appliedBase = db.appliedIndex → dir'.wal = [] →
        dir'.tables = SortedMap.put db.nextID t db.dir.tables →
        Steady source dir' l.held.removed := by
      intro dir' base wal tables
      refine ⟨[], [], [], indexed.based (base.trans state.index) (tables ▸ footers), ?_⟩
      rw [wal]
      exact .empty
    have batches : l.held.removed.batches = l.batches := by
      simp [Ledger.held, Ledger.removed, Ledger.batches]
    constructor
    · change Running source (db.flushed t) l.held.removed
      refine ⟨based _ rfl rfl rfl, state.index.trans (congrArg _ batches.symm), ?_,
        Memtable.open_new, state.clock, state.running⟩
      intro e listed
      rcases mem_cons.mp listed with rfl | old
      · exact (table.applied.trans state.index).le
      · exact (state.footers e old).trans more
    · intro i p found stage
      rcases i with _ | _ | _ | _ | i
      · cases found
        exact ⟨dups ++ new, [], rest, finished, by simpa using walled⟩
      · exact absurd rfl stage
      · cases found
        exact based _ rfl rfl rfl
      · cases found
        exact based _ rfl rfl rfl
      · simp [flushPoints, Db.flushDirs] at found

theorem vanishes {p : Dir × Ledger} (state : Running source db l) (flush : Db.Flushing db done dirs)
    (low : db.nextID < 10 ^ 6) (found : (flushPoints l dirs)[1]? = some p) :
    Steady source p.1 p.2 ∨ Stale source p.1 p.2 := by
  cases flush with
  | idle => simp [flushPoints] at found
  | made t table =>
    cases found
    obtain ⟨dups, new, rest, indexed, _⟩ := state.disk
    have batches : l.held.removed.batches = l.batches := l.batches_held_removed
    have bound : ∀ e ∈ SortedMap.put db.nextID t db.dir.tables, e.2.appliedIndex ≤ l.batches.length := by
      intro e listed
      rcases of_mem_put listed with rfl | old
      · exact (table.applied.trans state.index).le
      · exact (indexed.footers e old).trans (by simp [Ledger.batches])
    by_cases base : db.dir.appliedBase = l.batches.length
    · exact .inl ⟨[], [], [], indexed.based base bound, .empty⟩
    · have counted := indexed.count
      refine .inr ⟨rfl, rfl, le_antisymm ?_ ?_, ?_, ?_, ?_⟩ <;> rw [batches]
      · refine foldl_max_le_iff.mpr ⟨Nat.zero_le _, fun n listed => ?_⟩
        obtain ⟨e, kept, rfl⟩ := mem_map.mp listed
        exact bound e (mem_of_mem_filter kept)
      · -- The new table has a name that a directory scan finds.
        rw [← state.index, ← table.applied]
        exact (foldl_max_le_iff.mp (le_refl _)).2 _ (mem_map.mpr ⟨(db.nextID, t),
          mem_filter.mpr ⟨mem_put_self .., by simpa using low⟩, rfl⟩)
      · change db.dir.appliedBase < _
        omega
      · exact indexed.entries
      · exact indexed.room

theorem batch {db' : Db} (state : Running source db' (l.write b db'.dir.wal.length))
    (flush : Db.Flushing db' done dirs) : Running source done (settled l (batchPoints l b (db'.dir :: dirs))) ∧
    ∀ i p, (batchPoints l b (db'.dir :: dirs))[i]? = some p → i ≠ 2 → Steady source p.1 p.2 := by
  obtain ⟨after, points⟩ := state.flushing flush
  refine ⟨by simpa [batchPoints] using after, fun i p found stage => ?_⟩
  cases i with
  | zero =>
    cases found
    exact state.disk
  | succ i => exact points i p found (by omega)

theorem compacting {w : Nat} {job : Job} {merged : Table} (state : Running source db l)
    (compacts : Db.Compacting db w done dirs job merged) :
    Running source done l ∧ ∀ d ∈ db.dir :: dirs, Steady source d l := by
  obtain ⟨dups, new, rest, indexed, walled⟩ := state.disk
  obtain ⟨tables, files⟩ := compacts.footers state.footers indexed.footers
  have steady : ∀ gone, Steady source { db.dir with tables := db.compactedFiles job merged gone } l :=
    fun gone => ⟨dups, new, rest, indexed.congr rfl (files gone), walled⟩
  constructor
  · rw [compacts.done] at tables ⊢
    exact ⟨steady _, state.index, tables, state.ready, state.clock, state.running⟩
  · intro d listed
    rcases mem_cons.mp listed with rfl | later
    · exact state.disk
    · rw [compacts.dirs] at later
      obtain ⟨gone, _, rfl⟩ := mem_map.mp later
      exact steady gone

end Running

/-- An operation applies the next entry of the log, or moves data on disk. -/
def Work.follows (source : Nat → Entry) (db : Db) : Work → Bool
  | .commit _ => false
  | .apply entry => source (db.appliedIndex + 1) = .data entry ∧ db.appliedIndex + 1 < 2 ^ 64
  | .control => source (db.appliedIndex + 1) = .control ∧ db.appliedIndex + 1 < 2 ^ 64
  | .flush => true
  | .compact _ => true

/-- The stage at which the log is gone and the new base is not yet written. -/
def Work.unbased : Work → Option Nat
  | .commit _ => some 2
  | .apply _ => some 2
  | .control => some 2
  | .flush => some 1
  | .compact _ => none

/-- What an operation does: it logs a batch and may flush, flushes, or compacts. -/
inductive Runs (source : Nat → Entry) (db : Db) (l : Ledger) (done : Db) :
    List (Dir × Ledger) → Option Nat → Prop where
  /-- The next entry is logged and applied, and a full buffer is flushed. -/
  | batch {db' : Db} {b : Batch} {dirs : List Dir} (logs : Db.Logged db db' b)
      (state : Running source db' (l.write b db'.dir.wal.length))
      (flush : Db.Flushing db' done dirs) :
      Runs source db l done (batchPoints l b (db'.dir :: dirs)) (some 2)
  | flush {dirs : List Dir} (flush : Db.Flushing db done dirs) :
      Runs source db l done (flushPoints l dirs) (some 1)
  | compact {dirs : List Dir} {w : Nat} {job : Job} {merged : Table}
      (compacts : Db.Compacting db w done dirs job merged) :
      Runs source db l done ((db.dir, l) :: dirs.map fun d => (d, l)) none

theorem Running.runs {w : Work} (state : Running source db l) (follows : w.follows source db = true)
    (ran : w.run db l = some (done, points)) : Runs source db l done points w.unbased := by
  cases Work.ran ran with
  | commit => cases follows
  | @apply _ data marker _ _ parsed applied =>
    simp only [Work.follows, decide_eq_true_eq, state.index] at follows
    obtain ⟨next, room⟩ := follows
    obtain ⟨db', flush, logs, index, clock, _, flushed, rfl⟩ := applyEntry_cases parsed applied
    have whole := parseEntry_valid parsed
    -- A duplicate leaves the marker only.
    have shape : (db.batchOf data marker).marker = marker ∧
        ∀ r ∈ (db.batchOf data marker).data, r ∈ data := by
      unfold Db.batchOf
      split_ifs <;> simp
    have valid : (db.batchOf data marker).Valid := by
      unfold Db.batchOf
      split_ifs
      · exact ⟨whole.marked, by simp, by simp, fun r own => whole.fits r (by simp_all [Batch.records])⟩
      · exact whole
    have gives : (source (l.batches.length + 1)).Gives (db.batchOf data marker) := by
      rw [next]
      exact ⟨data, by rw [shape.1]; exact parsed, shape.2⟩
    have state' := state.logged logs valid gives room
      (by rw [index, state.index]; exact max_eq_right (Nat.le_succ _))
      (by rw [clock]; split_ifs; exacts [succ64_lt _, state.clock])
    exact .batch logs state' (flushIfFull_cases state'.ready flushed)
  | control applied =>
    simp only [Work.follows, decide_eq_true_eq, state.index] at follows
    obtain ⟨next, room⟩ := follows
    obtain ⟨db', flush, logs, index, clock, _, flushed, rfl⟩ := applyControlEntry_cases applied
    have valid : Batch.Valid ⟨[], commitMarker db.nextTimestamp⟩ := by
      refine ⟨rfl, by simp, by simp, fun r own => ?_⟩
      obtain rfl : r = commitMarker db.nextTimestamp := by simpa [Batch.records] using own
      exact commitMarker_fits state.clock
    have gives : (source (l.batches.length + 1)).Gives ⟨[], commitMarker db.nextTimestamp⟩ := by
      rw [next]
      exact ⟨rfl, rfl⟩
    have state' := state.logged logs valid gives room
      (by rw [index, state.index]; exact max_eq_right (Nat.le_succ _))
      (by rw [clock]; exact succ64_lt _)
    exact .batch logs state' (flushIfFull_cases state'.ready flushed)
  | flush flushed =>
    exact .flush (flushLocked_cases state.ready flushed)
  | compact compacted =>
    obtain ⟨job, merged, compacts⟩ := tryCompactOnce_cases state.running compacted
    exact .compact compacts

theorem Running.work {unbased : Option Nat} (state : Running source db l)
    (runs : Runs source db l done points unbased) : Running source done (settled l points) ∧
    ∀ i p, points[i]? = some p → unbased ≠ some i → Steady source p.1 p.2 := by
  cases runs with
  | batch logs state' flush =>
    obtain ⟨after, stages⟩ := state'.batch flush
    exact ⟨after, fun i p found stage => stages i p found fun two => stage (by rw [two])⟩
  | flush flush =>
    obtain ⟨after, stages⟩ := state.flushing flush
    exact ⟨after, fun i p found stage => stages i p found fun one => stage (by rw [one])⟩
  | compact compacts =>
    obtain ⟨after, steady⟩ := state.compacting compacts
    refine ⟨by rw [settled_cons, settled_const]; exact after, fun i p found _ => ?_⟩
    rcases mem_cons.mp (mem_of_getElem? found) with rfl | later
    · exact state.disk
    · obtain ⟨d, listed, rfl⟩ := mem_map.mp later
      exact steady d (by simp [listed])

/-- The base and the markers in the log count the entries that were applied. -/
def Db.counted (db : Db) : Bool := db.dir.appliedBase + db.dir.markers = db.appliedIndex

theorem Running.vanished {p : Dir × Ledger} {unbased : Option Nat} {i : Nat}
    (state : Running source db l) (runs : Runs source db l done points unbased) (low : db.nextID < 10 ^ 6)
    (found : points[i]? = some p) (here : unbased = some i) : Steady source p.1 p.2 ∨ Stale source p.1 p.2 := by
  cases runs with
  | batch logs state' flush =>
    cases here
    exact state'.vanishes flush (logs.nextID ▸ low) found
  | flush flush =>
    cases here
    exact state.vanishes flush low found
  | compact => cases here

namespace Life

/-- Every operation applies the next entry of the log, or moves data on disk. -/
def follows (source : Nat → Entry) (s : Life) : Act → Bool
  | .work w | .crashIn w _ _ =>
    match s.host with
    | .up db => w.follows source db
    | .down _ => false
  | _ => true

/-- No crash falls between the removal of the log and the new base. -/
def Act.based : Act → Bool
  | .crashIn w stage _ => w.unbased ≠ some stage
  | _ => true

/-- The applied index counts the entries on disk, or will once opened. -/
def Counts (source : Nat → Entry) (s : Life) : Prop :=
  match s.host with
  | .up db => Running source db s.ledger
  | .down dir => Left source dir s.ledger

/-- Each step keeps the count. -/
theorem Counts.step {s s' : Life} {a : Act} {new : List Unit} (counts : s.Counts source)
    (meets : s.follows source a = true ∧ s.spared a = true ∧ a.based = true)
    (moved : s.step a = some (s', new)) : s'.Counts source := by
  obtain ⟨follows, spared, based⟩ := meets
  cases moves moved with
  | work ran => exact (Running.work counts (Running.runs counts follows ran)).1
  | crash => exact (Running.disk counts).crash (by simpa [Life.spared] using spared)
  | crashIn ran found =>
    have stages := (Running.work counts (Running.runs counts follows ran)).2
    exact (stages _ _ found (by simpa [Act.based] using based)).crash (spared_crashIn ran found spared)
  | reopen opened =>
    obtain ⟨db, opened', _, running⟩ := Left.opens counts _
    obtain rfl := Except.ok.inj (opened.symm.trans opened')
    exact running

theorem counts_start (source : Nat → Entry) : Life.start.Counts source :=
  ⟨[], [], [], .empty source, ⟨rfl, by simp, by simp [Loose]⟩⟩

/--
No operation runs on a base and a log that fall short of the applied index.

A crash between the removal of the log and the new base leaves such a directory, if a directory scan finds the table.
-/
def counted (s : Life) : Act → Bool
  | .work _ =>
    match s.host with
    | .up db => db.counted
    | .down _ => true
  | .crashIn w stage _ =>
    match s.host with
    | .up db => db.counted && (decide (w.unbased ≠ some stage) || decide (db.nextID < 10 ^ 6))
    | .down _ => true
  | _ => true

/-- The applied index counts the entries on disk, or only the tables do. -/
def Tallies (source : Nat → Entry) (s : Life) : Prop :=
  s.Counts source ∨ match s.host with
    | .up db => Stale source db.dir s.ledger ∧ db.appliedIndex = s.ledger.batches.length
    | .down dir => Stale source dir s.ledger

/-- Each step keeps the count, or leaves it to the tables. -/
theorem Tallies.step {s s' : Life} {a : Act} {new : List Unit} (tallies : s.Tallies source)
    (meets : s.follows source a = true ∧ s.spared a = true ∧ s.counted a = true)
    (moved : s.step a = some (s', new)) : s'.Tallies source := by
  obtain ⟨follows, spared, counted⟩ := meets
  rcases tallies with counts | stale
  · by_cases based : a.based = true
    · exact .inl (counts.step ⟨follows, spared, based⟩ moved)
    · -- The log is gone, and the base is still the old one.
      cases moves moved with
      | @crashIn _ _ _ _ w _ stage _ _ ran found =>
        have here : w.unbased = some stage := by simpa [Act.based] using based
        simp only [Life.counted, here, ne_eq, not_true, decide_false, Bool.false_or, Bool.and_eq_true,
          decide_eq_true_eq] at counted
        rcases Running.vanished counts (Running.runs counts follows ran) counted.2 found here with steady | stale
        · exact .inl (steady.crash (spared_crashIn ran found spared))
        · exact .inr stale.cut
      | work | crash | reopen => exact absurd rfl based
  · have idle : ∀ {db : Db} {l : Ledger}, Stale source db.dir l → db.appliedIndex = l.batches.length →
        db.counted = true → False := by
      intro db l stale index counted
      have none : db.dir.markers = 0 := (stale.wal ▸ Walled.empty.recovers : Recovers db.dir.wal [] []).markers
      have base := stale.base
      simp only [Db.counted, none, decide_eq_true_eq] at counted
      omega
    cases moves moved with
    | work => exact (idle stale.1 stale.2 counted).elim
    | crash => exact .inr stale.1.cut
    | crashIn => exact (idle stale.1 stale.2 (Bool.and_eq_true_iff.mp counted).1).elim
    | reopen opened =>
      obtain ⟨db, opened', -, again⟩ := Stale.opens stale _
      obtain rfl := Except.ok.inj (opened.symm.trans opened')
      exact .inr again

/-- Opening what a crash left finds the number of entries on disk. -/
theorem applied_index_recovered (source : Nat → Entry) {s : Life} {past : List Life}
    {events : List Unit} {dir : Dir}
    (run : Run.Reach step
      (fun s a => s.follows source a = true ∧ s.spared a = true ∧ s.counted a = true) Life.start s past
      events)
    (left : s.host = .down dir) (opts : Options) :
    ∃ db, openWith dir opts = .ok db ∧ db.recoveredApplied = s.ledger.batches.length ∧
      Matches source 0 s.ledger.batches := by
  have tallies : s.Tallies source := by
    refine run.invariant (P := fun s _ _ => s.Tallies source) (.inl (counts_start source)) ?_
    intro s a s' _ _ _ _ meets moved tallies
    exact tallies.step meets moved
  unfold Tallies Counts at tallies
  rw [left] at tallies
  rcases tallies with counts | stale
  · obtain ⟨db, opened, counted, _⟩ := Left.opens counts opts
    obtain ⟨dups, new, rest, indexed, _⟩ := counts
    exact ⟨db, opened, counted, indexed.entries⟩
  · obtain ⟨db, opened, counted, _⟩ := stale.opens opts
    exact ⟨db, opened, counted, stale.entries⟩

/-- Three entries that each write one key, and control entries behind them. -/
def threeWrites : Nat → Entry
  | 1 => .data (Framing.log encode [⟨.put, 1, [97], [1]⟩, commitMarker 1])
  | 2 => .data (Framing.log encode [⟨.put, 2, [98], [2]⟩, commitMarker 2])
  | 3 => .data (Framing.log encode [⟨.put, 3, [99], [3]⟩, commitMarker 3])
  | _ => .control

def applyNth (source : Nat → Entry) (n : Nat) : Work :=
  match source n with
  | .control => .control
  | .data bytes => .apply bytes

/-- A crash in a flush, a third entry, a torn fourth, and a flush that loses its base. -/
def crashesBased : List Act :=
  [.reopen ⟨0, 0⟩, .work (applyNth threeWrites 1), .work (applyNth threeWrites 2),
    .crashIn .flush 2 100, .reopen ⟨0, 0⟩, .work (applyNth threeWrites 3),
    .crashIn (applyNth threeWrites 4) 0 50, .reopen ⟨0, 0⟩, .crashIn .flush 1 0]

/-- Such a run recovers the index of the third entry. -/
theorem applied_index_recovered_flushed : ∃ s past events dir db,
    Run.Reach step (fun s a => s.follows threeWrites a = true ∧ s.spared a = true ∧ s.counted a = true)
      Life.start s past events ∧
    s.host = .down dir ∧ openWith dir ⟨0, 0⟩ = .ok db ∧ db.recoveredApplied = 3 := by
  obtain ⟨s, past, events, run, passed⟩ := Run.exec_exists step
    (fun s a => s.follows threeWrites a && s.spared a && s.counted a) Life.start crashesBased
    (fun r => match r.1.host with
      | .up _ => false
      | .down _ => r.1.ledger.batches.length = 3) (by decide +kernel)
  have meets : Run.Reach step (fun s a => s.follows threeWrites a = true ∧ s.spared a = true ∧
      s.counted a = true) Life.start s past events :=
    run.weaken fun s a passed => by simpa [and_assoc] using passed
  cases left : s.host with
  | up db => simp [left] at passed
  | down dir =>
    obtain ⟨db, opened, counted, _⟩ := applied_index_recovered threeWrites meets left ⟨0, 0⟩
    have three : s.ledger.batches.length = 3 := by simpa [left] using passed
    exact ⟨s, past, events, dir, db, meets, left, opened, counted.trans three⟩

/-- Two entries, a flush that loses its log before its base, and a third. -/
def crashesUnbased : List Act :=
  [.reopen ⟨0, 0⟩, .work (applyNth threeWrites 1), .work (applyNth threeWrites 2),
    .crashIn .flush 1 100, .reopen ⟨0, 0⟩, .work (applyNth threeWrites 3), .crash 100]

/-- A crash between the log's removal and the new base counts short. -/
theorem applied_index_short : ∃ s past events dir db,
    Run.Reach step (fun s a => s.follows threeWrites a = true ∧ s.spared a = true)
      Life.start s past events ∧
    s.host = .down dir ∧ openWith dir ⟨0, 0⟩ = .ok db ∧ s.ledger.batches.length = 3 ∧
    db.recoveredApplied = 2 := by
  obtain ⟨s, past, events, run, passed⟩ := Run.exec_exists step
    (fun s a => s.follows threeWrites a && s.spared a) Life.start crashesUnbased
    (fun r => decide (r.1.ledger.batches.length = 3) &&
      r.1.reopens ⟨0, 0⟩ (Run.passes fun db => decide (db.recoveredApplied = 2))) (by decide +kernel)
  have meets : Run.Reach step (fun s a => s.follows threeWrites a = true ∧ s.spared a = true)
      Life.start s past events :=
    run.weaken fun s a passed => by simpa using passed
  simp only [Bool.and_eq_true, decide_eq_true_eq] at passed
  obtain ⟨three, short⟩ := passed
  obtain ⟨dir, left, reopened⟩ := exists_of_reopens short
  obtain ⟨db, opened, counted⟩ := Run.exists_of_passes reopened
  exact ⟨s, past, events, dir, db, meets, left, opened, three, of_decide_eq_true counted⟩

end Life

end Store
