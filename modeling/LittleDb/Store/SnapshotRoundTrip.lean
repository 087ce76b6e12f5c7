import LittleDb.Store.Scan
import LittleDb.Store.Settled
import LittleDb.Store.SnapshotDb

/-! A snapshot of a database, built into an empty directory and opened, is that database again. -/

namespace Store

open Versioned List Db Life Memtable Table

variable {K : Set Key} {db : Db} {s : Life} {a : Act}

namespace Db

/-- The pairs of a snapshot with the index and the timestamp it is taken at. -/
def snapshotScan (db : Db) : Except ScanError (List (Key × Value) × Nat × Nat) :=
  (db.scan none none db.appliedTS).map fun kvs => (kvs, db.appliedIndex, db.appliedTS)

def sessionTable (db : Db) : Sessions := db.sessions

/-- Layers in order that hold nothing above the applied timestamp. -/
structure Shippable (K : Set Key) (db : Db) : Prop where
  layers : Layered { db with frozen := none } K db.versions 0
  past : ∀ v ∈ db.versions, v.ts ≤ db.appliedTS
  frozen : db.frozen = none
  running : db.closed = false
  stamp : db.appliedTS < 2 ^ 64
  clock : db.nextTimestamp < 2 ^ 64
  index : db.appliedIndex < 2 ^ 64

variable {db' done : Db} {dirs : List Dir}

theorem Shippable.layered (shippable : db.Shippable K) : db.Layered K db.versions 0 :=
  shippable.layers.congr rfl shippable.frozen rfl

/-- A snapshot's pairs are what the iterator that merges all layers gives out. -/
theorem Shippable.snapshotScan_drain (shippable : db.Shippable K) (heap : CursorHeap) : ∃ fuel merged stop,
    MergeIterator.drain heap fuel
      (MergeIterator.newMergeIterator heap ((db.cursors none none).map fun l => ⟨l, false⟩)) = (merged, stop) ∧
    stop.valid = false ∧ stop.err = false ∧ db.snapshotScan =
      (Scan.collect db.appliedTS (merged.length + 1) merged).map fun kvs => (kvs, db.appliedIndex, db.appliedTS) := by
  obtain ⟨fuel, merged, stop, drained, ended, fine, scanned⟩ :=
    (shippable.layered.scannable shippable.running).scan_drain heap none none db.appliedTS
  exact ⟨fuel, merged, stop, drained, ended, fine, by rw [snapshotScan, scanned]⟩

theorem Shippable.fresh (opts : Options) : (fresh opts).Shippable K :=
  ⟨(layered_fresh opts K).self, (sound_fresh opts K).settled.past, rfl, rfl, by simp [Db.fresh], by simp [Db.fresh],
    by simp [Db.fresh]⟩

theorem Shippable.flushing (shippable : db.Shippable K) (flush : Flushing db done dirs) : done.Shippable K := by
  cases flush with
  | idle => exact shippable
  | made t table =>
    have layered := shippable.layered.flushed table
    exact { shippable with
      layers := layered.self
      past := fun v stored => shippable.past v (layered.keeps.sub stored)
      frozen := rfl }

theorem Shippable.logged {b : Batch} (ts : Nat) (shippable : db.Shippable K) (logs : Logged db db' b)
    (stamped : ∀ r ∈ b.data, r.timestamp = ts) (fits : ts < 2 ^ 64) (data : ∀ r ∈ b.data, r.op ≠ .commit)
    (keys : ∀ r ∈ b.data, r.key ∈ K) (single : b.data.Pairwise fun r r' => r.key ≠ r'.key) (newer : db.appliedTS < ts)
    (applied : db'.appliedTS = max db.appliedTS ts) (clock : db'.nextTimestamp < 2 ^ 64)
    (index : db'.appliedIndex < 2 ^ 64) (flushed : db'.flushIfFull = .ok (done, dirs)) : done.Shippable K := by
  obtain ⟨layers, past⟩ := shippable.layers.logged ts shippable.past logs stamped fits data keys single
    (fun _ => newer) applied
  have after : db'.Shippable K := ⟨layers, past, logs.frozen.trans shippable.frozen,
    logs.closed.trans shippable.running, applied ▸ max_lt shippable.stamp fits, clock, index⟩
  exact after.flushing (flushIfFull_cases layers.memtable flushed)

theorem Shippable.compacting {w : Nat} {job : Job} {merged : Table} (shippable : db.Shippable K)
    (compacts : Compacting db w done dirs job merged) : done.Shippable K := by
  have tail : db.sstables = db.sstables.take (db.sstables.length - db.trigger) ++ job.inputs := by
    rw [(pickCompaction_cases compacts.picked).1, take_append_drop]
  have layered : Layered
      { db with
        frozen := none
        sstables := db.sstables.take (db.sstables.length - db.trigger) ++ [(job.outputID, merged)] }
      K db.versions (max 0 w) := shippable.layers.collect tail compacts.made
  have past := shippable.past
  rw [compacts.done]
  exact { shippable with
    layers := layered.self.congr rfl rfl rfl
    past := fun v stored => past v (layered.keeps.sub stored) }

end Db

namespace Db

/-- No applied index is beyond 64 bits. -/
def Footed (db : Db) : Prop :=
  db.appliedIndex < 2 ^ 64 ∧ (∀ e ∈ db.sstables, e.2.appliedIndex ≤ 2 ^ 64 - 1) ∧
    ∀ e ∈ db.dir.tables, e.2.appliedIndex ≤ 2 ^ 64 - 1

variable {db' done : Db} {dirs : List Dir}

theorem footed_reopened {dir : Dir} {opts : Options} {bs : List Batch} {rest : List Record} {m : Memtable}
    (files : ∀ e ∈ dir.tables, e.2.appliedIndex ≤ 2 ^ 64 - 1) : (reopened dir opts bs rest m).Footed := by
  refine ⟨max_lt (Nat.lt_of_le_pred (by decide) (foldl_max_le_iff.mpr ⟨Nat.zero_le _, fun n listed => ?_⟩))
    (Nat.mod_lt _ (by decide)), fun e listed => ?_, files⟩
  · obtain ⟨e, found, rfl⟩ := mem_map.mp listed
    exact files e (mem_of_mem_filter found)
  · exact files e (mem_of_mem_filter (mem_reverse.mp listed))

theorem Footed.flushing (footed : db.Footed) (flush : Flushing db done dirs) :
    done.Footed ∧ ∀ d ∈ dirs, ∀ e ∈ d.tables, e.2.appliedIndex ≤ 2 ^ 64 - 1 := by
  obtain ⟨index, tables, files⟩ := footed
  cases flush with
  | idle => exact ⟨⟨index, tables, files⟩, by simp⟩
  | made t table =>
    have new : t.appliedIndex ≤ 2 ^ 64 - 1 := table.applied ▸ Nat.le_pred_of_lt index
    have added : ∀ e ∈ SortedMap.put db.nextID t db.dir.tables, e.2.appliedIndex ≤ 2 ^ 64 - 1 := by
      intro e listed
      rcases SortedMap.of_mem_put listed with rfl | old
      · exact new
      · exact files e old
    refine ⟨⟨index, forall_mem_cons.mpr ⟨new, tables⟩, added⟩, fun d listed => ?_⟩
    simp only [flushDirs, mem_cons, not_mem_nil, or_false] at listed
    rcases listed with rfl | rfl | rfl | rfl <;> exact added

theorem Footed.work {l : Ledger} {dups new : List Batch} {rest : List Record}
    {points : List (Dir × Ledger)} {w : Work} (footed : db.Footed) (serving : Serving K true db l dups new rest)
    (sane : w.Sane K true db) (ran : w.run db l = some (done, points)) :
    done.Footed ∧ ∀ p ∈ points, ∀ e ∈ p.1.tables, e.2.appliedIndex ≤ 2 ^ 64 - 1 := by
  -- The footers shown on the way are those of the directories.
  have stages : ∀ {l : Ledger} {dirs : List Dir}, (∀ d ∈ dirs, ∀ e ∈ d.tables, e.2.appliedIndex ≤ 2 ^ 64 - 1) →
      ∀ p ∈ flushPoints l dirs, ∀ e ∈ p.1.tables, e.2.appliedIndex ≤ 2 ^ 64 - 1 := by
    intro l dirs shown p listed
    refine shown p.1 ?_
    rw [← flushPoints_dirs l dirs]
    exact mem_map_of_mem listed
  cases Work.ran ran with
  | apply | control => exact sane.elim
  | commit committed =>
    rcases commit_cases committed with ⟨-, rfl, rfl⟩ | ⟨db', flush, logged, flushed, rfl⟩
    · exact ⟨footed, by simp [batchPoints]⟩
    · obtain ⟨filled, logs, -, -, index⟩ := commitLogged_cases logged
      have valid := (sane filled).1.valid serving.range
      obtain ⟨m, folded, ready⟩ := serving.ready.applyAll valid.data
        fun r own => (valid.fits r (by simp [Batch.records, own])).timestamp
      obtain rfl : m = db'.memtable := Option.some.inj (folded.symm.trans logs.memtable)
      have files : ∀ e ∈ db'.dir.tables, e.2.appliedIndex ≤ 2 ^ 64 - 1 := by
        rw [logs.dir]
        exact footed.2.2
      have after : db'.Footed := ⟨index ▸ footed.1, logs.sstables ▸ footed.2.1, files⟩
      obtain ⟨last, shown⟩ := after.flushing (flushIfFull_cases ready flushed)
      exact ⟨last, forall_mem_cons.mpr ⟨files, stages shown⟩⟩
  | flush flushed =>
    obtain ⟨last, shown⟩ := footed.flushing (flushLocked_cases serving.ready flushed)
    exact ⟨last, stages shown⟩
  | compact compacted =>
    obtain ⟨job, merged, compacts⟩ := tryCompactOnce_cases serving.running compacted
    obtain ⟨tables, files⟩ := compacts.footers footed.2.1 footed.2.2
    rw [compacts.done] at tables ⊢
    refine ⟨⟨footed.1, tables, files _⟩, forall_mem_cons.mpr ⟨footed.2.2, fun p listed => ?_⟩⟩
    obtain ⟨d, shown, rfl⟩ := mem_map.mp listed
    rw [compacts.dirs] at shown
    obtain ⟨gone, -, rfl⟩ := mem_map.mp shown
    exact files gone

end Db

/-- A commit has a timestamp above all before it and keys of a set. -/
def Work.Rises (K : Set Key) (db : Db) : Work → Prop
  | .commit t => SortedMap.Sorted t.writes ∧ (∀ e ∈ t.writes, e.1 ∈ K ∧ e.2.1 ≠ .commit) ∧
      db.appliedTS < db.nextTimestamp
  | .apply entry => ∀ data marker, parseEntry entry = .ok (data, marker) →
      (∀ r ∈ data, r.key ∈ K) ∧ (data.Pairwise fun r r' => r.key ≠ r'.key) ∧
      db.appliedTS < marker.timestamp ∧ db.appliedIndex + 1 < 2 ^ 64
  | .control => db.appliedTS < db.nextTimestamp ∧ db.appliedIndex + 1 < 2 ^ 64
  | .flush | .compact _ => True

theorem Db.Shippable.work {done : Db} {l : Ledger} {points : List (Dir × Ledger)} {w : Work}
    (shippable : db.Shippable K) (rises : w.Rises K db) (ran : w.run db l = some (done, points)) :
    done.Shippable K := by
  cases Work.ran ran with
  | commit committed =>
    obtain ⟨sorted, each, newer⟩ := rises
    rcases commit_cases committed with ⟨-, rfl, rfl⟩ | ⟨db', flush, logged, flushed, rfl⟩
    · exact shippable
    · obtain ⟨-, logs, clock, applied, index⟩ := commitLogged_cases logged
      refine shippable.logged db.nextTimestamp logs ?_ shippable.clock ?_ ?_ ?_ newer
        (by rw [applied, max_eq_right newer.le]) (clock ▸ succ64_lt _) (index ▸ shippable.index) flushed
      · intro r listed
        obtain ⟨e, -, rfl⟩ := mem_map.mp listed
        rfl
      · intro r listed
        obtain ⟨e, found, rfl⟩ := mem_map.mp listed
        exact (each e found).2
      · intro r listed
        obtain ⟨e, found, rfl⟩ := mem_map.mp listed
        exact (each e found).1
      · exact pairwise_map.mpr (sorted.imp fun less same => less.ne same)
  | @apply _ data marker _ _ parsed applied =>
    obtain ⟨keys, single, newer, room⟩ := rises data marker parsed
    obtain ⟨db', flush, logs, index, clock, reached, flushed, rfl⟩ := applyEntry_cases parsed applied
    have valid := parseEntry_valid parsed
    -- A known retry logs its marker only.
    have part : ∀ r ∈ (db.batchOf data marker).data, r ∈ data := by
      unfold Db.batchOf
      split_ifs
      · simp
      · exact fun r listed => listed
    have clock : db'.nextTimestamp < 2 ^ 64 := by
      rw [clock]
      split_ifs
      · exact succ64_lt _
      · exact shippable.clock
    refine shippable.logged marker.timestamp logs (fun r listed => valid.stamped r (part r listed))
      (valid.fits marker (by simp [Batch.records])).timestamp (fun r listed => valid.data r (part r listed))
      (fun r listed => keys r (part r listed)) ?_ newer reached clock ?_ flushed
    · unfold Db.batchOf
      split_ifs
      · exact .nil
      · exact single
    · rw [index]
      exact max_lt shippable.index room
  | control applied =>
    obtain ⟨db', flush, logs, index, clock, reached, flushed, rfl⟩ := applyControlEntry_cases applied
    exact shippable.logged db.nextTimestamp logs (by simp) shippable.clock (by simp) (by simp) .nil rises.1 reached
      (clock ▸ succ64_lt _) (index ▸ max_lt shippable.index rises.2) flushed
  | flush flushed =>
    exact shippable.flushing (flushLocked_cases shippable.layers.memtable flushed)
  | compact compacted =>
    obtain ⟨job, merged, compacts⟩ := tryCompactOnce_cases shippable.running compacted
    exact shippable.compacting compacts

namespace Life

/-- An opened database works, with increasing timestamps and keys of a set. -/
def Rises (K : Set Key) (s : Life) : Act → Prop
  | .work w => ∀ db, s.host = .up db → w.Rises K db
  | .reopen _ => True
  | _ => False

/-- An open database can be shipped, and so can a directory's. -/
def Ships (K : Set Key) (s : Life) : Prop :=
  match s.host with
  | .up db => db.Shippable K
  | .down dir => ∀ opts db, openWith dir opts = .ok db → db.Shippable K

/-- Each step keeps what can be shipped. -/
theorem Ships.step {s' : Life} {new : List Unit} (ships : s.Ships K)
    (rises : s.Rises K a) (moved : s.step a = some (s', new)) : s'.Ships K := by
  cases moves moved with
  | work ran => exact Db.Shippable.work ships (rises _ rfl) ran
  | crash => exact rises.elim
  | crashIn => exact rises.elim
  | reopen opened => exact ships _ _ opened

/-- No footer has an applied index beyond 64 bits. -/
def Footed (s : Life) : Prop :=
  match s.host with
  | .up db => db.Footed
  | .down dir => ∀ e ∈ dir.tables, e.2.appliedIndex ≤ 2 ^ 64 - 1

/-- Each step keeps the footers within 64 bits. -/
theorem Footed.step {s' : Life} {new : List Unit} (footed : s.Footed)
    (holds : s.Holds K true) (sane : s.Sane K true a) (moved : s.step a = some (s', new)) : s'.Footed := by
  cases moves moved with
  | work ran =>
    obtain ⟨dups, new, rest, serving⟩ := holds
    exact (Db.Footed.work footed serving (sane _ rfl) ran).1
  | crash => exact footed.2.2
  | crashIn ran found =>
    obtain ⟨dups, new, rest, serving⟩ := holds
    exact (Db.Footed.work footed serving (sane.2 _ rfl) ran).2 _ (mem_of_getElem? found)
  | reopen opened =>
    obtain ⟨dups, new, rest, recovers, -, -⟩ := holds
    obtain ⟨m, -, -, opened', -⟩ := recovers.opens _
    obtain rfl := Except.ok.inj (opened.symm.trans opened')
    exact footed_reopened footed

/-- What crashes left of a database can be opened and shipped. -/
theorem ships_crashed {past : List Life} {events : List Unit} {dir : Dir}
    (run : Run.Reach step (fun s a => s.Sane K true a ∧ s.spared a = true) start s past events)
    (left : s.host = .down dir) : s.Ships K := by
  obtain ⟨footed, holds⟩ : s.Footed ∧ s.Holds K true := by
    refine ⟨?_, holds_run run⟩
    refine run.invariant (P := fun s _ _ => s.Footed) (by simp [Footed, start, Dir.empty]) ?_
    intro s a s' _ _ _ before meets moved footed
    exact footed.step (holds_run before) meets.1 moved
  unfold Ships
  unfold Footed at footed
  unfold Holds at holds
  rw [left] at footed holds ⊢
  intro opts db opened
  obtain ⟨dups, new, rest, recovers, book, files⟩ := holds
  obtain ⟨m, -, -, opened', -⟩ := recovers.opens opts
  obtain ⟨db', again, serving, -, clock⟩ := recovers.serving book files opts
  obtain rfl := Except.ok.inj (opened.symm.trans again)
  obtain rfl := Except.ok.inj (opened.symm.trans opened')
  have index := (show (Db.reopened dir opts (dups ++ new) rest m).Footed from footed_reopened footed).1
  have past := serving.past
  have range := serving.range
  rw [← serving.versions] at past
  rw [clock] at past range
  exact ⟨serving.layered serving.within, fun v stored => Nat.le_of_lt_succ (past v stored), rfl, rfl, by omega,
    serving.range, by omega⟩

end Life

theorem Db.livePair_iff {s : Nat} (past : ∀ v ∈ db.versions, v.ts ≤ s) (k : Key) (v : Value) :
    Shows db.versions k s (some v) ↔ db.LivePair k v := by
  constructor
  · rintro (⟨⟨key, ts, load⟩, visible, rfl⟩ | ⟨impossible, -⟩)
    · obtain rfl : key = k := visible.key
      exact ⟨ts, (visible_iff_newest fun v stored _ => past v stored).mp visible⟩
    · cases impossible
  · rintro ⟨ts, newest⟩
    exact .inl ⟨_, (visible_iff_newest fun v stored _ => past v stored).mpr newest, rfl⟩

theorem Db.Layered.scan_live {H : Set (Version Key Value)} {floor s : Nat}
    (layered : db.Layered K H floor) (running : db.closed = false) (free : Free K)
    (past : ∀ v ∈ db.versions, v.ts ≤ s) : ∃ kvs, db.scan none none s = .ok kvs ∧
    (kvs.map Prod.fst).Pairwise (· < ·) ∧ ∀ k v, (k, v) ∈ kvs ↔ db.LivePair k v := by
  have right : Scan.Right (db.scan none none s) db.versions none none s :=
    layered.scan_versions running free (by simp) none s
  obtain ⟨kvs, scanned, ascending, members⟩ := right
  refine ⟨kvs, scanned, ascending, fun k v => ?_⟩
  rw [members, livePair_iff past]
  simp [InRange]

theorem eq_of_ascending {kvs kvs' : List (Key × Value)} (order : (kvs.map Prod.fst).Pairwise (· < ·))
    (order' : (kvs'.map Prod.fst).Pairwise (· < ·)) (same : ∀ kv, kv ∈ kvs ↔ kv ∈ kvs') : kvs = kvs' := by
  have sorted := pairwise_map.mp order
  have sorted' := pairwise_map.mp order'
  have single := sorted.imp fun less equal => less.ne (congrArg Prod.fst equal)
  have single' := sorted'.imp fun less equal => less.ne (congrArg Prod.fst equal)
  refine ((perm_ext_iff_of_nodup single single').mpr same).eq_of_pairwise ?_ sorted sorted'
  exact fun kv kv' _ _ first second => absurd first (lt_asymm second)

section Built

variable {kvs : List (Key × Value)} {sessions : Sessions} {index ts : Nat} {dir : Dir}

theorem ascending_snapshotItems (fits : ts < 2 ^ 64) (free : Free K) (keys : ∀ kv ∈ kvs, kv.1 ∈ K)
    (order : (kvs.map Prod.fst).Pairwise (· < ·)) : Ascending (snapshotItems kvs ts) := by
  have keeps : KeepsOrder K none := keepsOrder_of_free free (by simp)
  rw [Ascending, snapshotItems, map_map]
  refine pairwise_map.mpr ((pairwise_map.mp order).imp_of_mem fun {kv kv'} listed listed' less => ?_)
  exact keeps.inside _ (keys kv listed) _ (keys kv' listed') (by simp) less _ _ fits fits

theorem layered_built {opts : Options} (built : buildSnapshotDB kvs sessions index ts = .ok dir)
    (opened : openWith dir opts = .ok db) (fits : ts < 2 ^ 64) (within : ∀ v ∈ db.versions, v.key ∈ K) :
    db.Layered K db.versions 0 ∧ db.closed = false := by
  rcases buildSnapshotDB_cases built with ⟨rfl, rfl⟩ | ⟨t, written, rfl⟩
  · cases opened
    exact ⟨⟨rfl, open_new, nofun, .nil, nofun, (layered_fresh opts K).self.functional, within, .refl _ _,
      fun _ _ => .refl _ _⟩, rfl⟩
  · cases opened
    obtain ⟨t', again, valid, -⟩ := write_ok kvs.length index (write_ascending written) (data_snapshotItems fits)
    obtain rfl := Except.ok.inj (written.symm.trans again)
    have only : ∀ t' ∈ [t], t'.Valid := by simpa using valid
    refine ⟨⟨rfl, open_new, only, pairwise_singleton _ _, fun _ _ u upper => ?_, ?_, within,
      .refl _ _, fun _ _ => .refl _ _⟩, rfl⟩
    · exact (versions_new ▸ upper : u ∈ (∅ : Set (Version Key Value))).elim
    · change Functional (Memtable.new.versions ∪ tableVersions [t])
      rw [versions_new, tableVersions_cons, tableVersions_nil, Set.empty_union, Set.union_empty]
      exact valid.layer.functional

end Built

/--
A snapshot makes the round trip.

After any commits with increasing timestamps, on a directory that any run with crashes left, it can be built into an
empty directory, which opens with the same live pairs, sessions and index.
-/
theorem snapshot_round_trip {K : Set Key} (free : Free K) {s₀ s : Life} {past₀ past : List Life}
    {events₀ events : List Unit} {dir₀ : Dir} {db : Db}
    (before : Run.Reach Life.step (fun s a => s.Sane K true a ∧ s.spared a = true) Life.start s₀ past₀ events₀)
    (left : s₀.host = .down dir₀) (run : Run.Reach Life.step (fun s a => s.Rises K a) s₀ s past events)
    (up : s.host = .up db) :
    ∃ kvs dir, db.snapshotScan = .ok (kvs, db.appliedIndex, db.appliedTS) ∧
      (∀ k v, (k, v) ∈ kvs ↔ db.LivePair k v) ∧
      buildSnapshotDB kvs db.sessionTable db.appliedIndex db.appliedTS = .ok dir ∧
      ∀ opts, ∃ db', openWith dir opts = .ok db' ∧ (∀ k v, db'.LivePair k v ↔ db.LivePair k v) ∧
        db'.scan none none db.appliedTS = .ok kvs ∧ db'.sessionTable = db.sessionTable ∧
        db'.recoveredApplied = db.appliedIndex := by
  have shippable : db.Shippable K := by
    have ships := run.invariant (P := fun s _ _ => s.Ships K) (ships_crashed before left)
      fun _ _ _ _ _ _ _ rises moved ships => ships.step rises moved
    rwa [Life.Ships, up] at ships
  have layered := shippable.layered
  obtain ⟨kvs, scanned, ascending, live⟩ := layered.scan_live shippable.running free shippable.past
  have keys : ∀ kv ∈ kvs, kv.1 ∈ K := by
    intro kv listed
    obtain ⟨ts, newest⟩ := (live kv.1 kv.2).mp listed
    exact layered.within _ newest.stored
  obtain ⟨dir, built⟩ : ∃ dir, buildSnapshotDB kvs db.sessionTable db.appliedIndex db.appliedTS = .ok dir := by
    unfold buildSnapshotDB
    split_ifs
    · exact ⟨_, rfl⟩
    · obtain ⟨t, written, -⟩ := write_ok kvs.length db.appliedIndex
        (ascending_snapshotItems shippable.stamp free keys ascending) (data_snapshotItems shippable.stamp)
      rw [written]
      exact ⟨_, rfl⟩
  refine ⟨kvs, dir, by rw [Db.snapshotScan, scanned]; rfl, live, built, fun opts => ?_⟩
  obtain ⟨db', opened, -, made⟩ := openWith_built built shippable.index shippable.stamp opts
  have same : ∀ k v, db'.LivePair k v ↔ db.LivePair k v := fun k v => (made.livePair_iff k v).trans (live k v)
  refine ⟨db', opened, same, ?_, made.sessions, made.recovered⟩
  -- The same pairs in ascending order are the same list.
  obtain ⟨layered', running'⟩ := layered_built (K := K) built opened shippable.stamp fun v stored => by
    obtain ⟨kv, listed, rfl⟩ := (made.versions v).mp stored
    exact keys kv listed
  obtain ⟨kvs', scanned', ascending', live'⟩ := layered'.scan_live running' free fun v stored => by
    obtain ⟨kv, -, rfl⟩ := (made.versions v).mp stored
    exact le_rfl
  rw [scanned', eq_of_ascending ascending' ascending fun kv => by rw [live', same, live]]

/-- The condition on runs that apply entries with keys of one byte. -/
def Life.risesCheck (s : Life) : Act → Bool
  | .work (.apply entry) =>
    match s.host, parseEntry entry with
    | .up db, .ok (data, marker) => data.all (fun r => r.key.length = 1) &&
        decide (data.Pairwise fun r r' => r.key ≠ r'.key) &&
        decide (db.appliedTS < marker.timestamp ∧ db.appliedIndex + 1 < 2 ^ 64)
    | _, _ => false
  | .work .flush | .reopen _ => true
  | _ => false

theorem Life.rises_of_check (passed : s.risesCheck a = true) : s.Rises Engine.oneByte a := by
  unfold risesCheck at passed
  split at passed
  · next entry =>
    intro db up data marker parsed
    rw [up, parsed] at passed
    simp only [Bool.and_eq_true, decide_eq_true_eq, all_eq_true] at passed
    exact ⟨passed.1.1, passed.1.2, passed.2⟩
  · exact fun _ _ => trivial
  · trivial
  · cases passed

/-- Three entries: two keys, an overwrite and a key, a delete in a session. -/
def threeCommits : List Life.Act :=
  [.reopen ⟨1000, 4⟩,
    .work (.apply (Framing.log encode [⟨.put, 10, [97], [1]⟩, ⟨.put, 10, [98], [1]⟩, commitMarker 10])), .work .flush,
    .work (.apply (Framing.log encode [⟨.put, 11, [97], [2]⟩, ⟨.put, 11, [99], [1]⟩, commitMarker 11])),
    .work (.apply (Framing.log encode [⟨.delete, 12, [98], []⟩, ⟨.commit, 12, [115], encodeSeq 7⟩]))]

/-- After a crash, three commits and a flush, the live pairs make the trip. -/
theorem snapshot_round_trip_three : ∃ s₀ past₀ events₀ s past events db dir db',
    Run.Reach Life.step (fun s a => s.Sane Engine.oneByte true a ∧ s.spared a = true) Life.start s₀ past₀ events₀ ∧
    Run.Reach Life.step (fun s a => s.Rises Engine.oneByte a) s₀ s past events ∧ s.host = .up db ∧
    db.snapshotScan = .ok ([([97], [2]), ([99], [1])], 4, 12) ∧
    buildSnapshotDB [([97], [2]), ([99], [1])] db.sessionTable 4 12 = .ok dir ∧ openWith dir ⟨0, 0⟩ = .ok db' ∧
    db'.LivePair [97] [2] ∧ db'.sessionTable [115] = 7 ∧ db'.recoveredApplied = 4 := by
  obtain ⟨s₀, past₀, events₀, first, passed₀⟩ := Run.exec_exists Life.step
    (fun s a => Life.saneCheck s a && s.spared a) Life.start
    [.reopen ⟨0, 0⟩, .work (.commit (Life.putting 0 [[98]] [5])), .crash 100]
    (fun r => r.1.reopens ⟨0, 0⟩ (fun _ => true) &&
      (Run.exec Life.step Life.risesCheck r.1 [] [] threeCommits).any fun r => match r.1.host with
        | .up db => decide (db.snapshotScan = .ok ([([97], [2]), ([99], [1])], 4, 12) ∧ db.sessionTable [115] = 7)
        | .down _ => false) (by decide +kernel)
  rw [Bool.and_eq_true] at passed₀
  obtain ⟨dir₀, left, -⟩ := exists_of_reopens passed₀.1
  obtain ⟨s, past, events, run, passed⟩ := Run.exec_exists _ _ _ _ _ passed₀.2
  have before := first.weaken fun _ _ => meets_of_checks
  have rises := run.weaken fun _ _ => rises_of_check
  cases up : s.host with
  | down dir => simp [up] at passed
  | up db =>
    simp only [up, decide_eq_true_eq] at passed
    obtain ⟨scanned, session⟩ := passed
    obtain ⟨kvs, dir, scanned', live, built, opens⟩ := snapshot_round_trip Engine.free_oneByte before left rises up
    obtain ⟨rfl, index, ts⟩ : kvs = [([97], [2]), ([99], [1])] ∧ db.appliedIndex = 4 ∧ db.appliedTS = 12 := by
      simpa using scanned'.symm.trans scanned
    rw [index, ts] at built
    obtain ⟨db', opened, same, -, sessions, recovered⟩ := opens ⟨0, 0⟩
    exact ⟨s₀, past₀, events₀, s, past, events, db, dir, db', before, rises, up, scanned, built, opened, (same _ _).mpr ((live _ _).mp (by simp)),
      (congrFun sessions _).trans session, recovered.trans index⟩

end Store
