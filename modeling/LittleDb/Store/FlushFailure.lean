import Mathlib.Algebra.Ring.Int.Defs
import LittleDb.Store.Recovery

/-! Flushes that fail at any of their file operations, and what the database still holds afterwards. -/

namespace Store

open Versioned Logbook List Option Bool Db Layer Memtable Set

inductive FlushFault where
  | newWriter
  /-- A version cannot be added to the table, which is abandoned. -/
  | add
  /-- The table cannot be finished, and does not get its name. -/
  | finish
  | finishSync
  | openReader
  /-- The log cannot be closed cleanly; it counts as closed all the same. -/
  | walClose
  | walRemove
  | walOpen
  /-- The applied index cannot be stored, before or after its rename. -/
  | appliedBase (renamed : Bool)
  /-- The session table cannot be stored, before or after its rename. -/
  | sessions (renamed : Bool)
  deriving DecidableEq

/-- The accounted size of the entry that a record writes. -/
def Record.weight (r : Record) : Int :=
  match r.op with
  | .put => Memtable.entrySize (encodeKey r.key r.timestamp) r.value
  | .delete => Memtable.entrySize (encodeKey r.key r.timestamp) []
  | .commit => 0

namespace Memtable

variable {m m' : Memtable}

theorem entrySize_nonneg (enc : List UInt8) (value : Value) : 0 ≤ entrySize enc value := by
  simp only [entrySize, entryOverhead]
  omega

theorem writeLocked_size (m : Memtable) (userKey : Key) (value : Value) (op : Op) (ts : Nat) :
    (m.writeLocked userKey value op ts).size ≤ m.size + entrySize (encodeKey userKey ts) value := by
  unfold writeLocked
  dsimp only
  split
  · -- The version that is replaced no longer counts.
    exact Int.add_le_add_right (Int.sub_le_self _ (entrySize_nonneg _ _)) _
  · exact le_refl _

theorem apply_size {r : Record} (done : m.apply r = some m') : m'.size ≤ m.size + r.weight := by
  obtain ⟨op, ts, key, value⟩ := r
  cases op with
  | put =>
    obtain ⟨-, same⟩ := ite_none_left_eq_some.mp done
    cases same
    exact m.writeLocked_size key value .put ts
  | delete =>
    obtain ⟨-, same⟩ := ite_none_left_eq_some.mp done
    cases same
    exact m.writeLocked_size key [] .delete ts
  | commit =>
    cases done
    exact (Int.add_zero _).ge

theorem foldlM_apply_size {records : List Record} (done : records.foldlM apply m = some m') :
    m'.size ≤ m.size + (records.map Record.weight).sum := by
  induction records generalizing m with
  | nil =>
    cases done
    simp
  | cons r rest ih =>
    obtain ⟨next, first, later⟩ := bind_eq_some_iff.mp (foldlM_cons.symm.trans done)
    have := apply_size first
    have := ih later
    rw [map_cons, sum_cons]
    omega

end Memtable

namespace Db

/-- A flush that fails: its state, and whether the log can still be written. -/
def failFlush (db : Db) (fault : FlushFault) : Option (Db × Bool) :=
  let swapped :=
    { db with
      memtable := Memtable.new
      frozen := some db.memtable.freeze
      retired := db.retired ++ db.frozen.toList }
  match db.flushLocked with
  | .ok (done, [finished, removed, based, _]) =>
    match fault with
    | .newWriter | .add | .finish => some (swapped, true)
    | .finishSync | .openReader => some ({ swapped with dir := finished }, true)
    | .walClose | .walRemove => some ({ swapped with dir := finished }, false)
    | .walOpen => some ({ swapped with dir := removed }, false)
    | .appliedBase renamed => some ({ done with dir := if renamed then based else removed }, true)
    | .sessions renamed => some ({ done with dir := if renamed then done.dir else based }, true)
  | _ => none

def failCommit (db : Db) (t : Txn) (fault : FlushFault) : Option (Db × Bool) :=
  (db.commitLogged t).bind fun logged =>
    if logged.opts.memtableSizeMax ≤ logged.memtable.size then logged.failFlush fault else none

/-- A commit that finds the log closed: it has taken its timestamp. -/
def commitRefused (db : Db) (t : Txn) : Db :=
  if t.finished || db.closed || t.writes.isEmpty || db.conflicts t then db
  else { db with nextTimestamp := succ64 db.nextTimestamp }

/-- What the writes of a transaction add to the accounted size of the buffer. -/
def weight (db : Db) (t : Txn) : Int :=
  ((dataRecords t.writes db.nextTimestamp).map Record.weight).sum

def batchesOf (db : Db) (t : Txn) : List Batch :=
  if t.writes.isEmpty then []
  else [⟨dataRecords t.writes db.nextTimestamp, commitMarker db.nextTimestamp⟩]

end Db

/-- A database whose flushes may fail, and what was committed to it. -/
structure Shaky where
  db : Db
  logging : Bool
  committed : List Batch

namespace Shaky

inductive Act where
  /-- A transaction commits, and the flush behind it may fail. -/
  | commit (t : Txn) (fault : Option FlushFault)
  | flush (fault : Option FlushFault)
  | reopen (opts : Options)

def start (opts : Options) : Shaky := ⟨.reopened .empty opts [] [] Memtable.new, true, []⟩

def step (s : Shaky) : Act → Option (Shaky × List Unit)
  | .commit t none =>
    if s.logging then
      match s.db.commit t with
      | .error _ => none
      | .ok (done, _) => some (⟨done, true, s.committed ++ s.db.batchesOf t⟩, [])
    else some ({ s with db := s.db.commitRefused t }, [])
  | .commit t (some fault) =>
    if s.logging then
      (s.db.failCommit t fault).map fun (left, logging) =>
        (⟨left, logging, s.committed ++ s.db.batchesOf t⟩, [])
    else none
  | .flush none =>
    match s.db.flushLocked with
    | .error _ => none
    | .ok (done, _) => some ({ s with db := done }, [])
  | .flush (some fault) =>
    (s.db.failFlush fault).map fun (left, logging) => ({ s with db := left, logging := logging }, [])
  | .reopen opts =>
    match openWith s.db.dir opts with
    | .error _ => none
    | .ok db => some (⟨db, true, s.committed⟩, [])

end Shaky

namespace Db

variable {K : Set Key} {db db' done : Db} {t : Txn} {dirs : List Dir}

def frozenVersions (db : Db) : Set (Version Key Value) := db.frozen.elim ∅ Memtable.versions

def held (db : Db) : Set (Version Key Value) :=
  db.memtable.versions ∪ (db.frozenVersions ∪ tableVersions db.tables)

/-- Layers over one another, with the buffer of a failed flush between them. -/
structure Piled (db : Db) : Prop where
  ready : db.memtable.Open
  frozen : ∀ m ∈ db.frozen, m.sl.Valid
  tables : ∀ t ∈ db.tables, t.Valid
  stacked : Stacked db.tables
  below : Over db.frozenVersions (tableVersions db.tables)
  atop : Over db.memtable.versions (db.frozenVersions ∪ tableVersions db.tables)

theorem Piled.read {k : Key} {s : Nat} {r : Option Value} (piled : db.Piled) (within : ∀ v ∈ db.held, v.key ∈ K)
    (free : Free K) (fits : s < 2 ^ 64) (shows : Shows db.held k s r) :
    getAsOfSnapshot k s db.memtable db.frozen db.tables = answerOf r := by
  have own : db.memtable.sl.Within K := fun v stored => within v (.inl stored)
  have shelf : TablesWithin db.tables K := fun v stored => within v (.inr (.inr stored))
  rw [held, shows_union piled.atop] at shows
  unfold getAsOfSnapshot Memtable.getAsOf
  -- The first of buffer, frozen buffer and tables that holds the key decides.
  rcases shows with ⟨v, visible, rfl⟩ | ⟨miss, shows⟩
  · rw [getAsOf_visible piled.ready.valid own free fits visible]
    simp
  rw [getAsOf_none piled.ready.valid fits miss]
  rw [shows_union piled.below] at shows
  cases stuck : db.frozen with
  | none =>
    have nothing : db.frozenVersions = ∅ := by rw [frozenVersions, stuck]; rfl
    rw [nothing] at shows
    rcases shows with ⟨v, visible, _⟩ | ⟨_, shows⟩
    · exact visible.stored.elim
    · exact findSome_tables piled.tables piled.stacked shelf free fits shows
  | some m =>
    have its : db.frozenVersions = m.sl.versions := by rw [frozenVersions, stuck]; rfl
    have valid := piled.frozen m stuck
    rw [its] at shows
    rcases shows with ⟨v, visible, rfl⟩ | ⟨miss', shows⟩
    · have part : m.sl.Within K := fun v stored => within v (.inr (.inl (its ▸ stored)))
      simp only [bind_some, getAsOf_visible valid part free fits visible]
      simp
    · simp only [bind_some, getAsOf_none valid fits miss']
      exact findSome_tables piled.tables piled.stacked shelf free fits shows

/-- Reads return what some versions show, at each time and for each key. -/
structure Reads (db : Db) (H : Set (Version Key Value)) : Prop where
  newest : ∀ v ∈ H, (∀ w ∈ H, w.key = v.key → w.ts ≤ v.ts) → db.get v.key = answerOf v.payload
  absent : ∀ k, (∀ v ∈ H, v.key ≠ k) → db.get k = .error .keyNotFound
  asOf : ∀ k s r, s < 2 ^ 64 → Shows H k s r → db.getAsOf k s = answerOf r

theorem Piled.reads (piled : db.Piled) (within : ∀ v ∈ db.held, v.key ∈ K) (free : Free K)
    (running : db.closed = false) (past : ∀ v ∈ db.held, v.ts < db.nextTimestamp)
    (range : db.nextTimestamp < 2 ^ 64) : db.Reads db.held := by
  have get : ∀ k r, Shows db.held k db.nextTimestamp r → db.get k = answerOf r := by
    intro k r shows
    rw [Db.get, running]
    exact piled.read within free range shows
  refine ⟨fun v stored newest => get _ _ (.inl ⟨v, ⟨stored, rfl, (past v stored).le,
    fun w inside key _ => newest w inside key⟩, rfl⟩), fun k other => get k none (.inr ⟨rfl, ?_⟩),
    fun k s r fits shows => ?_⟩
  · exact fun w stored own => absurd own (other w stored)
  · rw [getAsOf, running]
    exact piled.read within free fits shows

theorem commitLogged_size (ran : db.commitLogged t = some db')
    (small : db.memtable.size + db.weight t < db.opts.memtableSizeMax) :
    db'.memtable.size < db'.opts.memtableSizeMax := by
  obtain ⟨-, logs, -⟩ := commitLogged_cases ran
  rw [logs.opts]
  exact lt_of_le_of_lt (foldlM_apply_size logs.memtable) small

end Db

variable {K : Set Key} {db db' g : Db} {l : Ledger} {dups new : List Batch}

variable {compacts : Bool} {rest : List Record} {dir : Dir}

section

variable (serving : Serving K compacts db l dups new rest)

include serving

theorem Serving.piled : db.Piled ∧ db.held = db.versions := by
  have nothing : db.frozenVersions = ∅ := by rw [Db.frozenVersions, serving.frozen]; rfl
  have layered := serving.layered serving.within
  refine ⟨⟨serving.ready, by simp [serving.frozen], layered.tables, layered.stacked, ?_, ?_⟩, ?_⟩
  · simp [nothing, Over]
  · rw [nothing, empty_union]
    exact over_tables layered.atop
  · rw [Db.held, nothing, empty_union]
    rfl

theorem Serving.otherFiles (wal : dir.wal = db.dir.wal)
    (tables : dir.tables = db.dir.tables) : Serving K compacts { db with dir := dir } l dups new rest :=
  ⟨wal ▸ serving.walled, serving.book, tables ▸ serving.files, serving.ids, serving.ready,
    serving.buffer, serving.ahead, serving.later, serving.started, serving.range, serving.frozen,
    serving.running, serving.trigger⟩

theorem Serving.tick (room : db.nextTimestamp + 1 < 2 ^ 64) :
    Serving K compacts { db with nextTimestamp := db.nextTimestamp + 1 } l dups new rest :=
  ⟨serving.walled, serving.book, serving.files, serving.ids, serving.ready, serving.buffer,
    fun r listed => (serving.ahead r listed).trans (Nat.lt_succ_self _),
    fun e found => (serving.later e found).trans (Nat.lt_succ_self _), Nat.succ_pos _, room,
    serving.frozen, serving.running, serving.trigger⟩

end

/-- A database and one serving its disk; they differ after a failed flush. -/
structure Backs (K : Set Key) (g db : Db) (l : Ledger) (dups new : List Batch) : Prop where
  serving : Serving K false g l dups new []
  wal : g.dir.wal = db.dir.wal
  tables : g.dir.tables = db.dir.tables
  clock : g.nextTimestamp = db.nextTimestamp
  running : db.closed = false
  piled : db.Piled
  holds : db.held = g.versions
  healthy : db.frozen = none → g = db

namespace Backs

theorem refl (serving : Serving K false db l dups new []) : Backs K db db l dups new :=
  ⟨serving, rfl, rfl, rfl, serving.running, serving.piled.1, serving.piled.2, fun _ => rfl⟩

variable (backs : Backs K g db l dups new)

include backs

theorem held_eq : db.held = recordVersions (batchData l.batches) := by
  rw [backs.holds, backs.serving.versions, backs.serving.book.exact rfl, backs.serving.book.batches]

theorem past : ∀ v ∈ db.held, v.ts < db.nextTimestamp := by
  rw [backs.holds, backs.serving.versions, ← backs.clock]
  exact backs.serving.past

theorem reads (free : Free K) : db.Reads (recordVersions (batchData l.batches)) := by
  rw [← backs.held_eq]
  refine backs.piled.reads ?_ free backs.running backs.past (backs.clock ▸ backs.serving.range)
  rw [backs.holds]
  exact backs.serving.within

theorem opens (opts : Options) : ∃ db', openWith db.dir opts = .ok db' ∧ Serving K false db' l dups new [] := by
  have same : db.dir.tables.reverse = g.sstables := by
    rw [← backs.tables, backs.serving.files.mirrored, reverse_reverse]
  have recovers := backs.serving.walled.recovers
  have book := backs.serving.book
  have files := backs.serving.files
  rw [backs.wal] at recovers
  rw [← same] at book files
  rw [backs.tables] at files
  obtain ⟨db', opened, serving, _⟩ := recovers.serving book files opts
  exact ⟨db', opened, serving⟩

theorem refused {t : Txn} (stuck : db.frozen ≠ none)
    (room : db.nextTimestamp + 1 < 2 ^ 64) : ∃ g', Backs K g' (db.commitRefused t) l dups new := by
  unfold Db.commitRefused
  split_ifs
  · exact ⟨g, backs⟩
  · refine ⟨{ g with nextTimestamp := g.nextTimestamp + 1 },
      backs.serving.tick (backs.clock ▸ room), backs.wal, backs.tables, ?_, backs.running,
      ⟨backs.piled.ready, backs.piled.frozen, backs.piled.tables, backs.piled.stacked,
        backs.piled.below, backs.piled.atop⟩, backs.holds, fun none => absurd none stuck⟩
    rw [succ64, Nat.mod_eq_of_lt room, ← backs.clock]

theorem logged {b : Batch} (logs : Db.Logged db db' b) (valid : b.Valid) (keys : ∀ r ∈ b.data, r.key ∈ K)
    (single : b.data.Pairwise fun r r' => r.key ≠ r'.key) (stamp : b.marker.timestamp = db.nextTimestamp)
    (clock : db'.nextTimestamp = db.nextTimestamp + 1) (room : db.nextTimestamp + 1 < 2 ^ 64) :
    ∃ g', Backs K g' db' (l.write b db'.dir.wal.length) dups (new ++ [b]) := by
  cases stuck : db.frozen with
  | none =>
    obtain rfl := backs.healthy stuck
    exact ⟨db', .refl (backs.serving.logged logs valid keys single stamp clock room
      (by rw [Db.trigger, logs.opts]; rfl))⟩
  | some f =>
    have fits : ∀ r ∈ b.data, r.timestamp < 2 ^ 64 :=
      fun r own => (valid.fits r (by simp [Batch.records, own])).timestamp
    -- The batch goes to the buffer of the other one as well.
    obtain ⟨m, folded, _⟩ := backs.serving.ready.applyAll valid.data fits
    let g' : Db :=
      { g with
        dir := { g.dir with wal := g.dir.wal ++ Framing.log encode b.records }
        memtable := m
        nextTimestamp := db'.nextTimestamp
        sessions := noteSession g.sessions b.marker }
    have logs' : Db.Logged g g' b := ⟨rfl, folded, rfl, rfl, rfl, rfl, rfl, rfl⟩
    have wal : g'.dir.wal = db'.dir.wal := by
      rw [logs.dir, ← backs.wal]
    have serving := backs.serving.logged logs' valid keys single (backs.clock ▸ stamp)
      (backs.clock ▸ clock) (backs.clock ▸ room) rfl
    rw [wal] at serving
    have newer : ∀ u ∈ recordVersions b.data, ∀ v ∈ db.held, v.ts < u.ts := by
      rintro u ⟨r, listed, rfl⟩ v stored
      have below := backs.past v stored
      rw [← stamp, ← valid.stamped r listed] at below
      exact below
    have apart : Functional (recordVersions b.data) :=
      Chained.functional (single.imp fun other same => absurd same other)
    have ownVersions : db'.memtable.versions = recordVersions b.data ∪ db.memtable.versions := by
      refine backs.piled.ready.versions_applyAll valid.data fits ?_ logs.memtable
      refine (over_of_lt fun u upper v stored => newer u upper v (.inl stored)).functional apart ?_
      intro v stored w inside
      refine backs.serving.book.functional v ?_ w ?_
      all_goals
        rw [← backs.serving.versions, ← backs.holds]
        exact .inl ‹_›
    have otherVersions : m.versions = recordVersions b.data ∪ g.memtable.versions := by
      refine backs.serving.ready.versions_applyAll valid.data fits ?_ folded
      refine (over_of_lt fun u upper v stored => newer u upper v ?_).functional apart ?_
      · rw [backs.holds]
        exact .inl stored
      · intro v stored w inside
        refine backs.serving.book.functional v ?_ w ?_
        all_goals
          rw [← backs.serving.versions]
          exact .inl ‹_›
    obtain ⟨_, applied, ready⟩ := backs.piled.ready.applyAll valid.data fits
    obtain rfl := Option.some.inj (applied.symm.trans logs.memtable)
    have frozen : db'.frozenVersions = db.frozenVersions := by
      rw [Db.frozenVersions, logs.frozen]; rfl
    have tables : db'.tables = db.tables := by rw [Db.tables, logs.sstables]; rfl
    refine ⟨g', serving, wal, ?_, rfl, logs.closed.trans backs.running, ⟨ready, ?_, ?_, ?_, ?_, ?_⟩,
      ?_, fun none => ?_⟩
    · rw [logs.dir]
      exact backs.tables
    · rw [logs.frozen]
      exact backs.piled.frozen
    · exact tables ▸ backs.piled.tables
    · exact tables ▸ backs.piled.stacked
    · rw [frozen, tables]
      exact backs.piled.below
    · rw [frozen, tables, ownVersions]
      rintro u (young | old) v stored key order
      · exact absurd order (not_le.mpr (newer u young v (.inr stored)))
      · exact .inr (backs.piled.atop u old v stored key order)
    · rw [Db.held, frozen, tables, ownVersions, union_assoc]
      change recordVersions b.data ∪ db.held = m.versions ∪ tableVersions g.tables
      rw [otherVersions, backs.holds, union_assoc]
      rfl
    · rw [logs.frozen, stuck] at none
      cases none

end Backs

theorem Db.Piled.swapped {retired : List Memtable} (piled : db.Piled) (frozen : db.frozen = none) : Db.Piled
      { db with
        dir := dir
        memtable := Memtable.new
        frozen := some db.memtable.freeze
        retired := retired } := by
  have nothing : db.frozenVersions = ∅ := by rw [Db.frozenVersions, frozen]; rfl
  have atop := piled.atop
  rw [nothing, empty_union] at atop
  refine ⟨open_new, ?_, piled.tables, piled.stacked, atop, ?_⟩
  · rintro m ⟨⟩
    exact piled.ready.valid
  · intro u upper
    change u ∈ Memtable.new.versions at upper
    rw [versions_new] at upper
    exact upper.elim

theorem Backs.failFlush {fault : FlushFault} {logging : Bool} (serving : Serving K false db l dups new [])
    (low : db.nextID < 10 ^ 6) (ran : db.failFlush fault = some (db', logging)) :
    (∃ g l' dups' new', Backs K g db' l' dups' new' ∧ l'.batches = l.batches) ∧
    (db'.frozen = none → logging = true) := by
  obtain ⟨piled, same⟩ := serving.piled
  rcases flushLocked_ok serving.ready with ⟨_, idle⟩ | ⟨t, table, made⟩
  · simp only [Db.failFlush, idle] at ran
    cases ran
  -- The buffer put aside holds what the active one held.
  have aside : ∀ (dir : Dir) (g : Db) (l' : Ledger) (dups' new' : List Batch),
      Serving K false g l' dups' new' [] → l'.batches = l.batches →
      g.dir.wal = dir.wal → g.dir.tables = dir.tables → g.nextTimestamp = db.nextTimestamp →
      g.versions = db.versions →
      (∃ g l' dups' new', Backs K g
        { db with
          dir := dir
          memtable := Memtable.new
          frozen := some db.memtable.freeze
          retired := db.retired ++ db.frozen.toList } l' dups' new' ∧ l'.batches = l.batches) := by
    intro dir g l' dups' new' backed batches wal tables clock versions
    refine ⟨g, l', dups', new', ⟨backed, wal, tables, clock, serving.running,
      piled.swapped serving.frozen, ?_, fun none => by cases none⟩, batches⟩
    rw [versions]
    change Memtable.new.versions ∪ (db.memtable.versions ∪ tableVersions db.tables) = _
    rw [versions_new, empty_union]
    rfl
  have twice := serving.heldTwice low table
  have once := serving.flushed low table
  have shelf : t.versions ∪ tableVersions db.tables = db.versions := by
    rw [table.versions]
    rfl
  simp only [Db.failFlush, made, Db.flushDirs] at ran
  cases fault with
  | newWriter | add | finish =>
    cases ran
    exact ⟨aside db.dir db l dups new serving rfl rfl rfl rfl rfl, fun none => by cases none⟩
  | finishSync | openReader | walClose | walRemove =>
    cases ran
    refine ⟨aside _ _ _ _ _ twice (by simp) rfl rfl rfl ?_, fun none => by cases none⟩
    change db.memtable.versions ∪ tableVersions (t :: db.tables) = _
    rw [tableVersions_cons, shelf]
    exact union_eq_self_of_subset_left fun v stored => .inl stored
  | walOpen =>
    cases ran
    refine ⟨aside _ _ _ _ _ once (by simp) rfl rfl rfl ?_, fun none => by cases none⟩
    change Memtable.new.versions ∪ tableVersions (t :: db.tables) = _
    rw [tableVersions_cons, shelf, versions_new, empty_union]
  | appliedBase renamed | sessions renamed =>
    cases ran
    refine ⟨⟨_, _, _, _, .refl (once.otherFiles ?_ ?_), by simp⟩, fun _ => rfl⟩
    all_goals cases renamed <;> rfl

namespace Shaky

/-- No flush starts while a failed one's buffer is kept, and everything fits its format. -/
def Sound (K : Set Key) (s : Shaky) : Act → Prop
  | .commit t _ => t.writes.Sane K ∧ s.db.nextTimestamp + 1 < 2 ^ 64 ∧ s.db.nextID < 10 ^ 6 ∧
      (s.db.frozen = none ∨ s.db.memtable.size + s.db.weight t < s.db.opts.memtableSizeMax)
  | .flush _ => s.db.nextID < 10 ^ 6 ∧ (s.db.frozen = none ∨ s.db.memtable.len = 0)
  | .reopen _ => True

/-- Everything committed is held; the log is open unless a flush failed. -/
def Keeps (K : Set Key) (s : Shaky) : Prop :=
  (∃ g l dups new, Backs K g s.db l dups new ∧ l.batches = s.committed) ∧
    (s.db.frozen = none → s.logging = true)

variable {s s' : Shaky}

theorem Keeps.logged {t : Txn} (keeps : s.Keeps K) (sane : t.writes.Sane K)
    (room : s.db.nextTimestamp + 1 < 2 ^ 64) (ran : s.db.commitLogged t = some db') :
    (∃ g l dups new, Backs K g db' l dups new ∧ l.batches = s.committed ++ s.db.batchesOf t) ∧
      db'.frozen = s.db.frozen ∧ db'.nextID = s.db.nextID := by
  obtain ⟨⟨g, l, dups, new, backs, listed⟩, _⟩ := keeps
  obtain ⟨filled, logs, clock, -⟩ := commitLogged_cases ran
  have range : s.db.nextTimestamp < 2 ^ 64 := by omega
  rw [succ64, Nat.mod_eq_of_lt room] at clock
  obtain ⟨g', backs'⟩ := backs.logged logs (sane.valid range)
    (fun r own => by
      obtain ⟨e, found, rfl⟩ := mem_map.mp own
      exact sane.keys e found)
    (pairwise_map.mpr (sane.sorted.imp fun less same => less.ne same)) rfl clock room
  refine ⟨⟨g', _, dups, _, backs', ?_⟩, logs.frozen, logs.nextID⟩
  rw [Ledger.batches_write, listed, Db.batchesOf, if_neg (by simp [filled])]

/-- Each step keeps what was committed. -/
theorem Keeps.step {a : Act} {recorded : List Unit} (keeps : s.Keeps K) (sound : s.Sound K a)
    (moved : s.step a = some (s', recorded)) : s'.Keeps K := by
  obtain ⟨⟨g, l, dups, new, backs, listed⟩, open_⟩ := id keeps
  cases a with
  | commit t fault =>
    obtain ⟨sane, room, low, calm⟩ := sound
    cases fault with
    | none =>
      simp only [Shaky.step] at moved
      split_ifs at moved with logging
      · split at moved
        · cases moved
        · next done dirs committed =>
          cases moved
          rcases commit_cases committed with ⟨empty, rfl, -⟩ | ⟨db', flush, ran, flushed, -⟩
          · refine ⟨⟨g, l, dups, new, backs, ?_⟩, fun _ => rfl⟩
            simp [Db.batchesOf, empty, listed]
          · obtain ⟨⟨g', l', dups', new', backs', listed'⟩, frozen, id⟩ := keeps.logged sane room ran
            rcases calm with healthy | small
            · -- A healthy database may flush.
              obtain rfl := backs'.healthy (frozen.trans healthy)
              rcases flushIfFull_cases backs'.serving.ready flushed with _ | ⟨table, made⟩
              · exact ⟨⟨_, l', dups', new', backs', listed'⟩, fun _ => rfl⟩
              · exact ⟨⟨_, _, _, _, .refl (backs'.serving.flushed (id ▸ low) made),
                  by simpa using listed'⟩, fun _ => rfl⟩
            · -- Otherwise the buffer is not full.
              rw [Db.flushIfFull, if_neg (not_le.mpr (commitLogged_size ran small))] at flushed
              cases flushed
              exact ⟨⟨g', l', dups', new', backs', listed'⟩, fun _ => rfl⟩
      · cases moved
        have stuck : s.db.frozen ≠ none := fun healthy => logging (open_ healthy)
        obtain ⟨g', backs'⟩ := backs.refused (t := t) stuck room
        refine ⟨⟨g', l, dups, new, backs', listed⟩, fun healthy => absurd healthy ?_⟩
        change (s.db.commitRefused t).frozen ≠ none
        unfold Db.commitRefused
        split_ifs <;> exact stuck
    | some fault =>
      simp only [Shaky.step] at moved
      split_ifs at moved with logging
      obtain ⟨⟨left, logging'⟩, failed, same⟩ := map_eq_some_iff.mp moved
      cases same
      obtain ⟨db', ran, failed⟩ := bind_eq_some_iff.mp failed
      split_ifs at failed with full
      obtain ⟨⟨g', l', dups', new', backs', listed'⟩, frozen, id⟩ := keeps.logged sane room ran
      rcases calm with healthy | small
      · obtain rfl := backs'.healthy (frozen.trans healthy)
        obtain ⟨⟨g₂, l₂, dups₂, new₂, backs₂, listed₂⟩, open₂⟩ :=
          Backs.failFlush backs'.serving (id ▸ low) failed
        exact ⟨⟨g₂, l₂, dups₂, new₂, backs₂, listed₂.trans listed'⟩, open₂⟩
      · exact absurd full (not_le.mpr (commitLogged_size ran small))
  | flush fault =>
    obtain ⟨low, calm⟩ := sound
    have idle : s.db.memtable.len = 0 → s.db.flushLocked = .ok (s.db, []) := by
      intro empty
      rw [Db.flushLocked, if_pos empty]
    cases fault with
    | none =>
      simp only [Shaky.step] at moved
      split at moved
      · cases moved
      · next done dirs flushed =>
        cases moved
        rcases calm with healthy | empty
        · obtain rfl := backs.healthy healthy
          rcases flushLocked_cases backs.serving.ready flushed with _ | ⟨table, made⟩
          · exact ⟨⟨_, l, dups, new, backs, listed⟩, open_⟩
          · exact ⟨⟨_, _, _, _, .refl (backs.serving.flushed low made), by simpa using listed⟩, fun _ => open_ healthy⟩
        · rw [idle empty] at flushed
          cases flushed
          exact ⟨⟨g, l, dups, new, backs, listed⟩, open_⟩
    | some fault =>
      obtain ⟨⟨left, logging⟩, failed, same⟩ := map_eq_some_iff.mp moved
      cases same
      rcases calm with healthy | empty
      · obtain rfl := backs.healthy healthy
        obtain ⟨⟨g₂, l₂, dups₂, new₂, backs₂, listed₂⟩, open₂⟩ :=
          Backs.failFlush backs.serving low failed
        exact ⟨⟨g₂, l₂, dups₂, new₂, backs₂, listed₂.trans listed⟩, open₂⟩
      · simp only [Db.failFlush, idle empty] at failed
        cases failed
  | reopen opts =>
    obtain ⟨db', opened, serving⟩ := backs.opens opts
    simp only [Shaky.step, opened] at moved
    cases moved
    exact ⟨⟨db', l, dups, new, .refl serving, listed⟩, fun _ => rfl⟩

theorem keeps_start (opts : Options) : (start opts).Keeps K := by
  have recovers : Recovers Dir.empty.wal ([] ++ []) [] := Walled.empty.recovers
  obtain ⟨m, folded, _, opened, _⟩ := recovers.opens opts
  obtain ⟨db, opened', serving, _⟩ := recovers.serving (.empty K false) .empty opts
  obtain rfl : Memtable.new = m := Option.some.inj folded
  obtain rfl := Except.ok.inj (opened.symm.trans opened')
  exact ⟨⟨_, .empty, [], [], .refl serving, rfl⟩, fun _ => rfl⟩

/--
A failed flush loses nothing, unless another one starts while its buffer is kept.

Reads return all versions committed so far, and so they do once the directory is opened again.
-/
theorem failed_flush_keeps (K : Set Key) (free : Free K) (opts : Options) {s : Shaky}
    {past : List Shaky} {events : List Unit}
    (run : Run.Reach step (fun s a => s.Sound K a) (start opts) s past events) :
    s.db.Reads (recordVersions (batchData s.committed)) ∧
      ∀ opts', ∃ db, openWith s.db.dir opts' = .ok db ∧
        db.versions = recordVersions (batchData s.committed) ∧
        db.Reads (recordVersions (batchData s.committed)) := by
  have keeps : s.Keeps K := run.invariant (P := fun s _ _ => s.Keeps K) (keeps_start opts)
    fun _ _ _ _ _ _ _ sound moved keeps => keeps.step sound moved
  obtain ⟨⟨g, l, dups, new, backs, listed⟩, _⟩ := keeps
  rw [← listed]
  refine ⟨backs.reads free, fun opts' => ?_⟩
  obtain ⟨db, opened, serving⟩ := backs.opens opts'
  have itself := Backs.refl serving
  exact ⟨db, opened, itself.holds.symm.trans itself.held_eq, itself.reads free⟩

/-- The condition on a step with keys of one byte, as a check. -/
def soundCheck (s : Shaky) : Act → Bool
  | .commit t _ => decide (t.writes.Pairwise fun a b => a.1 < b.1) &&
      t.writes.all (fun e => e.1.length = 1 ∧ e.2.1 ≠ .commit ∧ e.2.2.length < 2 ^ 32) &&
      decide (s.db.nextTimestamp + 1 < 2 ^ 64) && decide (s.db.nextID < 10 ^ 6) &&
      (s.db.frozen.isNone || decide (s.db.memtable.size + s.db.weight t < s.db.opts.memtableSizeMax))
  | .flush _ => decide (s.db.nextID < 10 ^ 6) && (s.db.frozen.isNone || decide (s.db.memtable.len = 0))
  | .reopen _ => true

theorem sound_of_check {a : Act} (passed : soundCheck s a = true) : s.Sound Engine.oneByte a := by
  cases a with
  | commit t fault =>
    simp only [soundCheck, and_eq_true, decide_eq_true_eq, List.all_eq_true, or_eq_true,
      Option.isNone_iff_eq_none] at passed
    obtain ⟨⟨⟨⟨sorted, each⟩, room⟩, low⟩, calm⟩ := passed
    refine ⟨⟨sorted, fun e found => (each e found).1, fun e found => (each e found).2.1,
      fun e found => ⟨?_, (each e found).2.2⟩⟩, room, low, calm⟩
    rw [(each e found).1]
    decide
  | flush fault =>
    simpa [soundCheck, Sound] using passed
  | reopen opts => trivial

/-- A key is flushed in vain, and another one is committed behind it. -/
def flushedInVain (fault : FlushFault) : List Act :=
  [.commit (Life.putting 0 [[97]] [1]) none, .flush (some fault), .commit (Life.putting 1 [[98]] [2]) none]

/-- After such a run both keys are there, the first in the failed flush's buffer. -/
theorem failed_flush_keeps_behind : ∃ s past events,
    Run.Reach step (fun s a => s.Sound Engine.oneByte a) (start ⟨0, 0⟩) s past events ∧
    s.committed.length = 2 ∧ s.db.frozen.isSome = true ∧
    s.db.Reads (recordVersions (batchData s.committed)) := by
  obtain ⟨s, past, events, run, passed⟩ := Run.exec_exists step soundCheck (start ⟨0, 0⟩)
    (flushedInVain .openReader)
    (fun r => decide (r.1.committed.length = 2) && r.1.db.frozen.isSome) (by rfl)
  have sound := run.weaken (fun _ _ => sound_of_check)
  rw [and_eq_true, decide_eq_true_eq] at passed
  exact ⟨s, past, events, sound, passed.1, passed.2,
    (failed_flush_keeps Engine.oneByte Engine.free_oneByte ⟨0, 0⟩ sound).1⟩

/-- A flush behind a failed one loses the key in its buffer for good. -/
theorem second_flush_loses : ∃ s past events after,
    Run.Reach step (fun _ _ => True) (start ⟨0, 0⟩) s past events ∧
    s.committed.map (fun b => b.data.map fun r => (r.key, r.value)) = [[([97], [1])], [([98], [2])]] ∧
    s.db.get [97] = .error .keyNotFound ∧ openWith s.db.dir ⟨0, 0⟩ = .ok after ∧
    after.get [97] = .error .keyNotFound := by
  obtain ⟨s, past, events, run, passed⟩ := Run.exec_exists step (fun _ _ => true) (start ⟨0, 0⟩)
    (flushedInVain .newWriter ++ [.flush none])
    (fun r => decide (r.1.committed.map (fun b => b.data.map fun r => (r.key, r.value)) =
        [[([97], [1])], [([98], [2])]]) &&
      decide (r.1.db.get [97] = .error .keyNotFound) &&
      (match openWith r.1.db.dir ⟨0, 0⟩ with
        | .error _ => false
        | .ok after => decide (after.get [97] = .error .keyNotFound))) (by rfl)
  simp only [and_eq_true, decide_eq_true_eq] at passed
  cases opened : openWith s.db.dir ⟨0, 0⟩ with
  | error e => simp [opened] at passed
  | ok after =>
    have gone := passed.2
    rw [opened] at gone
    exact ⟨s, past, events, after, run.weaken fun _ _ _ => trivial, passed.1.1, passed.1.2, opened,
      of_decide_eq_true gone⟩

end Shaky

end Store
