import LittleDb.Store.Gc

/-! The storage engine: its layers, reads, commits, flushes, and the application of replicated entries. -/

namespace Store

/-- The highest sequence number applied for each session, zero for unknown ones. -/
abbrev Sessions := Key → Nat

/-- The options: when buffers are flushed and tables compacted. -/
structure Options where
  memtableSizeMax : Int
  compactionTrigger : Int

structure Dir where
  /-- The write-ahead log; a missing file is an empty one. -/
  wal : List UInt8
  tables : List (Nat × Table)
  /-- The applied index at the last flush; a missing file stands for zero. -/
  appliedBase : Nat
  /-- The session table at the last flush; without a file it is empty. -/
  sessions : Sessions

def Dir.empty : Dir := ⟨[], [], 0, fun _ => 0⟩

structure Db where
  opts : Options
  dir : Dir
  memtable : Memtable
  frozen : Option Memtable
  /-- The flushed write buffers, oldest first, which readers may hold. -/
  retired : List Memtable
  sstables : List (Nat × Table)
  nextID : Nat
  nextTimestamp : Nat
  appliedIndex : Nat
  /-- The applied index reconstructed when the database was opened. -/
  recoveredApplied : Nat
  appliedTS : Nat
  sessions : Sessions
  closed : Bool

inductive DbError where
  | keyNotFound
  | conflict
  | closed
  | txnFinished
  | flush (e : TableError)
  | frozen
  deriving DecidableEq, Repr

def succ64 (n : Nat) : Nat := (n + 1) % 2 ^ 64

def encodeSeq (seq : Nat) : List UInt8 := Bytes.ofNat 8 seq

/-- Reads a sequence number back; a short one is zero. -/
def decodeSeq (b : List UInt8) : Nat := if b.length < 8 then 0 else Bytes.toNat (b.take 8)

/-- The pending writes of a transaction: the last one for each key. -/
abbrev Writes := List (Key × (Op × Value))

structure Txn where
  readSnap : Nat
  writes : Writes
  finished : Bool
  session : Key
  seq : Nat
  deriving DecidableEq

def dataRecords (writes : Writes) (commitTS : Nat) : List Record :=
  writes.map fun (k, op, value) => ⟨op, commitTS, k, value⟩

def commitMarker (commitTS : Nat) : Record := ⟨.commit, commitTS, [], []⟩

theorem commitMarker_fits {ts : Nat} (range : ts < 2 ^ 64) : (commitMarker ts).Fits :=
  ⟨range, by simp [commitMarker, headerSize], by simp [commitMarker]⟩

/-- The reply to a hit: a tombstone is no value. -/
def reply : Op × Value → Except DbError Value
  | (.delete, _) => .error .keyNotFound
  | (_, value) => .ok value

/-- Reads a key at a snapshot through the layers; the first hit decides. -/
def getAsOfSnapshot (key : Key) (snapshot : Nat) (activeMT : Memtable) (frozenMT : Option Memtable)
    (ssts : List Table) : Except DbError Value :=
  match activeMT.getAsOf key snapshot with
  | some hit => reply hit
  | none =>
    match frozenMT.bind fun m => m.getAsOf key snapshot with
    | some hit => reply hit
    | none =>
      match ssts.findSome? fun t => t.getAsOf key snapshot with
      | some hit => reply hit
      | none => .error .keyNotFound

namespace Db

def tables (db : Db) : List Table := db.sstables.map Prod.snd

def get (db : Db) (key : Key) : Except DbError Value :=
  if db.closed then .error .closed
  else getAsOfSnapshot key db.nextTimestamp db.memtable db.frozen db.tables

def getAsOf (db : Db) (key : Key) (snapshot : Nat) : Except DbError Value :=
  if db.closed then .error .closed
  else getAsOfSnapshot key snapshot db.memtable db.frozen db.tables

def above (readSnap : Nat) (newest : Option Nat) : Bool := newest.any fun ts => readSnap < ts

/-- Whether some layer has a version of a key above a snapshot. -/
def hasCommitNewerThanLocked (db : Db) (userKey : Key) (readSnap : Nat) : Bool :=
  above readSnap (db.memtable.newestVersionTS userKey) ||
    db.frozen.any (fun m => above readSnap (m.newestVersionTS userKey)) ||
    db.tables.any fun t => above readSnap (t.newestVersionTS userKey)

/-- Whether a transaction wrote a key that was committed after its snapshot. -/
def conflicts (db : Db) (t : Txn) : Bool :=
  t.writes.any fun e => db.hasCommitNewerThanLocked e.1 t.readSnap

def append (db : Db) (records : List Record) : Db :=
  { db with dir := { db.dir with wal := db.dir.wal ++ Framing.log encode records } }

/--
Writes the buffer out as a table and starts a new log.

The directories on the way: with the table finished, the log removed, the new base, and the new session table.
-/
def flushLocked (db : Db) : Except TableError (Db × List Dir) :=
  if db.memtable.len = 0 then .ok (db, [])
  else
    let frozen := db.memtable.freeze
    match Table.write frozen.sl.items frozen.len db.appliedIndex with
    | .error e => .error e
    | .ok t =>
      let finished := { db.dir with tables := SortedMap.put db.nextID t db.dir.tables }
      let removed := { finished with wal := [] }
      let based := { removed with appliedBase := db.appliedIndex }
      let stored := { based with sessions := db.sessions }
      .ok
        ({ db with
            dir := stored
            memtable := Memtable.new
            frozen := none
            retired := db.retired ++ [frozen]
            sstables := (db.nextID, t) :: db.sstables
            nextID := db.nextID + 1 },
          [finished, removed, based, stored])

def flushIfFull (db : Db) : Except TableError (Db × List Dir) :=
  if db.opts.memtableSizeMax ≤ db.memtable.size then db.flushLocked else .ok (db, [])

/-- Writes data records to the buffer; nothing if it is frozen. -/
def applyRecords (db : Db) (records : List Record) : Option Db :=
  (records.foldlM Memtable.apply db.memtable).map fun m => { db with memtable := m }

/-- Allocates the timestamp of a commit and logs its records and the marker. -/
def logCommit (db : Db) (writes : Writes) : Db :=
  let commitTS := db.nextTimestamp
  { db with nextTimestamp := succ64 commitTS }.append
    (dataRecords writes commitTS ++ [commitMarker commitTS])

/-- Makes a commit visible to new transactions and flushes a full buffer. -/
def finishCommit (db : Db) (commitTS : Nat) : Except TableError (Db × List Dir) :=
  { db with appliedTS := commitTS }.flushIfFull

/-- Commits a transaction on a single node; the directories on the way are that with the commit logged and the
flush's. -/
def commit (db : Db) (t : Txn) : Except DbError (Db × List Dir) :=
  if t.finished then .error .txnFinished
  else if db.closed then .error .closed
  else if t.writes.isEmpty then .ok (db, [])
  else if db.conflicts t then .error .conflict
  else
    let logged := db.logCommit t.writes
    match logged.applyRecords (dataRecords t.writes db.nextTimestamp) with
    | none => .error .frozen
    | some applied =>
      match applied.finishCommit db.nextTimestamp with
      | .error e => .error (.flush e)
      | .ok (done, dirs) => .ok (done, logged.dir :: dirs)

/-- The marker of a commit, with the session and sequence number, if any. -/
def sessionMarker (t : Txn) (commitTS : Nat) : Record :=
  if t.session = [] then commitMarker commitTS else ⟨.commit, commitTS, t.session, encodeSeq t.seq⟩

/-- Prepares a replicated commit; none without writes or for a known retry. -/
def prepareCommit (db : Db) (t : Txn) : Except DbError (Db × Option (List UInt8 × Nat)) :=
  if t.finished then .error .txnFinished
  else if db.closed then .error .closed
  else if t.writes.isEmpty then .ok (db, none)
  else if t.session ≠ [] ∧ t.seq ≤ db.sessions t.session then .ok (db, none)
  else if db.conflicts t then .error .conflict
  else
    let commitTS := db.nextTimestamp
    let records := dataRecords t.writes commitTS ++ [sessionMarker t commitTS]
    .ok ({ db with nextTimestamp := succ64 commitTS }, some (Framing.log encode records, commitTS))

/-- Prepares an entry without data: a bare marker with a new timestamp. -/
def prepareNoop (db : Db) : Except DbError (Db × (List UInt8 × Nat)) :=
  if db.closed then .error .closed
  else
    let commitTS := db.nextTimestamp
    .ok ({ db with nextTimestamp := succ64 commitTS }, (encode (commitMarker commitTS), commitTS))

end Db

inductive ApplyError where
  | closed
  | decode (offset : Nat) (e : DecodeError)
  | empty
  | notTerminated
  | tsMismatch (data marker : Nat)
  | unexpectedOp
  | frozen
  | flush (e : TableError)
  deriving DecidableEq, Repr

def parseEntry (entry : List UInt8) : Except ApplyError (List Record × Record) :=
  match Framing.walk decode (entry.length + 1) entry with
  | (_, offset, some e) => .error (.decode offset e)
  | (records, _, none) =>
    match records.getLast? with
    | none => .error .empty
    | some marker =>
      if marker.op ≠ .commit then .error .notTerminated
      else
        let data := records.dropLast
        match data.find? fun r => r.timestamp ≠ marker.timestamp ∨ r.op = .commit with
        | none => .ok (data, marker)
        | some r =>
          if r.timestamp ≠ marker.timestamp then .error (.tsMismatch r.timestamp marker.timestamp)
          else .error .unexpectedOp

namespace Db

/-- Whether a marker's number is one its session has applied. -/
def duplicate (db : Db) (marker : Record) : Bool :=
  marker.key ≠ [] ∧ decodeSeq marker.value ≤ db.sessions marker.key

/-- Moves the timestamps and the applied index past an applied entry. -/
def advance (db : Db) (idx commitTS : Nat) : Db :=
  { db with
    nextTimestamp := if db.nextTimestamp ≤ commitTS then succ64 commitTS else db.nextTimestamp
    appliedTS := max db.appliedTS commitTS
    appliedIndex := max db.appliedIndex idx }

/-- Logs and applies a parsed entry: a duplicate leaves its marker only. -/
def record (db : Db) (data : List Record) (marker : Record) : Option Db :=
  if db.duplicate marker then some (db.append [marker])
  else
    ((db.append (data ++ [marker])).applyRecords data).map fun db =>
      if marker.key = [] then db
      else { db with sessions := Function.update db.sessions marker.key (decodeSeq marker.value) }

/-- Applies a committed entry at a Raft index, with the directories on the way. -/
def applyEntry (db : Db) (idx : Nat) (entry : List UInt8) : Except ApplyError (Db × List Dir) :=
  if db.closed then .error .closed
  else
    match parseEntry entry with
    | .error e => .error e
    | .ok (data, marker) =>
      match db.record data marker with
      | none => .error .frozen
      | some logged =>
        match (logged.advance idx marker.timestamp).flushIfFull with
        | .error e => .error (.flush e)
        | .ok (done, dirs) => .ok (done, logged.dir :: dirs)

/-- Applies an entry without data: one bare marker with its own timestamp. -/
def applyControlEntry (db : Db) (idx : Nat) : Except ApplyError (Db × List Dir) :=
  if db.closed then .error .closed
  else
    let commitTS := db.nextTimestamp
    let logged := { db with nextTimestamp := succ64 commitTS }.append [commitMarker commitTS]
    let moved :=
      { logged with
        appliedTS := max logged.appliedTS commitTS
        appliedIndex := max logged.appliedIndex idx }
    match moved.flushIfFull with
    | .error e => .error (.flush e)
    | .ok (done, dirs) => .ok (done, logged.dir :: dirs)

def sessionLastSeq (db : Db) (session : Key) : Nat := db.sessions session

end Db

end Store
