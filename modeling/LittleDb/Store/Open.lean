import LittleDb.Store.Db

/-! Opening a directory: recovery of the log's tail, discovery of the tables, and replay. -/

namespace Store

inductive OpenError where
  /-- The log holds a record that was not torn but is not valid either. -/
  | corruption (offset : Nat) (e : DecodeError)
  /-- A data record and the marker behind it have different timestamps. -/
  | tsMismatch (data marker : Nat)
  | frozen
  deriving DecidableEq, Repr

/-- Validates the log from the front, cut behind the last whole record. -/
def recover (file : List UInt8) : Except OpenError (List Record × List UInt8) :=
  match Framing.walk decode (file.length + 1) file with
  | (records, _, none) => .ok (records, file)
  | (records, offset, some .unexpectedEOF) => .ok (records, file.take offset)
  | (records, offset, some .corrupt) => .ok (records, file.take offset)
  | (_, offset, some e) => .error (.corruption offset e)

structure Replay where
  maxTS : Nat
  buffer : List Record
  opCommits : Nat
  sessions : Sessions
  memtable : Memtable

/-- Raises the sequence number of the session that a marker carries. -/
def noteSession (sessions : Sessions) (marker : Record) : Sessions :=
  if marker.key ≠ [] ∧ sessions marker.key < decodeSeq marker.value then
    Function.update sessions marker.key (decodeSeq marker.value)
  else sessions

def Replay.step (s : Replay) (r : Record) : Except OpenError Replay :=
  let s := { s with maxTS := max s.maxTS r.timestamp }
  if r.op ≠ .commit then .ok { s with buffer := s.buffer ++ [r] }
  else
    match s.buffer.find? fun br => br.timestamp ≠ r.timestamp with
    | some br => .error (.tsMismatch br.timestamp r.timestamp)
    | none =>
      match s.buffer.foldlM Memtable.apply s.memtable with
      | none => .error .frozen
      | some m =>
        .ok
          { s with
            buffer := []
            opCommits := s.opCommits + 1
            sessions := noteSession s.sessions r
            memtable := m }

/-- The options in force when some are out of range. -/
def Options.normalize (opts : Options) : Options where
  memtableSizeMax := if opts.memtableSizeMax ≤ 0 then 4 * 1024 * 1024 else opts.memtableSizeMax
  compactionTrigger := if opts.compactionTrigger < 2 then 4 else opts.compactionTrigger

/-- The table files a scan finds, oldest first: names of six digits. -/
def discoverSSTables (dir : Dir) : List (Nat × Table) := dir.tables.filter fun e => e.1 < 10 ^ 6

def openWith (dir : Dir) (opts : Options) : Except OpenError Db :=
  let found := discoverSSTables dir
  let maxTS := (found.map fun e => e.2.maxTimestamp).foldl max 0
  let maxFooterApplied := (found.map fun e => e.2.appliedIndex).foldl max 0
  match recover dir.wal with
  | .error e => .error e
  | .ok (records, wal) =>
    match records.foldlM Replay.step ⟨maxTS, [], 0, dir.sessions, Memtable.new⟩ with
    | .error e => .error e
    | .ok replayed =>
      let recoveredApplied := max maxFooterApplied ((dir.appliedBase + replayed.opCommits) % 2 ^ 64)
      .ok
        { opts := opts.normalize
          dir := { dir with wal := wal }
          memtable := replayed.memtable
          frozen := none
          retired := []
          sstables := found.reverse
          nextID := (found.getLast?.map fun e => e.1 + 1).getD 1
          nextTimestamp := succ64 replayed.maxTS
          appliedIndex := recoveredApplied
          recoveredApplied := recoveredApplied
          appliedTS := replayed.maxTS
          sessions := replayed.sessions
          closed := false }

end Store
