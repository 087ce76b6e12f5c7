import LittleDb.Lib.Run
import LittleDb.Store.Compaction

/-! Concurrent transactions, flushes and compactions on one node, cut at the engine's locks. -/

namespace Store

open Function

/-- The layers a read has captured: which write buffer, and which tables. -/
structure Capture where
  key : Key
  /-- How many buffers had been flushed before the captured one. -/
  generation : Nat
  tables : List Table

inductive Phase where
  | idle
  | picked (job : Job)
  | sampled (job : Job) (watermark : Nat)
  /-- The watermark has its bounds from the registered transactions too. -/
  | marked (job : Job) (watermark : Nat)
  | merged (job : Job) (table : Table)
  /-- The merged table is installed, and these files are left to remove. -/
  | removing (ids : List Nat)

/-- A commit under way: its transaction, timestamp, and writes in order. -/
structure Committing where
  id : Nat
  commitTS : Nat
  done : Writes
  left : Writes

structure Engine where
  db : Db
  txns : Nat → Option Txn
  /-- The transactions that have their snapshot but wait to register. -/
  pending : List Nat
  activeTxns : List Nat
  captures : Nat → Option Capture
  writer : Option Committing
  phase : Phase

inductive Act where
  | begin (id : Nat)
  | register (id : Nat)
  | put (id : Nat) (key : Key) (value : Value)
  | delete (id : Nat) (key : Key)
  /-- It starts a read: from its own writes, or by capturing the layers. -/
  | get (id : Nat) (key : Key)
  | read (id : Nat)
  | rollback (id : Nat)
  /-- It starts to commit: checks conflicts, takes the timestamp, logs. -/
  | commit (id : Nat)
  | write
  | finish
  | unregister (id : Nat)
  | flush
  | pick
  | sampleClock
  | sampleTxns
  | merge
  | install
  | remove

inductive Event where
  | began (id : Nat)
  | wrote (id : Nat) (key : Key) (op : Op) (value : Value)
  | got (id : Nat) (key : Key) (result : Except DbError Value)
  | conflicted (id : Nat)
  | committed (id : Nat) (commitTS : Nat) (writes : Writes)
  deriving DecidableEq

namespace Engine

def new (db : Db) : Engine := ⟨db, fun _ => none, [], [], fun _ => none, none, .idle⟩

def free (s : Engine) : Bool := s.writer.isNone && s.pending.isEmpty

/-- The write buffer of a generation: an earlier one, or the active one. -/
def memtableAt (s : Engine) (generation : Nat) : Memtable :=
  (s.db.retired[generation]?).getD s.db.memtable

def readSnap (s : Engine) (id : Nat) : Nat := ((s.txns id).map Txn.readSnap).getD 0

def setTxn (s : Engine) (id : Nat) (t : Txn) : Engine :=
  { s with txns := update s.txns id (some t) }

/-- Whether a transaction can make a call: it has begun, and none is under way. -/
def ready (s : Engine) (id : Nat) : Option Txn :=
  if id ∈ s.pending ∨ (s.captures id).isSome ∨ s.writer.any (fun c => c.id = id) then none
  else s.txns id

def buffer (s : Engine) (id : Nat) (key : Key) (op : Op) (value : Value) : Option (Engine × List Event) :=
  match s.ready id with
  | none => none
  | some t =>
    if t.finished then some (s, [])
    else
      some (s.setTxn id { t with writes := SortedMap.put key (op, value) t.writes },
        [.wrote id key op value])

def startCommit (s : Engine) (id : Nat) : Option (Engine × List Event) :=
  match s.ready id with
  | none => none
  | some t =>
    if t.finished then some (s, [])
    else if !s.free then none
    else
      let ended := s.setTxn id { t with finished := true }
      if s.db.closed then some (ended, [])
      else if t.writes.isEmpty then some (ended, [.committed id 0 []])
      else if s.db.conflicts t then some (ended, [.conflicted id])
      else
        some ({ s with
          db := s.db.logCommit t.writes
          writer := some ⟨id, s.db.nextTimestamp, [], t.writes⟩ }, [])

/-- Writes the next key of the commit under way to the buffer. -/
def writeNext (s : Engine) : Option (Engine × List Event) :=
  match s.writer with
  | some ⟨id, ts, done, (k, op, value) :: left⟩ =>
    (s.db.memtable.apply ⟨op, ts, k, value⟩).map fun m =>
      ({ s with
          db := { s.db with memtable := m }
          writer := some ⟨id, ts, done ++ [(k, op, value)], left⟩ }, [])
  | _ => none

def finishCommit (s : Engine) : Option (Engine × List Event) :=
  match s.writer with
  | some ⟨id, ts, done, []⟩ =>
    match s.txns id, s.db.finishCommit ts with
    | some t, .ok (db, _) =>
      some ({ s.setTxn id { t with finished := true } with db := db, writer := none },
        [.committed id ts done])
    | _, _ => none
  | _ => none

def startGet (s : Engine) (id : Nat) (key : Key) : Option (Engine × List Event) :=
  match s.ready id with
  | none => none
  | some t =>
    if t.finished then some (s, [])
    else
      match SortedMap.get key t.writes with
      | some own => some (s, [.got id key (reply own)])
      | none =>
        if s.writer.isSome then none
        else if s.db.closed then some (s, [.got id key (.error .closed)])
        else
          some ({ s with
            captures := update s.captures id
              (some ⟨key, s.db.retired.length, s.db.tables⟩) }, [])

def finishGet (s : Engine) (id : Nat) : Option (Engine × List Event) :=
  match s.captures id with
  | none => none
  | some c =>
    some ({ s with captures := update s.captures id none },
      [.got id c.key (getAsOfSnapshot c.key (s.readSnap id) (s.memtableAt c.generation) none c.tables)])

/-- The lowest snapshot among the registered transactions and a bound. -/
def lowest (s : Engine) (bound : Nat) : Nat := (s.activeTxns.map s.readSnap).foldl min bound

def compactStep (s : Engine) : Act → Option Engine
  | .pick =>
    match s.phase with
    | .idle =>
      if !s.free then none
      else s.db.pickCompaction.map fun job => { s with phase := .picked job }
    | _ => none
  | .sampleClock =>
    match s.phase with
    | .picked job =>
      if s.writer.isSome then none else some { s with phase := .sampled job (s.db.nextTimestamp - 1) }
    | _ => none
  | .sampleTxns =>
    match s.phase with
    | .sampled job w => some { s with phase := .marked job (s.lowest w) }
    | _ => none
  | .merge =>
    match s.phase with
    | .marked job w =>
      match job.merge w with
      | .error _ => some { s with db := s.db.removeTable job.outputID, phase := .idle }
      | .ok t => some { s with db := s.db.writeMerged job t, phase := .merged job t }
    | _ => none
  | .install =>
    match s.phase with
    | .merged job t =>
      if !s.free then none
      else
        match s.db.installMerged job t with
        | (db, true) => some { s with db := db, phase := .removing job.obsolete }
        | (db, false) => some { s with db := db, phase := .idle }
    | _ => none
  | .remove =>
    match s.phase with
    | .removing (id :: ids) => some { s with db := s.db.removeTable id, phase := .removing ids }
    | .removing [] => some { s with phase := .idle }
    | _ => none
  | _ => none

def step (s : Engine) : Act → Option (Engine × List Event)
  | .begin id =>
    if (s.txns id).isSome ∨ s.writer.isSome then none
    else
      some ({ s.setTxn id ⟨s.db.appliedTS, [], false, [], 0⟩ with pending := id :: s.pending },
        [.began id])
  | .register id =>
    if id ∈ s.pending then
      some ({ s with pending := s.pending.erase id, activeTxns := id :: s.activeTxns }, [])
    else none
  | .put id key value => s.buffer id key .put value
  | .delete id key => s.buffer id key .delete []
  | .get id key => s.startGet id key
  | .read id => s.finishGet id
  | .rollback id =>
    (s.ready id).map fun t =>
      if t.finished then (s, []) else (s.setTxn id { t with writes := [], finished := true }, [])
  | .commit id => s.startCommit id
  | .write => s.writeNext
  | .finish => s.finishCommit
  | .unregister id =>
    if (s.txns id).any Txn.finished then
      some ({ s with activeTxns := s.activeTxns.filter fun other => other ≠ id }, [])
    else none
  | .flush =>
    if !s.free then none
    else if s.db.closed then some (s, [])
    else
      match s.db.flushLocked with
      | .error _ => none
      | .ok (db, _) => some ({ s with db := db }, [])
  | a => (s.compactStep a).map fun s => (s, [])

end Engine

end Store
