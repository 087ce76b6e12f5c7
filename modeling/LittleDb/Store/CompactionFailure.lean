import LittleDb.Store.CompactionCrash

/-! Compactions that do not install their output: what each way out leaves in the directory. -/

namespace Store

open Versioned Logbook List Db Set

variable {db : Db}

inductive Abandon where
  | idle
  | readSource
  | newWriter
  /-- An encoded key was malformed, or the writer refused a version. -/
  | merge
  /-- The output could not be finished, before or after its rename. -/
  | finish (renamed : Bool)
  | openReader
  | closed
  | changed (sstables : List (Nat × Table))

namespace Db

/-- A compaction that does not install its output removes its file. -/
def abandon (db : Db) (watermark : Nat) (why : Abandon) : Option Db :=
  match db.pickCompaction with
  | none => if why matches .idle then some db else none
  | some job =>
    match why with
    | .idle => none
    | .readSource | .newWriter => some (db.removeTable job.outputID)
    | .merge =>
      match job.merge watermark with
      | .error _ => some (db.removeTable job.outputID)
      | .ok _ => none
    | .finish false =>
      match job.merge watermark with
      | .error _ => none
      | .ok _ => some (db.removeTable job.outputID)
    | .finish true | .openReader =>
      match job.merge watermark with
      | .error _ => none
      | .ok merged => some ((db.writeMerged job merged).removeTable job.outputID)
    | .closed =>
      match job.merge watermark with
      | .error _ => none
      | .ok merged => some (({ db with closed := true }.writeMerged job merged).installMerged job merged).1
    | .changed sstables =>
      match job.merge watermark with
      | .error _ => none
      | .ok merged =>
        match ({ db with sstables := sstables }.writeMerged job merged).installMerged job merged with
        | (_, true) => none
        | (refused, false) => some refused

end Db

def Dir.without (dir : Dir) (id : Nat) : Dir := { dir with tables := SortedMap.erase id dir.tables }

/-- Without a table file, a directory reads the same and recovers the same index. -/
def Dir.Spares (dir : Dir) (opts : Options) (id : Nat) : Prop :=
  ∀ before after, openWith dir opts = .ok before → openWith (dir.without id) opts = .ok after →
    (∀ k, after.get k = before.get k) ∧ after.recoveredApplied = before.recoveredApplied

section Serving

variable {K : Set Key} {compacts : Bool} {l : Ledger} {dups new : List Batch} {rest : List Record} {job : Job}

end Serving

namespace Life

/-- The newer table's key is in the buffer again, and no applied index in it. -/
def overwritten (db : Db) : Bool :=
  (db.compactionInputs.take 1).all (fun e => e.2.entries.all fun x => decide (x.1 = encodeKey [98] 2)) &&
    db.memtable.sl.any (fun x => decide (x.1 = encodeKey [98] 3)) &&
    decide (max (tablesApplied (db.dir.without 2)) ((db.dir.appliedBase + db.dir.markers) % 2 ^ 64) =
      max (tablesApplied db.dir) ((db.dir.appliedBase + db.dir.markers) % 2 ^ 64)) &&
    db.pickCompaction.any (fun job : Job => decide (job.outputID = 2)) && (db.abandon 2 .readSource).isSome

end Life

end Store
