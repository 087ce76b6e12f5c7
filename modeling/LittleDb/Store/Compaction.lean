import LittleDb.Store.Db

/-! Background compaction of the oldest tables: picking, merging, installing, and removing files. -/

namespace Store

/-- A compaction under way: its tables with their numbers, newest first. -/
structure Job where
  inputs : List (Nat × Table)
  bottomOfLSM : Bool

namespace Job

/-- The number of the merged table: that of the newest input. -/
def outputID (job : Job) : Nat := (job.inputs.head?.map Prod.fst).getD 0

/-- The input files to remove once the merged table is in place, in order. -/
def obsolete (job : Job) : List Nat := (job.inputs.map Prod.fst).filter fun id => id ≠ job.outputID

def merge (job : Job) (watermark : Nat) : Except CompactError Table :=
  compactSSTables (job.inputs.map Prod.snd) watermark job.bottomOfLSM

end Job

namespace Db

def trigger (db : Db) : Nat := db.opts.compactionTrigger.toNat

def pickCompaction (db : Db) : Option Job :=
  if db.closed then none
  else if db.sstables.length < db.trigger then none
  else
    let inputs := db.sstables.drop (db.sstables.length - db.trigger)
    some ⟨inputs, (inputs.map Prod.fst).min? = (db.sstables.map Prod.fst).min?⟩

/-- Writes the merged table over the file of the newest input. -/
def writeMerged (db : Db) (job : Job) (merged : Table) : Db :=
  { db with dir := { db.dir with tables := SortedMap.put job.outputID merged db.dir.tables } }

def removeTable (db : Db) (id : Nat) : Db :=
  { db with dir := { db.dir with tables := SortedMap.erase id db.dir.tables } }

def tailMatches (db : Db) (job : Job) : Bool :=
  job.inputs.length ≤ db.sstables.length ∧
    (db.sstables.drop (db.sstables.length - job.inputs.length)).map Prod.fst = job.inputs.map Prod.fst

/-- Puts the merged table in place, unless the database changed. -/
def installMerged (db : Db) (job : Job) (merged : Table) : Db × Bool :=
  if db.closed ∨ ¬ db.tailMatches job then (db.removeTable job.outputID, false)
  else
    ({ db with
        sstables := db.sstables.take (db.sstables.length - job.inputs.length) ++
          [(job.outputID, merged)] }, true)

/-- One compaction: the new state, and the directories on the way. -/
def tryCompactOnce (db : Db) (watermark : Nat) : Except CompactError (Option (Db × List Dir)) :=
  match db.pickCompaction with
  | none => .ok none
  | some job =>
    match job.merge watermark with
    | .error e => .error e
    | .ok merged =>
      let written := db.writeMerged job merged
      match written.installMerged job merged with
      | (refused, false) => .ok (some (refused, [written.dir, refused.dir]))
      | (installed, true) =>
        let removals := job.obsolete.inits.map fun ids => ids.foldl removeTable installed
        .ok (some (job.obsolete.foldl removeTable installed, removals.map Db.dir))

end Db

end Store
