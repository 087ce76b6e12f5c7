import LittleDb.Store.Recovery
import Mathlib.Data.List.Infix

/-! A crash inside a compaction: which keys read differently once the directory is opened again. -/

namespace Store

open Versioned Logbook List Option Db Set

namespace Db

variable (db : Db)

def compactionInputs : List (Nat × Table) := db.sstables.drop (db.sstables.length - db.trigger)

end Db

variable {K : Set Key} {db done : Db} {l : Ledger} {dups new : List Batch} {rest : List Record}
  {dirs : List Dir} {w : Nat} {job : Job} {merged : Table} {k : Key}

namespace Serving

variable (serving : Serving K true db l dups new rest)

include serving

end Serving

namespace Life

def renamed (s : Life) : Option (Db × Db × Dir × List Dir) :=
  match s.host with
  | .down _ => none
  | .up db =>
    match db.tryCompactOnce 2 with
    | .ok (some (done, dir :: dirs)) => some (db, done, dir, dirs)
    | _ => none

end Life

end Store
