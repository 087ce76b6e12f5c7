import LittleDb.Lib.Run
import LittleDb.Store.Batch

/-! The life of a database: work, crashes at any point with the log cut anywhere, and reopening. -/

namespace Store

open Option

/-- What has reached the disk, as a list of batches. -/
structure Ledger where
  stored : List Batch
  /-- The batches that only the log holds, each with its end offset. -/
  logged : List (Batch × Nat)
  /-- The offset in the log up to which tables hold its batches. -/
  covered : Nat

namespace Ledger

def empty : Ledger := ⟨[], [], 0⟩

def batches (l : Ledger) : List Batch := l.stored ++ l.logged.map Prod.fst

def write (l : Ledger) (b : Batch) (stop : Nat) : Ledger :=
  { l with logged := l.logged ++ [(b, stop)] }

def held (l : Ledger) : Ledger := ⟨l.batches, [], (l.logged.getLast?.map Prod.snd).getD l.covered⟩

def removed (l : Ledger) : Ledger := { l with logged := [], covered := 0 }

/-- The log was cut: a batch whose marker is not before the cut is lost. -/
def cut (l : Ledger) (n : Nat) : Ledger :=
  { l with logged := l.logged.filter fun e => e.2 ≤ n, covered := min l.covered n }

@[simp] theorem batches_write (l : Ledger) (b : Batch) (stop : Nat) : (l.write b stop).batches = l.batches ++ [b] := by
  simp [write, batches]

@[simp] theorem batches_held (l : Ledger) : l.held.batches = l.batches := by
  simp [held, batches]

@[simp] theorem batches_held_removed (l : Ledger) : l.held.removed.batches = l.batches := by
  simp [held, removed, batches]

end Ledger

/-- What the disk shows on the way through a flush. -/
def flushPoints (l : Ledger) : List Dir → List (Dir × Ledger)
  | [] => []
  | finished :: dirs => (finished, l.held) :: dirs.map fun d => (d, l.held.removed)

theorem flushPoints_dirs (l : Ledger) (dirs : List Dir) : (flushPoints l dirs).map Prod.fst = dirs := by
  cases dirs <;> simp [flushPoints, Function.comp_def]

/-- What the disk shows on the way through a batch and its flush. -/
def batchPoints (l : Ledger) (b : Batch) : List Dir → List (Dir × Ledger)
  | [] => []
  | logged :: dirs =>
    (logged, l.write b logged.wal.length) :: flushPoints (l.write b logged.wal.length) dirs

inductive Work where
  | commit (t : Txn)
  | apply (entry : List UInt8)
  | control
  | flush
  | compact (watermark : Nat)

def Db.batchOf (db : Db) (data : List Record) (marker : Record) : Batch :=
  if db.duplicate marker then ⟨[], marker⟩ else ⟨data, marker⟩

/-- Runs an operation: the new state, and the disk after each file operation. -/
def Work.run (db : Db) (l : Ledger) : Work → Option (Db × List (Dir × Ledger))
  | .commit t =>
    match db.commit t with
    | .error _ => none
    | .ok (done, dirs) =>
      some (done, batchPoints l
        ⟨dataRecords t.writes db.nextTimestamp, commitMarker db.nextTimestamp⟩ dirs)
  | .apply entry =>
    match parseEntry entry, db.applyEntry (db.appliedIndex + 1) entry with
    | .ok (data, marker), .ok (done, dirs) =>
      some (done, batchPoints l (db.batchOf data marker) dirs)
    | _, _ => none
  | .control =>
    match db.applyControlEntry (db.appliedIndex + 1) with
    | .error _ => none
    | .ok (done, dirs) => some (done, batchPoints l ⟨[], commitMarker db.nextTimestamp⟩ dirs)
  | .flush =>
    match db.flushLocked with
    | .error _ => none
    | .ok (done, dirs) => some (done, flushPoints l dirs)
  | .compact watermark =>
    match db.tryCompactOnce watermark with
    | .ok (some (done, dirs)) => some (done, (db.dir, l) :: dirs.map fun d => (d, l))
    | _ => none

/-- What an operation that has run did, and the points on the way. -/
inductive Work.Ran (db : Db) (l : Ledger) : Work → Db → List (Dir × Ledger) → Prop
  | commit {t : Txn} {done : Db} {dirs : List Dir} (committed : db.commit t = .ok (done, dirs)) :
      Ran db l (.commit t) done
        (batchPoints l ⟨dataRecords t.writes db.nextTimestamp, commitMarker db.nextTimestamp⟩ dirs)
  | apply {entry : List UInt8} {data : List Record} {marker : Record} {done : Db} {dirs : List Dir}
      (parsed : parseEntry entry = .ok (data, marker))
      (applied : db.applyEntry (db.appliedIndex + 1) entry = .ok (done, dirs)) :
      Ran db l (.apply entry) done (batchPoints l (db.batchOf data marker) dirs)
  | control {done : Db} {dirs : List Dir} (applied : db.applyControlEntry (db.appliedIndex + 1) = .ok (done, dirs)) :
      Ran db l .control done (batchPoints l ⟨[], commitMarker db.nextTimestamp⟩ dirs)
  | flush {done : Db} {dirs : List Dir} (flushed : db.flushLocked = .ok (done, dirs)) :
      Ran db l .flush done (flushPoints l dirs)
  | compact {watermark : Nat} {done : Db} {dirs : List Dir}
      (compacted : db.tryCompactOnce watermark = .ok (some (done, dirs))) :
      Ran db l (.compact watermark) done ((db.dir, l) :: dirs.map fun d => (d, l))

/-- Every operation that runs does just that. -/
theorem Work.ran {w : Work} {db done : Db} {l : Ledger} {points : List (Dir × Ledger)}
    (ran : w.run db l = some (done, points)) : w.Ran db l done points := by
  cases w <;> simp only [run] at ran <;> split at ran <;> cases ran
  · exact .commit ‹_›
  · exact .apply ‹_› ‹_›
  · exact .control ‹_›
  · exact .flush ‹_›
  · exact .compact ‹_›

/-- What is on disk once an operation is over. -/
def settled (l : Ledger) (points : List (Dir × Ledger)) : Ledger :=
  (points.getLast?.map Prod.snd).getD l

@[simp] theorem settled_nil (l : Ledger) : settled l [] = l := rfl

@[simp] theorem settled_cons (l : Ledger) (p : Dir × Ledger) (points : List (Dir × Ledger)) :
    settled l (p :: points) = settled p.2 points := by
  cases last : points.getLast? <;> simp [settled, List.getLast?_cons, last]

theorem settled_const (l : Ledger) (dirs : List Dir) : settled l (dirs.map fun d => (d, l)) = l := by
  induction dirs with
  | nil => rfl
  | cons d dirs ih => simpa using ih

/-- A database that is open, or the directory a crash left. -/
inductive Host where
  | up (db : Db)
  | down (dir : Dir)

def Host.dir : Host → Dir
  | .up db => db.dir
  | .down dir => dir

/-- A database with the record of what has reached its disk. -/
structure Life where
  host : Host
  ledger : Ledger

namespace Life

/-- The life of a database starts with an empty directory. -/
def start : Life := ⟨.down .empty, .empty⟩

inductive Act where
  | work (w : Work)
  | crash (cut : Nat)
  /-- A crash inside an operation, after one of its file operations. -/
  | crashIn (w : Work) (stage cut : Nat)
  | reopen (opts : Options)

/-- The directory and the record after a crash that cut the log. -/
def crashed (dir : Dir) (l : Ledger) (cut : Nat) : Life :=
  ⟨.down { dir with wal := dir.wal.take cut }, l.cut cut⟩

/-- What the disk shows at a stage of an operation. -/
def point (s : Life) (w : Work) (stage : Nat) : Option (Dir × Ledger) :=
  match s.host with
  | .down _ => none
  | .up db => (w.run db s.ledger).bind fun (_, points) => points[stage]?

def step (s : Life) : Act → Option (Life × List Unit)
  | .work w =>
    match s.host with
    | .down _ => none
    | .up db =>
      (w.run db s.ledger).map fun (done, points) => (⟨.up done, settled s.ledger points⟩, [])
  | .crash cut =>
    match s.host with
    | .down _ => none
    | .up db => some (crashed db.dir s.ledger cut, [])
  | .crashIn w stage cut => (s.point w stage).map fun (dir, l) => (crashed dir l cut, [])
  | .reopen opts =>
    match s.host with
    | .up _ => none
    | .down dir =>
      match openWith dir opts with
      | .error _ => none
      | .ok db => some (⟨.up db, s.ledger⟩, [])

/-- A step runs an operation, leaves a directory by a crash, or opens one. -/
inductive Moves : Life → Act → Life → Prop where
  | work {db done : Db} {l : Ledger} {w : Work} {points : List (Dir × Ledger)}
      (ran : w.run db l = some (done, points)) : Moves ⟨.up db, l⟩ (.work w) ⟨.up done, settled l points⟩
  | crash {db : Db} {l : Ledger} {cut : Nat} : Moves ⟨.up db, l⟩ (.crash cut) (crashed db.dir l cut)
  | crashIn {db done : Db} {l l' : Ledger} {w : Work} {points : List (Dir × Ledger)} {stage cut : Nat} {dir : Dir}
      (ran : w.run db l = some (done, points)) (found : points[stage]? = some (dir, l')) :
      Moves ⟨.up db, l⟩ (.crashIn w stage cut) (crashed dir l' cut)
  | reopen {dir : Dir} {l : Ledger} {opts : Options} {db : Db} (opened : openWith dir opts = .ok db) :
      Moves ⟨.down dir, l⟩ (.reopen opts) ⟨.up db, l⟩

/-- Every step does just that. -/
theorem moves {s s' : Life} {a : Act} {new : List Unit} (moved : s.step a = some (s', new)) : Moves s a s' := by
  obtain ⟨host, l⟩ := s
  cases a with
  | work w =>
    cases host with
    | down dir => cases moved
    | up db =>
      obtain ⟨⟨done, points⟩, ran, same⟩ := map_eq_some_iff.mp moved
      cases same
      exact .work ran
  | crash cut =>
    cases host with
    | down dir => cases moved
    | up db =>
      cases moved
      exact .crash
  | crashIn w stage cut =>
    cases host with
    | down dir => cases moved
    | up db =>
      obtain ⟨⟨dir, l'⟩, reached, same⟩ := map_eq_some_iff.mp moved
      obtain ⟨⟨done, points⟩, ran, found⟩ := bind_eq_some_iff.mp reached
      cases same
      exact .crashIn ran found
  | reopen opts =>
    cases host with
    | up db => cases moved
    | down dir =>
      simp only [Life.step] at moved
      split at moved
      · cases moved
      · next opened =>
        cases moved
        exact .reopen opened

/-- No crash cuts the log inside what tables hold of it. -/
def spared (s : Life) : Act → Bool
  | .crash cut => s.ledger.covered ≤ cut
  | .crashIn w stage cut => (s.point w stage).all fun p => p.2.covered ≤ cut
  | _ => true

theorem spared_crashIn {db done : Db} {l l' : Ledger} {w : Work} {points : List (Dir × Ledger)} {stage cut : Nat}
    {dir : Dir} (ran : w.run db l = some (done, points)) (found : points[stage]? = some (dir, l'))
    (spared : spared ⟨.up db, l⟩ (.crashIn w stage cut) = true) : l'.covered ≤ cut := by
  simpa [Life.spared, Life.point, ran, found] using spared

/-- A crash has left a directory, and the result of opening it passes a test. -/
def reopens (s : Life) (opts : Options) (test : Except OpenError Db → Bool) : Bool :=
  match s.host with
  | .up _ => false
  | .down dir => test (openWith dir opts)

theorem exists_of_reopens {s : Life} {opts : Options} {test : Except OpenError Db → Bool}
    (passed : s.reopens opts test = true) : ∃ dir, s.host = .down dir ∧ test (openWith dir opts) = true := by
  unfold reopens at passed
  cases left : s.host with
  | up db => simp [left] at passed
  | down dir => exact ⟨dir, rfl, by simpa [left] using passed⟩

end Life

end Store
