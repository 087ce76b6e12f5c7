import LittleDb.Store.Journal

/-! The write-ahead log while its appends may fail or its file is cut: which records can be read afterwards. -/

namespace Store

open List Framing

open Bytes (writeAt writeAt_length)

/-- The open log: its bytes, the handle's position, and the size it believes in. -/
structure Wal where
  bytes : List UInt8
  pos : Nat
  size : Nat
  closed : Bool
  deriving DecidableEq, Repr

inductive WalError where
  | closed
  | invalidOffset
  | short
  | decode (e : DecodeError)
  deriving DecidableEq, Repr

namespace Wal

/-- Opens a log: a bad tail is cut off, and the handle stands at the end. -/
def openWith (file : List UInt8) : Except OpenError Wal :=
  match recover file with
  | .error e => .error e
  | .ok (_, kept) => .ok ⟨kept, kept.length, kept.length, false⟩

/-- Writes one record; the offset it is given is the size before. -/
def append (w : Wal) (r : Record) : Wal :=
  { w with
    bytes := writeAt w.bytes w.pos (encode r)
    pos := w.pos + (encode r).length
    size := w.size + (encode r).length }

/-- An append of which some bytes reach the file, or all before a failed sync. -/
def failAppend (w : Wal) (r : Record) (n : Nat) : Wal :=
  { w with bytes := writeAt w.bytes w.pos ((encode r).take n), pos := w.pos + n }

/-- Reads the record at an offset: the header, then the bytes it declares. -/
def readAt (w : Wal) (offset : Nat) : Except WalError Record :=
  if w.closed then .error .closed
  else if w.size ≤ offset then .error .invalidOffset
  else
    let buf := w.bytes.drop offset
    if buf.length < headerSize then .error .short
    else
      let total := headerSize + Bytes.toNat (slice buf 13 4) + Bytes.toNat (slice buf 17 4)
      if buf.length < total then .error .short
      else
        match decode (buf.take total) with
        | .error e => .error (.decode e)
        | .ok (r, _) => .ok r

/-- Decodes records from an offset on, each with the offset where it starts. -/
def scanFrom (buf : List UInt8) : Nat → Nat → Except WalError (List (Nat × Record))
  | 0, _ => .ok []
  | fuel + 1, offset =>
    if offset < buf.length then
      match decode (buf.drop offset) with
      | .error e => .error (.decode e)
      | .ok (r, n) =>
        match scanFrom buf fuel (offset + n) with
        | .error e => .error e
        | .ok rest => .ok ((offset, r) :: rest)
    else .ok []

/-- All records of the log with their offsets, or the first error. -/
def scan (w : Wal) : Except WalError (List (Nat × Record)) :=
  if w.closed then .error .closed
  else if w.bytes.length < w.size then .error .short
  -- A record takes more than one byte, so the size of the log is fuel enough.
  else scanFrom (w.bytes.take w.size) (w.size + 1) 0

inductive Act where
  | append (r : Record)
  /-- An append fails when some of its bytes were written. -/
  | failAppend (r : Record) (n : Nat)
  | close
  | reopen

def fresh : Wal := ⟨[], 0, 0, false⟩

/-- One step; an append that returns records its offset and its record. -/
def step (w : Wal) : Act → Option (Wal × List (Nat × Record))
  | .append r => if w.closed then none else some (w.append r, [(w.size, r)])
  | .failAppend r n =>
    if w.closed ∨ (encode r).length < n then none else some (w.failAppend r n, [])
  | .close => some ({ w with closed := true }, [])
  | .reopen =>
    match openWith w.bytes with
    | .error _ => none
    | .ok opened => some (opened, [])

/-- A record is appended only where no failed append has left bytes. -/
def sound (w : Wal) : Act → Bool
  | .append r | .failAppend r _ => decide (w.pos = w.size) && decide r.Fits
  | .close | .reopen => true

/-- The record is read at its offset, and found by a scan. -/
def Returns (w : Wal) (offset : Nat) (r : Record) : Prop :=
  w.readAt offset = .ok r ∧ ∃ listed, w.scan = .ok listed ∧ (offset, r) ∈ listed

/-- Where a list of records stands, each with its offset. -/
def placed (offset : Nat) (rs : List Record) : List (Nat × Record) := (Framing.starts encode offset rs).zip rs

theorem placed_cons (offset : Nat) (r : Record) (rs : List Record) :
    placed offset (r :: rs) = (offset, r) :: placed (offset + (encode r).length) rs := rfl

theorem placed_append (offset : Nat) (rs rs' : List Record) :
    placed offset (rs ++ rs') = placed offset rs ++ placed (offset + (Framing.log encode rs).length) rs' := by
  rw [placed, starts_append, zip_append (length_starts ..)]
  rfl

variable {offset : Nat} {r : Record} {rs : List Record}

theorem placed_split (listed : (offset, r) ∈ placed 0 rs) :
    ∃ front back, rs = front ++ r :: back ∧ offset = (Framing.log encode front).length := by
  -- The records before the first one are carried along, since the offset counts from the start.
  have general : ∀ (rs : List Record) (start : Nat), (offset, r) ∈ placed start rs →
      ∃ front back, rs = front ++ r :: back ∧ offset = start + (Framing.log encode front).length := by
    intro rs
    induction rs with
    | nil =>
      intro start listed
      cases listed
    | cons head rs ih =>
      intro start listed
      rw [placed_cons] at listed
      rcases mem_cons.mp listed with here | later
      · cases here
        exact ⟨[], rs, rfl, rfl⟩
      · obtain ⟨front, back, rfl, place⟩ := ih _ later
        refine ⟨head :: front, back, rfl, ?_⟩
        rw [place, Framing.log_cons, length_append, add_assoc]
  obtain ⟨front, back, split, place⟩ := general rs 0 listed
  exact ⟨front, back, split, by rw [place, zero_add]⟩

theorem scanFrom_log (fits : ∀ r ∈ rs, r.Fits) (front : List UInt8) {fuel : Nat} (enough : rs.length < fuel) :
    scanFrom (front ++ Framing.log encode rs) fuel front.length = .ok (placed front.length rs) := by
  -- The induction moves the record that was read to the front.
  induction rs generalizing front fuel with
  | nil =>
    cases fuel with
    | zero => omega
    | succ fuel =>
      rw [scanFrom, if_neg (by simp)]
      rfl
  | cons r rs ih =>
    cases fuel with
    | zero => omega
    | succ fuel =>
      have own := fits r mem_cons_self
      have later := ih (fun r' listed => fits r' (mem_cons_of_mem r listed)) (front ++ encode r)
        (by simpa using enough : rs.length < fuel)
      rw [append_assoc, length_append] at later
      have filled : 0 < (encode r).length := length_pos_iff.mpr (lawful.filled r)
      rw [scanFrom, if_pos (by rw [Framing.log_cons]; simp only [length_append]; omega), Framing.log_cons,
        drop_left, decode_encode r _ own]
      simp only [later, placed_cons]

/-- The log holds whole records, and at most the beginning of more. -/
structure Holds (w : Wal) (good more : List Record) (n : Nat) : Prop where
  bytes : w.bytes = Framing.log encode good ++ (Framing.log encode more).take n
  size : w.size = (Framing.log encode good).length
  pos : w.pos = w.bytes.length
  fits : ∀ r ∈ good ++ more, r.Fits

variable {w w' : Wal} {good more : List Record} {n : Nat}

section

variable (holds : w.Holds good more n)

include holds

theorem Holds.good_fits : ∀ r ∈ good, r.Fits :=
  fun r own => holds.fits r (mem_append_left _ own)

theorem Holds.scanned (running : w.closed = false) : w.scan = .ok (placed 0 good) := by
  have long : ¬ w.bytes.length < w.size := by
    rw [holds.bytes, holds.size, length_append]
    omega
  have few := length_le_log lawful.filled good
  unfold scan
  rw [running, if_neg (by decide), if_neg long, holds.bytes, holds.size, take_left]
  exact scanFrom_log holds.good_fits [] (by omega)

theorem Holds.reads (running : w.closed = false) (listed : (offset, r) ∈ placed 0 good) : w.readAt offset = .ok r := by
  obtain ⟨front, back, rfl, rfl⟩ := placed_split listed
  have own := holds.good_fits r (by simp)
  -- Behind the offset stands the record, and whatever follows it.
  have behind : ∃ rest, w.bytes.drop (Framing.log encode front).length = encode r ++ rest := by
    refine ⟨Framing.log encode back ++ (Framing.log encode more).take n, ?_⟩
    rw [holds.bytes, log_append, Framing.log_cons, append_assoc, drop_left, append_assoc]
  obtain ⟨rest, behind⟩ := behind
  have filled : 0 < (encode r).length := length_pos_iff.mpr (lawful.filled r)
  have inside : ¬ w.size ≤ (Framing.log encode front).length := by
    rw [holds.size, log_append, Framing.log_cons]
    simp only [length_append]
    omega
  have key : Bytes.toNat (slice (encode r ++ rest) 13 4) = r.key.length := by
    rw [slice_keyLen, Bytes.toNat_ofNat own.keyLen]
  have value : Bytes.toNat (slice (encode r ++ rest) 17 4) = r.value.length := by
    rw [slice_valueLen, Bytes.toNat_ofNat own.value]
  have whole : decode (encode r) = .ok (r, (encode r).length) := by
    simpa using decode_encode r [] own
  unfold readAt
  rw [running]
  simp only [Bool.false_eq_true, if_false, if_neg inside, behind, key, value, ← length_encode]
  rw [if_neg (by simp only [length_append, length_encode]; omega),
    if_neg (by simp only [length_append]; omega), take_left, whole]

theorem Holds.returns (running : w.closed = false) (listed : (offset, r) ∈ placed 0 good) : w.Returns offset r :=
  ⟨holds.reads running listed, placed 0 good, holds.scanned running, listed⟩

theorem Holds.opens :
    ∃ opened extra, openWith w.bytes = .ok opened ∧ opened.closed = false ∧ opened.Holds (good ++ extra) [] 0 := by
  have cut : w.bytes = (Framing.log encode (good ++ more)).take ((Framing.log encode good).length + n) := by
    rw [holds.bytes, log_append, take_length_add_append]
  have read := recover_take holds.fits ((Framing.log encode good).length + n)
  rw [← cut, wholeIn_append, if_pos (Nat.le_add_right ..)] at read
  generalize extra : Framing.wholeIn encode ((Framing.log encode good).length + n -
    (Framing.log encode good).length) more = rest at read
  have listed : ∀ r ∈ good ++ rest, r ∈ good ++ more := by
    intro r own
    rcases mem_append.mp own with old | new
    · exact mem_append_left _ old
    · exact mem_append_right _ ((wholeIn_front encode _ more).subset (extra ▸ new))
  refine ⟨_, rest, by rw [openWith, read], rfl, ?_, rfl, rfl, ?_⟩
  · simp
  · intro r own
    rw [append_nil] at own
    exact holds.fits r (listed r own)

theorem Holds.clean (settled : w.pos = w.size) : w.bytes = Framing.log encode good := by
  have none : ((Framing.log encode more).take n).length = 0 := by
    have length := holds.pos
    rw [settled, holds.size, holds.bytes, length_append] at length
    omega
  rw [holds.bytes, eq_nil_of_length_eq_zero none, append_nil]

theorem Holds.append (settled : w.pos = w.size) (own : r.Fits) : (w.append r).Holds (good ++ [r]) [] 0 := by
  have written : (w.append r).bytes = Framing.log encode (good ++ [r]) := by
    show writeAt w.bytes w.pos (encode r) = _
    rw [holds.pos, writeAt_length, holds.clean settled, log_append, Framing.log_cons, Framing.log_nil, append_nil]
  refine ⟨?_, ?_, ?_, ?_⟩
  · rw [written, Framing.log_nil, take_nil, append_nil]
  · show w.size + (encode r).length = _
    rw [holds.size, log_append, length_append, Framing.log_cons, Framing.log_nil, append_nil]
  · show w.pos + (encode r).length = _
    rw [written, settled, holds.size, log_append, length_append, Framing.log_cons, Framing.log_nil, append_nil]
  · intro r' listed
    rw [append_nil] at listed
    rcases mem_append.mp listed with old | last
    · exact holds.good_fits r' old
    · rw [mem_singleton.mp last]
      exact own

/-- A step keeps the whole records and those it acknowledges. -/
theorem Holds.step {acked new : List (Nat × Record)} {a : Act}
    (kept : ∀ e ∈ acked, e ∈ placed 0 good) (sound : w.sound a = true) (moved : w.step a = some (w', new)) :
    ∃ good' more' n', w'.Holds good' more' n' ∧ ∀ e ∈ new ++ acked, e ∈ placed 0 good' := by
  cases a with
  | append r =>
    simp only [Wal.sound, Bool.and_eq_true, decide_eq_true_eq] at sound
    obtain ⟨settled, own⟩ := sound
    rw [Wal.step, Option.ite_none_left_eq_some] at moved
    obtain ⟨rfl, rfl⟩ := Prod.mk.inj (Option.some.inj moved.2)
    refine ⟨good ++ [r], [], 0, holds.append settled own, fun e listed => ?_⟩
    rw [placed_append, zero_add, ← holds.size]
    rcases mem_append.mp listed with last | old
    · exact mem_append_right _ last
    · exact mem_append_left _ (kept e old)
  | failAppend r m =>
    simp only [Wal.sound, Bool.and_eq_true, decide_eq_true_eq] at sound
    obtain ⟨settled, own⟩ := sound
    rw [Wal.step, Option.ite_none_left_eq_some, not_or, not_lt] at moved
    obtain ⟨⟨-, short⟩, result⟩ := moved
    cases result
    -- The bytes land behind the whole records, where the handle stands.
    have written : (w.failAppend r m).bytes = Framing.log encode good ++ (encode r).take m := by
      show writeAt w.bytes w.pos ((encode r).take m) = _
      rw [holds.pos, writeAt_length, holds.clean settled]
    refine ⟨good, [r], m, ⟨?_, holds.size, ?_, ?_⟩, kept⟩
    · rw [written, Framing.log_cons, Framing.log_nil, append_nil]
    · show w.pos + m = _
      rw [written, settled, holds.size, length_append, length_take, min_eq_left short]
    · intro r' listed
      rcases mem_append.mp listed with old | last
      · exact holds.good_fits r' old
      · rw [mem_singleton.mp last]
        exact own
  | close =>
    cases moved
    exact ⟨good, more, n, ⟨holds.bytes, holds.size, holds.pos, holds.fits⟩, kept⟩
  | reopen =>
    obtain ⟨opened, extra, reopened, -, again⟩ := holds.opens
    rw [Wal.step, reopened] at moved
    cases moved
    refine ⟨_, _, _, again, fun e listed => ?_⟩
    rw [placed_append]
    exact mem_append_left _ (kept e listed)

end

/-- Every record whose append returned is read and scanned, now and after opening again, if nothing follows a
torn one. -/
theorem appended_returned {w : Wal} {past : List Wal} {acked : List (Nat × Record)}
    (run : Run.Reach step (fun w a => w.sound a = true) fresh w past acked) {offset : Nat} {r : Record}
    (appended : (offset, r) ∈ acked) :
    (w.closed = false → w.Returns offset r) ∧
      ∃ opened, openWith w.bytes = .ok opened ∧ opened.Returns offset r := by
  have holds : ∃ good more n, w.Holds good more n ∧ ∀ e ∈ acked, e ∈ placed 0 good := by
    refine run.invariant (P := fun w _ acked => ∃ good more n, w.Holds good more n ∧
      ∀ e ∈ acked, e ∈ placed 0 good) ?_ ?_
    · exact ⟨[], [], 0, ⟨rfl, rfl, rfl, fun _ listed => by cases listed⟩, fun _ listed => by cases listed⟩
    · rintro w a w' past acked new _ sound moved ⟨good, more, n, holds, kept⟩
      exact holds.step kept sound moved
  obtain ⟨good, more, n, holds, kept⟩ := holds
  refine ⟨fun running => holds.returns running (kept _ appended), ?_⟩
  obtain ⟨opened, extra, reopened, running, again⟩ := holds.opens
  refine ⟨opened, reopened, again.returns running ?_⟩
  rw [placed_append]
  exact mem_append_left _ (kept _ appended)

/-- An append that fails within its record, after one that returned. -/
theorem appended_returned_torn : ∃ w past acked,
    Run.Reach step (fun w a => w.sound a = true) fresh w past acked ∧
    w.size < w.pos ∧ w.Returns 0 ⟨.put, 1, [1], [2]⟩ := by
  obtain ⟨w, past, acked, run, tested⟩ := Run.exec_exists step sound fresh
    [.append ⟨.put, 1, [1], [2]⟩, .failAppend ⟨.put, 2, [3], [4]⟩ 5]
    (fun r => decide (r.1.size < r.1.pos ∧ r.1.closed = false ∧ (0, ⟨.put, 1, [1], [2]⟩) ∈ r.2.2)) (by rfl)
  obtain ⟨left, running, appended⟩ := of_decide_eq_true tested
  exact ⟨w, past, acked, run, left, (appended_returned run appended).1 running⟩

/-- One byte of a record is written, and the next one cannot be read. -/
theorem append_unreadable : ∃ w past, Run.Reach step (fun _ _ => True) fresh w past [(0, ⟨.put, 2, [3], [4]⟩)] ∧
    w.closed = false ∧ w.readAt 0 ≠ .ok ⟨.put, 2, [3], [4]⟩ ∧ openWith w.bytes = .ok fresh := by
  obtain ⟨w, past, acked, run, tested⟩ := Run.exec_exists step (fun _ _ => true) fresh
    [.failAppend ⟨.put, 1, [1], [2]⟩ 1, .append ⟨.put, 2, [3], [4]⟩]
    (fun r => decide (r.2.2 = [(0, ⟨.put, 2, [3], [4]⟩)] ∧ r.1.closed = false ∧
      r.1.readAt 0 ≠ .ok ⟨.put, 2, [3], [4]⟩) &&
        Run.passes (fun opened : Wal => decide (opened = fresh)) (openWith r.1.bytes)) (by rfl)
  rw [Bool.and_eq_true] at tested
  obtain ⟨rfl, running, unread⟩ := of_decide_eq_true tested.1
  obtain ⟨opened, reopened, empty⟩ := Run.exists_of_passes tested.2
  exact ⟨w, past, run.weaken fun _ _ _ => trivial, running, unread, of_decide_eq_true empty ▸ reopened⟩

/-- Appends records one after the other; each is returned its offset. -/
def appendAll (w : Wal) : List Record → Wal × List (Nat × Record)
  | [] => (w, [])
  | r :: rs =>
    let (w', placed) := (w.append r).appendAll rs
    (w', (w.size, r) :: placed)

/-- Records that are appended, and the byte at which the file is cut. -/
structure Round where
  records : List Record
  cut : Nat
  deriving DecidableEq, Repr

def before (cut : Nat) (listed : List (Nat × Record)) : List (Nat × Record) :=
  listed.filter fun e => decide (e.1 + (encode e.2).length ≤ cut)

/-- Appends, cuts and openings in rounds, and the records each cut left. -/
def rounds (w : Wal) (listed : List (Nat × Record)) : List Round → Except OpenError (Wal × List (Nat × Record))
  | [] => .ok (w, listed)
  | round :: later =>
    let (w', new) := w.appendAll round.records
    match openWith (w'.bytes.take round.cut) with
    | .error e => .error e
    | .ok opened => opened.rounds (before round.cut (listed ++ new)) later

theorem le_placed {start : Nat} : ∀ e ∈ placed start rs, start ≤ e.1 := by
  induction rs generalizing start with
  | nil =>
    intro e listed
    cases listed
  | cons r rs ih =>
    intro e listed
    rcases mem_cons.mp listed with rfl | later
    · exact le_refl _
    · have behind := ih e later
      omega

theorem before_placed (start cut : Nat) (rs : List Record) :
    before (start + cut) (placed start rs) = placed start (Framing.wholeIn encode cut rs) := by
  induction rs generalizing start cut with
  | nil => rfl
  | cons r rs ih =>
    rw [Framing.wholeIn, placed_cons, before]
    split_ifs with fits
    · have total : start + cut = start + (encode r).length + (cut - (encode r).length) := by omega
      rw [filter_cons_of_pos (by simp only [decide_eq_true_eq]; omega), placed_cons, ← ih, ← total]
      rfl
    · -- A record that is cut off ends the list, since all later ones start behind it.
      refine filter_eq_nil_iff.mpr fun e listed => ?_
      have filled : 0 < (encode e.2).length := length_pos_iff.mpr (lawful.filled e.2)
      rw [decide_eq_true_eq]
      rcases mem_cons.mp listed with rfl | later
      · show ¬ start + (encode r).length ≤ start + cut
        omega
      · have behind := le_placed e later
        omega

theorem size_placed (start : Nat) (rs : List Record) :
    ((placed start rs).map fun e => (encode e.2).length).sum = (Framing.log encode rs).length := by
  induction rs generalizing start with
  | nil => rfl
  | cons r rs ih => rw [placed_cons, map_cons, sum_cons, ih, Framing.log_cons, length_append]

structure Whole (w : Wal) (good : List Record) : Prop where
  holds : w.Holds good [] 0
  running : w.closed = false

section

variable (whole : w.Whole good)
include whole

theorem Whole.settled : w.pos = w.size := by
  rw [whole.holds.pos, whole.holds.bytes, whole.holds.size, Framing.log_nil, take_nil, append_nil]

theorem Whole.appendAll (fits : ∀ r ∈ rs, r.Fits) :
    (w.appendAll rs).1.Whole (good ++ rs) ∧ (w.appendAll rs).2 = placed w.size rs := by
  induction rs generalizing w good with
  | nil => exact ⟨by rwa [append_nil], rfl⟩
  | cons r rs ih =>
    have next : (w.append r).Whole (good ++ [r]) :=
      ⟨whole.holds.append whole.settled (fits r mem_cons_self), whole.running⟩
    obtain ⟨all, offsets⟩ := ih next fun r' listed => fits r' (mem_cons_of_mem r listed)
    rw [append_assoc, singleton_append] at all
    refine ⟨all, ?_⟩
    show (w.size, r) :: ((w.append r).appendAll rs).2 = _
    rw [offsets, placed_cons]
    rfl

theorem Whole.reopened (cut : Nat) :
    ∃ opened, openWith (w.bytes.take cut) = .ok opened ∧ opened.Whole (Framing.wholeIn encode cut good) := by
  have read := recover_take whole.holds.good_fits cut
  rw [← whole.holds.clean whole.settled] at read
  refine ⟨_, by rw [openWith, read], ⟨⟨?_, rfl, rfl, fun r own => ?_⟩, rfl⟩⟩
  · rw [Framing.log_nil, take_nil, append_nil]
  · rw [append_nil] at own
    exact whole.holds.good_fits r ((wholeIn_front ..).subset own)

theorem Whole.rounds {later : List Round} (fits : ∀ round ∈ later, ∀ r ∈ round.records, r.Fits) :
    ∃ w' good', w.rounds (placed 0 good) later = .ok (w', placed 0 good') ∧ w'.Whole good' := by
  induction later generalizing w good with
  | nil => exact ⟨w, good, rfl, whole⟩
  | cons round later ih =>
    obtain ⟨all, offsets⟩ := whole.appendAll (fits round mem_cons_self)
    obtain ⟨opened, reopened, kept⟩ := all.reopened round.cut
    obtain ⟨w', good', ran, ends⟩ := ih kept fun next listed => fits next (mem_cons_of_mem round listed)
    refine ⟨w', good', ?_, ends⟩
    -- What was appended before and in this round stands in the file in this order.
    have listed : placed 0 good ++ (w.appendAll round.records).2 = placed 0 (good ++ round.records) := by
      rw [offsets, placed_append, whole.holds.size, zero_add]
    have left := before_placed 0 round.cut (good ++ round.records)
    rw [zero_add] at left
    rw [Wal.rounds]
    simp only [reopened, listed, left, ran]

end

/-- Recovery keeps exactly the whole records, over any number of rounds. -/
theorem rounds_recovered (past : List Round) (pastFits : ∀ round ∈ past, ∀ r ∈ round.records, r.Fits)
    (rs : List Record) (fits : ∀ r ∈ rs, r.Fits) :
    ∃ w listed, fresh.rounds [] past = .ok (w, listed) ∧
      w.size = (listed.map fun e => (encode e.2).length).sum ∧ w.scan = .ok listed ∧
      (w.appendAll rs).2.map Prod.snd = rs ∧ (w.appendAll rs).1.scan = .ok (listed ++ (w.appendAll rs).2) ∧
      ∀ e ∈ listed ++ (w.appendAll rs).2, (w.appendAll rs).1.readAt e.1 = .ok e.2 := by
  have start : fresh.Whole [] := ⟨⟨rfl, rfl, rfl, fun _ listed => by cases listed⟩, rfl⟩
  obtain ⟨w, good, ran, whole⟩ := start.rounds pastFits
  obtain ⟨all, offsets⟩ := whole.appendAll fits
  have listed : placed 0 good ++ (w.appendAll rs).2 = placed 0 (good ++ rs) := by
    rw [offsets, placed_append, whole.holds.size, zero_add]
  refine ⟨w, placed 0 good, ran, ?_, whole.holds.scanned whole.running, ?_, ?_, fun e own => ?_⟩
  · rw [size_placed, whole.holds.size]
  · rw [offsets, placed, map_snd_zip (length_starts ..).ge]
  · rw [listed, all.holds.scanned all.running]
  · rw [listed] at own
    exact all.holds.reads all.running own

/-- Two rounds that each cut into the record appended last. -/
def cutTwice : List Round :=
  [⟨[⟨.put, 1, [1], [2]⟩, ⟨.put, 2, [3], [4]⟩], 40⟩, ⟨[⟨.put, 3, [5], []⟩], 44⟩]

/-- The first record survives both rounds, and the next is appended. -/
theorem rounds_recovered_twice : ∃ w, fresh.rounds [] cutTwice = .ok (w, [(0, ⟨.put, 1, [1], [2]⟩)]) ∧
    w.size = 23 ∧ (w.appendAll [⟨.delete, 4, [6], []⟩]).1.readAt 0 = .ok ⟨.put, 1, [1], [2]⟩ := by
  obtain ⟨w, listed, ran, size, -, -, -, read⟩ := rounds_recovered cutTwice (by decide)
    [⟨.delete, 4, [6], []⟩] (by decide)
  have evaluated : Run.passes (fun found : Wal × List (Nat × Record) =>
      decide (found.2 = [(0, ⟨.put, 1, [1], [2]⟩)])) (fresh.rounds [] cutTwice) = true := by decide +kernel
  obtain ⟨found, same, tested⟩ := Run.exists_of_passes evaluated
  rw [ran] at same
  cases same
  obtain rfl : listed = _ := of_decide_eq_true tested
  exact ⟨w, ran, size, read (0, ⟨.put, 1, [1], [2]⟩) (by simp)⟩

end Wal

end Store
