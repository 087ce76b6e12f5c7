import LittleDb.Cluster.Log
import LittleDb.Lib.Run
import LittleDb.Store.Record

/-! The persistent Raft log of a node: a base header and a sequence of frames, one per entry. -/

namespace Cluster

open List

open Store (slice slice_mid slice_take)
open Bytes (writeAt writeAt_length)

variable {n : Nat} {l : RaftLog}

def raftLogMagic : Nat := 0x524146544C4F4722

theorem raftLogMagic_fits : raftLogMagic < 256 ^ 8 := by decide

def raftLogHeaderSize : Nat := 24

def raftEntryHeaderSize : Nat := 13

def EntryKind.toByte : EntryKind → UInt8
  | .data => 0
  | .config => 1

/-- The kind a byte stands for; only the two above are ever written. -/
def EntryKind.ofByte (b : UInt8) : EntryKind := if b = 1 then .config else .data

@[simp] theorem EntryKind.ofByte_toByte (kind : EntryKind) : ofByte kind.toByte = kind := by
  cases kind <;> rfl

/-- An entry whose term and payload length fit the fields of a frame. -/
structure Entry.Fits (e : Entry) : Prop where
  term : e.term < 2 ^ 64
  data : e.data.length < 2 ^ 32

instance Entry.decidableFits (e : Entry) : Decidable e.Fits :=
  decidable_of_iff (e.term < 2 ^ 64 ∧ e.data.length < 2 ^ 32)
    ⟨fun small => ⟨small.1, small.2⟩, fun fits => ⟨fits.term, fits.data⟩⟩

def encodeHeader (baseIndex baseTerm : Nat) : List UInt8 :=
  Bytes.ofNat 8 raftLogMagic ++ (Bytes.ofNat 8 baseIndex ++ Bytes.ofNat 8 baseTerm)

def encodeFrame (e : Entry) : List UInt8 :=
  Bytes.ofNat 8 e.term ++ ([e.kind.toByte] ++ (Bytes.ofNat 4 e.data.length ++ e.data))

/-- Why a frame cannot be read: its header or body does not end in the file. -/
inductive FrameError where
  | torn
  deriving DecidableEq, Repr

/-- Reads the frame at the front, with the number of bytes it takes. -/
def decodeFrame (buf : List UInt8) : Except FrameError (Entry × Nat) :=
  if buf.length < raftEntryHeaderSize then .error .torn
  else
    let term := Bytes.toNat (slice buf 0 8)
    let kind := EntryKind.ofByte (buf.getD 8 0)
    let n := Bytes.toNat (slice buf 9 4)
    if buf.length < raftEntryHeaderSize + n then .error .torn
    else .ok (⟨term, kind, slice buf raftEntryHeaderSize n⟩, raftEntryHeaderSize + n)

@[simp] theorem length_encodeHeader (baseIndex baseTerm : Nat) :
    (encodeHeader baseIndex baseTerm).length = raftLogHeaderSize := by
  simp [encodeHeader, raftLogHeaderSize]

@[simp] theorem length_encodeFrame (e : Entry) : (encodeFrame e).length = raftEntryHeaderSize + e.data.length := by
  simp only [encodeFrame, length_append, Bytes.length_ofNat, length_cons, length_nil, raftEntryHeaderSize]
  omega

section Fields

variable (e : Entry) (rest : List UInt8)

theorem slice_term : slice (encodeFrame e ++ rest) 0 8 = Bytes.ofNat 8 e.term := by
  have layout : encodeFrame e ++ rest = [] ++ (Bytes.ofNat 8 e.term ++
      ([e.kind.toByte] ++ (Bytes.ofNat 4 e.data.length ++ (e.data ++ rest)))) := by
    simp [encodeFrame]
  rw [layout, slice_mid (by simp) (by simp)]

theorem getD_kind : (encodeFrame e ++ rest).getD 8 0 = e.kind.toByte := by
  simp [encodeFrame, List.getD]

theorem slice_len : slice (encodeFrame e ++ rest) 9 4 = Bytes.ofNat 4 e.data.length := by
  have layout : encodeFrame e ++ rest = (Bytes.ofNat 8 e.term ++ [e.kind.toByte]) ++
      (Bytes.ofNat 4 e.data.length ++ (e.data ++ rest)) := by
    simp [encodeFrame]
  rw [layout, slice_mid (by simp) (by simp)]

theorem slice_data : slice (encodeFrame e ++ rest) raftEntryHeaderSize e.data.length = e.data := by
  have layout : encodeFrame e ++ rest = (Bytes.ofNat 8 e.term ++ [e.kind.toByte] ++
      Bytes.ofNat 4 e.data.length) ++ (e.data ++ rest) := by
    simp [encodeFrame]
  rw [layout, slice_mid (by simp [raftEntryHeaderSize]) rfl]

end Fields

theorem decodeFrame_encodeFrame (e : Entry) (rest : List UInt8) (fits : e.Fits) :
    decodeFrame (encodeFrame e ++ rest) = .ok (e, (encodeFrame e).length) := by
  have len : Bytes.toNat (slice (encodeFrame e ++ rest) 9 4) = e.data.length := by
    rw [slice_len, Bytes.toNat_ofNat fits.data]
  have term : Bytes.toNat (slice (encodeFrame e ++ rest) 0 8) = e.term := by
    rw [slice_term, Bytes.toNat_ofNat fits.term]
  have size : (encodeFrame e ++ rest).length = raftEntryHeaderSize + e.data.length + rest.length := by simp
  unfold decodeFrame
  rw [if_neg (by rw [size]; omega)]
  simp only [len]
  rw [if_neg (by rw [size]; omega)]
  simp only [term, getD_kind, EntryKind.ofByte_toByte, slice_data, length_encodeFrame]

theorem decodeFrame_torn (e : Entry) (bytes : List UInt8) (fits : e.Fits)
    (torn : Framing.Torn encodeFrame e bytes) : decodeFrame bytes = .error .torn := by
  obtain ⟨cut, fewer⟩ := torn.cut
  unfold decodeFrame
  by_cases header : bytes.length < raftEntryHeaderSize
  · rw [if_pos header]
  · -- The frame header is whole, so it declares more bytes than there are.
    rw [if_neg header]
    have len : Bytes.toNat (slice bytes 9 4) = e.data.length := by
      have whole : encodeFrame e = encodeFrame e ++ [] := by simp
      rw [cut, slice_take (by simp only [raftEntryHeaderSize] at header; omega), whole, slice_len,
        Bytes.toNat_ofNat fits.data]
    simp only [len]
    rw [if_pos (by rwa [length_encodeFrame] at fewer)]

theorem frame_lawful : Framing.Lawful encodeFrame decodeFrame Entry.Fits FrameError.torn where
  filled e := by simp [encodeFrame]
  whole := decodeFrame_encodeFrame
  torn := decodeFrame_torn

theorem decodeFrame_size {buf : List UInt8} {e : Entry}
    (read : decodeFrame buf = .ok (e, n)) : n = (encodeFrame e).length ∧ n ≤ buf.length := by
  unfold decodeFrame at read
  dsimp only at read
  split_ifs at read with header body
  cases read
  have whole : (slice buf raftEntryHeaderSize (Bytes.toNat (slice buf 9 4))).length =
      Bytes.toNat (slice buf 9 4) := by
    rw [slice, length_take, length_drop]
    omega
  exact ⟨by rw [length_encodeFrame, whole], by omega⟩

/-- The open log file: bytes, handle, and what is known of the frames. -/
structure LogFile where
  bytes : List UInt8
  pos : Nat
  baseIndex : Nat
  baseTerm : Nat
  offsets : List Nat
  size : Nat
  deriving DecidableEq, Repr

inductive LoadError where
  | badRaftLog
  deriving DecidableEq, Repr

namespace LogFile

def writeFreshHeader (baseIndex baseTerm : Nat) : LogFile where
  bytes := encodeHeader baseIndex baseTerm
  pos := raftLogHeaderSize
  baseIndex := baseIndex
  baseTerm := baseTerm
  offsets := []
  size := raftLogHeaderSize

/-- Reads frames from an offset on: the entries, their offsets, and the end. -/
def loadFrames (buf : List UInt8) : Nat → Nat → List Entry × List Nat × Nat
  | 0, off => ([], [], off)
  | fuel + 1, off =>
    if off < buf.length then
      match decodeFrame (buf.drop off) with
      -- A torn frame header or a torn frame body ends the loop.
      | .error _ => ([], [], off)
      | .ok (e, n) =>
        let (entries, offsets, last) := loadFrames buf fuel (off + n)
        (e :: entries, off :: offsets, last)
    else ([], [], off)

/-- Opens a log file without its torn tail, with the surviving entries. -/
def load (buf : List UInt8) : Except LoadError (LogFile × List Entry) :=
  if buf.length = 0 then .ok (writeFreshHeader 0 0, [])
  else if buf.length < 8 then .ok (writeFreshHeader 0 0, [])
  else if Bytes.toNat (slice buf 0 8) ≠ raftLogMagic then .error .badRaftLog
  else if buf.length < raftLogHeaderSize then .ok (writeFreshHeader 0 0, [])
  else
    -- A frame takes more than one byte, so the size of the file is fuel enough.
    let (entries, offsets, off) := loadFrames buf (buf.length + 1) raftLogHeaderSize
    .ok (⟨buf.take off, off, Bytes.toNat (slice buf 8 8), Bytes.toNat (slice buf 16 8), offsets, off⟩,
      entries)

/-- Writes one entry behind the others: the header, then the payload. -/
def append (lf : LogFile) (e : Entry) : LogFile :=
  let header := Bytes.ofNat 8 e.term ++ ([e.kind.toByte] ++ Bytes.ofNat 4 e.data.length)
  let bytes := writeAt (writeAt lf.bytes lf.pos header) (lf.pos + header.length) e.data
  { lf with
    bytes := bytes
    pos := lf.pos + header.length + e.data.length
    offsets := lf.offsets ++ [lf.size]
    size := lf.size + (raftEntryHeaderSize + e.data.length) }

/-- The file a process leaves that dies after some bytes of an entry's frame. -/
def tornAppend (lf : LogFile) (e : Entry) (n : Nat) : List UInt8 :=
  writeAt lf.bytes lf.pos ((encodeFrame e).take n)

/-- Drops the entries from an index on, unless compacted or past the end. -/
def truncateFrom (lf : LogFile) (index : Nat) : LogFile :=
  if index ≤ lf.baseIndex then lf
  else
    match lf.offsets[index - lf.baseIndex - 1]? with
    | none => lf
    | some off =>
      { lf with
        bytes := lf.bytes.take off
        pos := off
        offsets := lf.offsets.take (index - lf.baseIndex - 1)
        size := off }

/-- The frames of the survivors, where each starts, and their end. -/
def compactFrames : Nat → List Entry → List UInt8 × List Nat × Nat
  | off, [] => ([], [], off)
  | off, e :: survivors =>
    let (bytes, offsets, last) := compactFrames (off + (raftEntryHeaderSize + e.data.length)) survivors
    (encodeFrame e ++ bytes, off :: offsets, last)

/-- The file that replaces the old one in a compaction. -/
def compact (newBaseIndex newBaseTerm : Nat) (survivors : List Entry) : LogFile :=
  let (frames, offsets, off) := compactFrames raftLogHeaderSize survivors
  { bytes := encodeHeader newBaseIndex newBaseTerm ++ frames
    pos := off
    baseIndex := newBaseIndex
    baseTerm := newBaseTerm
    offsets := offsets
    size := off }

/-- The file that replaces the old one when a snapshot is installed. -/
def resetToBase (newBaseIndex newBaseTerm : Nat) : LogFile := compact newBaseIndex newBaseTerm []

end LogFile

/-- A file of a header and frames of the entries, with their offsets. -/
structure LogFile.Framed (lf : LogFile) (entries : List Entry) : Prop where
  bytes : lf.bytes = encodeHeader lf.baseIndex lf.baseTerm ++ Framing.log encodeFrame entries
  offsets : lf.offsets = Framing.starts encodeFrame raftLogHeaderSize entries
  size : lf.size = lf.bytes.length
  pos : lf.pos = lf.size

/-- A log whose base and entries fit the fields of the file. -/
structure RaftLog.Fits (l : RaftLog) : Prop where
  lastIndex : l.lastIndex < 2 ^ 64
  baseTerm : l.baseTerm < 2 ^ 64
  entries : ∀ e ∈ l.entries, e.Fits

structure LogFile.Mirrors (lf : LogFile) (l : RaftLog) : Prop extends lf.Framed l.entries where
  baseIndex : lf.baseIndex = l.baseIndex
  baseTerm : lf.baseTerm = l.baseTerm

namespace LogFile

variable {lf : LogFile} {l : RaftLog} {entries : List Entry}

theorem loadFrames_eq (buf : List UInt8) (fuel off : Nat) (inside : off ≤ buf.length) :
    loadFrames buf fuel off =
      ((Framing.walk decodeFrame fuel (buf.drop off)).1,
        Framing.starts encodeFrame off (Framing.walk decodeFrame fuel (buf.drop off)).1,
        off + (Framing.walk decodeFrame fuel (buf.drop off)).2.1) := by
  induction fuel generalizing off with
  | zero => simp [loadFrames, Framing.walk]
  | succ fuel ih =>
    rw [loadFrames, Framing.walk]
    by_cases more : off < buf.length
    · have filled : (buf.drop off).isEmpty = false := by simp [more]
      rw [if_pos more, filled]
      cases read : decodeFrame (buf.drop off) with
      | error e => simp
      | ok found =>
        obtain ⟨e, n⟩ := found
        obtain ⟨rfl, inside⟩ := decodeFrame_size read
        -- The frame ends within the file, so the loop goes on behind it.
        have within : off + (encodeFrame e).length ≤ buf.length := by
          rw [length_drop] at inside
          omega
        simp only [ih _ within, drop_drop, Framing.starts_cons, Bool.false_eq_true, if_false, add_assoc]
    · have empty : (buf.drop off).isEmpty = true := by simp; omega
      rw [if_neg more, empty]
      simp

theorem compactFrames_eq (off : Nat) (survivors : List Entry) :
    compactFrames off survivors = (Framing.log encodeFrame survivors,
      Framing.starts encodeFrame off survivors, off + (Framing.log encodeFrame survivors).length) := by
  induction survivors generalizing off with
  | nil => rfl
  | cons e survivors ih => simp [compactFrames, ih, add_assoc]

theorem Framed.size_eq (framed : lf.Framed entries) :
    lf.size = raftLogHeaderSize + (Framing.log encodeFrame entries).length := by
  rw [framed.size, framed.bytes, length_append, length_encodeHeader]

theorem Framed.append_bytes (framed : lf.Framed entries) (e : Entry) :
    (lf.append e).bytes = lf.bytes ++ encodeFrame e := by
  have pos : lf.pos = lf.bytes.length := framed.pos.trans framed.size
  simp only [append, pos, writeAt_length]
  rw [← length_append, writeAt_length]
  simp [encodeFrame]

theorem Framed.append (framed : lf.Framed entries) (e : Entry) : (lf.append e).Framed (entries ++ [e]) where
  bytes := by
    rw [framed.append_bytes, framed.bytes]
    simp [LogFile.append]
  offsets := by
    rw [Framing.starts_append, ← framed.size_eq]
    simp [LogFile.append, framed.offsets]
  size := by
    rw [framed.append_bytes]
    simp [LogFile.append, framed.size]
  pos := by
    simp only [LogFile.append, framed.pos, length_append, Bytes.length_ofNat, length_cons,
      length_nil, raftEntryHeaderSize]
    omega

theorem framed_compact (newBaseIndex newBaseTerm : Nat) (survivors : List Entry) :
    (compact newBaseIndex newBaseTerm survivors).Framed survivors := by
  constructor <;> simp [compact, compactFrames_eq]

theorem Framed.truncate (framed : lf.Framed entries) (inside : n < entries.length) :
    lf.offsets[n]? = some (raftLogHeaderSize + (Framing.log encodeFrame (entries.take n)).length) ∧
    lf.bytes.take (raftLogHeaderSize + (Framing.log encodeFrame (entries.take n)).length) =
      encodeHeader lf.baseIndex lf.baseTerm ++ Framing.log encodeFrame (entries.take n) := by
  refine ⟨by rw [framed.offsets, Framing.getElem?_starts encodeFrame _ inside], ?_⟩
  have split : lf.bytes = (encodeHeader lf.baseIndex lf.baseTerm ++
      Framing.log encodeFrame (entries.take n)) ++ Framing.log encodeFrame (entries.drop n) := by
    rw [framed.bytes, append_assoc, ← Framing.log_append, take_append_drop]
  rw [split, take_append_of_le_length (by simp), take_of_length_le (by simp)]

theorem load_header {baseIndex baseTerm : Nat} (index : baseIndex < 2 ^ 64) (term : baseTerm < 2 ^ 64)
    (rest : List UInt8) : Bytes.toNat (slice (encodeHeader baseIndex baseTerm ++ rest) 0 8) = raftLogMagic ∧
    Bytes.toNat (slice (encodeHeader baseIndex baseTerm ++ rest) 8 8) = baseIndex ∧
    Bytes.toNat (slice (encodeHeader baseIndex baseTerm ++ rest) 16 8) = baseTerm := by
  have layout : encodeHeader baseIndex baseTerm ++ rest = Bytes.ofNat 8 raftLogMagic ++
      (Bytes.ofNat 8 baseIndex ++ (Bytes.ofNat 8 baseTerm ++ rest)) := by
    rw [encodeHeader, append_assoc, append_assoc]
  rw [layout]
  refine ⟨?_, ?_, ?_⟩
  · rw [← nil_append (Bytes.ofNat 8 raftLogMagic ++ _),
      slice_mid length_nil (Bytes.length_ofNat ..), Bytes.toNat_ofNat raftLogMagic_fits]
  · rw [slice_mid (Bytes.length_ofNat ..) (Bytes.length_ofNat ..), Bytes.toNat_ofNat index]
  · have behind : (Bytes.ofNat 8 raftLogMagic ++ Bytes.ofNat 8 baseIndex).length = 16 := by
      rw [length_append, Bytes.length_ofNat, Bytes.length_ofNat]
    rw [← append_assoc (Bytes.ofNat 8 raftLogMagic), slice_mid behind (Bytes.length_ofNat ..), Bytes.toNat_ofNat term]

section

variable (mirror : lf.Mirrors l)
include mirror

theorem Mirrors.load (fits : l.Fits) {tail : List UInt8}
    (torn : tail = [] ∨ ∃ e : Entry, e.Fits ∧ Framing.Torn encodeFrame e tail) :
    LogFile.load (lf.bytes ++ tail) = .ok (lf, l.entries) := by
  have bytes : lf.bytes ++ tail = encodeHeader lf.baseIndex lf.baseTerm ++
      (Framing.log encodeFrame l.entries ++ tail) := by rw [mirror.bytes, append_assoc]
  have index : lf.baseIndex < 2 ^ 64 := by
    have bound := fits.lastIndex
    rw [mirror.baseIndex]
    rw [RaftLog.lastIndex] at bound
    omega
  obtain ⟨magic, base, term⟩ := load_header index (mirror.baseTerm ▸ fits.baseTerm)
    (Framing.log encodeFrame l.entries ++ tail)
  have long : raftLogHeaderSize ≤ (lf.bytes ++ tail).length := by rw [bytes]; simp
  -- The walk behind the header reads exactly the entries of the log.
  have enough : (Framing.log encodeFrame l.entries ++ tail).length < (lf.bytes ++ tail).length + 1 := by
    rw [bytes]
    simp only [length_append]
    omega
  have walked : ∃ stop, Framing.walk decodeFrame ((lf.bytes ++ tail).length + 1)
      (Framing.log encodeFrame l.entries ++ tail) = (l.entries, (Framing.log encodeFrame l.entries).length, stop) := by
    rcases torn with rfl | ⟨e, fit, torn⟩
    · simp only [append_nil] at enough ⊢
      exact ⟨_, frame_lawful.walk_log fits.entries enough⟩
    · exact ⟨_, frame_lawful.walk_torn fits.entries fit torn enough⟩
  obtain ⟨stop, walked⟩ := walked
  have behind : (lf.bytes ++ tail).drop raftLogHeaderSize =
      Framing.log encodeFrame l.entries ++ tail := by
    rw [bytes, drop_left' (length_encodeHeader _ _)]
  have read := loadFrames_eq (lf.bytes ++ tail) ((lf.bytes ++ tail).length + 1) raftLogHeaderSize long
  rw [behind, walked, ← mirror.size_eq, ← mirror.offsets] at read
  unfold LogFile.load
  rw [bytes] at long ⊢
  simp only [raftLogHeaderSize] at long
  rw [if_neg (by omega), if_neg (by omega), if_neg (by simp [magic]),
    if_neg (by simp only [raftLogHeaderSize]; omega), ← bytes, read]
  simp only [bytes ▸ base, bytes ▸ term]
  rw [mirror.size, take_left, ← mirror.size]
  exact congrArg (fun pos => Except.ok
    (LogFile.mk lf.bytes pos lf.baseIndex lf.baseTerm lf.offsets lf.size, l.entries)) mirror.pos.symm

theorem Mirrors.load_torn (fits : l.Fits) {e : Entry} (fit : e.Fits)
    (short : n < (encodeFrame e).length) : LogFile.load (lf.tornAppend e n) = .ok (lf, l.entries) := by
  have behind : lf.tornAppend e n = lf.bytes ++ (encodeFrame e).take n := by
    rw [tornAppend, mirror.pos, mirror.size, writeAt_length]
  rw [behind]
  exact mirror.load fits ((Framing.torn_take short).imp_right fun torn => ⟨e, fit, torn⟩)

theorem Mirrors.append (e : Entry) : (lf.append e).Mirrors (l.append e) where
  toFramed := mirror.toFramed.append e
  baseIndex := mirror.baseIndex
  baseTerm := mirror.baseTerm

theorem Mirrors.truncateFrom (index : Nat) : (lf.truncateFrom index).Mirrors (l.truncateFrom index) := by
  have count : lf.offsets.length = l.entries.length := by rw [mirror.offsets, Framing.length_starts]
  unfold LogFile.truncateFrom RaftLog.truncateFrom
  rw [← mirror.baseIndex]
  by_cases compacted : index ≤ lf.baseIndex
  · rw [if_pos compacted, if_pos compacted]
    exact mirror
  · rw [if_neg compacted, if_neg compacted]
    have last : l.lastIndex = lf.baseIndex + l.entries.length := by
      rw [RaftLog.lastIndex, mirror.baseIndex]
    by_cases within : index ≤ l.lastIndex
    · -- The offset of the first dropped entry is where the kept frames end.
      obtain ⟨found, kept⟩ := mirror.toFramed.truncate (by omega : index - lf.baseIndex - 1 < l.entries.length)
      rw [if_pos within, found]
      refine { bytes := kept, offsets := ?_, size := ?_, pos := rfl, baseIndex := rfl,
               baseTerm := mirror.baseTerm }
      · exact (congrArg (List.take _) mirror.offsets).trans (Framing.take_starts ..)
      · change _ = (lf.bytes.take _).length
        rw [kept, length_append, length_encodeHeader]
    · have beyond : lf.offsets[index - lf.baseIndex - 1]? = none := by
        rw [getElem?_eq_none_iff]
        omega
      rw [if_neg within, beyond]
      exact mirror

end

theorem mirrors_compact (newBaseIndex newBaseTerm : Nat) (survivors : List Entry) :
    (compact newBaseIndex newBaseTerm survivors).Mirrors ⟨newBaseIndex, newBaseTerm, survivors⟩ where
  toFramed := framed_compact newBaseIndex newBaseTerm survivors
  baseIndex := rfl
  baseTerm := rfl

end LogFile

/-- The log of a node in memory and on disk. -/
structure LogPair where
  file : LogFile
  log : RaftLog

inductive LogOp where
  | append (e : Entry)
  | truncateFrom (index : Nat)
  | compact (safe : Nat)
  /-- Resets the log to the base of an installed snapshot. -/
  | resetToBase (newBaseIndex newBaseTerm : Nat)
  | restart
  /-- Starts again after the process died within a frame. -/
  | restartTorn (e : Entry) (n : Nat)

namespace LogPair

/-- Opens the log file of a node and rebuilds the in-memory log from it. -/
def reopen (bytes : List UInt8) : Option LogPair :=
  match LogFile.load bytes with
  | .error _ => none
  | .ok (file, entries) => some ⟨file, ⟨file.baseIndex, file.baseTerm, entries⟩⟩

def fresh : LogPair := ⟨LogFile.writeFreshHeader 0 0, {}⟩

/-- One operation on both logs, where the source does not panic. -/
def step (s : LogPair) : LogOp → Option (LogPair × List Unit)
  | .append e => some (⟨s.file.append e, s.log.append e⟩, [])
  | .truncateFrom index => some (⟨s.file.truncateFrom index, s.log.truncateFrom index⟩, [])
  | .compact safe =>
    if safe ≤ s.log.baseIndex then some (s, [])
    else
      (s.log.term safe).map fun newBaseTerm =>
        (⟨LogFile.compact safe newBaseTerm (s.log.entriesAfter safe),
          s.log.compactTo safe newBaseTerm⟩, [])
  | .resetToBase newBaseIndex newBaseTerm =>
    some (⟨LogFile.resetToBase newBaseIndex newBaseTerm,
      RaftLog.resetToBase newBaseIndex newBaseTerm⟩, [])
  | .restart => (reopen s.file.bytes).map fun s' => (s', [])
  | .restartTorn e n => (reopen (s.file.tornAppend e n)).map fun s' => (s', [])

/-- The numbers of an operation fit, and a torn frame lacks at least one byte. -/
def Bounded (s : LogPair) : LogOp → Prop
  | .append e => e.Fits ∧ s.log.lastIndex + 1 < 2 ^ 64
  | .truncateFrom _ | .compact _ | .restart => True
  | .resetToBase newBaseIndex newBaseTerm => newBaseIndex < 2 ^ 64 ∧ newBaseTerm < 2 ^ 64
  | .restartTorn e n => e.Fits ∧ n < (encodeFrame e).length

instance decidableBounded (s : LogPair) (op : LogOp) : Decidable (s.Bounded op) :=
  match op with
  | .append _ | .resetToBase .. | .restartTorn .. => inferInstanceAs (Decidable (_ ∧ _))
  | .truncateFrom _ | .compact _ | .restart => inferInstanceAs (Decidable True)

/-- The file mirrors the log, and the log fits the file. -/
structure Synced (s : LogPair) : Prop where
  mirrors : s.file.Mirrors s.log
  fits : s.log.Fits

theorem synced_fresh : fresh.Synced where
  mirrors := LogFile.mirrors_compact 0 0 []
  fits := { lastIndex := by decide, baseTerm := by decide, entries := by simp [fresh] }

theorem Synced.reopen {s : LogPair} (synced : s.Synced) {bytes : List UInt8}
    (loads : LogFile.load bytes = .ok (s.file, s.log.entries)) : reopen bytes = some s := by
  rw [LogPair.reopen, loads]
  simp only [synced.mirrors.baseIndex, synced.mirrors.baseTerm]

theorem fits_truncateFrom (fits : l.Fits) (index : Nat) : (l.truncateFrom index).Fits := by
  unfold RaftLog.truncateFrom
  split_ifs with compacted within
  · exact fits
  · refine ⟨?_, fits.baseTerm, fun e kept => fits.entries e (mem_of_mem_take kept)⟩
    have bound := fits.lastIndex
    simp only [RaftLog.lastIndex, length_take] at bound ⊢
    omega
  · exact fits

theorem compactTo_of_term {safe newBaseTerm : Nat} (above : ¬ safe ≤ l.baseIndex)
    (held : l.term safe = some newBaseTerm) : l.compactTo safe newBaseTerm = ⟨safe, newBaseTerm, l.entriesAfter safe⟩ ∧
    safe ≤ l.lastIndex ∧ ∃ e ∈ l.entries, e.term = newBaseTerm := by
  rw [RaftLog.term, if_neg (by omega), RaftLog.entryAt, if_neg above] at held
  obtain ⟨e, found, rfl⟩ := Option.map_eq_some_iff.mp held
  obtain ⟨inside, rfl⟩ := List.getElem?_eq_some_iff.mp found
  have within : safe ≤ l.lastIndex := by
    rw [RaftLog.lastIndex]
    omega
  refine ⟨?_, within, _, getElem_mem inside, rfl⟩
  rw [RaftLog.compactTo, if_neg (by omega)]
  rfl

theorem fits_entriesAfter (fits : l.Fits) {safe newBaseTerm : Nat}
    (within : safe ≤ l.lastIndex) (above : ¬ safe ≤ l.baseIndex)
    (small : newBaseTerm < 2 ^ 64) : RaftLog.Fits ⟨safe, newBaseTerm, l.entriesAfter safe⟩ := by
  refine ⟨?_, small, fun e kept => fits.entries e (mem_of_mem_drop kept)⟩
  have bound := fits.lastIndex
  simp only [RaftLog.lastIndex, RaftLog.entriesAfter, length_drop] at bound within ⊢
  omega

/-- Every operation keeps the file a mirror of the log. -/
theorem Synced.step {s s' : LogPair} {new : List Unit} (op : LogOp) (synced : s.Synced)
    (bounded : s.Bounded op) (moved : s.step op = some (s', new)) : s'.Synced := by
  obtain ⟨mirrors, fits⟩ := synced
  cases op with
  | append e =>
    cases moved
    obtain ⟨fit, small⟩ := bounded
    refine ⟨mirrors.append e, by rwa [RaftLog.lastIndex_append], fits.baseTerm, fun e' held => ?_⟩
    rcases mem_append.mp held with old | new
    · exact fits.entries e' old
    · exact mem_singleton.mp new ▸ fit
  | truncateFrom index =>
    cases moved
    exact ⟨mirrors.truncateFrom index, fits_truncateFrom fits index⟩
  | compact safe =>
    rw [LogPair.step] at moved
    by_cases compacted : safe ≤ s.log.baseIndex
    · rw [if_pos compacted] at moved
      cases moved
      exact ⟨mirrors, fits⟩
    · rw [if_neg compacted] at moved
      obtain ⟨newBaseTerm, held, same⟩ := Option.map_eq_some_iff.mp moved
      cases same
      -- The entry at the new base gives its term.
      obtain ⟨result, within, e, listed, rfl⟩ := compactTo_of_term compacted held
      rw [result]
      exact ⟨LogFile.mirrors_compact _ _ _, fits_entriesAfter fits within compacted (fits.entries e listed).term⟩
  | resetToBase newBaseIndex newBaseTerm =>
    cases moved
    exact ⟨LogFile.mirrors_compact newBaseIndex newBaseTerm [],
      { lastIndex := bounded.1, baseTerm := bounded.2, entries := by simp [RaftLog.resetToBase] }⟩
  | restart =>
    have again := Synced.reopen ⟨mirrors, fits⟩ (append_nil s.file.bytes ▸ mirrors.load fits (.inl rfl))
    rw [LogPair.step, again] at moved
    cases moved
    exact ⟨mirrors, fits⟩
  | restartTorn e n =>
    have again := Synced.reopen ⟨mirrors, fits⟩ (mirrors.load_torn fits bounded.1 bounded.2)
    rw [LogPair.step, again] at moved
    cases moved
    exact ⟨mirrors, fits⟩

/--
The file and the in-memory log are the same log after every sequence of operations.

A torn frame behind the entries does not matter, and the next append lands behind the last whole frame.
-/
theorem log_file_mirrors {s : LogPair} {past : List LogPair} {events : List Unit}
    (run : Run.Reach step Bounded fresh s past events) :
    LogFile.load s.file.bytes = .ok (s.file, s.log.entries) ∧
    s.file.baseIndex = s.log.baseIndex ∧ s.file.baseTerm = s.log.baseTerm ∧
    s.file.Framed s.log.entries ∧
    ∀ e : Entry, e.Fits →
      (s.file.append e).bytes = s.file.bytes ++ encodeFrame e ∧
      ∀ n < (encodeFrame e).length,
        s.file.tornAppend e n = s.file.bytes ++ (encodeFrame e).take n ∧
        LogFile.load (s.file.tornAppend e n) = .ok (s.file, s.log.entries) := by
  have synced : s.Synced := run.invariant (P := fun s _ _ => s.Synced) synced_fresh
    fun _ op _ _ _ _ _ bounded moved before => before.step op bounded moved
  obtain ⟨mirrors, fits⟩ := synced
  refine ⟨append_nil s.file.bytes ▸ mirrors.load fits (.inl rfl), mirrors.baseIndex,
    mirrors.baseTerm, mirrors.toFramed, fun e fit => ⟨mirrors.toFramed.append_bytes e, ?_⟩⟩
  intro n short
  exact ⟨by rw [LogFile.tornAppend, mirrors.pos, mirrors.size, writeAt_length],
    mirrors.load_torn fits fit short⟩

/-- A log appended to, truncated, compacted, torn and appended to again. -/
theorem log_file_mirrors_torn : ∃ s past events,
    Run.Reach step Bounded fresh s past events ∧
    s.log = ⟨1, 1, [⟨2, .config, [7]⟩, ⟨3, .data, [8]⟩]⟩ ∧
    LogFile.load s.file.bytes = .ok (s.file, s.log.entries) := by
  obtain ⟨s, past, events, run, test⟩ := Run.exec_exists step (fun s op => decide (s.Bounded op)) fresh
    [.append ⟨1, .data, [5]⟩, .append ⟨1, .data, [6]⟩, .truncateFrom 2, .append ⟨2, .config, [7]⟩,
      .compact 1, .restartTorn ⟨2, .data, [9, 9]⟩ 14, .append ⟨3, .data, [8]⟩]
    (fun r => decide (r.1.log = ⟨1, 1, [⟨2, .config, [7]⟩, ⟨3, .data, [8]⟩]⟩)) (by rfl)
  have run' : Run.Reach step Bounded fresh s past events := run.weaken fun _ _ => of_decide_eq_true
  exact ⟨s, past, events, run', of_decide_eq_true test, (log_file_mirrors run').1⟩

end LogPair

end Cluster
