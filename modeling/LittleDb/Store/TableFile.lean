import LittleDb.Lib.Search
import LittleDb.Store.Table
import Mathlib.Algebra.Ring.Int.Defs

/-! The table file byte by byte: how blocks, index, filter and footer are written, opened and read. -/

namespace Store

def footerSize : Nat := 56

def tableMagic : Nat := 0x214244454C4C494C

def toInt64 (n : Nat) : Int := if n < 2 ^ 63 then n else n - 2 ^ 64

/-- A signed number taken as an unsigned 64-bit one. -/
def toUint64 (n : Int) : Nat := (n % 2 ^ 64).toNat

/-- The sum of two signed 64-bit numbers, which may wrap around. -/
def addInt64 (a b : Int) : Int := toInt64 (toUint64 (a + b))

/-- Where a block stands in the file, and its first encoded key. -/
structure IndexEntry where
  firstKey : List UInt8
  blockOffset : Int
  blockSize : Int
  deriving DecidableEq

structure FileWriter where
  file : List UInt8
  blockBuf : List UInt8
  blockFirstKey : List UInt8
  index : List IndexEntry
  filter : Bloom
  lastEncKey : Option (List UInt8)
  maxTimestamp : Nat
  appliedIndex : Nat
  written : Int
  count : Nat

/-- The record of a version in a block: its key is the encoded one. -/
def Item.record (i : Item) : Record := ⟨i.op, i.ts, encodeKey i.userKey i.ts, i.value⟩

def IndexEntry.record (e : IndexEntry) : Record :=
  ⟨.put, 0, e.firstKey, Bytes.ofNat 8 (toUint64 e.blockOffset) ++ Bytes.ofNat 8 (toUint64 e.blockSize)⟩

namespace FileWriter

def new (expectedKeys appliedIndex : Nat) : FileWriter :=
  ⟨[], [], [], [], Bloom.new expectedKeys bloomBitsPerKey, none, 0, appliedIndex, 0, 0⟩

def flushBlock (w : FileWriter) : FileWriter :=
  if w.blockBuf.isEmpty then w
  else
    { w with
      file := w.file ++ w.blockBuf
      index := w.index ++ [⟨w.blockFirstKey, w.written, w.blockBuf.length⟩]
      written := w.written + w.blockBuf.length
      blockBuf := []
      blockFirstKey := [] }

/-- Writes the block out if the next record would overfill it. -/
def makeRoom (w : FileWriter) (encoded : List UInt8) : FileWriter :=
  if !w.blockBuf.isEmpty ∧ w.blockBuf.length + encoded.length > blockSize then w.flushBlock else w

def push (w : FileWriter) (i : Item) : FileWriter :=
  let encKey := encodeKey i.userKey i.ts
  { w with
    blockFirstKey := if w.blockBuf.isEmpty then encKey else w.blockFirstKey
    blockBuf := w.blockBuf ++ encode i.record
    filter := w.filter.add i.userKey
    lastEncKey := some encKey
    maxTimestamp := max w.maxTimestamp i.ts
    count := w.count + 1 }

def add (w : FileWriter) (i : Item) : Except TableError FileWriter :=
  let encKey := encodeKey i.userKey i.ts
  if w.lastEncKey = some encKey then .error .duplicate
  else if w.lastEncKey.any (fun last => encKey < last) then .error .outOfOrder
  else .ok ((w.makeRoom (encode i.record)).push i)

/-- The footer: index, filter, timestamp, Raft index and the magic number. -/
def footer (indexOffset indexSize bloomOffset bloomSize : Int) (maxTimestamp appliedIndex : Nat) : List UInt8 :=
  Framing.log (Bytes.ofNat 8) [toUint64 indexOffset, toUint64 indexSize, toUint64 bloomOffset,
    toUint64 bloomSize, maxTimestamp, appliedIndex, tableMagic]

/-- Writes the last block, index, filter and footer: the whole file. -/
def finish (w : FileWriter) : List UInt8 :=
  let w := w.flushBlock
  let indexOffset := w.written
  let indexBytes := Framing.log encode (w.index.map IndexEntry.record)
  let bloomOffset := indexOffset + indexBytes.length
  let bloomBytes := w.filter.bytes
  w.file ++ (indexBytes ++ (bloomBytes ++
    footer indexOffset indexBytes.length bloomOffset bloomBytes.length w.maxTimestamp w.appliedIndex))

end FileWriter

def writeTableFile (items : List Item) (expectedKeys appliedIndex : Nat) : Except TableError (List UInt8) :=
  (items.foldlM FileWriter.add (FileWriter.new expectedKeys appliedIndex)).map FileWriter.finish

/-- Why a table file could not be opened or read. -/
inductive ReadError where
  | tooSmall
  | badMagic
  | offsets
  | read
  /-- The buffer to read into would be negative, or larger than the file. -/
  | alloc (size : Int)
  /-- A block beyond the index is asked for: the access panics. -/
  | outOfRange
  | decode (e : DecodeError)
  | indexValue (size : Nat)
  | bloom
  | malformed
  deriving DecidableEq

structure Reader where
  file : List UInt8
  index : List IndexEntry
  filter : Option Bloom
  maxTimestamp : Nat
  appliedIndex : Nat

/-- Fills a buffer with a part of a file, unless larger than the file. -/
def readAt (file : List UInt8) (offset size : Int) : Except ReadError (List UInt8) :=
  if size < 0 ∨ file.length < size then .error (.alloc size)
  else if offset < 0 ∨ (0 < size ∧ file.length < offset + size) then .error .read
  else .ok (slice file offset.toNat size.toNat)

def parseIndex : Nat → List UInt8 → Except ReadError (List IndexEntry)
  | 0, _ => .ok []
  | fuel + 1, buf =>
    if buf.isEmpty then .ok []
    else
      match decode buf with
      | .error e => .error (.decode e)
      | .ok (rec, n) =>
        if rec.value.length ≠ 16 then .error (.indexValue rec.value.length)
        else
          match parseIndex fuel (buf.drop n) with
          | .error e => .error e
          | .ok rest =>
            .ok (⟨rec.key, toInt64 (Bytes.toNat (slice rec.value 0 8)),
              toInt64 (Bytes.toNat (slice rec.value 8 8))⟩ :: rest)

def footerNumber (file : List UInt8) (i : Nat) : Nat :=
  Bytes.toNat (slice (file.drop (file.length - footerSize)) (8 * i) 8)

/-- Whether an offset and a size of the footer pass for a part of the file. -/
def footerPasses (file : List UInt8) (i : Nat) : Bool :=
  let offset := toInt64 (footerNumber file i)
  let size := toInt64 (footerNumber file (i + 1))
  0 ≤ offset ∧ 0 ≤ size ∧ addInt64 offset size ≤ file.length - footerSize

/-- Opens a table file: checks the footer, and reads index and filter. -/
def openReader (file : List UInt8) : Except ReadError Reader :=
  if file.length < footerSize then .error .tooSmall
  else if footerNumber file 6 ≠ tableMagic then .error .badMagic
  else if !footerPasses file 0 || !footerPasses file 2 then .error .offsets
  else
    let bloomSize := toInt64 (footerNumber file 3)
    match readAt file (toInt64 (footerNumber file 0)) (toInt64 (footerNumber file 1)) with
    | .error e => .error e
    | .ok indexBuf =>
      match parseIndex (indexBuf.length + 1) indexBuf with
      | .error e => .error e
      | .ok index =>
        if 0 < bloomSize then
          match readAt file (toInt64 (footerNumber file 2)) bloomSize with
          | .error e => .error e
          | .ok bloomBuf =>
            match Bloom.load bloomBuf with
            | none => .error .bloom
            | some filter => .ok ⟨file, index, some filter, footerNumber file 4, footerNumber file 5⟩
        else .ok ⟨file, index, none, footerNumber file 4, footerNumber file 5⟩

/-- The first record of a block whose key is at or above a target. -/
def seekBlock (target : List UInt8) : Nat → List UInt8 → Except ReadError (Option Record)
  | 0, _ => .ok none
  | fuel + 1, buf =>
    if buf.isEmpty then .ok none
    else
      match decode buf with
      | .error e => .error (.decode e)
      | .ok (rec, n) => if rec.key < target then seekBlock target fuel (buf.drop n) else .ok (some rec)

def blockRecords : Nat → List UInt8 → Except ReadError (List Record)
  | 0, _ => .ok []
  | fuel + 1, buf =>
    if buf.isEmpty then .ok []
    else
      match decode buf with
      | .error e => .error (.decode e)
      | .ok (rec, n) => (blockRecords fuel (buf.drop n)).map fun rest => rec :: rest

namespace Reader

def loadBlock (r : Reader) (e : IndexEntry) : Except ReadError (List UInt8) :=
  readAt r.file e.blockOffset e.blockSize

/-- The last block whose first key is not above a target, or the first. -/
def startBlock (r : Reader) (target : List UInt8) : Nat :=
  Search.search r.index.length (fun i => (r.index[i]?).any fun e => decide (target < e.firstKey)) - 1

/-- The first record at or above a target in some blocks. -/
def seekBlocks (r : Reader) (target : List UInt8) : List IndexEntry → Except ReadError (Option Record)
  | [] => .ok none
  | e :: rest =>
    match r.loadBlock e with
    | .error why => .error why
    | .ok buf =>
      match seekBlock target (buf.length + 1) buf with
      | .error why => .error why
      | .ok (some rec) => .ok (some rec)
      | .ok none => r.seekBlocks target rest

/-- The first record at or above a target, unless the filter denies the key. -/
def find (r : Reader) (userKey : Key) (target : List UInt8) : Except ReadError (Option Record) :=
  if r.index.isEmpty then .ok none
  else if r.filter.any (fun f => !f.mayContain userKey) then .ok none
  else r.seekBlocks target ((r.index.drop (r.startBlock target)).take 2)

def getAsOf (r : Reader) (userKey : Key) (snapshot : Nat) : Except ReadError (Option (Op × Value)) :=
  match r.find userKey (encodeKey userKey snapshot) with
  | .error e => .error e
  | .ok none => .ok none
  | .ok (some rec) =>
    match decodeKey rec.key with
    | none => .error .malformed
    | some (k, _) =>
      if k = userKey then
        if rec.op = .delete then .ok (some (.delete, [])) else .ok (some (.put, rec.value))
      else .ok none

def newestVersionTS (r : Reader) (userKey : Key) : Except ReadError (Option Nat) :=
  match r.find userKey (encodeKey userKey maxUint64) with
  | .error e => .error e
  | .ok none => .ok none
  | .ok (some rec) =>
    match decodeKey rec.key with
    | none => .error .malformed
    | some (k, ts) => if k = userKey then .ok (some ts) else .ok none

def entryOf (rec : Record) : List UInt8 × (Op × Value) := (rec.key, rec.op, rec.value)

def readBlocks (r : Reader) : List IndexEntry → Except ReadError Layer
  | [] => .ok []
  | e :: rest =>
    match r.loadBlock e with
    | .error why => .error why
    | .ok buf =>
      match blockRecords (buf.length + 1) buf with
      | .error why => .error why
      | .ok records => (r.readBlocks rest).map fun more => records.map entryOf ++ more

def iterate (r : Reader) : Except ReadError Layer := r.readBlocks r.index

end Reader

structure Cursor where
  r : Reader
  /-- The first user key that is too far, if there is a bound. -/
  endUser : Option Key
  blockIdx : Nat
  buf : List UInt8
  offset : Nat
  /-- The entry under the cursor; nothing once it is at its end. -/
  current : Option (List UInt8 × (Op × Value))
  err : Option ReadError

namespace Cursor

def loadBlock (it : Cursor) (i : Nat) : Cursor :=
  match it.r.index[i]? with
  | none => { it with err := some .outOfRange }
  | some e =>
    match it.r.loadBlock e with
    | .error why => { it with err := some why }
    | .ok buf => { it with blockIdx := i, buf := buf, offset := 0 }

/-- Decodes the record at the cursor and moves behind it. -/
def decodeNext (it : Cursor) : Cursor × Option (List UInt8 × (Op × Value)) :=
  match decode (it.buf.drop it.offset) with
  | .error e => ({ it with err := some (.decode e) }, none)
  | .ok (rec, n) => ({ it with offset := it.offset + n }, some (Reader.entryOf rec))

/-- The next record, crossing into the next block where this one ends. -/
def nextRaw (it : Cursor) : Cursor × Option (List UInt8 × (Op × Value)) :=
  if it.buf.length ≤ it.offset then
    if it.r.index.length ≤ it.blockIdx + 1 then (it, none)
    else
      let next := it.loadBlock (it.blockIdx + 1)
      if next.err.isSome then (next, none) else next.decodeNext
  else it.decodeNext

def inRange (endUser : Option Key) (enc : List UInt8) : Bool :=
  match endUser with
  | none => true
  | some bound =>
    match decodeKey enc with
    | none => false
    | some (userKey, _) => userKey < bound

/-- Skips what is below the start, to the first record if before the bound. -/
def position (startTarget : Option (List UInt8)) : Nat → Cursor → Cursor
  | 0, it => it
  | fuel + 1, it =>
    match it.nextRaw with
    | (it, none) => { it with current := none }
    | (it, some e) =>
      if startTarget.any (fun target => e.1 < target) then position startTarget fuel it
      else if inRange it.endUser e.1 then { it with current := some e }
      else { it with current := none }

def advance (it : Cursor) : Cursor :=
  if it.current.isNone then it
  else
    match it.nextRaw with
    | (it, none) => { it with current := none }
    | (it, some e) =>
      if inRange it.endUser e.1 then { it with current := some e } else { it with current := none }

/-- What a cursor yields until its end, if nothing goes wrong. -/
inductive Yields : Cursor → Layer → Prop where
  | done {it : Cursor} (stop : it.current = none) (clean : it.err = none) : Yields it []
  | next {it : Cursor} {e : List UInt8 × (Op × Value)} {rest : Layer} (here : it.current = some e)
      (on : Yields it.advance rest) : Yields it (e :: rest)

end Cursor

/-- A cursor over the user keys from a start to before an end. -/
def Reader.newIterator (r : Reader) (start end_ : Option Key) : Cursor :=
  let it : Cursor := ⟨r, end_, 0, [], 0, none, none⟩
  if r.index.isEmpty then it
  else
    let startTarget := start.map fun k => encodeKey k maxUint64
    let it := it.loadBlock ((startTarget.map r.startBlock).getD 0)
    if it.err.isSome then it
    else it.position startTarget ((r.index.map fun e => e.blockSize.toNat).sum + 1)

end Store
