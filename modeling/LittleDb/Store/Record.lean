import LittleDb.Lib.Bytes
import LittleDb.Lib.Framing
import Mathlib.Logic.Function.Iterate

/-! The on-disk record format of the write-ahead log and of replicated entries. -/

namespace Store

open List Bytes

variable {r : Record}

inductive Op where
  | put
  | delete
  | commit
  deriving DecidableEq, Repr

def Op.toByte : Op → UInt8
  | .put => 1
  | .delete => 2
  | .commit => 3

def Op.ofByte (b : UInt8) : Option Op :=
  if b = 1 then some .put else if b = 2 then some .delete else if b = 3 then some .commit else none

@[simp] theorem Op.ofByte_toByte (op : Op) : Op.ofByte op.toByte = some op := by
  cases op <;> rfl

structure Record where
  op : Op
  timestamp : Nat
  /-- The key written, or the session of a commit marker. -/
  key : List UInt8
  /-- The value written, or the sequence number of a commit marker. -/
  value : List UInt8
  deriving DecidableEq, Repr

/-- A record's fixed part: checksum, operation, timestamp, two lengths. -/
def headerSize : Nat := 21

/-- A record whose fields fit the header, and whose key ends within 32 bits. -/
structure Record.Fits (r : Record) : Prop where
  timestamp : r.timestamp < 2 ^ 64
  key : headerSize + r.key.length < 2 ^ 32
  value : r.value.length < 2 ^ 32

instance Record.decidableFits (r : Record) : Decidable r.Fits :=
  decidable_of_iff (r.timestamp < 2 ^ 64 ∧ headerSize + r.key.length < 2 ^ 32 ∧ r.value.length < 2 ^ 32)
    ⟨fun small => ⟨small.1, small.2.1, small.2.2⟩, fun fits => ⟨fits.timestamp, fits.key, fits.value⟩⟩

def crcBit (c : BitVec 32) : BitVec 32 :=
  if c.getLsbD 0 then (c >>> 1) ^^^ 0x82F63B78#32 else c >>> 1

/-- One byte of the checksum, by the table entry that its low byte selects. -/
def crcByte (c : BitVec 32) (b : UInt8) : BitVec 32 :=
  crcBit^[8] ((c ^^^ b.toBitVec.setWidth 32) &&& 0xFF#32) ^^^ (c >>> 8)

def crc32c (bytes : List UInt8) : BitVec 32 := ~~~(bytes.foldl crcByte (~~~0#32))

-- The check value of the polynomial, over the digits one to nine.
example : crc32c [49, 50, 51, 52, 53, 54, 55, 56, 57] = 0xE3069283#32 := by decide +kernel

def Record.body (r : Record) : List UInt8 :=
  r.op.toByte :: (Bytes.ofNat 8 r.timestamp ++ (Bytes.ofNat 4 r.key.length ++
    (Bytes.ofNat 4 r.value.length ++ (r.key ++ r.value))))

/-- The bytes of a record: the checksum and what it covers. -/
def encode (r : Record) : List UInt8 := Bytes.ofNat 4 (crc32c r.body).toNat ++ r.body

inductive DecodeError where
  | eof
  | unexpectedEOF
  | corrupt
  | invalidOp
  /-- The end of the key is past 32 bits: slicing there panics. -/
  | outOfRange
  deriving DecidableEq, Repr

def slice (b : List UInt8) (offset size : Nat) : List UInt8 := (b.drop offset).take size

/-- Parses one record from the front, with the number of bytes it takes. -/
def decode (b : List UInt8) : Except DecodeError (Record × Nat) :=
  if b.length = 0 then .error .eof
  else if b.length < headerSize then .error .unexpectedEOF
  else
    let storedCRC := Bytes.toNat (slice b 0 4)
    let op := b.getD 4 0
    let timestamp := Bytes.toNat (slice b 5 8)
    let keyLen := Bytes.toNat (slice b 13 4)
    let valueLen := Bytes.toNat (slice b 17 4)
    let total := headerSize + keyLen + valueLen
    if b.length < total then .error .unexpectedEOF
    else if (crc32c (slice b 4 (total - 4))).toNat ≠ storedCRC then .error .corrupt
    else
      match Op.ofByte op with
      | none => .error .invalidOp
      | some op =>
        -- The end of the key wraps around in 32 bits, and then lies before its start.
        if (headerSize + keyLen) % 2 ^ 32 < headerSize then .error .outOfRange
        else
          .ok (⟨op, timestamp, slice b headerSize keyLen, slice b (headerSize + keyLen) valueLen⟩, total)

@[simp] theorem length_encode (r : Record) : (encode r).length = headerSize + r.key.length + r.value.length := by
  simp only [encode, Record.body, length_append, length_cons, length_ofNat, headerSize]
  omega

theorem slice_mid {front part back : List UInt8} {offset size : Nat} (start : front.length = offset)
    (width : part.length = size) : slice (front ++ (part ++ back)) offset size = part := by
  subst start width
  simp [slice]

theorem slice_take {b : List UInt8} {offset size kept : Nat} (inside : offset + size ≤ kept) :
    slice (b.take kept) offset size = slice b offset size := by
  rw [slice, slice, drop_take, take_take, min_eq_left (by omega)]

section Fields

variable (r) (rest : List UInt8)

theorem slice_crc : slice (encode r ++ rest) 0 4 = Bytes.ofNat 4 (crc32c r.body).toNat := by
  have layout : encode r ++ rest = [] ++ (Bytes.ofNat 4 (crc32c r.body).toNat ++ (r.body ++ rest)) := by simp [encode]
  rw [layout, slice_mid (by simp) (by simp)]

theorem slice_body : slice (encode r ++ rest) 4 ((encode r).length - 4) = r.body := by
  have layout : encode r ++ rest = Bytes.ofNat 4 (crc32c r.body).toNat ++ (r.body ++ rest) := by simp [encode]
  rw [layout, slice_mid (by simp) (by simp [encode])]

theorem getD_op : (encode r ++ rest).getD 4 0 = r.op.toByte := by
  simp [encode, Record.body, List.getD]

theorem slice_timestamp : slice (encode r ++ rest) 5 8 = Bytes.ofNat 8 r.timestamp := by
  have layout : encode r ++ rest = (Bytes.ofNat 4 (crc32c r.body).toNat ++ [r.op.toByte]) ++
      (Bytes.ofNat 8 r.timestamp ++ (Bytes.ofNat 4 r.key.length ++
        (Bytes.ofNat 4 r.value.length ++ (r.key ++ (r.value ++ rest))))) := by
    simp [encode, Record.body]
  rw [layout, slice_mid (by simp) (by simp)]

theorem slice_keyLen : slice (encode r ++ rest) 13 4 = Bytes.ofNat 4 r.key.length := by
  have layout : encode r ++ rest = (Bytes.ofNat 4 (crc32c r.body).toNat ++ [r.op.toByte] ++
      Bytes.ofNat 8 r.timestamp) ++ (Bytes.ofNat 4 r.key.length ++
        (Bytes.ofNat 4 r.value.length ++ (r.key ++ (r.value ++ rest)))) := by
    simp [encode, Record.body]
  rw [layout, slice_mid (by simp) (by simp)]

theorem slice_valueLen : slice (encode r ++ rest) 17 4 = Bytes.ofNat 4 r.value.length := by
  have layout : encode r ++ rest = (Bytes.ofNat 4 (crc32c r.body).toNat ++ [r.op.toByte] ++
      Bytes.ofNat 8 r.timestamp ++ Bytes.ofNat 4 r.key.length) ++
        (Bytes.ofNat 4 r.value.length ++ (r.key ++ (r.value ++ rest))) := by
    simp [encode, Record.body]
  rw [layout, slice_mid (by simp) (by simp)]

theorem slice_key : slice (encode r ++ rest) headerSize r.key.length = r.key := by
  have layout : encode r ++ rest = (Bytes.ofNat 4 (crc32c r.body).toNat ++ [r.op.toByte] ++
      Bytes.ofNat 8 r.timestamp ++ Bytes.ofNat 4 r.key.length ++ Bytes.ofNat 4 r.value.length) ++
        (r.key ++ (r.value ++ rest)) := by
    simp [encode, Record.body]
  rw [layout, slice_mid (by simp [headerSize]) rfl]

theorem slice_value : slice (encode r ++ rest) (headerSize + r.key.length) r.value.length = r.value := by
  have layout : encode r ++ rest = (Bytes.ofNat 4 (crc32c r.body).toNat ++ [r.op.toByte] ++
      Bytes.ofNat 8 r.timestamp ++ Bytes.ofNat 4 r.key.length ++ Bytes.ofNat 4 r.value.length ++
        r.key) ++ (r.value ++ rest) := by
    simp [encode, Record.body]
  rw [layout, slice_mid (by simp [headerSize]; omega) rfl]

end Fields

theorem Record.Fits.keyLen (fits : r.Fits) : r.key.length < 2 ^ 32 :=
  (Nat.le_add_left ..).trans_lt fits.key

theorem wraps_iff {keyLen : Nat} (small : keyLen < 2 ^ 32) :
    (headerSize + keyLen) % 2 ^ 32 < headerSize ↔ 2 ^ 32 ≤ headerSize + keyLen := by
  unfold headerSize
  omega

theorem decode_framed (time : r.timestamp < 2 ^ 64) (key : r.key.length < 2 ^ 32)
    (value : r.value.length < 2 ^ 32) (rest : List UInt8) :
    decode (encode r ++ rest) =
      if 2 ^ 32 ≤ headerSize + r.key.length then .error .outOfRange else .ok (r, (encode r).length) := by
  have keyLen : Bytes.toNat (slice (encode r ++ rest) 13 4) = r.key.length := by
    rw [slice_keyLen, toNat_ofNat key]
  have valueLen : Bytes.toNat (slice (encode r ++ rest) 17 4) = r.value.length := by
    rw [slice_valueLen, toNat_ofNat value]
  have timestamp : Bytes.toNat (slice (encode r ++ rest) 5 8) = r.timestamp := by
    rw [slice_timestamp, toNat_ofNat time]
  -- The stored checksum is the one computed over the same bytes.
  have checksum : (crc32c (slice (encode r ++ rest) 4
      (headerSize + r.key.length + r.value.length - 4))).toNat = Bytes.toNat (slice (encode r ++ rest) 0 4) := by
    rw [← length_encode, slice_body, slice_crc, toNat_ofNat (crc32c r.body).isLt]
  have size : (encode r ++ rest).length = headerSize + r.key.length + r.value.length + rest.length := by
    simp
  unfold decode
  rw [if_neg (by rw [size]; simp [headerSize]), if_neg (by rw [size]; omega)]
  simp only [keyLen, valueLen]
  rw [if_neg (by rw [size]; omega), if_neg (by rw [checksum]; simp)]
  simp only [getD_op, Op.ofByte_toByte, timestamp, slice_key, slice_value, length_encode, wraps_iff key]

theorem decode_encode (r : Record) (rest : List UInt8) (fits : r.Fits) :
    decode (encode r ++ rest) = .ok (r, (encode r).length) := by
  rw [decode_framed fits.timestamp fits.keyLen fits.value, if_neg (not_le.mpr fits.key)]

theorem decode_torn {bytes : List UInt8} (key : r.key.length < 2 ^ 32) (value : r.value.length < 2 ^ 32)
    (torn : Framing.Torn encode r bytes) : decode bytes = .error .unexpectedEOF := by
  obtain ⟨cut, fewer⟩ := torn.cut
  have some_bytes : bytes.length ≠ 0 := by simpa using torn.1
  unfold decode
  rw [if_neg some_bytes]
  by_cases header : bytes.length < headerSize
  · rw [if_pos header]
  · -- The header is whole, so it declares more bytes than there are.
    rw [if_neg header]
    have whole : encode r = encode r ++ [] := by simp
    have keyLen : Bytes.toNat (slice bytes 13 4) = r.key.length := by
      rw [cut, slice_take (by simp only [headerSize] at header; omega), whole, slice_keyLen, toNat_ofNat key]
    have valueLen : Bytes.toNat (slice bytes 17 4) = r.value.length := by
      rw [cut, slice_take (by simp only [headerSize] at header; omega), whole, slice_valueLen, toNat_ofNat value]
    simp only [keyLen, valueLen]
    rw [if_pos (by rwa [length_encode] at fewer)]

/-- No record begins another as long as the key's end fits 32 bits. -/
theorem framing_iff {r : Record} (time : r.timestamp < 2 ^ 64) (key : r.key.length < 2 ^ 32)
    (value : r.value.length < 2 ^ 32) :
    ((∀ rest, decode (encode r ++ rest) = .ok (r, (encode r).length)) ∧
      ∀ front, front ≠ [] → front ≠ encode r → front <+: encode r → decode front = .error .unexpectedEOF) ↔
    headerSize + r.key.length < 2 ^ 32 := by
  constructor
  · rintro ⟨whole, -⟩
    by_contra past
    have read := whole []
    rw [decode_framed time key value, if_pos (not_lt.mp past)] at read
    cases read
  · intro fits
    refine ⟨fun rest => decode_encode r rest ⟨time, fits, value⟩, fun front some_bytes short begins => ?_⟩
    exact decode_torn key value ⟨some_bytes, short, begins⟩

/-- A record with a one-byte key, whole and cut. -/
theorem framing_iff_short : decode (encode ⟨.put, 7, [1], [2]⟩ ++ [9]) = .ok (⟨.put, 7, [1], [2]⟩, 23) ∧
    decode ((encode ⟨.put, 7, [1], [2]⟩).take 22) = .error .unexpectedEOF := by
  have coded := (framing_iff (r := ⟨.put, 7, [1], [2]⟩) (by decide) (by decide) (by decide)).mpr (by decide)
  refine ⟨coded.1 [9], coded.2 _ (fun same => ?_) (fun same => ?_) (List.take_prefix ..)⟩
  all_goals simpa [headerSize] using congrArg List.length same

/-- A key 21 bytes short of its length field's limit: reading it panics. -/
theorem decode_wraps : ∃ r : Record, r.key.length < 2 ^ 32 ∧ r.value.length < 2 ^ 32 ∧
    decode (encode r) = .error .outOfRange := by
  refine ⟨⟨.put, 0, List.replicate (2 ^ 32 - headerSize) 0, []⟩, ?_, by decide, ?_⟩
  · rw [length_replicate]
    decide
  · have read := decode_framed (r := ⟨.put, 0, List.replicate (2 ^ 32 - headerSize) 0, []⟩) (by decide)
      (by rw [length_replicate]; decide) (by decide) []
    rwa [append_nil, if_pos (by rw [length_replicate]; decide)] at read

theorem lawful : Framing.Lawful encode decode Record.Fits DecodeError.unexpectedEOF where
  filled r := by simp [encode, Record.body]
  whole := decode_encode
  torn r bytes fits := decode_torn fits.keyLen fits.value

theorem length_slice_le (b : List UInt8) (offset size : Nat) : (slice b offset size).length ≤ size := by
  rw [slice, length_take]
  exact min_le_left ..

theorem toNat_slice_lt (b : List UInt8) (offset size : Nat) : Bytes.toNat (slice b offset size) < 256 ^ size :=
  (toNat_lt _).trans_le (Nat.pow_le_pow_right (by decide) (length_slice_le b offset size))

theorem decode_fits (b : List UInt8) (r : Record) (n : Nat) (read : decode b = .ok (r, n)) : r.Fits := by
  unfold decode at read
  simp only at read
  split_ifs at read with _ _ _ _ wraps
  · split at read <;> cases read
  split at read
  · cases read
  · cases read
    have keyLen : Bytes.toNat (slice b 13 4) < 2 ^ 32 := (toNat_slice_lt b 13 4).trans_le (by decide)
    refine ⟨?_, ?_, ?_⟩
    · exact (toNat_slice_lt b 5 8).trans_le (by decide)
    · exact (Nat.add_le_add_left (length_slice_le ..) _).trans_lt (not_le.mp ((wraps_iff keyLen).not.mp wraps))
    · exact (length_slice_le ..).trans_lt ((toNat_slice_lt b 17 4).trans_le (by decide))

end Store
