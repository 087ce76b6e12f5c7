import LittleDb.Store.TableFile

/-! A table file is read back as it was written: the file against the table of blocks it stands for. -/

namespace Store

open List Framing

def entryRecord (e : List UInt8 × (Op × Value)) : Record :=
  ⟨e.2.1, ((decodeKey e.1).getD ([], 0)).2, e.1, e.2.2⟩

def blockBytes (b : Layer) : List UInt8 := Framing.log encode (b.map entryRecord)

/-- The index of some blocks that stand in the file from an offset on. -/
def indexOf : Nat → List Layer → List IndexEntry
  | _, [] => []
  | offset, b :: rest =>
    ⟨Table.firstKey b, offset, (blockBytes b).length⟩ :: indexOf (offset + (blockBytes b).length) rest

variable {i : Item} {n offset ts applied : Nat} {back : List UInt8} {w w' : Writer} {blocks : List Layer}

theorem entryRecord_entry (fits : i.ts < 2 ^ 64) : entryRecord i.entry = i.record := by
  simp [entryRecord, Item.entry, Item.record, decodeKey_encodeKey fits]

@[simp] theorem map_entryOf (b : Layer) : (b.map entryRecord).map Reader.entryOf = b := by
  rw [map_map]
  exact map_id b

@[simp] theorem blockBytes_eq_nil {b : Layer} : blockBytes b = [] ↔ b = [] := by
  cases b with
  | nil => simp [blockBytes]
  | cons e b => simp [blockBytes, lawful.filled]

theorem indexOf_append (offset : Nat) (bs bs' : List Layer) :
    indexOf offset (bs ++ bs') = indexOf offset bs ++ indexOf (offset + (Framing.log blockBytes bs).length) bs' := by
  induction bs generalizing offset with
  | nil => simp [indexOf]
  | cons b bs ih => simp [indexOf, ih, add_assoc]

theorem toInt64_toUint64 {n : Int} (positive : 0 ≤ n) (small : n < 2 ^ 63) : toInt64 (toUint64 n) = n := by
  have same : toUint64 n = n.toNat := by
    rw [toUint64, Int.emod_eq_of_lt positive (by omega)]
  rw [toInt64, same, if_pos (by omega)]
  omega

theorem toUint64_lt (n : Int) : toUint64 n < 256 ^ 8 := by
  have low := Int.emod_nonneg n (show (2 : Int) ^ 64 ≠ 0 by decide)
  have high := Int.emod_lt_of_pos n (show (0 : Int) < 2 ^ 64 by decide)
  rw [toUint64]
  omega

theorem readAt_part {front part : List UInt8} {offset size : Int} (start : offset = front.length)
    (width : size = part.length) : readAt (front ++ (part ++ back)) offset size = .ok part := by
  subst start width
  have total : (front ++ (part ++ back)).length = front.length + part.length + back.length := by simp [add_assoc]
  rw [readAt, if_neg (by omega), if_neg (by omega), Int.toNat_natCast, Int.toNat_natCast, slice_mid rfl rfl]

theorem slice_numbers {ns : List Nat} {i : Nat} (found : ns[i]? = some n) :
    slice (Framing.log (Bytes.ofNat 8) ns) (8 * i) 8 = Bytes.ofNat 8 n := by
  induction ns generalizing i with
  | nil => simp at found
  | cons m ns ih =>
    cases i with
    | zero =>
      obtain rfl : m = n := by simpa using found
      simp [slice]
    | succ i =>
      have rest := ih (i := i) (by simpa using found)
      have skip : slice (Framing.log (Bytes.ofNat 8) (m :: ns)) (8 * (i + 1)) 8 =
          slice (Framing.log (Bytes.ofNat 8) ns) (8 * i) 8 := by
        rw [slice, slice, log_cons, Nat.mul_succ, add_comm, ← drop_drop, drop_left' (by simp)]
      rw [skip, rest]

namespace FileWriter

/-- A file being written stands for a table being written. -/
structure Mirrors (fw : FileWriter) (w : Writer) : Prop where
  file : fw.file = Framing.log blockBytes w.blocks
  written : fw.written = fw.file.length
  index : fw.index = indexOf 0 w.blocks
  buffer : fw.blockBuf = blockBytes w.block
  size : w.blockBytes = fw.blockBuf.length
  first : fw.blockFirstKey = Table.firstKey w.block
  filter : fw.filter = w.filter
  last : fw.lastEncKey = w.lastEncKey
  maxTimestamp : fw.maxTimestamp = w.maxTimestamp
  appliedIndex : fw.appliedIndex = w.appliedIndex

variable {fw : FileWriter}

theorem mirrors_new (expectedKeys appliedIndex : Nat) :
    (new expectedKeys appliedIndex).Mirrors (Writer.new expectedKeys appliedIndex) :=
  ⟨rfl, rfl, rfl, rfl, rfl, rfl, rfl, rfl, rfl, rfl⟩

variable (mirrors : fw.Mirrors w)

include mirrors

theorem Mirrors.flushBlock : fw.flushBlock.Mirrors w.flushBlock := by
  have empty : fw.blockBuf.isEmpty = w.block.isEmpty := by
    rw [mirrors.buffer]
    exact Bool.eq_iff_iff.mpr (by simp)
  unfold FileWriter.flushBlock Writer.flushBlock
  rw [empty]
  split_ifs
  · exact mirrors
  · refine ⟨?_, ?_, ?_, rfl, rfl, rfl, mirrors.filter, mirrors.last, mirrors.maxTimestamp, mirrors.appliedIndex⟩
    · simp [mirrors.file, mirrors.buffer]
    · simp [mirrors.written]
    · simp [indexOf_append, mirrors.index, indexOf, mirrors.first, mirrors.written, mirrors.file, mirrors.buffer]

theorem Mirrors.makeRoom (i : Item) : (fw.makeRoom (encode i.record)).Mirrors (w.makeRoom i) := by
  have empty : fw.blockBuf.isEmpty = w.block.isEmpty := by
    rw [mirrors.buffer]
    exact Bool.eq_iff_iff.mpr (by simp)
  have size : (encode i.record).length = i.bytes := by simp [Item.record, Item.bytes]
  unfold FileWriter.makeRoom Writer.makeRoom
  rw [empty, size, mirrors.size]
  split_ifs
  · exact mirrors.flushBlock
  · exact mirrors

theorem Mirrors.push {i : Item} (fits : i.ts < 2 ^ 64) : (fw.push i).Mirrors (w.push i) := by
  refine ⟨mirrors.file, mirrors.written, mirrors.index, ?_, ?_, ?_, ?_, rfl, ?_, mirrors.appliedIndex⟩
  · simp [FileWriter.push, Writer.push, blockBytes, mirrors.buffer, entryRecord_entry fits]
  · simp [FileWriter.push, Writer.push, mirrors.size, Item.record, Item.bytes, add_assoc]
  · simp only [FileWriter.push, Writer.push, mirrors.buffer, mirrors.first]
    cases shape : w.block with
    | nil => simp [blockBytes, Table.firstKey, Item.entry]
    | cons e b => simp [blockBytes, lawful.filled, Table.firstKey]
  · simp [FileWriter.push, Writer.push, mirrors.filter]
  · simp [FileWriter.push, Writer.push, mirrors.maxTimestamp]

theorem Mirrors.add {i : Item} (fits : i.ts < 2 ^ 64) : (∃ e, fw.add i = .error e ∧ w.add i = .error e) ∨
      ∃ fw' w', fw.add i = .ok fw' ∧ w.add i = .ok w' ∧ fw'.Mirrors w' := by
  unfold FileWriter.add Writer.add
  simp only [mirrors.last]
  split_ifs
  · exact .inl ⟨_, rfl, rfl⟩
  · exact .inl ⟨_, rfl, rfl⟩
  · exact .inr ⟨_, _, rfl, rfl, (mirrors.makeRoom i).push fits⟩

theorem Mirrors.addAll {items : List Item} {w' : Writer}
    (fits : ∀ i ∈ items, i.ts < 2 ^ 64) (added : items.foldlM Writer.add w = .ok w') :
    ∃ fw', items.foldlM FileWriter.add fw = .ok fw' ∧ fw'.Mirrors w' := by
  induction items generalizing fw w with
  | nil =>
    cases added
    exact ⟨fw, rfl, mirrors⟩
  | cons i items ih =>
    rw [foldlM_cons] at added
    rcases mirrors.add (fits i (by simp)) with ⟨e, -, refused⟩ | ⟨fw₁, w₁, first, first', next⟩
    · rw [refused] at added
      cases added
    · rw [first'] at added
      obtain ⟨fw', rest, done⟩ := ih next (fun j listed => fits j (by simp [listed])) added
      refine ⟨fw', ?_, done⟩
      rw [foldlM_cons, first]
      exact rest

end FileWriter

theorem Writer.add_filter (added : w.add i = .ok w') : w'.filter = w.filter.add i.userKey := by
  unfold Writer.add at added
  simp only at added
  split_ifs at added
  cases added
  unfold Writer.push Writer.makeRoom Writer.flushBlock
  dsimp only
  split_ifs <;> rfl

theorem Writer.storable_addAll {items : List Item} (storable : w.filter.Storable)
    (added : items.foldlM Writer.add w = .ok w') : w'.filter.Storable := by
  induction items generalizing w with
  | nil =>
    cases added
    exact storable
  | cons i items ih =>
    rw [foldlM_cons] at added
    cases first : w.add i with
    | error e => rw [first] at added; cases added
    | ok w₁ =>
      rw [first] at added
      exact ih (by rw [Writer.add_filter first]; exact storable.addBy _) added

/-- An open file has a table's filter and numbers, and gives its blocks back. -/
structure Reader.Holds (r : Reader) (t : Table) : Prop where
  blocks : List.Forall₂ (fun e b => e.firstKey = Table.firstKey b ∧ r.loadBlock e = .ok (blockBytes b))
    r.index t.blocks
  filter : r.filter = some t.filter
  maxTimestamp : r.maxTimestamp = t.maxTimestamp
  appliedIndex : r.appliedIndex = t.appliedIndex

def BlocksFit (blocks : List Layer) : Prop := ∀ b ∈ blocks, ∀ e ∈ b, (entryRecord e).Fits

theorem indexOf_reads {r : Reader} (front : List UInt8)
    (file : r.file = front ++ (Framing.log blockBytes blocks ++ back)) :
    List.Forall₂ (fun e b => e.firstKey = Table.firstKey b ∧ r.loadBlock e = .ok (blockBytes b))
      (indexOf front.length blocks) blocks := by
  induction blocks generalizing front with
  | nil => exact .nil
  | cons b blocks ih =>
    refine .cons ⟨rfl, ?_⟩ ?_
    · rw [Reader.loadBlock, file, log_cons, append_assoc]
      exact readAt_part rfl rfl
    · have rest := ih (front ++ blockBytes b) (by rw [file]; simp)
      rwa [length_append] at rest

theorem indexOf_bounds : ∀ e ∈ indexOf offset blocks, 0 ≤ e.blockOffset ∧ 0 ≤ e.blockSize ∧
    e.blockOffset + e.blockSize ≤ offset + (Framing.log blockBytes blocks).length := by
  induction blocks generalizing offset with
  | nil => simp [indexOf]
  | cons b blocks ih =>
    intro e listed
    rw [log_cons, length_append]
    rcases mem_cons.mp listed with rfl | later
    · dsimp only
      omega
    · have bounds := ih e later
      push_cast at bounds ⊢
      omega

theorem indexOf_firstKey : ∀ e ∈ indexOf offset blocks, ∃ b ∈ blocks, e.firstKey = Table.firstKey b := by
  induction blocks generalizing offset with
  | nil => simp [indexOf]
  | cons b blocks ih =>
    intro e listed
    rcases mem_cons.mp listed with rfl | later
    · exact ⟨b, by simp, rfl⟩
    · obtain ⟨b', member, same⟩ := ih e later
      exact ⟨b', by simp [member], same⟩

theorem parseIndex_records {es : List IndexEntry} {fuel : Nat}
    (small : ∀ e ∈ es, headerSize + e.firstKey.length < 2 ^ 32 ∧ (0 ≤ e.blockOffset ∧ e.blockOffset < 2 ^ 63) ∧
      0 ≤ e.blockSize ∧ e.blockSize < 2 ^ 63)
    (enough : (Framing.log encode (es.map IndexEntry.record)).length < fuel) :
    parseIndex fuel (Framing.log encode (es.map IndexEntry.record)) = .ok es := by
  induction es generalizing fuel with
  | nil =>
    cases fuel with
    | zero => simp at enough
    | succ fuel => simp [parseIndex]
  | cons e es ih =>
    obtain ⟨key, offset, size⟩ := small e (by simp)
    cases fuel with
    | zero => simp at enough
    | succ fuel =>
      have fits : e.record.Fits := ⟨by simp [IndexEntry.record], key, by simp [IndexEntry.record]⟩
      have filled : 0 < (encode e.record).length := length_pos_iff.mpr (lawful.filled _)
      rw [map_cons, log_cons, length_append] at enough
      have rest := ih (fun e' listed => small e' (by simp [listed]))
        (show (Framing.log encode (es.map IndexEntry.record)).length < fuel by omega)
      have width : e.record.value.length = 16 := by simp [IndexEntry.record]
      -- Both numbers of the value are read at their places.
      have low : slice e.record.value 0 8 = Bytes.ofNat 8 (toUint64 e.blockOffset) := by
        simp [IndexEntry.record, slice]
      have high : slice e.record.value 8 8 = Bytes.ofNat 8 (toUint64 e.blockSize) := by
        simp [IndexEntry.record, slice, take_of_length_le]
      have nonempty : (encode e.record ++ Framing.log encode (es.map IndexEntry.record)).isEmpty = false := by
        simp [lawful.filled]
      rw [map_cons, log_cons, parseIndex, nonempty]
      simp only [lawful.whole e.record _ fits, width, drop_left, rest, low, high,
        Bytes.toNat_ofNat (toUint64_lt _), toInt64_toUint64 offset.1 offset.2,
        toInt64_toUint64 size.1 size.2, ne_eq, not_true_eq_false, if_false, Bool.false_eq_true]
      rfl

theorem footer_numbers {a b c d : Int} {i : Nat}
    (found : [toUint64 a, toUint64 b, toUint64 c, toUint64 d, ts, applied, tableMagic][i]? = some n)
    (fits : n < 256 ^ 8) : Bytes.toNat (slice (FileWriter.footer a b c d ts applied) (8 * i) 8) = n := by
  rw [FileWriter.footer, slice_numbers found, Bytes.toNat_ofNat fits]

theorem length_footer (a b c d : Int) (ts applied : Nat) :
    (FileWriter.footer a b c d ts applied).length = footerSize := by
  simp [FileWriter.footer, footerSize]

theorem openReader_parts {data index bloom file : List UInt8} {entries : List IndexEntry}
    {filter : Bloom} (whole : file = data ++ (index ++ (bloom ++ FileWriter.footer data.length index.length
      (data.length + index.length) bloom.length ts applied)))
    (small : file.length < 2 ^ 63) (tsFits : ts < 2 ^ 64) (appliedFits : applied < 2 ^ 64)
    (parsed : parseIndex (index.length + 1) index = .ok entries) (loaded : Bloom.load bloom = some filter) :
    openReader file = .ok ⟨file, entries, some filter, ts, applied⟩ := by
  obtain ⟨foot, footEq⟩ : ∃ foot, foot = FileWriter.footer data.length index.length
      (data.length + index.length) bloom.length ts applied := ⟨_, rfl⟩
  rw [← footEq] at whole
  have footSize : foot.length = footerSize := by rw [footEq]; exact length_footer ..
  have total : file.length = data.length + index.length + bloom.length + footerSize := by
    rw [whole]
    simp only [length_append, footSize]
    omega
  have bloomSize : 0 < bloom.length := by
    cases bloom with
    | nil => cases loaded
    | cons k bits => simp
  -- The footer is read number by number.
  have tail : file.drop (file.length - footerSize) = foot := by
    rw [total, Nat.add_sub_cancel, whole, ← append_assoc, ← append_assoc, drop_left' (by simp only [length_append])]
  have number : ∀ i {n : Nat}, n < 256 ^ 8 →
      [toUint64 data.length, toUint64 index.length, toUint64 (data.length + index.length),
        toUint64 bloom.length, ts, applied, tableMagic][i]? = some n →
      footerNumber file i = n := fun i n fits found => by
    rw [footerNumber, tail, footEq]
    exact footer_numbers found fits
  have signed : ∀ i {n : Int}, 0 ≤ n → n < 2 ^ 63 →
      [toUint64 data.length, toUint64 index.length, toUint64 (data.length + index.length),
        toUint64 bloom.length, ts, applied, tableMagic][i]? = some (toUint64 n) →
      toInt64 (footerNumber file i) = n := fun i n positive low found => by
    rw [number i (toUint64_lt _) found, toInt64_toUint64 positive low]
  have indexOffset := signed 0 (n := data.length) (by omega) (by omega) rfl
  have indexSize := signed 1 (n := index.length) (by omega) (by omega) rfl
  have bloomOffset := signed 2 (n := data.length + index.length) (by omega) (by omega) rfl
  have bloomLength := signed 3 (n := bloom.length) (by omega) (by omega) rfl
  have maxTS := number 4 (tsFits.trans_le (by decide)) rfl
  have raft := number 5 (appliedFits.trans_le (by decide)) rfl
  have magic := number 6 (n := tableMagic) (by decide) rfl
  -- Index and filter are read where the footer says.
  have readIndex : readAt file data.length index.length = .ok index := by
    rw [whole]
    exact readAt_part rfl rfl
  have readBloom : readAt file (data.length + index.length) bloom.length = .ok bloom := by
    rw [whole, ← append_assoc]
    exact readAt_part (by simp) rfl
  have long : ¬ file.length < footerSize := by omega
  have some_bloom : (0 : Int) < bloom.length := by omega
  -- The sums do not wrap around, so both parts are seen to end before the footer.
  have indexInside : footerPasses file 0 = true := by
    have sum : addInt64 data.length index.length = data.length + index.length :=
      toInt64_toUint64 (by omega) (by omega)
    simp only [footerPasses, indexOffset, indexSize, sum, total, decide_eq_true_eq]
    omega
  have bloomInside : footerPasses file 2 = true := by
    have sum : addInt64 (data.length + index.length) bloom.length = data.length + index.length + bloom.length :=
      toInt64_toUint64 (by omega) (by omega)
    simp only [footerPasses, bloomOffset, bloomLength, sum, total, decide_eq_true_eq]
    omega
  unfold openReader
  rw [if_neg long]
  simp only [indexInside, bloomInside, indexOffset, indexSize, bloomOffset, bloomLength, magic, maxTS, raft,
    ne_eq, not_true_eq_false, Bool.not_true, Bool.or_self, Bool.false_eq_true, if_false, readIndex, readBloom,
    parsed, loaded, if_pos some_bloom]

theorem Writer.finish_keeps (w : Writer) : w.finish.filter = w.filter ∧ w.finish.maxTimestamp = w.maxTimestamp ∧
    w.finish.appliedIndex = w.appliedIndex := by
  unfold Writer.finish Writer.flushBlock
  dsimp only
  split_ifs <;> exact ⟨rfl, rfl, rfl⟩

theorem openReader_finish {fw : FileWriter} (mirrors : fw.Mirrors w)
    (storable : w.filter.Storable) (fit : BlocksFit w.finish.blocks) (filled : ∀ b ∈ w.finish.blocks, b ≠ [])
    (ts : w.maxTimestamp < 2 ^ 64) (applied : w.appliedIndex < 2 ^ 64) (small : fw.finish.length < 2 ^ 63) :
    ∃ r, openReader fw.finish = .ok r ∧ r.file = fw.finish ∧ r.Holds w.finish := by
  have closed := mirrors.flushBlock
  obtain ⟨sameFilter, sameTS, sameApplied⟩ := w.finish_keeps
  have index : fw.flushBlock.index = indexOf 0 w.finish.blocks := closed.index
  have file : fw.flushBlock.file = Framing.log blockBytes w.finish.blocks := closed.file
  -- The file in the order it is written.
  have whole : fw.finish = fw.flushBlock.file ++
      (Framing.log encode (fw.flushBlock.index.map IndexEntry.record) ++ (fw.flushBlock.filter.bytes ++
        FileWriter.footer fw.flushBlock.file.length
          (Framing.log encode (fw.flushBlock.index.map IndexEntry.record)).length
          (fw.flushBlock.file.length + (Framing.log encode (fw.flushBlock.index.map IndexEntry.record)).length)
          fw.flushBlock.filter.bytes.length w.finish.maxTimestamp w.finish.appliedIndex)) := by
    simp only [FileWriter.finish, closed.written, closed.maxTimestamp, closed.appliedIndex]
    rfl
  have short : fw.flushBlock.file.length < 2 ^ 63 := by
    rw [whole, length_append] at small
    omega
  have parsed : parseIndex ((Framing.log encode (fw.flushBlock.index.map IndexEntry.record)).length + 1)
      (Framing.log encode (fw.flushBlock.index.map IndexEntry.record)) = .ok fw.flushBlock.index := by
    refine parseIndex_records (fun e listed => ?_) (Nat.lt_succ_self _)
    rw [index] at listed
    have bounds := indexOf_bounds e listed
    rw [← file] at bounds
    obtain ⟨b, member, key⟩ := indexOf_firstKey e listed
    obtain ⟨first, rest, rfl⟩ := exists_cons_of_ne_nil (filled b member)
    have keyFits := (fit _ member first (by simp)).key
    exact ⟨by rw [key]; exact keyFits, ⟨bounds.1, by omega⟩, bounds.2.1, by omega⟩
  have loaded : Bloom.load fw.flushBlock.filter.bytes = some w.finish.filter := by
    have same : fw.flushBlock.filter = w.finish.filter := closed.filter
    rw [same, sameFilter]
    exact storable.load
  have opened := openReader_parts whole small (by rw [sameTS]; exact ts) (by rw [sameApplied]; exact applied)
    parsed loaded
  refine ⟨_, opened, rfl, ⟨?_, rfl, rfl, rfl⟩⟩
  dsimp only
  rw [file] at whole
  rw [index]
  exact indexOf_reads [] (whole.trans (nil_append _).symm)

end Store
