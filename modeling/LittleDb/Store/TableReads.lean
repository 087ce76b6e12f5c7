import LittleDb.Lib.Run
import Mathlib.Data.List.TakeWhile
import LittleDb.Store.TableFileLaws

/-! Reading a table file: point reads through filter, index and two blocks, and cursors over all blocks. -/

namespace Store

open List Option SortedMap

variable {fuel : Nat}

theorem blockRecords_bytes {b : Layer} (fit : ∀ e ∈ b, (entryRecord e).Fits)
    (enough : (blockBytes b).length < fuel) : blockRecords fuel (blockBytes b) = .ok (b.map entryRecord) := by
  induction b generalizing fuel with
  | nil =>
    cases fuel with
    | zero => simp [blockBytes] at enough
    | succ fuel => simp [blockRecords, blockBytes]
  | cons e b ih =>
    cases fuel with
    | zero => simp at enough
    | succ fuel =>
      have split : blockBytes (e :: b) = encode (entryRecord e) ++ blockBytes b := rfl
      have filled : 0 < (encode (entryRecord e)).length := length_pos_iff.mpr (lawful.filled _)
      rw [split, length_append] at enough
      have rest := ih (fun e' listed => fit e' (by simp [listed])) (show (blockBytes b).length < fuel by omega)
      have nonempty : (encode (entryRecord e) ++ blockBytes b).isEmpty = false := by simp [lawful.filled]
      rw [split, blockRecords, nonempty]
      simp only [lawful.whole (entryRecord e) _ (fit e (by simp)), drop_left, rest, Bool.false_eq_true, if_false]
      rfl

/-- The first record at or above a target in a block is the first such entry. -/
theorem seekBlock_of_records (target : List UInt8) {buf : List UInt8} {b : Layer}
    (read : blockRecords fuel buf = .ok (b.map entryRecord)) :
    seekBlock target fuel buf = .ok ((SortedMap.seek target b).head?.map entryRecord) := by
  generalize listed : b.map entryRecord = records at read
  fun_induction blockRecords fuel buf generalizing b records with
  | case1 =>
    cases read
    rw [map_eq_nil_iff.mp listed]
    rfl
  | case2 fuel buf empty =>
    cases read
    rw [map_eq_nil_iff.mp listed, seekBlock, if_pos empty]
    rfl
  | case3 => cases read
  | case4 fuel buf filled r n decoded ih =>
    cases behind : blockRecords fuel (buf.drop n) with
    | error e => simp [behind, Except.map] at read
    | ok rest =>
      rw [behind] at read
      cases read
      obtain ⟨e, b, rfl, rfl, rfl⟩ := map_eq_cons_iff.mp listed
      have next := ih _ rfl behind
      have key : (entryRecord e).key = e.1 := rfl
      by_cases below : e.1 < target <;> simp [seekBlock, filled, decoded, next, key, SortedMap.seek, below]

/-- A block of an open file with its place in the index. -/
def Reader.Block (r : Reader) (e : IndexEntry) (b : Layer) : Prop :=
  e.firstKey = Table.firstKey b ∧ r.loadBlock e = .ok (blockBytes b)

section Reading

variable {r : Reader} {t : Table} {es : List IndexEntry} {bs : List Layer} {target : List UInt8}

section

variable (blocks : List.Forall₂ r.Block es bs)

include blocks

theorem Reader.seekBlocks_bytes (fit : BlocksFit bs) :
    r.seekBlocks target es = .ok ((SortedMap.seek target bs.flatten).head?.map entryRecord) := by
  induction blocks with
  | nil => rfl
  | @cons e b es bs here _ ih =>
    have found := seekBlock_of_records target (blockRecords_bytes (fit b (by simp)) (Nat.lt_succ_self _))
    rw [seekBlocks, here.2]
    simp only [found]
    rw [flatten_cons, Table.head_seek_append]
    cases (SortedMap.seek target b).head? with
    | some first => rfl
    | none => exact ih fun b' member => fit b' (by simp [member])

theorem Reader.readBlocks_bytes (fit : BlocksFit bs) : r.readBlocks es = .ok bs.flatten := by
  induction blocks with
  | nil => rfl
  | @cons e b es bs here _ ih =>
    have records := blockRecords_bytes (fit b (by simp)) (Nat.lt_succ_self _)
    rw [readBlocks, here.2]
    simp only [records, ih fun b' member => fit b' (by simp [member]), map_entryOf]
    rfl

theorem findIdx_blocks (p : List UInt8 → Bool) :
    es.findIdx (fun e => p e.firstKey) = bs.findIdx fun b => p (Table.firstKey b) := by
  induction blocks with
  | nil => rfl
  | cons here _ ih => simp [findIdx_cons, here.1, ih]

theorem firstKeys_blocks : es.map IndexEntry.firstKey = bs.map Table.firstKey := by
  induction blocks with
  | nil => rfl
  | cons here _ ih => rw [map_cons, map_cons, here.1, ih]

end

theorem firstKeys_sorted (sorted : SortedMap.Sorted bs.flatten) (filled : ∀ b ∈ bs, b ≠ []) :
    bs.Pairwise fun a b => Table.firstKey a < Table.firstKey b := by
  induction bs with
  | nil => exact .nil
  | cons b bs ih =>
    obtain ⟨_, rest, across⟩ := pairwise_append.mp (flatten_cons ▸ sorted)
    refine pairwise_cons.mpr ⟨fun c member => ?_, ih rest fun c member => filled c (by simp [member])⟩
    obtain ⟨e, tail, rfl⟩ := exists_cons_of_ne_nil (filled b (by simp))
    obtain ⟨e', tail', rfl⟩ := exists_cons_of_ne_nil (filled c (by simp [member]))
    exact across e (by simp) e' (mem_flatten.mpr ⟨_, member, by simp⟩)

theorem Reader.startBlock_eq (blocks : List.Forall₂ r.Block r.index bs) (sorted : SortedMap.Sorted bs.flatten)
    (filled : ∀ b ∈ bs, b ≠ []) (target : List UInt8) :
    r.startBlock target = bs.findIdx (fun b => decide (target < Table.firstKey b)) - 1 := by
  have mono : r.index.Pairwise fun a b =>
      decide (target < a.firstKey) = true → decide (target < b.firstKey) = true := by
    have keys := firstKeys_blocks blocks
    have order := firstKeys_sorted sorted filled
    rw [← pairwise_map (f := Table.firstKey) (R := (· < ·)), ← keys, pairwise_map] at order
    exact order.imp fun less above => decide_eq_true ((of_decide_eq_true above).trans less)
  rw [startBlock, Search.search_eq_findIdx mono, findIdx_blocks blocks fun key => decide (target < key)]

/-- An open file of a table in order: what is needed to read it. -/
structure Reader.Serves (r : Reader) (t : Table) : Prop extends r.Holds t where
  sorted : SortedMap.Sorted t.entries
  filled : ∀ b ∈ t.blocks, b ≠ []
  fit : BlocksFit t.blocks
  encoded : ∀ e ∈ t.entries, ∃ k ts, ts < 2 ^ 64 ∧ e.1 = encodeKey k ts
  admits : ∀ e ∈ t.entries, ∀ k ts, ts < 2 ^ 64 → e.1 = encodeKey k ts → t.filter.mayContain k = true

namespace Reader.Serves

variable (serves : r.Serves t)

include serves

theorem isEmpty_eq : r.index.isEmpty = t.blocks.isEmpty := by
  rw [Bool.eq_iff_iff, isEmpty_iff_length_eq_zero, isEmpty_iff_length_eq_zero, serves.blocks.length_eq]

theorem find_eq (k : Key) (target : List UInt8) :
    r.find k target = if t.blocks.isEmpty then .ok none else if !t.filter.mayContain k then .ok none
      else .ok ((SortedMap.seek target t.entries).head?.map entryRecord) := by
  have two : List.Forall₂ r.Block ((r.index.drop (r.startBlock target)).take 2)
      ((t.blocks.drop (r.startBlock target)).take 2) :=
    forall₂_take 2 (forall₂_drop _ serves.blocks)
  have fit : BlocksFit ((t.blocks.drop (r.startBlock target)).take 2) := fun b member =>
    serves.fit b (mem_of_mem_drop (mem_of_mem_take member))
  rw [find, serves.isEmpty_eq, serves.filter, any_some, seekBlocks_bytes two fit,
    startBlock_eq serves.blocks serves.sorted serves.filled, Table.entries,
    ← Table.head_seek_window target serves.sorted serves.filled]
  rfl

theorem find_linear (k : Key) (target : List UInt8) :
    (r.find k target = .ok none ∧ SortedMap.seek target t.entries = []) ∨
      ∃ e tail k' ts, SortedMap.seek target t.entries = e :: tail ∧ decodeKey e.1 = some (k', ts) ∧
        (r.find k target = .ok (some (entryRecord e)) ∨ r.find k target = .ok none ∧ k' ≠ k) := by
  rw [serves.find_eq]
  cases shape : SortedMap.seek target t.entries with
  | nil => exact .inl ⟨by split_ifs <;> rfl, rfl⟩
  | cons e tail =>
    have listed := ((head_seek (k := target) serves.sorted).mp (by rw [shape]; rfl)).1
    obtain ⟨k', ts, fits, same⟩ := serves.encoded e listed
    refine .inr ⟨e, tail, k', ts, rfl, same ▸ decodeKey_encodeKey fits, ?_⟩
    split_ifs with empty denied
    · rw [List.isEmpty_iff] at empty
      simp [Table.entries, empty, SortedMap.seek] at shape
    · -- The filter denies only keys that no entry has.
      refine .inr ⟨rfl, ?_⟩
      rintro rfl
      simp [serves.admits e listed k' ts fits same] at denied
    · exact .inl rfl

/-- A point read is a linear search for the first entry at or after the target. -/
theorem getAsOf_linear (k : Key) (s : Nat) : r.getAsOf k s = .ok (t.entries.getAsOf k s) := by
  rw [Reader.getAsOf, Layer.getAsOf]
  rcases serves.find_linear k (encodeKey k s) with
    ⟨found, shape⟩ | ⟨e, tail, k', ts, shape, decoded, found | ⟨found, other⟩⟩
  · rw [found, shape]
  · simp only [found, shape, entryRecord, decoded]
    split_ifs <;> rfl
  · simp only [found, shape, decoded, if_neg other]

theorem newestVersionTS_linear (k : Key) : r.newestVersionTS k = .ok (t.entries.newestVersionTS k) := by
  rw [Reader.newestVersionTS, Layer.newestVersionTS]
  rcases serves.find_linear k (encodeKey k maxUint64) with
    ⟨found, shape⟩ | ⟨e, tail, k', ts, shape, decoded, found | ⟨found, other⟩⟩
  · rw [found, shape]
  · simp only [found, shape, entryRecord, decoded]
    split_ifs <;> rfl
  · simp only [found, shape, decoded, if_neg other]

theorem iterate_eq : r.iterate = .ok t.entries :=
  readBlocks_bytes serves.blocks serves.fit

end Reader.Serves

/-- The entries from a start to before an end, as a cursor takes them. -/
def Layer.range (l : Layer) (start end_ : Option Key) : Layer :=
  (match start with
    | none => l
    | some k => SortedMap.seek (encodeKey k maxUint64) l).takeWhile fun e => Cursor.inRange end_ e.1

namespace Cursor

variable {it : Cursor} {l : Layer}

structure Rest (it : Cursor) (t : Table) (l : Layer) : Prop where
  serves : it.r.Serves t
  left : ∃ here, it.buf.drop it.offset = blockBytes here ∧ (∀ e ∈ here, (entryRecord e).Fits) ∧
    l = here ++ (t.blocks.drop (it.blockIdx + 1)).flatten
  clean : it.err = none

theorem loadBlock_eq {i : Nat} (serves : it.r.Serves t) (low : i < t.blocks.length) :
    it.loadBlock i = { it with blockIdx := i, buf := blockBytes t.blocks[i], offset := 0 } := by
  have short : i < it.r.index.length := serves.blocks.length_eq ▸ low
  have here : it.r.Block it.r.index[i] t.blocks[i] := List.Forall₂.get serves.blocks short low
  simp [loadBlock, getElem?_eq_getElem short, here.2]

theorem rest_loadBlock {i : Nat} (serves : it.r.Serves t) (clean : it.err = none) (low : i < t.blocks.length) :
    (it.loadBlock i).Rest t (t.blocks.drop i).flatten := by
  rw [loadBlock_eq serves low]
  refine ⟨serves, ⟨t.blocks[i], rfl, serves.fit _ (getElem_mem low), ?_⟩, clean⟩
  rw [drop_eq_getElem_cons low, flatten_cons]

theorem decodeNext_eq {e : List UInt8 × (Op × Value)} {here : Layer} (serves : it.r.Serves t) (clean : it.err = none)
    (bytes : it.buf.drop it.offset = blockBytes (e :: here)) (fit : ∀ e' ∈ e :: here, (entryRecord e').Fits) :
    ∃ it', it.decodeNext = (it', some e) ∧ it'.Rest t (here ++ (t.blocks.drop (it.blockIdx + 1)).flatten) ∧
    it'.endUser = it.endUser := by
  have split : blockBytes (e :: here) = encode (entryRecord e) ++ blockBytes here := rfl
  refine ⟨{ it with offset := it.offset + (encode (entryRecord e)).length }, ?_, ⟨serves, ⟨here, ?_, ?_, rfl⟩, clean⟩, rfl⟩
  · rw [decodeNext, bytes, split, lawful.whole _ _ (fit e (by simp))]
    rfl
  · rw [← drop_drop, bytes, split, drop_left]
  · exact fun e' listed => fit e' (by simp [listed])

theorem nextRaw_eq (rest : it.Rest t l) : (l = [] ∧ it.nextRaw = (it, none)) ∨ ∃ e l' it', l = e :: l' ∧
    it.nextRaw = (it', some e) ∧ it'.Rest t l' ∧ it'.endUser = it.endUser := by
  obtain ⟨here, bytes, fit, rfl⟩ := rest.left
  cases here with
  | cons e here =>
    -- The block has another record.
    obtain ⟨it', decoded, rest', bound⟩ := decodeNext_eq rest.serves rest.clean bytes fit
    have inside : ¬ it.buf.length ≤ it.offset := by
      intro ended
      rw [drop_of_length_le ended] at bytes
      exact absurd (blockBytes_eq_nil.mp bytes.symm) (by simp)
    exact .inr ⟨e, _, it', rfl, by rw [nextRaw, if_neg inside, decoded], rest', bound⟩
  | nil =>
    have ended : it.buf.length ≤ it.offset := drop_eq_nil_iff.mp bytes
    have sizes := rest.serves.blocks.length_eq
    by_cases last : it.r.index.length ≤ it.blockIdx + 1
    · refine .inl ⟨?_, by rw [nextRaw, if_pos ended, if_pos last]⟩
      rw [drop_of_length_le (by omega)]
      rfl
    · -- The next block is there, and it is not empty.
      have low : it.blockIdx + 1 < t.blocks.length := by omega
      have member := getElem_mem low
      obtain ⟨e, tail, shape⟩ := exists_cons_of_ne_nil (rest.serves.filled _ member)
      have loaded := loadBlock_eq rest.serves low
      rw [shape] at loaded
      have serves : (it.loadBlock (it.blockIdx + 1)).r.Serves t := by
        rw [loaded]
        exact rest.serves
      have clean : (it.loadBlock (it.blockIdx + 1)).err = none := by
        rw [loaded]
        exact rest.clean
      have fit : ∀ e' ∈ e :: tail, (entryRecord e').Fits := by
        rw [← shape]
        exact rest.serves.fit _ member
      obtain ⟨it', decoded, rest', bound⟩ := decodeNext_eq serves clean (by rw [loaded]; rfl) fit
      refine .inr ⟨e, _, it', ?_, ?_, rest', ?_⟩
      · rw [drop_eq_getElem_cons low, shape, loaded]
        rfl
      · rw [nextRaw, if_pos ended, if_neg last]
        simp [clean, decoded]
      · rw [bound, loaded]

theorem yields_of_rest {e : List UInt8 × (Op × Value)} (rest : it.Rest t l) (here : it.current = some e) :
    it.Yields (e :: l.takeWhile fun e => inRange it.endUser e.1) := by
  induction l generalizing it e with
  | nil =>
    rcases nextRaw_eq rest with ⟨-, ended⟩ | ⟨e', l', it', shape, -⟩
    · refine .next here ?_
      have stopped : it.advance = { it with current := none } := by simp [advance, here, ended]
      rw [stopped]
      exact .done rfl rest.clean
    · simp at shape
  | cons x l ih =>
    rcases nextRaw_eq rest with ⟨shape, -⟩ | ⟨e', l', it', shape, moved, rest', bound⟩
    · simp at shape
    · obtain ⟨rfl, rfl⟩ := List.cons.inj shape
      refine .next here ?_
      by_cases inside : inRange it.endUser x.1 = true
      · have stepped : it.advance = { it' with current := some x } := by
          simp [advance, here, moved, bound, inside]
        rw [stepped, takeWhile_cons, if_pos inside, ← bound]
        have ahead : Rest { it' with current := some x } t l := ⟨rest'.serves, rest'.left, rest'.clean⟩
        exact ih ahead rfl
      · have stopped : it.advance = { it' with current := none } := by
          simp [advance, here, moved, bound, inside]
        rw [stopped, takeWhile_cons, if_neg inside]
        exact .done rfl rest'.clean

theorem position_yields (startTarget : Option (List UInt8)) (rest : it.Rest t l) (enough : l.length < fuel) :
    (it.position startTarget fuel).Yields
      ((l.dropWhile fun e => startTarget.any fun target => e.1 < target).takeWhile
        fun e => inRange it.endUser e.1) := by
  induction fuel generalizing it l with
  | zero => exact absurd enough (by omega)
  | succ fuel ih =>
    rcases nextRaw_eq rest with ⟨rfl, ended⟩ | ⟨e, l', it', rfl, moved, rest', bound⟩
    · rw [position, ended]
      exact .done rfl rest.clean
    · rw [position, moved]
      dsimp only
      by_cases below : (startTarget.any fun target => decide (e.1 < target)) = true
      · rw [if_pos below, dropWhile_cons, if_pos below, ← bound]
        exact ih rest' (by simp at enough; omega)
      · rw [if_neg below, dropWhile_cons, if_neg below]
        by_cases inside : inRange it.endUser e.1 = true
        · rw [if_pos (by rw [bound]; exact inside), takeWhile_cons, if_pos inside, ← bound]
          have ahead : Rest { it' with current := some e } t l' := ⟨rest'.serves, rest'.left, rest'.clean⟩
          exact yields_of_rest ahead rfl
        · rw [if_neg (by rw [bound]; exact inside), takeWhile_cons, if_neg inside]
          exact .done rfl rest'.clean

end Cursor

theorem dropWhile_any_some (l : Layer) (target : List UInt8) :
    (l.dropWhile fun e => (some target).any fun target => e.1 < target) = SortedMap.seek target l := by
  simp only [SortedMap.seek, any_some]
  congr!

theorem seek_startBlock (sorted : SortedMap.Sorted bs.flatten) (filled : ∀ b ∈ bs, b ≠ []) :
    SortedMap.seek target (bs.drop (bs.findIdx (fun b => decide (target < Table.firstKey b)) - 1)).flatten =
      SortedMap.seek target bs.flatten := by
  induction bs with
  | nil => rfl
  | cons b bs ih =>
    by_cases above : target < Table.firstKey b
    · simp [findIdx_cons, above]
    · cases bs with
      | nil => simp [findIdx_cons, above]
      | cons c bs =>
        obtain ⟨e, tail, rfl⟩ := exists_cons_of_ne_nil (filled c (by simp))
        by_cases next : target < Table.firstKey (e :: tail)
        · simp [findIdx_cons, above, next]
        · -- The whole first block is below the target.
          rw [flatten_cons] at sorted
          obtain ⟨-, sorted', across⟩ := pairwise_append.mp sorted
          have below : ∀ x ∈ b, x.1 < target := fun x within =>
            lt_of_lt_of_le (across x within e (by simp)) (not_lt.mp next)
          rw [flatten_cons, seek_append_of_lt below, ← ih sorted' fun c member => filled c (by simp [member])]
          simp [findIdx_cons, above, next]

theorem length_blocks (blocks : List.Forall₂ r.Block es bs) :
    bs.flatten.length ≤ (es.map fun e => e.blockSize.toNat).sum := by
  induction blocks with
  | nil => simp
  | @cons e b es bs here _ ih =>
    have count : b.length ≤ (blockBytes b).length := by
      have records := Framing.length_le_log lawful.filled (b.map entryRecord)
      rwa [length_map] at records
    have size : (blockBytes b).length ≤ e.blockSize.toNat := by
      have read := here.2
      simp only [Reader.loadBlock, readAt] at read
      split_ifs at read
      rw [← Except.ok.inj read]
      exact length_take_le _ _
    simp only [flatten_cons, length_append, map_cons, sum_cons]
    omega

theorem Reader.Serves.newIterator_yields (serves : r.Serves t) (start end_ : Option Key) :
    (r.newIterator start end_).Yields (t.entries.range start end_) := by
  have sizes := serves.blocks.length_eq
  by_cases empty : r.index.isEmpty = true
  · have none_left : t.entries = [] := by
      rw [serves.isEmpty_eq, List.isEmpty_iff] at empty
      simp [Table.entries, empty]
    rw [newIterator, if_pos empty, none_left]
    cases start <;> exact .done rfl rfl
  · -- The block where the cursor starts is there, and nothing in range lies in front of it.
    obtain ⟨i, first, low, same⟩ : ∃ i, ((start.map fun k => encodeKey k maxUint64).map r.startBlock).getD 0 = i ∧
        i < t.blocks.length ∧
        Layer.range (t.blocks.drop i).flatten start end_ = t.entries.range start end_ := by
      have some_block : 0 < t.blocks.length := by
        rw [← sizes]
        exact length_pos_iff.mpr fun gone => empty (by simp [gone])
      cases start with
      | none => exact ⟨0, rfl, some_block, rfl⟩
      | some k =>
        refine ⟨r.startBlock (encodeKey k maxUint64), rfl, ?_, ?_⟩
        · rw [startBlock_eq serves.blocks serves.sorted serves.filled]
          have found : t.blocks.findIdx (fun b => decide (encodeKey k maxUint64 < Table.firstKey b)) ≤
              t.blocks.length := findIdx_le_length
          omega
        · simp only [startBlock_eq serves.blocks serves.sorted serves.filled, Layer.range,
            seek_startBlock serves.sorted serves.filled]
          rfl
    have fresh : (⟨r, end_, 0, [], 0, none, none⟩ : Cursor).r.Serves t := serves
    have loaded := Cursor.loadBlock_eq fresh low
    have rest := Cursor.rest_loadBlock fresh rfl low
    have enough : (t.blocks.drop i).flatten.length < (r.index.map fun e => e.blockSize.toNat).sum + 1 := by
      have whole := length_blocks serves.blocks
      have part := congrArg List.length (congrArg List.flatten (take_append_drop i t.blocks))
      rw [flatten_append, length_append] at part
      omega
    have yields := Cursor.position_yields (start.map fun k => encodeKey k maxUint64) rest enough
    rw [newIterator, if_neg empty]
    dsimp only
    rw [first, ← same, if_neg (by simp [rest.clean])]
    rw [loaded] at yields ⊢
    cases start with
    | none =>
      rw [map_none, dropWhile_eq_self_iff.mpr fun _ => Bool.false_ne_true] at yields
      exact yields
    | some k =>
      simp only [map_some, dropWhile_any_some] at yields
      exact yields

end Reading

/-- A version whose key, value and timestamp fit the fields of a record. -/
structure Item.Fits (i : Item) : Prop where
  ts : i.ts < 2 ^ 64
  key : headerSize + (i.userKey.length + timestampSize) < 2 ^ 32
  value : i.value.length < 2 ^ 32

theorem Writer.Holds.maxTimestamp_eq {w : Writer} {items : List Item} (holds : w.Holds items) :
    w.maxTimestamp = (items.map Item.ts).max?.getD 0 := by
  cases found : (items.map Item.ts).max? with
  | none =>
    obtain rfl : items = [] := by simpa using found
    rcases holds.reached with zero | ⟨i, listed, -⟩
    · exact zero
    · simp at listed
  | some top =>
    obtain ⟨member, most⟩ := max?_eq_some_iff.mp found
    obtain ⟨i, listed, rfl⟩ := mem_map.mp member
    refine le_antisymm ?_ (holds.bounded i listed)
    rcases holds.reached with zero | ⟨j, listed', same⟩
    · rw [zero]
      exact Nat.zero_le _
    · rw [← same]
      exact most _ (mem_map.mpr ⟨j, listed', rfl⟩)

/-- A table file gives back what was written, by both walks and point reads. -/
theorem table_round_trip (items : List Item) (expectedKeys appliedIndex : Nat) (order : Ascending items)
    (fit : ∀ i ∈ items, i.Fits) (applied : appliedIndex < 2 ^ 64) :
    ∃ file, writeTableFile items expectedKeys appliedIndex = .ok file ∧
      (file.length < 2 ^ 63 → ∃ r, openReader file = .ok r ∧
        r.iterate = .ok (items.map Item.entry) ∧
        (r.newIterator none none).Yields (items.map Item.entry) ∧
        r.maxTimestamp = (items.map Item.ts).max?.getD 0 ∧
        r.appliedIndex = appliedIndex ∧
        ∀ k s, r.getAsOf k s = .ok (Layer.getAsOf (items.map Item.entry) k s) ∧
          r.newestVersionTS k = .ok (Layer.newestVersionTS (items.map Item.entry) k)) := by
  -- The abstract writer and the one of bytes take the items side by side.
  obtain ⟨w, added, holds, applied'⟩ :=
    (Writer.holds_new expectedKeys appliedIndex).addAll (show Ascending ([] ++ items) from order)
  rw [nil_append] at holds
  obtain ⟨fw, written, mirrors⟩ :=
    (FileWriter.mirrors_new expectedKeys appliedIndex).addAll (fun i listed => (fit i listed).ts) added
  have storable := Writer.storable_addAll (Bloom.storable_new _ _) added
  refine ⟨fw.finish, by rw [writeTableFile, written]; rfl, fun small => ?_⟩
  have entries := holds.entries_finish
  have entry : ∀ e ∈ w.finish.entries, ∃ i ∈ items, i.entry = e := fun e listed => by
    rw [entries] at listed
    exact mem_map.mp listed
  have blocksFit : BlocksFit w.finish.blocks := fun b member e listed => by
    obtain ⟨i, given, rfl⟩ := entry e (mem_flatten.mpr ⟨b, member, listed⟩)
    rw [entryRecord_entry (fit i given).ts]
    exact ⟨(fit i given).ts, by simpa [Item.record] using (fit i given).key, (fit i given).value⟩
  have numbers := w.finish_keeps
  have top : w.maxTimestamp < 2 ^ 64 := by
    rcases holds.reached with zero | ⟨i, listed, same⟩
    · rw [zero]
      decide
    · rw [← same]
      exact (fit i listed).ts
  obtain ⟨r, opened, -, stands⟩ := openReader_finish mirrors storable blocksFit holds.flushBlock.filled top
    (by rw [applied']; exact applied) small
  -- What is opened stands for the finished table.
  have serves : r.Serves w.finish :=
    { stands with
      sorted := entries ▸ order
      filled := holds.flushBlock.filled
      fit := blocksFit
      encoded := fun e listed => by
        obtain ⟨i, given, rfl⟩ := entry e listed
        exact ⟨i.userKey, i.ts, (fit i given).ts, rfl⟩
      admits := fun e listed k ts fits same => by
        obtain ⟨i, given, rfl⟩ := entry e listed
        obtain ⟨rfl, -⟩ := encodeKey_inj (fit i given).ts fits same
        rw [numbers.1]
        exact holds.admits i given }
  refine ⟨r, opened, ?_, ?_, ?_, ?_, fun k s => ⟨?_, ?_⟩⟩
  · rw [serves.iterate_eq, entries]
  · rw [← entries]
    have whole : w.finish.entries.range none none = w.finish.entries :=
      takeWhile_eq_self_iff.mpr fun _ _ => rfl
    have yields := serves.newIterator_yields none none
    rwa [whole] at yields
  · rw [serves.maxTimestamp, numbers.2.1, holds.maxTimestamp_eq]
  · rw [serves.appliedIndex, numbers.2.2, applied']
    rfl
  · rw [serves.getAsOf_linear, entries]
  · rw [serves.newestVersionTS_linear, entries]

/-- A put over an older delete, with a value that fills a block. -/
def overwritten : List Item := [⟨.put, [97], List.replicate blockSize 1, 2⟩, ⟨.delete, [97], [], 1⟩]

/-- The file of two blocks opens, and a version in each is found. -/
theorem table_round_trip_overwritten :
    ∃ file r, writeTableFile overwritten 2 7 = .ok file ∧ openReader file = .ok r ∧ r.index.length = 2 ∧
      r.iterate = .ok (overwritten.map Item.entry) ∧ r.maxTimestamp = 2 ∧ r.appliedIndex = 7 ∧
      r.getAsOf [97] 1 = .ok (some (.delete, [])) ∧ r.newestVersionTS [97] = .ok (some 2) := by
  obtain ⟨file, written, reads⟩ := table_round_trip overwritten 2 7
    (by simp [Ascending, SortedMap.Sorted, overwritten, Item.entry]; decide)
    (by simp only [overwritten, forall_mem_cons]; exact ⟨⟨by decide, by decide, by rw [length_replicate]; decide⟩,
      ⟨by decide, by decide, by decide⟩, by simp⟩)
    (by decide)
  have shape : Run.passes (fun file => decide (file.length < 2 ^ 63) &&
      Run.passes (fun r => decide (r.index.length = 2)) (openReader file)) (writeTableFile overwritten 2 7) = true := by
    decide +kernel
  rw [written] at shape
  obtain ⟨short, blocks⟩ := Bool.and_eq_true_iff.mp shape
  obtain ⟨r, opened, walked, -, top, applied, points⟩ := reads (of_decide_eq_true short)
  rw [opened] at blocks
  obtain ⟨point, -⟩ := points [97] 1
  obtain ⟨-, newest⟩ := points [97] 0
  refine ⟨file, r, written, opened, of_decide_eq_true blocks, walked, top, applied, ?_, ?_⟩
  · rw [point]
    decide +kernel
  · rw [newest]
    decide +kernel

end Store
