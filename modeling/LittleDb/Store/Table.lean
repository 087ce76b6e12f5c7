import LittleDb.Store.Bloom
import LittleDb.Store.Memtable

/-! Sorted tables: the writer's blocks, index and filter, and point reads through them. -/

namespace Store

open List

inductive TableError where
  | outOfOrder
  | duplicate
  deriving DecidableEq, Repr

def blockSize : Nat := 4096

def bloomBitsPerKey : Nat := 10

/-- An immutable sorted table: blocks, filter, and what the footer carries. -/
structure Table where
  blocks : List Layer
  filter : Bloom
  maxTimestamp : Nat
  /-- The Raft index folded into the table when it was written. -/
  appliedIndex : Nat

structure Writer where
  blocks : List Layer
  block : Layer
  blockBytes : Nat
  filter : Bloom
  lastEncKey : Option (List UInt8)
  maxTimestamp : Nat
  appliedIndex : Nat

structure Item where
  op : Op
  userKey : Key
  value : Value
  ts : Nat
  deriving DecidableEq, Repr

def Item.entry (i : Item) : List UInt8 × (Op × Value) := (encodeKey i.userKey i.ts, i.op, i.value)

def Item.bytes (i : Item) : Nat := headerSize + (encodeKey i.userKey i.ts).length + i.value.length

/-- The versions of a layer in order, as an iteration yields them. -/
def Layer.items (l : Layer) : List Item :=
  l.map fun (enc, op, value) =>
    let (userKey, ts) := (decodeKey enc).getD ([], 0)
    ⟨op, userKey, value, ts⟩

def Writer.new (expectedKeys appliedIndex : Nat) : Writer :=
  ⟨[], [], 0, Bloom.new expectedKeys bloomBitsPerKey, none, 0, appliedIndex⟩

def Writer.flushBlock (w : Writer) : Writer :=
  if w.block.isEmpty then w else { w with blocks := w.blocks ++ [w.block], block := [], blockBytes := 0 }

/-- Closes the block when the next record would overfill it. -/
def Writer.makeRoom (w : Writer) (i : Item) : Writer :=
  if !w.block.isEmpty ∧ w.blockBytes + i.bytes > blockSize then w.flushBlock else w

def Writer.push (w : Writer) (i : Item) : Writer :=
  { w with
    block := w.block ++ [i.entry]
    blockBytes := w.blockBytes + i.bytes
    filter := w.filter.add i.userKey
    lastEncKey := some (encodeKey i.userKey i.ts)
    maxTimestamp := max w.maxTimestamp i.ts }

def Writer.add (w : Writer) (i : Item) : Except TableError Writer :=
  let encKey := encodeKey i.userKey i.ts
  if w.lastEncKey = some encKey then .error .duplicate
  else if w.lastEncKey.any (fun last => encKey < last) then .error .outOfOrder
  else .ok ((w.makeRoom i).push i)

def Writer.finish (w : Writer) : Table :=
  let w := w.flushBlock
  ⟨w.blocks, w.filter, w.maxTimestamp, w.appliedIndex⟩

def Table.write (items : List Item) (expectedKeys appliedIndex : Nat) : Except TableError Table :=
  (items.foldlM Writer.add (Writer.new expectedKeys appliedIndex)).map Writer.finish

namespace Table

/-- The versions in order, as a walk over the blocks yields them. -/
def entries (t : Table) : Layer := t.blocks.flatten

def firstKey (b : Layer) : List UInt8 := (b.head?.map Prod.fst).getD []

/-- The two blocks in which the first key at or above a target can stand. -/
def window (blocks : List Layer) (target : List UInt8) : Layer :=
  let hi := blocks.findIdx fun b => target < firstKey b
  ((blocks.drop (hi - 1)).take 2).flatten

def getAsOf (t : Table) (userKey : Key) (snapshot : Nat) : Option (Op × Value) :=
  if t.blocks.isEmpty then none
  else if !t.filter.mayContain userKey then none
  else Layer.getAsOf (window t.blocks (encodeKey userKey snapshot)) userKey snapshot

def newestVersionTS (t : Table) (userKey : Key) : Option Nat :=
  if t.blocks.isEmpty then none
  else if !t.filter.mayContain userKey then none
  else Layer.newestVersionTS (window t.blocks (encodeKey userKey maxUint64)) userKey

def versions (t : Table) : Set (Version Key Value) := t.entries.versions

structure Valid (t : Table) : Prop where
  layer : t.entries.Valid
  filled : ∀ b ∈ t.blocks, b ≠ []
  admits : ∀ v ∈ t.versions, t.filter.mayContain v.key = true
  bounded : ∀ v ∈ t.versions, v.ts ≤ t.maxTimestamp

variable {l l' : Layer} {target : List UInt8} {k : Key} {s : Nat} {t : Table}

theorem head_seek_append (front back : Layer) (target : List UInt8) :
    (SortedMap.seek target (front ++ back)).head? =
      (SortedMap.seek target front).head?.or (SortedMap.seek target back).head? := by
  induction front with
  | nil => simp [SortedMap.seek]
  | cons e front ih =>
    by_cases below : e.1 < target
    · simpa [SortedMap.seek, below] using ih
    · simp [SortedMap.seek, below]

theorem head_seek_window {blocks : List Layer} (target : List UInt8) (sorted : SortedMap.Sorted blocks.flatten)
    (filled : ∀ b ∈ blocks, b ≠ []) :
    (SortedMap.seek target (window blocks target)).head? = (SortedMap.seek target blocks.flatten).head? := by
  induction blocks with
  | nil => rfl
  | cons b blocks ih =>
    obtain ⟨e, tail, rfl⟩ := exists_cons_of_ne_nil (filled b (by simp))
    have first : firstKey (e :: tail) = e.1 := rfl
    by_cases above : target < e.1
    · -- Everything is above the target, so the very first entry is found.
      have reach : ∀ l : Layer, SortedMap.seek target (e :: l) = e :: l := by
        intro l
        exact SortedMap.seek_of_head (by simpa using above.le)
      simp [window, findIdx_cons, first, above, reach]
    · have filled' : ∀ b ∈ blocks, b ≠ [] := fun b within => filled b (mem_cons_of_mem _ within)
      have sorted' : SortedMap.Sorted blocks.flatten := by
        rw [flatten_cons] at sorted
        exact (pairwise_append.mp sorted).2.1
      cases blocks with
      | nil => simp [window, findIdx_cons, first, above]
      | cons c blocks =>
        obtain ⟨e', tail', rfl⟩ := exists_cons_of_ne_nil (filled' c (by simp))
        have second : firstKey (e' :: tail') = e'.1 := rfl
        by_cases next : target < e'.1
        · -- The target lies in the first block or at the head of the second.
          have reach : ∀ l : Layer, SortedMap.seek target (e' :: l) = e' :: l := by
            intro l
            exact SortedMap.seek_of_head (by simpa using next.le)
          have shape : window ((e :: tail) :: (e' :: tail') :: blocks) target =
              (e :: tail) ++ (e' :: tail') := by
            simp [window, findIdx_cons, first, second, above, next]
          rw [shape, flatten_cons, head_seek_append, head_seek_append, flatten_cons, cons_append, reach, reach]
          rfl
        · -- The whole first block is below the target.
          have below : ∀ x ∈ e :: tail, x.1 < target := by
            intro x within
            rw [flatten_cons] at sorted
            have order := (pairwise_append.mp sorted).2.2 x within e' (by simp)
            exact lt_of_lt_of_le order (not_lt.mp next)
          have shape : window ((e :: tail) :: (e' :: tail') :: blocks) target =
              window ((e' :: tail') :: blocks) target := by
            simp [window, findIdx_cons, first, second, above, next]
          rw [shape, ih sorted' filled']
          exact congrArg List.head? (SortedMap.seek_append_of_lt below).symm

theorem getAsOf_congr (same : (SortedMap.seek (encodeKey k s) l).head? = (SortedMap.seek (encodeKey k s) l').head?) :
    l.getAsOf k s = l'.getAsOf k s := by
  unfold Layer.getAsOf
  cases left : SortedMap.seek (encodeKey k s) l with
  | nil =>
    rw [left] at same
    rw [head?_eq_none_iff.mp same.symm]
  | cons e tail =>
    rw [left] at same
    obtain ⟨tail', right⟩ := head?_eq_some_iff.mp same.symm
    rw [right]

theorem newestVersionTS_congr (same : (SortedMap.seek (encodeKey k maxUint64) l).head? =
      (SortedMap.seek (encodeKey k maxUint64) l').head?) : l.newestVersionTS k = l'.newestVersionTS k := by
  unfold Layer.newestVersionTS
  cases left : SortedMap.seek (encodeKey k maxUint64) l with
  | nil =>
    rw [left] at same
    rw [head?_eq_none_iff.mp same.symm]
  | cons e tail =>
    rw [left] at same
    obtain ⟨tail', right⟩ := head?_eq_some_iff.mp same.symm
    rw [right]

theorem Valid.getAsOf_eq (valid : t.Valid) (k : Key) (fits : s < 2 ^ 64) : t.getAsOf k s = t.entries.getAsOf k s := by
  have searched := getAsOf_congr (k := k) (s := s) (head_seek_window (encodeKey k s) valid.layer.sorted valid.filled)
  unfold getAsOf
  split_ifs with empty denied
  · -- No blocks, no versions.
    rw [List.isEmpty_iff] at empty
    simp [entries, empty, Layer.getAsOf, SortedMap.seek]
  · -- The filter denies the key only when no version of it is stored.
    refine (Layer.getAsOf_none valid.layer fits fun w stored key => ?_).symm
    have admitted := valid.admits w stored
    rw [key] at admitted
    simp [admitted] at denied
  · exact searched

theorem Valid.newestVersionTS_eq (valid : t.Valid) (k : Key) : t.newestVersionTS k = t.entries.newestVersionTS k := by
  have searched := newestVersionTS_congr (k := k)
    (head_seek_window (encodeKey k maxUint64) valid.layer.sorted valid.filled)
  unfold newestVersionTS
  split_ifs with empty denied
  · rw [List.isEmpty_iff] at empty
    simp [entries, empty, Layer.newestVersionTS, SortedMap.seek]
  · cases found : t.entries.newestVersionTS k with
    | none => rfl
    | some ts =>
      obtain ⟨w, stored, key, _⟩ := Layer.newestVersionTS_mem valid.layer found
      have admitted := valid.admits w stored
      rw [key] at admitted
      simp [admitted] at denied
  · exact searched

end Table

/-- Versions in strictly ascending order of their encoded keys. -/
def Ascending (items : List Item) : Prop := SortedMap.Sorted (items.map Item.entry)

/-- Versions that fit the record format and carry data. -/
def Item.Data (i : Item) : Prop := i.ts < 2 ^ 64 ∧ i.op ≠ .commit

def Item.version (i : Item) : Version Key Value := ⟨i.userKey, i.ts, payload i.op i.value⟩

variable {l : Layer} {w w' : Writer} {items : List Item} {i : Item} {expectedKeys appliedIndex : Nat} {t : Table}

theorem Layer.Valid.map_items (valid : l.Valid) : l.items.map Item.entry = l := by
  rw [Layer.items, map_map, map_congr_left (g := id), map_id]
  rintro ⟨enc, op, value⟩ within
  obtain ⟨k, t, fits, rfl⟩ := valid.encoded _ within
  simp [Item.entry, decodeKey_encodeKey fits]

theorem Layer.Valid.data_items (valid : l.Valid) : ∀ i ∈ l.items, i.Data := by
  intro i listed
  obtain ⟨⟨enc, op, value⟩, within, rfl⟩ := mem_map.mp listed
  obtain ⟨k, t, fits, rfl⟩ := valid.encoded _ within
  have data := valid.data _ within
  simpa [Item.Data, decodeKey_encodeKey fits] using ⟨fits, data⟩

theorem Layer.Valid.ascending_items (valid : l.Valid) : Ascending l.items := by
  rw [Ascending, valid.map_items]
  exact valid.sorted

/-- What a writer holds after the items given to it. -/
structure Writer.Holds (w : Writer) (items : List Item) : Prop where
  stored : w.blocks.flatten ++ w.block = items.map Item.entry
  filled : ∀ b ∈ w.blocks, b ≠ []
  last : w.lastEncKey = (items.map Item.entry).getLast?.map Prod.fst
  sized : w.filter.Sized
  admits : ∀ i ∈ items, w.filter.mayContain i.userKey = true
  bounded : ∀ i ∈ items, i.ts ≤ w.maxTimestamp
  reached : w.maxTimestamp = 0 ∨ ∃ i ∈ items, i.ts = w.maxTimestamp

theorem Writer.Holds.flushBlock (holds : w.Holds items) : w.flushBlock.Holds items := by
  unfold Writer.flushBlock
  split_ifs with empty
  · exact holds
  · refine { holds with stored := by simpa using holds.stored, filled := fun b within => ?_ }
    rcases mem_append.mp within with closed | last
    · exact holds.filled b closed
    · rw [mem_singleton.mp last]
      simpa using empty

theorem Writer.Holds.makeRoom (holds : w.Holds items) (i : Item) : (w.makeRoom i).Holds items := by
  unfold Writer.makeRoom
  split_ifs
  · exact holds.flushBlock
  · exact holds

@[simp] theorem Writer.flushBlock_appliedIndex (w : Writer) : w.flushBlock.appliedIndex = w.appliedIndex := by
  unfold Writer.flushBlock
  split_ifs <;> rfl

@[simp] theorem Writer.makeRoom_appliedIndex (w : Writer) (i : Item) :
    (w.makeRoom i).appliedIndex = w.appliedIndex := by
  unfold Writer.makeRoom
  split_ifs <;> simp

theorem Writer.Holds.push (holds : w.Holds items) (i : Item) : (w.push i).Holds (items ++ [i]) where
  stored := by
    rw [map_append, ← holds.stored, append_assoc]
    rfl
  filled := holds.filled
  last := by simp [Writer.push, Item.entry]
  sized := holds.sized.addBy _
  admits j listed := by
    rcases mem_append.mp listed with old | new
    · exact Bloom.mayContainBy_addBy_of (holds.admits j old)
    · rw [mem_singleton.mp new]
      exact holds.sized.mayContainBy_addBy _
  bounded j listed := by
    rcases mem_append.mp listed with old | new
    · exact (holds.bounded j old).trans (le_max_left _ _)
    · rw [mem_singleton.mp new]
      exact le_max_right _ _
  reached := by
    rcases le_total w.maxTimestamp i.ts with low | high
    · exact .inr ⟨i, by simp, (max_eq_right low).symm⟩
    · have same : (w.push i).maxTimestamp = w.maxTimestamp := max_eq_left high
      rw [same]
      refine holds.reached.imp id ?_
      rintro ⟨j, listed, reached⟩
      exact ⟨j, by simp [listed], reached⟩

theorem Writer.Holds.add (holds : w.Holds items) (order : Ascending (items ++ [i])) :
    ∃ w', w.add i = .ok w' ∧ w'.Holds (items ++ [i]) ∧ w'.appliedIndex = w.appliedIndex := by
  -- The last key lies strictly below the new one, so neither check refuses.
  have below : ∀ last ∈ w.lastEncKey, last < encodeKey i.userKey i.ts := by
    intro last known
    rw [holds.last] at known
    obtain ⟨e, found, rfl⟩ := Option.map_eq_some_iff.mp known
    rw [Ascending, map_append] at order
    exact (pairwise_append.mp order).2.2 e (mem_of_getLast? found) i.entry (by simp)
  have fresh : w.lastEncKey ≠ some (encodeKey i.userKey i.ts) :=
    fun same => lt_irrefl _ (below _ same)
  have inOrder : ¬ w.lastEncKey.any (fun last => decide (encodeKey i.userKey i.ts < last)) = true := by
    cases known : w.lastEncKey with
    | none => simp
    | some last => simpa using (below last known).le
  refine ⟨(w.makeRoom i).push i, by rw [Writer.add, if_neg fresh, if_neg inOrder], (holds.makeRoom i).push i, ?_⟩
  exact w.makeRoom_appliedIndex i

theorem Writer.Holds.addAll {before : List Item} (holds : w.Holds before) (order : Ascending (before ++ items)) :
    ∃ w', items.foldlM Writer.add w = .ok w' ∧ w'.Holds (before ++ items) ∧ w'.appliedIndex = w.appliedIndex := by
  induction items generalizing w before with
  | nil => exact ⟨w, rfl, by simpa using holds, rfl⟩
  | cons i items ih =>
    rw [append_cons] at order ⊢
    have first : Ascending (before ++ [i]) := by
      rw [Ascending, map_append] at order
      exact (pairwise_append.mp order).1
    obtain ⟨w₁, added, holds₁, applied₁⟩ := holds.add first
    obtain ⟨w', rest, holds', applied'⟩ := ih holds₁ order
    refine ⟨w', ?_, holds', applied'.trans applied₁⟩
    rw [foldlM_cons, added]
    exact rest

theorem Writer.holds_new (expectedKeys appliedIndex : Nat) : (Writer.new expectedKeys appliedIndex).Holds [] :=
  ⟨rfl, by simp [Writer.new], rfl, Bloom.sized_new _ _, by simp, by simp, .inl rfl⟩

theorem mem_versions_entries (data : ∀ i ∈ items, i.Data) {v : Version Key Value} :
    v ∈ Layer.versions (items.map Item.entry) ↔ ∃ i ∈ items, v = i.version := by
  constructor
  · rintro ⟨fits, op, value, within, load⟩
    obtain ⟨i, listed, same⟩ := mem_map.mp within
    simp only [Item.entry, Prod.mk.injEq] at same
    obtain ⟨enc, rfl, rfl⟩ := same
    obtain ⟨key, ts⟩ := encodeKey_inj (data i listed).1 fits enc
    exact ⟨i, listed, Version.ext key.symm ts.symm load⟩
  · rintro ⟨i, listed, rfl⟩
    exact ⟨(data i listed).1, i.op, i.value, mem_map.mpr ⟨i, listed, rfl⟩, rfl⟩

theorem valid_entries (order : Ascending items) (data : ∀ i ∈ items, i.Data) : Layer.Valid (items.map Item.entry) where
  sorted := order
  encoded e within := by
    obtain ⟨i, listed, rfl⟩ := mem_map.mp within
    exact ⟨i.userKey, i.ts, (data i listed).1, rfl⟩
  data e within := by
    obtain ⟨i, listed, rfl⟩ := mem_map.mp within
    exact (data i listed).2

theorem Writer.Holds.entries_finish (holds : w.Holds items) : w.finish.entries = items.map Item.entry := by
  -- Once the last block is closed, the closed blocks hold everything.
  have done : w.flushBlock.block = [] := by
    unfold Writer.flushBlock
    split_ifs with empty
    · exact List.isEmpty_iff.mp empty
    · rfl
  rw [← holds.flushBlock.stored, done, append_nil]
  rfl

theorem Table.write_ok (expectedKeys appliedIndex : Nat) (order : Ascending items) (data : ∀ i ∈ items, i.Data) :
    ∃ t, Table.write items expectedKeys appliedIndex = .ok t ∧ t.Valid ∧ t.entries = items.map Item.entry ∧
    t.appliedIndex = appliedIndex ∧ (t.maxTimestamp = 0 ∨ ∃ i ∈ items, i.ts = t.maxTimestamp) := by
  obtain ⟨w, added, holds, applied⟩ :=
    (Writer.holds_new expectedKeys appliedIndex).addAll (show Ascending ([] ++ items) from order)
  rw [nil_append] at holds
  have closed := holds.flushBlock
  have whole := holds.entries_finish
  refine ⟨w.finish, by rw [Table.write, added]; rfl, ?_, whole, ?_, closed.reached⟩
  · refine ⟨whole ▸ valid_entries order data, closed.filled, fun v stored => ?_, fun v stored => ?_⟩
    · rw [Table.versions, whole, mem_versions_entries data] at stored
      obtain ⟨i, listed, rfl⟩ := stored
      exact closed.admits i listed
    · rw [Table.versions, whole, mem_versions_entries data] at stored
      obtain ⟨i, listed, rfl⟩ := stored
      exact closed.bounded i listed
  · exact w.flushBlock_appliedIndex.trans applied

theorem Writer.Holds.ascending_add (holds : w.Holds items)
    (order : Ascending items) (added : w.add i = .ok w') : Ascending (items ++ [i]) := by
  unfold Writer.add at added
  simp only at added
  split_ifs at added with same below
  -- The last key is known and lies below the new one, so all of them do.
  rw [Ascending, map_append]
  refine pairwise_append.mpr ⟨order, pairwise_singleton _ _, fun e listed e' new => ?_⟩
  rw [map_singleton, mem_singleton] at new
  subst new
  obtain ⟨front, last, shape⟩ := eq_nil_or_concat (items.map Item.entry) |>.resolve_left (ne_nil_of_mem listed)
  rw [concat_eq_append] at shape
  have known : w.lastEncKey = some last.1 := by rw [holds.last, shape]; simp
  have above : last.1 < encodeKey i.userKey i.ts := by
    simp only [known, Option.any_some, decide_eq_true_eq, Option.some.injEq] at same below
    exact lt_of_le_of_ne (not_lt.mp below) same
  rw [shape] at listed
  rcases mem_append.mp listed with early | latest
  · rw [Ascending, shape] at order
    exact ((pairwise_append.mp order).2.2 e early last (by simp)).trans above
  · rw [mem_singleton.mp latest]
    exact above

theorem Table.write_ascending (written : Table.write items expectedKeys appliedIndex = .ok t) : Ascending items := by
  have folds : ∀ (items before : List Item) (w w' : Writer), w.Holds before → Ascending before →
      items.foldlM Writer.add w = .ok w' → Ascending (before ++ items) := by
    intro items
    induction items with
    | nil => intro before w w' _ order _; simpa using order
    | cons i items ih =>
      intro before w w' holds order folded
      rw [foldlM_cons] at folded
      cases first : w.add i with
      | error e => rw [first] at folded; cases folded
      | ok w₁ =>
        rw [first] at folded
        have next := holds.ascending_add order first
        obtain ⟨w₂, again, holds₂, -⟩ := holds.add next
        obtain rfl := Except.ok.inj (first.symm.trans again)
        rw [append_cons]
        exact ih (before ++ [i]) w₁ w' holds₂ next folded
  unfold Table.write at written
  cases folded : items.foldlM Writer.add (Writer.new expectedKeys appliedIndex) with
  | error e => rw [folded] at written; cases written
  | ok w =>
    exact folds items [] _ w (Writer.holds_new expectedKeys appliedIndex) List.Pairwise.nil folded

theorem Writer.add_applied (added : w.add i = .ok w') : w'.appliedIndex = w.appliedIndex := by
  unfold Writer.add at added
  simp only at added
  split_ifs at added
  cases added
  unfold Writer.push Writer.makeRoom Writer.flushBlock
  dsimp only
  split_ifs <;> rfl

theorem Table.write_applied (written : Table.write items expectedKeys appliedIndex = .ok t) :
    t.appliedIndex = appliedIndex := by
  have kept : ∀ (items : List Item) (w w' : Writer), items.foldlM Writer.add w = .ok w' →
      w'.appliedIndex = w.appliedIndex := by
    intro items
    induction items with
    | nil =>
      intro w w' none
      rw [Except.ok.inj none]
    | cons i items ih =>
      intro w w' folded
      rw [foldlM_cons] at folded
      cases first : w.add i with
      | error e => rw [first] at folded; cases folded
      | ok w₁ =>
        rw [first] at folded
        exact (ih w₁ w' folded).trans (Writer.add_applied first)
  unfold Table.write at written
  cases folded : items.foldlM Writer.add (Writer.new expectedKeys appliedIndex) with
  | error e => rw [folded] at written; cases written
  | ok w =>
    rw [folded] at written
    cases written
    have same := kept items _ w folded
    unfold Writer.finish Writer.flushBlock
    dsimp only
    split_ifs <;> exact same

end Store
