import LittleDb.Lib.Merge
import LittleDb.Store.Table

/-! Compaction of tables: merging them in order and dropping versions no snapshot needs. -/

namespace Store

open List Merge SortedMap

inductive CompactError where
  | malformed
  | write (e : TableError)
  deriving DecidableEq, Repr

/-- The user key remembered after a version; an empty key stays nil. -/
def remember (current : Option Key) (userKey : Key) : Option Key :=
  if current = none ∧ userKey = [] then none else some userKey

/-- Keeps the versions that a snapshot at or above the watermark can see. -/
def sweep (watermark : Nat) (bottomOfLSM : Bool) : Option Key → Nat → List Item → List Item
  | _, _, [] => []
  | current, prevTS, i :: rest =>
    if current = none ∨ current ≠ some i.userKey then
      -- The newest version of a key: a tombstone everyone sees hides nothing that is left.
      if bottomOfLSM ∧ i.op = .delete ∧ i.ts ≤ watermark then
        sweep watermark bottomOfLSM (remember current i.userKey) i.ts rest
      else i :: sweep watermark bottomOfLSM (remember current i.userKey) i.ts rest
    else if bottomOfLSM ∧ prevTS ≤ watermark then
      -- Everyone sees a newer version of the key.
      sweep watermark bottomOfLSM current prevTS rest
    else i :: sweep watermark bottomOfLSM current i.ts rest

/-- The versions of some tables, newest first, in one order. -/
def mergeTables (inputs : List Table) : Layer := Merge.all (inputs.map Table.entries)

def compactSSTables (inputs : List Table) (watermark : Nat) (bottomOfLSM : Bool) : Except CompactError Table :=
  let merged := mergeTables inputs
  let mergedApplied := (inputs.map Table.appliedIndex).foldl max 0
  if merged.any fun e => (decodeKey e.1).isNone then .error .malformed
  else
    match Table.write (sweep watermark bottomOfLSM none 0 merged.items)
        (Merge.total (inputs.map Table.entries)) mergedApplied with
    | .error e => .error (.write e)
    | .ok t => .ok t

variable {watermark : Nat} {bottomOfLSM : Bool}

/-- Sweeping only leaves versions out. -/
theorem sweep_sublist (current : Option Key) (prevTS : Nat) (items : List Item) :
    (sweep watermark bottomOfLSM current prevTS items).Sublist items := by
  induction items generalizing current prevTS with
  | nil => exact .refl _
  | cons i items ih =>
    rw [sweep]
    split_ifs
    · exact (ih _ _).cons i
    · exact (ih _ _).cons_cons i
    · exact (ih _ _).cons i
    · exact (ih _ _).cons_cons i

/-- Above older tables, sweeping keeps everything. -/
theorem sweep_false (current : Option Key) (prevTS : Nat) (items : List Item) :
    sweep watermark false current prevTS items = items := by
  induction items generalizing current prevTS with
  | nil => rfl
  | cons i items ih => simp [sweep, ih]

variable {i : Item} {items : List Item} {current : Option Key} {prevTS : Nat} {K : Set Key} {inputs : List Table}
  {layers : List Layer} {e : List UInt8 × (Op × Value)} {l : Layer} {v : Version Key Value}

/-- Of one key, versions come newest first. -/
theorem Ascending.newer_first (order : Ascending (i :: items))
    (data : ∀ j ∈ i :: items, j.Data) : ∀ j ∈ items, j.userKey = i.userKey → j.ts < i.ts := by
  intro j listed key
  have below := (pairwise_cons.mp order).1 j.entry (mem_map_of_mem listed)
  simp only [Item.entry, key] at below
  exact (encodeKey_lt_iff (data i (by simp)).1 (data j (by simp [listed])).1).mp below

/-- Versions behind the first are ascending. -/
theorem Ascending.tail (order : Ascending (i :: items)) : Ascending items := (pairwise_cons.mp order).2

/-- What is remembered is a key just seen, or nothing. -/
theorem remember_some {k k' : Key} (known : remember current k = some k') : k = k' := by
  unfold remember at known
  split_ifs at known
  exact Option.some.inj known

/-- A version above the watermark is never dropped. -/
theorem mem_sweep_of_above (order : Ascending items) (data : ∀ j ∈ items, j.Data)
    (older : ∀ j ∈ items, current = some j.userKey → j.ts < prevTS) (listed : i ∈ items)
    (above : watermark < i.ts) : i ∈ sweep watermark bottomOfLSM current prevTS items := by
  induction items generalizing current prevTS with
  | nil => simp at listed
  | cons head items ih =>
    have newer := order.newer_first data
    have data' : ∀ j ∈ items, j.Data := fun j within => data j (mem_cons_of_mem _ within)
    -- Behind the head, its key's versions are older than it.
    have seen : ∀ j ∈ items, remember current head.userKey = some j.userKey → j.ts < head.ts :=
      fun j within known => newer j within (remember_some known).symm
    rw [sweep]
    split_ifs with first dropped hidden
    · rcases mem_cons.mp listed with rfl | later
      · exact absurd dropped.2.2 (not_le.mpr above)
      · exact ih order.tail data' seen later
    · rcases mem_cons.mp listed with rfl | later
      · exact mem_cons_self
      · exact mem_cons_of_mem _ (ih order.tail data' seen later)
    · rcases mem_cons.mp listed with rfl | later
      · have same : current = some i.userKey := by
          by_contra other
          exact first (.inr other)
        have below := older i (by simp) same
        omega
      · exact ih order.tail data' (fun j within => older j (by simp [within])) later
    · rcases mem_cons.mp listed with rfl | later
      · exact mem_cons_self
      · refine mem_cons_of_mem _ (ih order.tail data' (fun j within known => ?_) later)
        have same : current = some head.userKey := by
          by_contra other
          exact first (.inr other)
        exact newer j within (Option.some.inj (known.symm.trans same))

/-- Versions by user key, and those of one key newest first. -/
def Grouped (items : List Item) : Prop :=
  items.Pairwise fun i j => i.userKey < j.userKey ∨ i.userKey = j.userKey ∧ j.ts < i.ts

/-- Without keys that extend others, versions are grouped by key. -/
theorem Ascending.grouped (order : Ascending items)
    (data : ∀ i ∈ items, i.Data) (within : ∀ i ∈ items, i.userKey ∈ K) (free : Free K) : Grouped items := by
  rw [Ascending, SortedMap.Sorted, pairwise_map] at order
  refine order.imp_of_mem fun {a b} aListed bListed below => ?_
  simp only [Item.entry] at below
  by_cases same : a.userKey = b.userKey
  · rw [same, encodeKey_lt_iff (data a aListed).1 (data b bListed).1] at below
    exact .inr ⟨same, below⟩
  · left
    rw [encodeKey, encodeKey, Bytes.append_lt_append_of_not_front] at below
    · exact below
    · exact fun front => same (free _ (within a aListed) _ (within b bListed) front)
    · exact fun front => same (free _ (within b bListed) _ (within a aListed) front).symm

structure Survives (watermark : Nat) (items : List Item) (i : Item) : Prop where
  listed : i ∈ items
  needed : ∀ j ∈ items, j.userKey = i.userKey → i.ts < j.ts → watermark < j.ts
  alive : ¬ (i.op = .delete ∧ i.ts ≤ watermark ∧ ∀ j ∈ items, j.userKey = i.userKey → j.ts ≤ i.ts)

/-- Which versions a sweep keeps, from any point of its pass. -/
theorem mem_sweep_from (grouped : Grouped items) (named : ∀ i ∈ items, i.userKey ≠ [])
    (ahead : ∀ k ∈ current, ∀ i ∈ items, k < i.userKey ∨ k = i.userKey ∧ i.ts < prevTS) :
    i ∈ sweep watermark true current prevTS items ↔
      i ∈ items ∧ (current = some i.userKey → watermark < prevTS) ∧
        (∀ j ∈ items, j.userKey = i.userKey → i.ts < j.ts → watermark < j.ts) ∧
        ¬ (i.op = .delete ∧ i.ts ≤ watermark ∧ current ≠ some i.userKey ∧
          ∀ j ∈ items, j.userKey = i.userKey → j.ts ≤ i.ts) := by
  induction items generalizing current prevTS with
  | nil => simp [sweep]
  | cons head items ih =>
    obtain ⟨behind, grouped'⟩ := pairwise_cons.mp grouped
    have named' : ∀ j ∈ items, j.userKey ≠ [] := fun j within => named j (by simp [within])
    have known : remember current head.userKey = some head.userKey := by
      simp [remember, named head (by simp)]
    have step : ∀ k ∈ some head.userKey, ∀ j ∈ items,
        k < j.userKey ∨ k = j.userKey ∧ j.ts < head.ts := by
      intro k same j within
      rw [← Option.some.inj same]
      exact behind j within
    -- No later version of the head's key is as new as the head.
    have older : ∀ j ∈ items, j.userKey = head.userKey → j.ts < head.ts := by
      intro j within key
      rcases behind j within with below | ⟨_, newer⟩
      · exact absurd key below.ne'
      · exact newer
    by_cases first : current = some head.userKey
    · have notFirst : ¬ (current = none ∨ current ≠ some head.userKey) := by simp [first]
      rw [sweep, if_neg notFirst]
      by_cases hidden : prevTS ≤ watermark
      · -- Everyone sees a newer version of this key: it and the rest of its key go.
        rw [if_pos ⟨rfl, hidden⟩, ih grouped' named' fun k same j within => ahead k same j (by simp [within])]
        by_cases own : i.userKey = head.userKey
        · have blocked : ¬ (current = some i.userKey → watermark < prevTS) := by
            rw [own]
            exact fun open_ => absurd (open_ first) (not_lt.mpr hidden)
          simp [blocked]
        · have other : i ≠ head := fun same => own (congrArg _ same)
          have away : head.userKey ≠ i.userKey := Ne.symm own
          simp [other, away]
      · rw [if_neg fun both => hidden both.2, mem_cons, first]
        rw [ih grouped' named' step]
        by_cases own : i.userKey = head.userKey
        · by_cases same : i = head
          · subst same
            have last : ∀ j ∈ items, j.userKey = i.userKey → i.ts < j.ts → watermark < j.ts :=
              fun j within key newer => absurd (older j within key) (not_lt.mpr newer.le)
            simpa [not_le.mp hidden] using last
          · simp only [same, false_or, mem_cons, own, forall_eq_or_imp, not_le.mp hidden,
              forall_true_left, ne_eq, not_true_eq_false, false_and, and_false, not_false_eq_true,
              and_true, true_and, implies_true]
            refine and_congr_right fun within => and_congr_left fun _ => ?_
            have newer : i.ts < head.ts := older i within own
            exact ⟨fun high _ => high, fun high => high newer⟩
        · have other : i ≠ head := fun same => own (congrArg _ same)
          have away : head.userKey ≠ i.userKey := Ne.symm own
          simp [other, away]
    · have isFirst : current = none ∨ current ≠ some head.userKey := .inr first
      -- From here on the remembered key does not come back.
      have gone : ∀ j ∈ head :: items, current ≠ some j.userKey := by
        intro j within same
        rcases mem_cons.mp within with rfl | later
        · exact first same
        · rcases ahead _ same head (by simp) with below | ⟨equal, _⟩
          · rcases behind j later with lower | ⟨equal, _⟩
            · exact absurd (below.trans lower) (lt_irrefl _)
            · exact absurd equal.symm below.ne
          · exact first (same.trans (congrArg some equal))
      rw [sweep, if_pos isFirst, known]
      by_cases dropped : head.op = .delete ∧ head.ts ≤ watermark
      · rw [if_pos ⟨rfl, dropped⟩, ih grouped' named' step]
        by_cases own : i.userKey = head.userKey
        · -- Nothing of the dropped tombstone's key is left.
          constructor
          · rintro ⟨_, open_, _⟩
            exact absurd (open_ (congrArg some own.symm)) (not_lt.mpr dropped.2)
          · rintro ⟨within, _, needed, alive⟩
            rcases mem_cons.mp within with rfl | later
            · refine absurd ⟨dropped.1, dropped.2, gone i (by simp), fun j inside key => ?_⟩ alive
              rcases mem_cons.mp inside with rfl | inside'
              · exact le_refl _
              · exact (older j inside' key).le
            · have high := needed head (by simp) own.symm (older i later own)
              exact absurd high (not_lt.mpr dropped.2)
        · have other : i ≠ head := fun same => own (congrArg _ same)
          have away : head.userKey ≠ i.userKey := Ne.symm own
          by_cases later : i ∈ items
          · have left_ := gone i (by simp [later])
            simp [later, away, left_]
          · simp [later, other]
      · rw [if_neg fun both => dropped both.2, mem_cons, ih grouped' named' step]
        by_cases own : i.userKey = head.userKey
        · by_cases same : i = head
          · subst same
            have last : ∀ j ∈ items, j.userKey = i.userKey → i.ts < j.ts → watermark < j.ts :=
              fun j within key newer => absurd (older j within key) (not_lt.mpr newer.le)
            have left_ := gone i (by simp)
            simp only [true_or, mem_cons, left_, false_implies, true_and, true_iff,
              forall_eq_or_imp, lt_irrefl, implies_true]
            exact ⟨last, fun bad => dropped ⟨bad.1, bad.2.1⟩⟩
          · by_cases later : i ∈ items
            · have left_ := gone i (by simp [later])
              have newer : i.ts < head.ts := older i later own
              constructor
              · rintro (rfl | ⟨_, open_, needed, _⟩)
                · exact absurd rfl same
                · refine ⟨by simp [later], fun known' => absurd known' left_, fun j inside => ?_,
                    fun bad => absurd (bad.2.2.2 head (by simp) own.symm) (not_le.mpr newer)⟩
                  rcases mem_cons.mp inside with rfl | inside'
                  · exact fun _ _ => open_ (congrArg some own.symm)
                  · exact needed j inside'
              · rintro ⟨_, _, needed, _⟩
                refine .inr ⟨later, fun _ => needed head (by simp) own.symm newer,
                  fun j inside => needed j (by simp [inside]), fun bad => ?_⟩
                exact bad.2.2.1 (congrArg some own.symm)
            · simp [later, same]
        · have other : i ≠ head := fun same => own (congrArg _ same)
          have away : head.userKey ≠ i.userKey := Ne.symm own
          by_cases later : i ∈ items
          · have left_ := gone i (by simp [later])
            simp [later, away, left_, other]
          · simp [later, other]

/-- Which versions a sweep of grouped versions keeps. -/
theorem mem_sweep (grouped : Grouped items) (named : ∀ i ∈ items, i.userKey ≠ [])
    : i ∈ sweep watermark true none 0 items ↔ Survives watermark items i := by
  rw [mem_sweep_from grouped named (by simp)]
  constructor
  · rintro ⟨listed, _, needed, alive⟩
    exact ⟨listed, needed, fun bad => alive ⟨bad.1, bad.2.1, by simp, bad.2.2⟩⟩
  · rintro ⟨listed, needed, alive⟩
    exact ⟨listed, by simp, needed, fun bad => alive ⟨bad.1, bad.2.1, bad.2.2.2⟩⟩

def tableVersions (tables : List Table) : Set (Version Key Value) :=
  { v | ∃ t ∈ tables, v ∈ t.versions }

/-- The versions of valid tables stand in order. -/
theorem sorted_entries (valid : ∀ t ∈ inputs, t.Valid) :
    ∀ source ∈ inputs.map Table.entries, SortedMap.Sorted source := by
  intro source listed
  obtain ⟨t, member, rfl⟩ := mem_map.mp listed
  exact (valid t member).layer.sorted

/-- Every merged entry comes from a layer. -/
theorem origin_all (valid : ∀ l ∈ layers, l.Valid) (within : e ∈ Merge.all layers) : ∃ l ∈ layers, e ∈ l := by
  have shown := (mem_all fun l listed => (valid l listed).sorted).mp within
  obtain ⟨l, listed, found⟩ := exists_of_findSome?_eq_some shown
  exact ⟨l, listed, (get_eq_some (valid l listed).sorted).mp found⟩

/-- The merge of valid layers is a valid layer. -/
theorem valid_all (valid : ∀ l ∈ layers, l.Valid) : Layer.Valid (Merge.all layers) := by
  refine ⟨sorted_all fun l listed => (valid l listed).sorted, fun e within => ?_, fun e within => ?_⟩
  · obtain ⟨l, listed, inside⟩ := origin_all valid within
    exact (valid l listed).encoded e inside
  · obtain ⟨l, listed, inside⟩ := origin_all valid within
    exact (valid l listed).data e inside

section

variable (valid : ∀ t ∈ inputs, t.Valid)

include valid

/-- The layers of valid tables are valid. -/
theorem valid_layers : ∀ l ∈ inputs.map Table.entries, l.Valid := by
  intro l listed
  obtain ⟨t, member, rfl⟩ := mem_map.mp listed
  exact (valid t member).layer

/-- Every merged entry comes from a table. -/
theorem origin_merged (within : e ∈ mergeTables inputs) : ∃ t ∈ inputs, e ∈ t.entries := by
  obtain ⟨l, listed, inside⟩ := origin_all (valid_layers valid) within
  obtain ⟨t, member, rfl⟩ := mem_map.mp listed
  exact ⟨t, member, inside⟩

/-- The merge of valid tables is a valid layer. -/
theorem valid_merged : (mergeTables inputs).Valid := valid_all (valid_layers valid)

/-- The merge of tables that agree holds the versions of all. -/
theorem versions_merged (functional : Versioned.Functional (tableVersions inputs)) :
    (mergeTables inputs).versions = tableVersions inputs := by
  have sub : (mergeTables inputs).versions ⊆ tableVersions inputs := by
    rintro v ⟨fits, op, value, within, load⟩
    obtain ⟨t, member, inside⟩ := origin_merged valid within
    exact ⟨t, member, fits, op, value, inside, load⟩
  refine Set.Subset.antisymm sub ?_
  rintro v ⟨t, member, fits, op, value, inside, load⟩
  -- Some table comes first with this encoded key, and it has the same version there.
  have held := (get_eq_some (valid t member).layer.sorted).mpr inside
  have shown : (Merge.lookup (encodeKey v.key v.ts) (inputs.map Table.entries)).isSome := by
    rw [Merge.lookup, findSome?_isSome_iff]
    exact ⟨t.entries, mem_map_of_mem member, by rw [held]; rfl⟩
  obtain ⟨⟨op', value'⟩, found⟩ := Option.isSome_iff_exists.mp shown
  have stored : (⟨v.key, v.ts, payload op' value'⟩ : Version Key Value) ∈
      (mergeTables inputs).versions :=
    ⟨fits, op', value', (mem_all (sorted_entries valid)).mpr found, rfl⟩
  have same := functional _ (sub stored) v ⟨t, member, fits, op, value, inside, load⟩ rfl rfl
  exact same ▸ stored

end

/-- The items of a valid layer are its versions. -/
theorem Layer.Valid.mem_versions (valid : l.Valid) : v ∈ l.versions ↔ ∃ i ∈ l.items, v = i.version := by
  rw [← mem_versions_entries valid.data_items, valid.map_items]

/-- A data item stands for a deletion exactly when it is one. -/
theorem Item.Data.version_none (data : i.Data) : i.version.payload = none ↔ i.op = .delete := by
  obtain ⟨_, kind⟩ := data
  cases op : i.op <;> simp_all [Item.version, payload]

structure Compacted (inputs : List Table) (watermark : Nat) (t : Table) : Prop where
  valid : t.Valid
  applied : t.appliedIndex = (inputs.map Table.appliedIndex).foldl max 0
  reached : t.maxTimestamp = 0 ∨ ∃ v ∈ t.versions, v.ts = t.maxTimestamp
  keeps : Versioned.Keeps watermark (tableVersions inputs) t.versions

/-- Compacting valid tables gives the swept versions of their merge. -/
theorem compactSSTables_merged (valid : ∀ t ∈ inputs, t.Valid) (watermark : Nat) (bottomOfLSM : Bool) :
    ∃ t, compactSSTables inputs watermark bottomOfLSM = .ok t ∧ t.Valid ∧
    t.appliedIndex = (inputs.map Table.appliedIndex).foldl max 0 ∧
    (t.maxTimestamp = 0 ∨ ∃ v ∈ t.versions, v.ts = t.maxTimestamp) ∧
    Versioned.Keeps watermark (mergeTables inputs).versions t.versions ∧ ∀ v, v ∈ t.versions ↔
    ∃ i ∈ sweep watermark bottomOfLSM none 0 (mergeTables inputs).items, v = i.version := by
  have merged := valid_merged valid
  have thinned : (sweep watermark bottomOfLSM none 0 (mergeTables inputs).items).Sublist
      (mergeTables inputs).items := sweep_sublist ..
  have order : Ascending (sweep watermark bottomOfLSM none 0 (mergeTables inputs).items) :=
    merged.ascending_items.sublist (thinned.map Item.entry)
  have data : ∀ i ∈ sweep watermark bottomOfLSM none 0 (mergeTables inputs).items, i.Data :=
    fun i listed => merged.data_items i (thinned.subset listed)
  obtain ⟨t, written, tValid, entries, applied, reached⟩ :=
    Table.write_ok (Merge.total (inputs.map Table.entries)) ((inputs.map Table.appliedIndex).foldl max 0) order data
  -- Every merged key is an encoding, so none is malformed.
  have decodes : ¬ (mergeTables inputs).any (fun e => (decodeKey e.1).isNone) = true := by
    rw [any_eq_true]
    rintro ⟨e, within, short⟩
    obtain ⟨k, ts, fits, enc⟩ := merged.encoded e within
    rw [enc, decodeKey_encodeKey fits] at short
    cases short
  have members : ∀ v, v ∈ t.versions ↔
      ∃ i ∈ sweep watermark bottomOfLSM none 0 (mergeTables inputs).items, v = i.version := by
    intro v
    rw [Table.versions, entries, mem_versions_entries data]
  refine ⟨t, by rw [compactSSTables, if_neg decodes, written], tValid, applied, ?_, ⟨?_, ?_⟩, members⟩
  · refine reached.imp id ?_
    rintro ⟨i, listed, ts⟩
    exact ⟨i.version, (members _).mpr ⟨i, listed, rfl⟩, ts⟩
  · intro v stored
    obtain ⟨i, listed, rfl⟩ := (members v).mp stored
    rw [merged.mem_versions]
    exact ⟨i, thinned.subset listed, rfl⟩
  · intro v written' high
    rw [merged.mem_versions] at written'
    obtain ⟨i, listed, rfl⟩ := written'
    exact (members _).mpr ⟨i, mem_sweep_of_above merged.ascending_items merged.data_items (by simp) listed high, rfl⟩

/-- Compacting valid tables that agree gives the swept versions. -/
theorem compactSSTables_ok (valid : ∀ t ∈ inputs, t.Valid) (functional : Versioned.Functional (tableVersions inputs))
    (watermark : Nat) (bottomOfLSM : Bool) : ∃ t, compactSSTables inputs watermark bottomOfLSM = .ok t ∧
    Compacted inputs watermark t ∧ ∀ v, v ∈ t.versions ↔
    ∃ i ∈ sweep watermark bottomOfLSM none 0 (mergeTables inputs).items, v = i.version := by
  obtain ⟨t, made, tValid, applied, reached, keeps, members⟩ :=
    compactSSTables_merged valid watermark bottomOfLSM
  rw [versions_merged valid functional] at keeps
  exact ⟨t, made, ⟨tValid, applied, reached, keeps⟩, members⟩

/-- A sweep of a layer of such keys drops exactly the garbage. -/
theorem Layer.Valid.mem_sweep_versions (valid : l.Valid) (free : Free K) (within : l.Within K) (named : [] ∉ K) :
    (∃ i ∈ sweep watermark true none 0 l.items, v = i.version) ↔ Versioned.Kept watermark l.versions v := by
  have inside : ∀ i ∈ l.items, i.userKey ∈ K := fun i listed =>
    within i.version (valid.mem_versions.mpr ⟨i, listed, rfl⟩)
  have grouped := valid.ascending_items.grouped valid.data_items inside free
  have nonempty : ∀ i ∈ l.items, i.userKey ≠ [] :=
    fun i listed empty => named (empty ▸ inside i listed)
  -- Versions and items correspond, so the two conditions say the same.
  constructor
  · rintro ⟨i, swept, rfl⟩
    have survives := (mem_sweep grouped nonempty).mp swept
    have data := valid.data_items i survives.listed
    refine ⟨valid.mem_versions.mpr ⟨i, survives.listed, rfl⟩, fun u stored key newer => ?_, fun dead => ?_⟩
    · obtain ⟨j, listed, rfl⟩ := valid.mem_versions.mp stored
      exact survives.needed j listed key newer
    · refine survives.alive ⟨data.version_none.mp dead.1, dead.2.1, fun j listed key => ?_⟩
      exact dead.2.2 j.version (valid.mem_versions.mpr ⟨j, listed, rfl⟩) key
  · intro kept
    obtain ⟨i, listed, rfl⟩ := valid.mem_versions.mp kept.stored
    have data := valid.data_items i listed
    refine ⟨i, (mem_sweep grouped nonempty).mpr ⟨listed, fun j within' key newer => ?_, fun dead => ?_⟩, rfl⟩
    · exact kept.needed j.version (valid.mem_versions.mpr ⟨j, within', rfl⟩) key newer
    · refine kept.alive ⟨data.version_none.mpr dead.1, dead.2.1, fun u stored key => ?_⟩
      obtain ⟨j, within', rfl⟩ := valid.mem_versions.mp stored
      exact dead.2.2 j within' key

/-- So does the sweep of a merge. -/
theorem mem_versions_swept (valid : ∀ t ∈ inputs, t.Valid) (functional : Versioned.Functional (tableVersions inputs))
    (free : Free K) (within : ∀ v ∈ tableVersions inputs, v.key ∈ K) (named : [] ∉ K) :
    (∃ i ∈ sweep watermark true none 0 (mergeTables inputs).items, v = i.version) ↔
    Versioned.Kept watermark (tableVersions inputs) v := by
  have content := versions_merged valid functional
  rw [← content]
  exact (valid_merged valid).mem_sweep_versions free (fun v stored => within v (content ▸ stored)) named

/-- A merged table carries the highest applied index of its inputs. -/
theorem compactSSTables_applied {w : Nat} {bottom : Bool} {merged : Table}
    (made : compactSSTables inputs w bottom = .ok merged) :
    merged.appliedIndex = (inputs.map Table.appliedIndex).foldl max 0 := by
  unfold compactSSTables at made
  simp only at made
  split_ifs at made
  split at made
  · cases made
  · next written =>
    cases made
    exact Table.write_applied written

end Store
