import LittleDb.Lib.Run
import LittleDb.Store.Gc

/-! What a compaction leaves in sight: the merged table against the union of its inputs. -/

namespace Store

open Versioned List SortedMap

variable {k : Key}

theorem Layer.Valid.get_none {l : Layer} {ts : Nat} (valid : l.Valid) (fits : ts < 2 ^ 64) :
    SortedMap.get (encodeKey k ts) l = none ↔ ∀ u ∈ l.versions, ¬ (u.key = k ∧ u.ts = ts) := by
  constructor
  · rintro missing u ⟨_, op, value, within, _⟩ ⟨rfl, rfl⟩
    rw [(get_eq_some valid.sorted).mpr within] at missing
    cases missing
  · intro missing
    cases found : SortedMap.get (encodeKey k ts) l with
    | none => rfl
    | some hit =>
      obtain ⟨op, value⟩ := hit
      have within := (get_eq_some valid.sorted).mp found
      exact absurd ⟨rfl, rfl⟩ (missing ⟨k, ts, payload op value⟩ ⟨fits, op, value, within, rfl⟩)

/-- The versions of some layers: for one key and timestamp the first counts. -/
def stackVersions (layers : List Layer) : Set (Version Key Value) :=
  { v | ∃ front l back, layers = front ++ l :: back ∧ v ∈ l.versions ∧
    ∀ l' ∈ front, ∀ u ∈ l'.versions, ¬ (u.key = v.key ∧ u.ts = v.ts) }

theorem stackVersions_eq {layers : List Layer} (functional : Functional { v | ∃ l ∈ layers, v ∈ l.versions }) :
    stackVersions layers = { v | ∃ l ∈ layers, v ∈ l.versions } := by
  ext v
  constructor
  · rintro ⟨front, l, back, rfl, inside, -⟩
    exact ⟨l, by simp, inside⟩
  · rintro ⟨l, listed, inside⟩
    induction layers with
    | nil => simp at listed
    | cons first layers ih =>
      by_cases found : ∃ u ∈ first.versions, u.key = v.key ∧ u.ts = v.ts
      · -- The first layer has the version, and it is the same.
        obtain ⟨u, held, key, ts⟩ := found
        obtain rfl := functional u ⟨first, by simp, held⟩ v ⟨l, listed, inside⟩ key ts
        exact ⟨[], first, layers, rfl, held, by simp⟩
      · have later : l ∈ layers := by
          rcases mem_cons.mp listed with rfl | later
          · exact absurd ⟨v, inside, rfl, rfl⟩ found
          · exact later
        obtain ⟨front, l', back, rfl, held, before⟩ := ih (fun u uIn w wIn => functional u
          (uIn.imp fun _ both => ⟨by simp [both.1], both.2⟩) w (wIn.imp fun _ both => ⟨by simp [both.1], both.2⟩))
          later
        refine ⟨first :: front, l', back, rfl, held, fun l'' early u uHeld same => ?_⟩
        rcases mem_cons.mp early with rfl | early
        · exact found ⟨u, uHeld, same⟩
        · exact before l'' early u uHeld same

theorem versions_all {layers : List Layer} (valid : ∀ l ∈ layers, l.Valid) :
    Layer.versions (Merge.all layers) = stackVersions layers := by
  have merged : ∀ {e}, e ∈ Merge.all layers ↔ layers.findSome? (fun l => SortedMap.get e.1 l) = some e.2 :=
    Merge.mem_all fun l listed => (valid l listed).sorted
  ext v
  constructor
  · rintro ⟨fits, op, value, within, load⟩
    obtain ⟨front, l, back, whole, found, before⟩ := findSome?_eq_some_iff.mp (merged.mp within)
    have listed : ∀ l' ∈ front ++ [l], l' ∈ layers := by
      intro l' inside
      rw [whole]
      rw [mem_append, mem_singleton] at inside
      rw [mem_append, mem_cons]
      exact inside.imp id .inl
    have inside := (get_eq_some (valid l (listed l (by simp))).sorted).mp found
    refine ⟨front, l, back, whole, ⟨fits, op, value, inside, load⟩, fun l' early => ?_⟩
    exact ((valid l' (listed l' (by simp [early]))).get_none fits).mp (before l' early)
  · rintro ⟨front, l, back, rfl, ⟨fits, op, value, within, load⟩, before⟩
    refine ⟨fits, op, value, merged.mpr (findSome?_eq_some_iff.mpr ⟨front, l, back, rfl, ?_, ?_⟩), load⟩
    · exact (get_eq_some (valid l (by simp)).sorted).mpr within
    · exact fun l' early => ((valid l' (by simp [early])).get_none fits).mpr (before l' early)

/-- The versions of some tables, newest first. -/
def unionVersions (tables : List Table) : Set (Version Key Value) := stackVersions (tables.map Table.entries)

theorem versions_merged_union {inputs : List Table} (valid : ∀ t ∈ inputs, t.Valid) :
    (mergeTables inputs).versions = unionVersions inputs :=
  versions_all (valid_layers valid)

theorem sweep_empty {watermark prevTS : Nat} {items : List Item} (empty : ∀ i ∈ items, i.userKey = []) :
    sweep watermark true none prevTS items = items.filter fun i => ¬ (i.op = .delete ∧ i.ts ≤ watermark) := by
  induction items generalizing prevTS with
  | nil => rfl
  | cons i items ih =>
    have rest : ∀ ts, sweep watermark true none ts items =
        items.filter fun i => ¬ (i.op = .delete ∧ i.ts ≤ watermark) :=
      fun ts => ih fun j within => empty j (by simp [within])
    have forgotten : remember none i.userKey = none := by simp [remember, empty i (by simp)]
    by_cases dropped : i.op = .delete ∧ i.ts ≤ watermark
    · rw [sweep, if_pos (.inl rfl), if_pos ⟨rfl, dropped⟩, forgotten, rest, filter_cons,
        if_neg (by simpa using dropped)]
    · rw [sweep, if_pos (.inl rfl), if_neg fun both => dropped both.2, forgotten, rest, filter_cons,
        if_pos (decide_eq_true dropped)]

/-- The newest version of the empty key hides a value, which would come back. -/
def Revives (w : Nat) (V : Set (Version Key Value)) : Prop :=
  ∃ d, Visible V [] w d ∧ d.payload = none ∧ ∃ p ∈ V, p.key = [] ∧ p.payload ≠ none ∧ p.ts ≤ w

variable {T O : Set (Version Key Value)} {w : Nat}

theorem retains_alive_iff (functional : Functional T) (empty : ∀ v ∈ T, v.key = [])
    (left : ∀ v, v ∈ O ↔ v ∈ T ∧ ¬ (v.payload = none ∧ v.ts ≤ w)) :
    (∀ k s, w ≤ s → Retains T O k s) ↔ ¬ Revives w T := by
  constructor
  · rintro all ⟨d, top, deleted, p, stored, key, value, low⟩
    have kept : p ∈ O := (left p).mpr ⟨stored, fun dead => value dead.1⟩
    rcases (all [] w (le_refl _) d).2 top with visible | ⟨-, missing⟩
    · exact ((left d).mp visible.stored).2 ⟨deleted, top.below⟩
    · exact absurd low (not_le.mpr (missing p kept key))
  · intro quiet k s above v
    constructor
    · intro visible
      obtain ⟨stored, alive⟩ := (left v).mp visible.stored
      obtain ⟨t, top⟩ := exists_visible stored visible.key visible.below
      by_cases dead : t.payload = none ∧ t.ts ≤ w
      · -- The version in sight was dropped, so a value would have come back.
        have older := top.newest v stored visible.key visible.below
        refine absurd ⟨t, ⟨top.stored, empty t top.stored, dead.2, fun u uStored _ uLow => ?_⟩, dead.1,
          v, stored, empty v stored, fun none => alive ⟨none, older.trans dead.2⟩, older.trans dead.2⟩ quiet
        exact top.newest u uStored ((empty u uStored).trans ((empty t top.stored).symm.trans top.key))
          (uLow.trans above)
      · have bound := visible.newest t ((left t).mpr ⟨top.stored, dead⟩) top.key top.below
        have same := le_antisymm bound (top.newest v stored visible.key visible.below)
        obtain rfl := functional t top.stored v stored (top.key.trans visible.key.symm) same
        exact top
    · intro visible
      by_cases dead : v.payload = none ∧ v.ts ≤ w
      · refine .inr ⟨dead.1, fun u kept key => ?_⟩
        obtain ⟨stored, alive⟩ := (left u).mp kept
        by_contra low
        have older := visible.newest u stored key (not_lt.mp low)
        refine quiet ⟨v, ⟨visible.stored, empty v visible.stored, dead.2, fun x xStored _ xLow => ?_⟩, dead.1,
          u, stored, empty u stored, fun none => alive ⟨none, older.trans dead.2⟩, older.trans dead.2⟩
        exact visible.newest x xStored
          ((empty x xStored).trans ((empty v visible.stored).symm.trans visible.key)) (xLow.trans above)
      · exact .inl ⟨(left v).mpr ⟨visible.stored, dead⟩, visible.key, visible.below,
          fun u kept => visible.newest u ((left u).mp kept).1⟩

/-- Whether some version of a key is newer than a snapshot. -/
def Newer (V : Set (Version Key Value)) (k : Key) (r : Nat) : Prop := ∃ v ∈ V, v.key = k ∧ r < v.ts

theorem Newer.of_keeps (keeps : Keeps w T O) {r : Nat} (above : w ≤ r) : Newer O k r ↔ Newer T k r :=
  ⟨fun ⟨v, stored, key, newer⟩ => ⟨v, keeps.sub stored, key, newer⟩,
    fun ⟨v, stored, key, newer⟩ => ⟨v, keeps.above v stored (above.trans_lt newer), key, newer⟩⟩

def tableKeys (tables : List Table) : Set Key := { k | ∃ v ∈ tableVersions tables, v.key = k }

/--
Garbage collection preserves what is visible, unless it revives the empty key.

Snapshots from the watermark on, and above older tables all of them, see the same version of each key, where a
dropped deletion counts as none, and get the same answers about newer versions.
-/
theorem gc_preserves_visibility {inputs : List Table} (valid : ∀ t ∈ inputs, t.Valid)
    (free : Free (tableKeys inputs)) (w : Nat) (bottomOfLSM : Bool) :
    ∃ t, compactSSTables inputs w bottomOfLSM = .ok t ∧
      (((∀ k s, w ≤ s → Retains (unionVersions inputs) t.versions k s) ∧
        (∀ k r, w ≤ r → (Newer t.versions k r ↔ Newer (unionVersions inputs) k r)) ∧
        (bottomOfLSM = false → ∀ k s, Retains (unionVersions inputs) t.versions k s ∧
          (Newer t.versions k s ↔ Newer (unionVersions inputs) k s))) ↔
      ¬ (bottomOfLSM = true ∧ Revives w (unionVersions inputs))) := by
  obtain ⟨t, made, -, -, -, keeps, members⟩ := compactSSTables_merged valid w bottomOfLSM
  have merged := valid_merged valid
  have functional := merged.functional
  have within : (mergeTables inputs).Within (tableKeys inputs) := by
    rintro v ⟨fits, op, value, listed, load⟩
    obtain ⟨t', member, inside⟩ := origin_merged valid listed
    exact ⟨v, ⟨t', member, fits, op, value, inside, load⟩, rfl⟩
  rw [← versions_merged_union valid]
  refine ⟨t, made, ?_⟩
  cases bottomOfLSM with
  | false =>
    -- Above older tables nothing is dropped.
    have same : t.versions = (mergeTables inputs).versions := by
      ext v
      rw [members, sweep_false, merged.mem_versions]
    rw [same]
    refine iff_of_true ⟨fun k s _ => .refl _ k s, fun _ _ _ => Iff.rfl, fun _ k s => ⟨.refl _ k s, Iff.rfl⟩⟩ ?_
    exact fun both => Bool.false_ne_true both.1
  | true =>
    have newer : ∀ k r, w ≤ r → (Newer t.versions k r ↔ Newer (mergeTables inputs).versions k r) :=
      fun k r above => Newer.of_keeps keeps above
    have view : (∀ k s, w ≤ s → Retains (mergeTables inputs).versions t.versions k s) ↔
        ¬ Revives w (mergeTables inputs).versions := by
      by_cases named : [] ∈ tableKeys inputs
      · -- No other key can stand beside the empty one.
        have empty : ∀ v ∈ (mergeTables inputs).versions, v.key = [] := fun v stored =>
          (free [] named v.key (within v stored) List.nil_prefix).symm
        have blank : ∀ i ∈ (mergeTables inputs).items, i.userKey = [] := fun i listed =>
          empty i.version (merged.mem_versions.mpr ⟨i, listed, rfl⟩)
        refine retains_alive_iff functional empty fun v => ?_
        rw [members, sweep_empty blank, merged.mem_versions]
        constructor
        · rintro ⟨i, swept, rfl⟩
          obtain ⟨listed, alive⟩ := mem_filter.mp swept
          have data := merged.data_items i listed
          refine ⟨⟨i, listed, rfl⟩, fun dead => ?_⟩
          rw [decide_eq_true_eq] at alive
          exact alive ⟨data.version_none.mp dead.1, dead.2⟩
        · rintro ⟨⟨i, listed, rfl⟩, alive⟩
          have data := merged.data_items i listed
          refine ⟨i, mem_filter.mpr ⟨listed, decide_eq_true fun dead => ?_⟩, rfl⟩
          exact alive ⟨data.version_none.mpr dead.1, dead.2⟩
      · have same : t.versions = { v | Kept w (mergeTables inputs).versions v } := by
          ext v
          rw [members]
          exact merged.mem_sweep_versions free within named
        rw [same]
        refine iff_of_true (fun k s above => retains_kept functional above) ?_
        rintro ⟨d, top, -⟩
        exact named (top.key ▸ within d top.stored)
    simp only [Bool.true_eq_false, false_implies, and_true, true_and, ← view]
    exact ⟨fun all => all.1, fun all => ⟨all, newer⟩⟩

theorem write_versions {items : List Item} (order : Ascending items)
    (data : ∀ i ∈ items, i.Data ∧ i.userKey = k) : ∃ t, Table.write items items.length 0 = .ok t ∧ t.Valid ∧
    Free (tableKeys [t]) ∧ unionVersions [t] = { v | ∃ i ∈ items, v = i.version } := by
  obtain ⟨t, written, valid, entries, -⟩ :=
    Table.write_ok items.length 0 order fun i listed => (data i listed).1
  have stored : t.versions = { v | ∃ i ∈ items, v = i.version } := by
    ext v
    rw [Table.versions, entries, mem_versions_entries fun i listed => (data i listed).1]
    rfl
  have only : ∀ k' ∈ tableKeys [t], k' = k := by
    rintro k' ⟨v, ⟨t', member, inside⟩, rfl⟩
    rw [mem_singleton.mp member, stored] at inside
    obtain ⟨i, listed, rfl⟩ := inside
    exact (data i listed).2
  refine ⟨t, written, valid, fun a aIn b bIn _ => (only a aIn).trans (only b bIn).symm, ?_⟩
  rw [← versions_merged_union (by simpa using valid), versions_merged (by simpa using valid)]
  · simpa [tableVersions] using stored
  · have single : tableVersions [t] = t.versions := by simp [tableVersions]
    rw [single]
    exact valid.layer.functional

def deleted (k : Key) : List Item := [⟨.delete, k, [], 2⟩, ⟨.put, k, [7], 1⟩]

/-- Compacting a deletion over a value of "a" at the bottom shows neither. -/
theorem gc_preserves_visibility_deleted : ∃ t merged, Table.write (deleted [97]) 2 0 = .ok t ∧
    compactSSTables [t] 5 true = .ok merged ∧
    ∀ k s, 5 ≤ s → Retains (unionVersions [t]) merged.versions k s := by
  have order : Ascending (deleted [97]) := by
    simp only [Ascending, SortedMap.Sorted, deleted, map_cons, map_nil, pairwise_cons]
    decide +kernel
  obtain ⟨t, written, valid, free, content⟩ := write_versions (k := [97]) order
    (by simp [deleted, Item.Data])
  obtain ⟨merged, made, iff⟩ := gc_preserves_visibility (by simpa using valid) free 5 true
  refine ⟨t, merged, written, made, (iff.mpr ?_).1⟩
  rintro ⟨-, d, top, -⟩
  have stored := top.stored
  rw [content] at stored
  obtain ⟨i, listed, rfl⟩ := stored
  have key := top.key
  simp only [deleted, mem_cons, not_mem_nil, or_false] at listed
  rcases listed with rfl | rfl <;> simp [Item.version] at key

/-- A compacted deletion of the empty key brings the value back. -/
theorem gc_revives_empty_key : ∃ t merged, Table.write (deleted []) 2 0 = .ok t ∧ t.Valid ∧
    Free (tableKeys [t]) ∧ compactSSTables [t] 5 true = .ok merged ∧
    t.getAsOf [] 5 = some (.delete, []) ∧ merged.getAsOf [] 5 = some (.put, [7]) := by
  have order : Ascending (deleted []) := by
    simp only [Ascending, SortedMap.Sorted, deleted, map_cons, map_nil, pairwise_cons]
    decide +kernel
  obtain ⟨t, written, valid, free, -⟩ := write_versions (k := []) order (by simp [deleted, Item.Data])
  have both : Run.passes (fun t => Run.passes (fun merged => decide (t.getAsOf [] 5 = some (.delete, []) ∧
      merged.getAsOf [] 5 = some (.put, [7]))) (compactSSTables [t] 5 true))
      (Table.write (deleted []) 2 0) = true := by
    rfl
  rw [show Table.write (deleted []) 2 0 = .ok t from written] at both
  obtain ⟨merged, made, reads⟩ := Run.exists_of_passes (r := compactSSTables [t] 5 true) both
  obtain ⟨dead, alive⟩ := of_decide_eq_true reads
  exact ⟨t, merged, written, valid, free, made, dead, alive⟩

end Store
