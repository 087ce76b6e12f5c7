import LittleDb.Store.MergeIterator
import LittleDb.Store.Snapshots
import LittleDb.Store.TableReads
import LittleDb.Store.Visibility

/-! Range scans: the cursors of all layers merged, and the versions of each user key taken together. -/

namespace Store

open Versioned List Bytes Db Layer Memtable SortedMap

variable {k : Key} {t : Nat} {m : Memtable} {l : Layer}

inductive ScanError where
  | closed
  | malformed
  deriving DecidableEq, Repr

/-- The entries up to the first user key too far, without malformed ones. -/
def takeBefore (end_ : Option Key) : Layer → Layer
  | [] => []
  | e :: rest =>
    match decodeKey e.1 with
    | none => takeBefore end_ rest
    | some (uk, _) => if end_.any (fun bound => bound ≤ uk) then [] else e :: takeBefore end_ rest

/-- Copies the versions with user keys from a start to before an end. -/
def Memtable.rangeSnapshot (m : Memtable) (start end_ : Option Key) : Layer :=
  takeBefore end_
    (match start with
      | none => m.sl
      | some k => SortedMap.seek (encodeKey k maxUint64) m.sl)

namespace Scan

variable (snapshot : Nat)

/--
Walks over the versions of one user key.

The first one at or below the snapshot decides: a value is found, a tombstone is not.
-/
def group (curUK : Key) : Bool → Option Value → Layer → Except ScanError (Option Value × Layer)
  | _, found, [] => .ok (found, [])
  | decided, found, e :: rest =>
    match decodeKey e.1 with
    | none => .error .malformed
    | some (vuk, vts) =>
      if vuk ≠ curUK then .ok (found, e :: rest)
      else if !decided ∧ vts ≤ snapshot then
        group curUK true (if e.2.1 = .put then some e.2.2 else none) rest
      else group curUK decided found rest

/-- Moves to the next live key: the pair and the versions left. -/
def next : Nat → Layer → Except ScanError (Option ((Key × Value) × Layer))
  | 0, _ => .ok none
  | _ + 1, [] => .ok none
  | fuel + 1, e :: rest =>
    match decodeKey e.1 with
    | none => .error .malformed
    | some (curUK, _) =>
      match group snapshot curUK false none (e :: rest) with
      | .error why => .error why
      | .ok (some value, left) => .ok (some ((curUK, value), left))
      | .ok (none, left) => next fuel left

/-- Moves to the next live key until there is none. -/
def collect : Nat → Layer → Except ScanError (List (Key × Value))
  | 0, _ => .ok []
  | fuel + 1, merged =>
    match next snapshot (merged.length + 1) merged with
    | .error why => .error why
    | .ok none => .ok []
    | .ok (some (pair, left)) => (collect fuel left).map fun pairs => pair :: pairs

end Scan

namespace Db

def layers (db : Db) : List Layer :=
  db.memtable.sl :: (db.frozen.toList.map Memtable.sl ++ db.tables.map Table.entries)

def cursors (db : Db) (start end_ : Option Key) : List Layer :=
  db.memtable.rangeSnapshot start end_ ::
    (db.frozen.toList.map (fun m => m.rangeSnapshot start end_) ++
      db.tables.map fun t => t.entries.range start end_)

/-- A scan of a range of user keys at a snapshot, iterated to its end. -/
def scan (db : Db) (start end_ : Option Key) (snapshot : Nat) : Except ScanError (List (Key × Value)) :=
  if db.closed then .error .closed
  else
    let merged := Merge.all (db.cursors start end_)
    Scan.collect snapshot (merged.length + 1) merged

/-- The versions of a database: for one key and timestamp the newest layer counts. -/
def stored (db : Db) : Set (Version Key Value) := stackVersions db.layers

end Db

def itemVersions (items : List Item) : Set (Version Key Value) := { v | ∃ i ∈ items, v = i.version }

/-- The value in sight among the versions of one key, newest first. -/
def newestAt (s : Nat) (items : List Item) : Option Value :=
  (items.find? fun i => i.ts ≤ s).bind fun i => payload i.op i.value

section Groups

variable {items same rest : List Item} {s : Nat}

theorem Scan.group_decided (fits : ∀ i ∈ items, i.ts < 2 ^ 64) (found : Option Value) :
    Scan.group s k true found (items.map Item.entry) =
      .ok (found, (items.dropWhile fun i => i.userKey = k).map Item.entry) := by
  induction items with
  | nil => rfl
  | cons i items ih =>
    have key : decodeKey i.entry.1 = some (i.userKey, i.ts) := decodeKey_encodeKey (fits i (by simp))
    rw [map_cons, group, key]
    by_cases here : i.userKey = k
    · simp [here, ih fun j listed => fits j (by simp [listed])]
    · simp [here]

theorem Scan.group_eq (fits : ∀ i ∈ items, i.ts < 2 ^ 64) :
    Scan.group s k false none (items.map Item.entry) =
      .ok (newestAt s (items.takeWhile fun i => i.userKey = k),
        (items.dropWhile fun i => i.userKey = k).map Item.entry) := by
  induction items with
  | nil => rfl
  | cons i items ih =>
    have fits' : ∀ j ∈ items, j.ts < 2 ^ 64 := fun j listed => fits j (by simp [listed])
    have key : decodeKey i.entry.1 = some (i.userKey, i.ts) := decodeKey_encodeKey (fits i (by simp))
    have load : (if i.op = .put then some i.value else none) = payload i.op i.value := by
      cases i.op <;> rfl
    rw [map_cons, group, key]
    by_cases here : i.userKey = k
    · by_cases seen : i.ts ≤ s
      · simp [here, seen, group_decided fits', newestAt, Item.entry, load]
      · simp [here, seen, ih fits', newestAt]
    · simp [here, newestAt]

theorem functional_items (order : Grouped items) : Functional (itemVersions items) := by
  have apart : items.Pairwise fun i j => ¬ (i.userKey = j.userKey ∧ i.ts = j.ts) := by
    refine order.imp ?_
    rintro i j (less | ⟨-, older⟩) ⟨key, ts⟩
    · exact absurd key less.ne
    · exact absurd ts older.ne'
  have : Std.Symm fun i j : Item => ¬ (i.userKey = j.userKey ∧ i.ts = j.ts) :=
    ⟨fun _ _ differ both => differ ⟨both.1.symm, both.2.symm⟩⟩
  rintro v ⟨i, listed, rfl⟩ w ⟨j, listed', rfl⟩ key ts
  by_contra other
  exact apart.forall listed listed' (fun same => other (by rw [same])) ⟨key, ts⟩

theorem shows_newestAt (order : Grouped same) (one : ∀ i ∈ same, i.userKey = k) :
    Shows (itemVersions same) k s (newestAt s same) := by
  cases found : same.find? fun i => i.ts ≤ s with
  | none =>
    refine .inr ⟨by simp [newestAt, found], ?_⟩
    rintro w ⟨i, listed, rfl⟩ -
    have high := find?_eq_none.mp found i listed
    rw [decide_eq_true_eq] at high
    exact not_le.mp high
  | some i =>
    obtain ⟨seen, front, back, rfl, before⟩ := find?_eq_some_iff_append.mp found
    refine .inl ⟨i.version, ⟨⟨i, by simp, rfl⟩, one i (by simp), of_decide_eq_true seen, ?_⟩,
      by simp [newestAt, found, Item.version]⟩
    rintro w ⟨j, listed, rfl⟩ - low
    rcases mem_append.mp listed with early | late
    · have high := before j early
      simp at high
      exact absurd low (not_le.mpr high)
    · rcases mem_cons.mp late with rfl | later
      · exact le_refl _
      · have after := (pairwise_cons.mp (pairwise_append.mp order).2.1).1 j later
        rcases after with less | ⟨-, older⟩
        · rw [one i (by simp), one j (by simp [later])] at less
          exact absurd less (lt_irrefl _)
        · exact older.le

theorem shows_group (order : Grouped (same ++ rest)) (one : ∀ i ∈ same, i.userKey = k)
    (far : ∀ i ∈ rest, k < i.userKey) (k' : Key) (v : Value) : Shows (itemVersions (same ++ rest)) k' s (some v) ↔
    (k' = k ∧ newestAt s same = some v) ∨ Shows (itemVersions rest) k' s (some v) := by
  obtain ⟨orderSame, -, -⟩ := pairwise_append.mp order
  -- The key of the group is decided by it alone, others by the rest.
  by_cases here : k' = k
  · subst here
    have own : Shows (itemVersions (same ++ rest)) k' s (some v) ↔ Shows (itemVersions same) k' s (some v) := by
      refine shows_congr fun w key _ => ⟨?_, ?_⟩
      · rintro ⟨i, listed, rfl⟩
        rcases mem_append.mp listed with mine | other
        · exact ⟨i, mine, rfl⟩
        · exact absurd key (far i other).ne'
      · rintro ⟨i, listed, rfl⟩
        exact ⟨i, mem_append_left _ listed, rfl⟩
    have decided := shows_newestAt (s := s) orderSame one
    rw [own]
    constructor
    · exact fun shows => .inl ⟨rfl, decided.unique (functional_items orderSame) shows⟩
    · rintro (⟨-, found⟩ | ⟨w, visible, -⟩ | ⟨impossible, -⟩)
      · exact found ▸ decided
      · obtain ⟨i, listed, rfl⟩ := visible.stored
        exact absurd visible.key (far i listed).ne'
      · cases impossible
  · have others : Shows (itemVersions (same ++ rest)) k' s (some v) ↔ Shows (itemVersions rest) k' s (some v) := by
      refine shows_congr fun w key _ => ⟨?_, ?_⟩
      · rintro ⟨i, listed, rfl⟩
        rcases mem_append.mp listed with mine | other
        · exact absurd (key.symm.trans (one i mine)) here
        · exact ⟨i, other, rfl⟩
      · rintro ⟨i, listed, rfl⟩
        exact ⟨i, mem_append_right _ listed, rfl⟩
    rw [others]
    exact ⟨.inr, fun either => either.elim (fun wrong => absurd wrong.1 here) id⟩

theorem far_of_order {i : Item} (order : Grouped (i :: items)) :
    ∀ j ∈ (i :: items).dropWhile (fun j => j.userKey = i.userKey), i.userKey < j.userKey := by
  obtain ⟨first, order'⟩ := pairwise_cons.mp order
  rw [dropWhile_cons, if_pos (by simp)]
  intro j listed
  cases shape : items.dropWhile fun j => j.userKey = i.userKey with
  | nil => simp [shape] at listed
  | cons x rest =>
    have other : x.userKey ≠ i.userKey := by
      have stopped := head?_dropWhile_not (fun j : Item => decide (j.userKey = i.userKey)) items
      simpa [shape] using stopped
    have suffix : x :: rest <:+ items := shape ▸ List.dropWhile_suffix _
    have larger : i.userKey < x.userKey := by
      rcases first x (suffix.subset (by simp)) with less | ⟨key, -⟩
      · exact less
      · exact absurd key.symm other
    rw [shape] at listed
    rcases mem_cons.mp listed with rfl | later
    · exact larger
    · rcases (pairwise_cons.mp (order'.sublist suffix.sublist)).1 j later with less | ⟨key, -⟩
      · exact larger.trans less
      · exact key ▸ larger

/-- Moving on over versions finds the next key with a value in sight. -/
theorem Scan.next_spec {fuel : Nat} (fits : ∀ i ∈ items, i.ts < 2 ^ 64) (order : Grouped items)
    (enough : items.length < fuel) :
    (Scan.next s fuel (items.map Item.entry) = .ok none ∧ ∀ k v, ¬ Shows (itemVersions items) k s (some v)) ∨
    ∃ k v rest, Scan.next s fuel (items.map Item.entry) = .ok (some ((k, v), rest.map Item.entry)) ∧ rest <:+ items ∧
    rest.length < items.length ∧ (∀ i ∈ rest, k < i.userKey) ∧ ∀ k' v', Shows (itemVersions items) k' s (some v') ↔
    (k' = k ∧ v' = v) ∨ Shows (itemVersions rest) k' s (some v') := by
  induction fuel generalizing items with
  | zero => omega
  | succ fuel ih =>
    cases items with
    | nil =>
      refine .inl ⟨rfl, fun k v shows => ?_⟩
      have none_left : itemVersions [] = ∅ := by
        ext v
        simp [itemVersions]
      rw [none_left, shows_empty] at shows
      cases shows
    | cons i items =>
      have key : decodeKey i.entry.1 = some (i.userKey, i.ts) := decodeKey_encodeKey (fits i (by simp))
      -- The versions of the first key, and what is behind them.
      let same := (i :: items).takeWhile fun j => j.userKey = i.userKey
      let rest := (i :: items).dropWhile fun j => j.userKey = i.userKey
      have whole : same ++ rest = i :: items := takeWhile_append_dropWhile
      have one : ∀ j ∈ same, j.userKey = i.userKey := fun j listed => by
        simpa using mem_takeWhile_imp listed
      have suffix : rest <:+ i :: items := List.dropWhile_suffix _
      have shorter : rest.length < (i :: items).length := by
        have sub : rest <:+ items := by
          have tail : rest = items.dropWhile fun j => j.userKey = i.userKey := by simp [rest]
          rw [tail]
          exact List.dropWhile_suffix _
        have := sub.length_le
        simp only [length_cons]
        omega
      have shows : ∀ k' v', Shows (itemVersions (i :: items)) k' s (some v') ↔
          (k' = i.userKey ∧ newestAt s same = some v') ∨ Shows (itemVersions rest) k' s (some v') := by
        intro k' v'
        have both : Grouped (same ++ rest) := by rwa [whole]
        have split := shows_group (s := s) both one (far_of_order order) k' v'
        rwa [whole] at split
      have grouped := group_eq (s := s) (k := i.userKey) fits
      rw [map_cons] at grouped
      rw [map_cons, next, key]
      simp only [grouped]
      cases found : newestAt s same with
      | some v =>
        refine .inr ⟨i.userKey, v, rest, rfl, suffix, shorter, far_of_order order, fun k' v' => ?_⟩
        rw [shows, found, Option.some.injEq, eq_comm (a := v)]
      | none =>
        -- The key shows nothing, so the search goes on behind it.
        have same_shows : ∀ k' v', Shows (itemVersions (i :: items)) k' s (some v') ↔
            Shows (itemVersions rest) k' s (some v') := fun k' v' => by simp [shows, found]
        have rest_fits : ∀ j ∈ rest, j.ts < 2 ^ 64 := fun j listed => fits j (suffix.subset listed)
        have short : rest.length < fuel := by omega
        rcases ih rest_fits (order.sublist suffix.sublist) short with
          ⟨ended, nothing⟩ | ⟨k, v, rest', moved, suffix', shorter', far, shows'⟩
        · exact .inl ⟨ended, fun k v shown => nothing k v ((same_shows k v).mp shown)⟩
        · exact .inr ⟨k, v, rest', moved, suffix'.trans suffix, shorter'.trans shorter, far,
            fun k' v' => (same_shows k' v').trans (shows' k' v')⟩

/-- Moving on to the end yields the values in sight, in key order. -/
theorem Scan.collect_spec {fuel : Nat} (fits : ∀ i ∈ items, i.ts < 2 ^ 64) (order : Grouped items)
    (enough : items.length < fuel) : ∃ pairs, Scan.collect s fuel (items.map Item.entry) = .ok pairs ∧
    (pairs.map Prod.fst).Pairwise (· < ·) ∧ ∀ k v, (k, v) ∈ pairs ↔ Shows (itemVersions items) k s (some v) := by
  induction fuel generalizing items with
  | zero => omega
  | succ fuel ih =>
    have enough' : items.length < (items.map Item.entry).length + 1 := by simp
    rcases next_spec (s := s) fits order enough' with
      ⟨ended, nothing⟩ | ⟨k, v, rest, moved, suffix, shorter, far, shows⟩
    · exact ⟨[], by rw [collect, ended], by simp, fun k v => by simp [nothing]⟩
    · have behind : ∀ i ∈ rest, i.ts < 2 ^ 64 := fun i listed => fits i (suffix.subset listed)
      obtain ⟨pairs, collected, ascending, members⟩ :=
        ih behind (order.sublist suffix.sublist) (by omega)
      refine ⟨(k, v) :: pairs, by rw [collect, moved]; simp only [collected]; rfl, ?_, fun k' v' => ?_⟩
      · refine pairwise_cons.mpr ⟨fun k' listed => ?_, ascending⟩
        obtain ⟨⟨k', v'⟩, member, rfl⟩ := mem_map.mp listed
        rcases (members k' v').mp member with ⟨w, visible, -⟩ | ⟨impossible, -⟩
        · obtain ⟨i, inside, rfl⟩ := visible.stored
          exact visible.key ▸ far i inside
        · cases impossible
      · rw [mem_cons, members, shows, Prod.mk.injEq]

end Groups

/-- Whether a user key lies in the range of a scan. -/
def InRange (start end_ : Option Key) (k : Key) : Prop := (∀ a ∈ start, a ≤ k) ∧ ∀ b ∈ end_, k < b

/-- From a start on the encoding keeps the order, and versions below lie before it. -/
structure KeepsOrder (K : Set Key) (start : Option Key) : Prop where
  inside : ∀ k ∈ K, ∀ k' ∈ K, (∀ a ∈ start, a ≤ k) → k < k' → ∀ t t', t < 2 ^ 64 → t' < 2 ^ 64 →
    encodeKey k t < encodeKey k' t'
  below : ∀ a ∈ start, ∀ k ∈ K, k < a → ∀ t, t < 2 ^ 64 → encodeKey k t < encodeKey a maxUint64

theorem start_le_encodeKey {a : Key} (le : a ≤ k) (t : Nat) : ¬ encodeKey k t < encodeKey a maxUint64 := by
  have zeros : Bytes.ofNatBE timestampSize (maxUint64 - maxUint64 % 2 ^ 64) = List.replicate 8 0 := by decide
  rw [encodeKey, encodeKey, zeros]
  exact not_append_lt_zeros (not_lt.mpr le) (by simp [timestampSize])

section Ranges

variable {K : Set Key} {start end_ : Option Key}

theorem takeWhile_eq_filter {α : Type} {p : α → Bool} {l : List α}
    (order : l.Pairwise fun a b => p b = true → p a = true) : l.takeWhile p = l.filter p := by
  induction l with
  | nil => rfl
  | cons a l ih =>
    obtain ⟨first, order'⟩ := pairwise_cons.mp order
    by_cases here : p a = true
    · rw [takeWhile_cons, if_pos here, filter_cons, if_pos here, ih order']
    · rw [takeWhile_cons, if_neg here, filter_cons, if_neg here, eq_comm, filter_eq_nil_iff]
      exact fun b listed qualifies => here (first b listed qualifies)

theorem inRange_encodeKey (fits : t < 2 ^ 64) : Cursor.inRange end_ (encodeKey k t) = true ↔ ∀ b ∈ end_, k < b := by
  cases end_ with
  | none => simp [Cursor.inRange]
  | some bound => simp [Cursor.inRange, decodeKey_encodeKey fits]

theorem takeBefore_eq (encoded : ∀ e ∈ l, ∃ k t, t < 2 ^ 64 ∧ e.1 = encodeKey k t) :
    takeBefore end_ l = l.takeWhile fun e => Cursor.inRange end_ e.1 := by
  induction l with
  | nil => rfl
  | cons e l ih =>
    obtain ⟨k, t, fits, same⟩ := encoded e (by simp)
    rw [takeBefore, takeWhile_cons, same, decodeKey_encodeKey fits]
    by_cases before : ∀ b ∈ end_, k < b
    · rw [if_pos ((inRange_encodeKey fits).mpr before), ih fun e' listed => encoded e' (by simp [listed])]
      refine if_neg ?_
      cases end_ with
      | none => simp
      | some bound => simpa using before
    · rw [if_neg fun inside => before ((inRange_encodeKey fits).mp inside)]
      refine if_pos ?_
      cases end_ with
      | none => simp at before
      | some bound => simpa using before

theorem Memtable.rangeSnapshot_eq (valid : m.sl.Valid) : m.rangeSnapshot start end_ = m.sl.range start end_ := by
  refine takeBefore_eq fun e listed => valid.encoded e ?_
  cases start with
  | none => exact listed
  | some k => exact (List.dropWhile_suffix _).subset listed

theorem Layer.Valid.mem_range (valid : l.Valid) (within : l.Within K) (keeps : KeepsOrder K start)
    {e : List UInt8 × (Op × Value)} (fits : t < 2 ^ 64) (key : e.1 = encodeKey k t) :
    e ∈ l.range start end_ ↔ e ∈ l ∧ InRange start end_ k := by
  -- What is sought from the start on are the entries whose keys are not below it.
  obtain ⟨from_, whole, sorted, sought⟩ : ∃ from_ : Layer,
      l.range start end_ = (from_.takeWhile fun e => Cursor.inRange end_ e.1) ∧ SortedMap.Sorted from_ ∧
      ∀ e, e ∈ from_ ↔ e ∈ l ∧ ∀ a ∈ start, ¬ e.1 < encodeKey a maxUint64 := by
    cases start with
    | none => exact ⟨l, rfl, valid.sorted, by simp⟩
    | some a =>
      refine ⟨SortedMap.seek (encodeKey a maxUint64) l, rfl, valid.sorted.sublist (dropWhile_sublist _), fun e => ?_⟩
      rw [seek_eq_filter valid.sorted]
      simp
  have member : ∀ {e k t}, e ∈ l → t < 2 ^ 64 → e.1 = encodeKey k t → k ∈ K := by
    intro e k t listed fits key
    obtain ⟨enc, op, value⟩ := e
    exact within ⟨k, t, payload op value⟩ ⟨fits, op, value, by rw [← key]; exact listed, rfl⟩
  have fromStart : ∀ {e k t}, e ∈ l → t < 2 ^ 64 → e.1 = encodeKey k t →
      ((∀ a ∈ start, ¬ e.1 < encodeKey a maxUint64) ↔ ∀ a ∈ start, a ≤ k) := by
    intro e k t listed fits key
    rw [key]
    refine forall₂_congr fun a given => ⟨fun high => ?_, fun le => start_le_encodeKey le t⟩
    by_contra low
    exact high (keeps.below a given k (member listed fits key) (not_le.mp low) t fits)
  have order : from_.Pairwise fun e e' =>
      Cursor.inRange end_ e'.1 = true → Cursor.inRange end_ e.1 = true := by
    refine sorted.imp_of_mem fun {e e'} listed listed' less inside => ?_
    obtain ⟨inL, -⟩ := (sought e).mp listed
    obtain ⟨inL', high'⟩ := (sought e').mp listed'
    obtain ⟨k, t, fits, key⟩ := valid.encoded e inL
    obtain ⟨k', t', fits', key'⟩ := valid.encoded e' inL'
    rw [key', inRange_encodeKey fits'] at inside
    rw [key, inRange_encodeKey fits]
    -- A larger key cannot come first.
    have ordered : k ≤ k' := by
      by_contra larger
      have reverse := keeps.inside k' (member inL' fits' key') k (member inL fits key)
        ((fromStart inL' fits' key').mp high') (not_le.mp larger) t' t fits' fits
      rw [key, key'] at less
      exact lt_asymm less reverse
    exact fun b given => lt_of_le_of_lt ordered (inside b given)
  rw [whole, takeWhile_eq_filter order, mem_filter, sought, key, inRange_encodeKey fits, and_assoc]
  refine and_congr_right fun listed => and_congr_left' ?_
  rw [← key]
  exact fromStart listed fits key

theorem Layer.Valid.versions_range (valid : l.Valid) (within : l.Within K) (keeps : KeepsOrder K start)
    {v : Version Key Value} : v ∈ (l.range start end_).versions ↔ v ∈ l.versions ∧ InRange start end_ v.key := by
  constructor
  · rintro ⟨fits, op, value, inside, load⟩
    obtain ⟨listed, range⟩ := (valid.mem_range within keeps fits rfl).mp inside
    exact ⟨⟨fits, op, value, listed, load⟩, range⟩
  · rintro ⟨⟨fits, op, value, listed, load⟩, range⟩
    exact ⟨fits, op, value, (valid.mem_range within keeps fits rfl).mpr ⟨listed, range⟩, load⟩

theorem Layer.Valid.range (valid : l.Valid) (start end_ : Option Key) : (l.range start end_).Valid := by
  have sub : (l.range start end_).Sublist l := by
    cases start with
    | none => exact takeWhile_sublist _
    | some k => exact (takeWhile_sublist _).trans (dropWhile_sublist _)
  exact ⟨valid.sorted.sublist sub, fun e listed => valid.encoded e (sub.subset listed),
    fun e listed => valid.data e (sub.subset listed)⟩

end Ranges

/-- An open database with layers as the write path makes them, keys in a set. -/
structure Db.Scannable (db : Db) (K : Set Key) : Prop where
  opened : db.closed = false
  valid : ∀ l ∈ db.layers, l.Valid
  within : ∀ l ∈ db.layers, l.Within K

/-- A scan yields the live keys of the range with their values, in order. -/
def Scan.Right (out : Except ScanError (List (Key × Value))) (V : Set (Version Key Value))
    (start end_ : Option Key) (s : Nat) : Prop :=
  ∃ pairs, out = .ok pairs ∧ (pairs.map Prod.fst).Pairwise (· < ·) ∧
    ∀ k v, (k, v) ∈ pairs ↔ InRange start end_ k ∧ Shows V k s (some v)

section Scans

variable {db : Db} {K : Set Key} {start end_ : Option Key} {s : Nat}

theorem Db.Scannable.cursors_eq (scannable : db.Scannable K) :
    db.cursors start end_ = db.layers.map fun l => l.range start end_ := by
  have frozen : (db.frozen.toList.map fun m => m.rangeSnapshot start end_) =
      (db.frozen.toList.map Memtable.sl).map fun l => l.range start end_ := by
    rw [map_map]
    refine map_congr_left fun m listed => rangeSnapshot_eq (scannable.valid m.sl ?_)
    exact mem_cons_of_mem _ (mem_append_left _ (mem_map_of_mem listed))
  rw [cursors, layers, rangeSnapshot_eq (scannable.valid _ (by simp [layers])), frozen]
  simp

theorem Db.Scannable.stored_ranges (scannable : db.Scannable K) (keeps : KeepsOrder K start) {v : Version Key Value} :
    v ∈ stackVersions (db.layers.map fun l => l.range start end_) ↔ v ∈ db.stored ∧ InRange start end_ v.key := by
  have range : ∀ l ∈ db.layers, ∀ u, u ∈ (l.range start end_).versions ↔
      u ∈ l.versions ∧ InRange start end_ u.key := fun l listed _ =>
    (scannable.valid l listed).versions_range (scannable.within l listed) keeps
  constructor
  · rintro ⟨front, l, back, whole, inside, before⟩
    obtain ⟨front', rest, split, rfl, shape⟩ := map_eq_append_iff.mp whole
    obtain ⟨l', back', rfl, rfl, rfl⟩ := map_eq_cons_iff.mp shape
    obtain ⟨stored, within⟩ := (range l' (by simp [split]) v).mp inside
    refine ⟨⟨front', l', back', split, stored, fun l'' early u held same => ?_⟩, within⟩
    refine before _ (mem_map_of_mem early) u ((range l'' (by simp [split, early]) u).mpr ⟨held, ?_⟩) same
    rw [same.1]
    exact within
  · rintro ⟨⟨front, l, back, split, stored, before⟩, within⟩
    refine ⟨_, _, back.map fun l => l.range start end_, by rw [split, map_append, map_cons],
      (range l (by simp [split]) v).mpr ⟨stored, within⟩, fun l' listed u held => ?_⟩
    obtain ⟨l'', early, rfl⟩ := mem_map.mp listed
    exact before l'' early u ((range l'' (by simp [split, early]) u).mp held).1

theorem Layer.Valid.grouped_items (valid : l.Valid) (keeps : KeepsOrder K start)
    (known : ∀ v ∈ l.versions, v.key ∈ K ∧ ∀ a ∈ start, a ≤ v.key) : Grouped l.items := by
  have ascending := pairwise_map.mp valid.ascending_items
  refine ascending.imp_of_mem fun {i j} listed listed' less => ?_
  obtain ⟨inside, -⟩ := known _ (valid.mem_versions.mpr ⟨i, listed, rfl⟩)
  obtain ⟨inside', high⟩ := known _ (valid.mem_versions.mpr ⟨j, listed', rfl⟩)
  have fits := (valid.data_items i listed).1
  have fits' := (valid.data_items j listed').1
  rcases lt_trichotomy i.userKey j.userKey with first | key | second
  · exact .inl first
  · have encoded : encodeKey i.userKey i.ts < encodeKey j.userKey j.ts := less
    rw [key] at encoded
    exact .inr ⟨key, (encodeKey_lt_iff fits fits').mp encoded⟩
  · exact absurd less (lt_asymm (keeps.inside _ inside' _ inside high second _ _ fits' fits))

theorem Layer.Valid.collect_right {V : Set (Version Key Value)} (valid : l.Valid) (keeps : KeepsOrder K start)
    (within : ∀ v ∈ V, v.key ∈ K) (content : ∀ v, v ∈ l.versions ↔ v ∈ V ∧ InRange start end_ v.key) :
    Scan.Right (Scan.collect s (l.length + 1) l) V start end_ s := by
  have order := valid.grouped_items keeps fun v stored =>
    ⟨within v ((content v).mp stored).1, ((content v).mp stored).2.1⟩
  have size : l.items.length < l.length + 1 := by
    have count := congrArg List.length valid.map_items
    rw [length_map] at count
    omega
  obtain ⟨pairs, collected, ascending, members⟩ :=
    Scan.collect_spec (s := s) (fun i listed => (valid.data_items i listed).1) order size
  rw [valid.map_items] at collected
  refine ⟨pairs, collected, ascending, fun k v => ?_⟩
  have same : itemVersions l.items = l.versions := by
    ext v
    exact valid.mem_versions.symm
  rw [members, same]
  constructor
  · intro shows
    -- What is shown was collected, so it lies in the range.
    have inside : InRange start end_ k := by
      rcases shows with ⟨w, visible, -⟩ | ⟨impossible, -⟩
      · exact visible.key ▸ ((content w).mp visible.stored).2
      · cases impossible
    refine ⟨inside, shows.congr fun w key _ => ?_⟩
    rw [content, key]
    exact ⟨And.left, fun stored => ⟨stored, inside⟩⟩
  · rintro ⟨inside, shows⟩
    refine shows.congr fun w key _ => ?_
    rw [content, key]
    exact ⟨fun stored => ⟨stored, inside⟩, And.left⟩

theorem Db.Scannable.cursors_valid (scannable : db.Scannable K) (start end_ : Option Key) :
    ∀ l ∈ db.cursors start end_, l.Valid := by
  intro l listed
  rw [scannable.cursors_eq] at listed
  obtain ⟨l', member, rfl⟩ := mem_map.mp listed
  exact (scannable.valid l' member).range start end_

/-- A scan walks over what the iterator that merges its cursors gives out. -/
theorem Db.Scannable.scan_drain (scannable : db.Scannable K) (heap : CursorHeap) (start end_ : Option Key) (s : Nat) :
    ∃ fuel merged stop, MergeIterator.drain heap fuel
        (MergeIterator.newMergeIterator heap ((db.cursors start end_).map fun l => ⟨l, false⟩)) = (merged, stop) ∧
      stop.valid = false ∧ stop.err = false ∧ db.scan start end_ s = Scan.collect s (merged.length + 1) merged := by
  have valid := scannable.cursors_valid start end_
  obtain ⟨stop, drained, ended, fine⟩ := MergeIterator.drain_newMergeIterator heap ((db.cursors start end_).map fun l => ⟨l, false⟩)
    (forall_mem_map.mpr fun l listed => (valid l listed).sorted)
    (forall_mem_map.mpr fun l listed e within => by
      obtain ⟨k, t, -, key⟩ := (valid l listed).encoded e within
      exact ne_nil_of_length_pos (by simp [key, timestampSize]))
    (forall_mem_map.mpr fun l _ => rfl)
  have entries : ((db.cursors start end_).map fun l => ⟨l, false⟩).map VersionCursor.entries = db.cursors start end_ := by
    rw [map_map]
    exact map_id _
  rw [entries] at drained
  exact ⟨_, _, stop, drained, ended, fine, if_neg (by simp [scannable.opened])⟩

theorem Db.Scannable.scan_right (scannable : db.Scannable K) (keeps : KeepsOrder K start) (end_ : Option Key)
    (s : Nat) : Scan.Right (db.scan start end_ s) db.stored start end_ s := by
  have within : ∀ v ∈ db.stored, v.key ∈ K := by
    rintro v ⟨front, l, back, split, held, -⟩
    exact scannable.within l (by simp [split]) v held
  have valid := scannable.cursors_valid start end_
  rw [scan, if_neg (by simp [scannable.opened])]
  refine (valid_all valid).collect_right keeps within fun v => ?_
  rw [versions_all valid, scannable.cursors_eq, scannable.stored_ranges keeps]

def Db.buffered (m : Memtable) : Db := { Db.fresh ⟨1000, 4⟩ with memtable := m }

theorem Db.scannable_buffered (valid : m.sl.Valid) (within : m.sl.Within K) : (Db.buffered m).Scannable K := by
  have only : (Db.buffered m).layers = [m.sl] := rfl
  refine ⟨rfl, ?_, ?_⟩
  · rw [only]
    simpa using valid
  · rw [only]
    simpa using within

theorem Db.scan_buffered (valid : m.sl.Valid) (start end_ : Option Key) (s : Nat) :
    (Db.buffered m).scan start end_ s =
      Scan.collect s ((m.sl.range start end_).length + 1) (m.sl.range start end_) := by
  have only : (Db.buffered m).cursors start end_ = [m.sl.range start end_] := by
    rw [← rangeSnapshot_eq valid]
    rfl
  rw [scan, if_neg (by simp [buffered, fresh]), only, Merge.all_singleton (valid.range start end_).sorted]

theorem Layer.range_self (high : ∀ e ∈ l, ∀ a ∈ start, ¬ e.1 < encodeKey a maxUint64) : l.range start none = l := by
  have bounded : ∀ l : Layer, (l.takeWhile fun e => Cursor.inRange none e.1) = l := fun l =>
    takeWhile_eq_self_iff.mpr fun _ _ => rfl
  cases start with
  | none => exact bounded l
  | some a =>
    have sought : SortedMap.seek (encodeKey a maxUint64) l = l :=
      seek_of_head fun e first => high e (mem_of_mem_head? first) a rfl
    simp only [Layer.range, sought, bounded]

/-- Puts a value of a key with a timestamp into a write buffer. -/
def Memtable.putAt (m : Memtable) (k : Key) (t : Nat) : Memtable := m.writeLocked k [] .put t

theorem Memtable.valid_putAt (valid : m.sl.Valid) (within : m.sl.Within K)
    (known : k ∈ K) (fits : t < 2 ^ 64) : (m.putAt k t).sl.Valid ∧ (m.putAt k t).sl.Within K := by
  refine ⟨valid.put fits (by simp), fun v stored => ?_⟩
  rcases (mem_versions_put valid fits).mp stored with rfl | ⟨old, -⟩
  · exact known
  · exact within v old

theorem below_of_right {a : Key} (known : k ∈ K) (fits : t < 2 ^ 64) (low : k < a)
    (right : ∀ db : Db, db.Scannable K → Scan.Right (db.scan (some a) none t) db.stored (some a) none t) :
    encodeKey k t < encodeKey a maxUint64 := by
  by_contra high
  obtain ⟨valid, within⟩ :=
    valid_putAt (m := .new) valid_nil (by simp [Layer.Within, Layer.versions, Memtable.new]) known fits
  obtain ⟨pairs, scanned, -, members⟩ := right _ (scannable_buffered valid within)
  have range : Layer.range (Memtable.new.putAt k t).sl (some a) none = [(encodeKey k t, .put, [])] :=
    range_self (by simpa [Memtable.putAt, Memtable.writeLocked, Memtable.new, SortedMap.put] using high)
  have out : (Db.buffered (Memtable.new.putAt k t)).scan (some a) none t = .ok [(k, [])] := by
    rw [scan_buffered valid, range]
    simp [Scan.collect, Scan.next, Scan.group, decodeKey_encodeKey fits, Except.map]
  obtain rfl := Except.ok.inj (out.symm.trans scanned)
  exact absurd (((members k []).mp (by simp)).1.1 a rfl) (not_le.mpr low)

theorem inside_of_right {k' : Key} {t' : Nat} (known : k ∈ K) (known' : k' ∈ K) (fits : t < 2 ^ 64)
    (fits' : t' < 2 ^ 64) (from_ : ∀ a ∈ start, a ≤ k) (less : k < k')
    (right : ∀ db : Db, db.Scannable K → Scan.Right (db.scan start none (max t t')) db.stored start none (max t t')) :
    encodeKey k t < encodeKey k' t' := by
  by_contra high
  have apart : encodeKey k' t' ≠ encodeKey k t := fun same => less.ne (encodeKey_inj fits' fits same).1.symm
  have reverse : encodeKey k' t' < encodeKey k t := lt_of_le_of_ne (not_lt.mp high) apart
  obtain ⟨valid₁, within₁⟩ :=
    valid_putAt (m := .new) valid_nil (by simp [Layer.Within, Layer.versions, Memtable.new]) known fits
  obtain ⟨valid, within⟩ := valid_putAt valid₁ within₁ known' fits'
  obtain ⟨pairs, scanned, ascending, -⟩ := right _ (scannable_buffered valid within)
  -- Two writes in the wrong order of their encodings.
  have shape : ((Memtable.new.putAt k t).putAt k' t').sl =
      [(encodeKey k' t', .put, []), (encodeKey k t, .put, [])] := by
    simp [Memtable.putAt, Memtable.writeLocked, Memtable.new, SortedMap.put, high, apart.symm]
  have range : Layer.range ((Memtable.new.putAt k t).putAt k' t').sl start none =
      [(encodeKey k' t', .put, []), (encodeKey k t, .put, [])] := by
    rw [← shape]
    refine range_self fun e listed a given => ?_
    rw [shape] at listed
    simp only [mem_cons, not_mem_nil, or_false] at listed
    rcases listed with rfl | rfl
    · exact start_le_encodeKey ((from_ a given).trans less.le) t'
    · exact start_le_encodeKey (from_ a given) t
  have out : (Db.buffered ((Memtable.new.putAt k t).putAt k' t')).scan start none (max t t') =
      .ok [(k', []), (k, [])] := by
    rw [scan_buffered valid, range]
    simp [Scan.collect, Scan.next, Scan.group, decodeKey_encodeKey fits, decodeKey_encodeKey fits', less.ne,
      Except.map]
  obtain rfl := Except.ok.inj (out.symm.trans scanned)
  simp only [map_cons, map_nil, pairwise_cons, mem_singleton, forall_eq] at ascending
  exact lt_asymm less ascending.1

end Scans

/-- Scans yield an ordered map's pairs exactly if the encoding keeps order. -/
theorem scan_right_iff (K : Set Key) (start : Option Key) :
    (∀ (db : Db) (H : Set (Version Key Value)) (floor : Nat), db.Scannable K → Follows floor H db.stored →
      ∀ (end_ : Option Key) (s : Nat), floor ≤ s → s < 2 ^ 64 →
        Scan.Right (db.scan start end_ s) H start end_ s) ↔ KeepsOrder K start := by
  constructor
  · intro right
    have current : ∀ s, s < 2 ^ 64 → ∀ db : Db, db.Scannable K →
        Scan.Right (db.scan start none s) db.stored start none s := fun s fits db scannable =>
      right db db.stored 0 scannable (.refl _ _) none s (Nat.zero_le _) fits
    refine ⟨fun k known k' known' from_ less t t' fits fits' => ?_, fun a given k known low t fits => ?_⟩
    · exact inside_of_right known known' fits fits' from_ less (current _ (max_lt fits fits'))
    · obtain rfl : start = some a := given
      exact below_of_right known fits low (current t fits)
  · intro keeps db H floor scannable follows end_ s above _
    obtain ⟨pairs, scanned, ascending, members⟩ := scannable.scan_right keeps end_ s
    refine ⟨pairs, scanned, ascending, fun k v => ?_⟩
    rw [members, follows.shows_above above]

variable {K : Set Key} {start : Option Key} {db : Db} {H : Set (Version Key Value)} {floor : Nat}

theorem keepsOrder_of_free (free : Free K) (apart : ∀ a ∈ start, ∀ k ∈ K, k < a → ¬ k <+: a) : KeepsOrder K start where
  inside k known k' known' _ less t t' _ _ := by
    refine (append_lt_append_of_not_front (fun front => ?_) fun front => ?_).mpr less
    · exact less.ne (free k known k' known' front)
    · exact less.ne' (free k' known' k known front)
  below a given k known low t _ := by
    refine (append_lt_append_of_not_front (apart a given k known low) fun front => ?_).mpr low
    obtain ⟨rest, rfl⟩ := front
    have longer := (append_lt_append_iff (c := rest) (d := []) (rfl : a.length = a.length)).mp (by simpa using low)
    simp at longer

section

variable (layered : db.Layered K H floor)
include layered

theorem Db.Layered.stored_eq : db.stored = db.versions := by
  have whole : { v | ∃ l ∈ db.layers, v ∈ l.versions } = db.versions := by
    ext v
    simp [layers, layered.frozen, versions, tableVersions, Memtable.versions, Table.versions]
  rw [stored, stackVersions_eq, whole]
  rw [whole]
  exact fun u held w held' => layered.functional u (layered.keeps.sub held) w (layered.keeps.sub held')

theorem Db.Layered.scannable (opened : db.closed = false) : db.Scannable K := by
  have layer : ∀ l ∈ db.layers, l.Valid ∧ ∀ v ∈ l.versions, v ∈ db.versions := by
    intro l listed
    simp only [layers, layered.frozen, Option.toList_none, map_nil, nil_append, mem_cons, mem_map] at listed
    rcases listed with rfl | ⟨t, member, rfl⟩
    · exact ⟨layered.memtable.valid, fun v held => .inl held⟩
    · exact ⟨(layered.tables t member).layer, fun v held => .inr ⟨t, member, held⟩⟩
  exact ⟨opened, fun l listed => (layer l listed).1, fun l listed v held =>
    layered.within v (layered.keeps.sub ((layer l listed).2 v held))⟩

theorem Db.Layered.scan_versions (opened : db.closed = false) (free : Free K)
    (apart : ∀ a ∈ start, ∀ k ∈ K, k < a → ¬ k <+: a) (end_ : Option Key) (s : Nat) :
    Scan.Right (db.scan start end_ s) db.versions start end_ s := by
  rw [← layered.stored_eq]
  exact (layered.scannable opened).scan_right (keepsOrder_of_free free apart) end_ s

theorem Db.Layered.scan_right {s : Nat} {end_ : Option Key}
    (opened : db.closed = false) (free : Free K) (named : [] ∉ K) (apart : ∀ a ∈ start, ∀ k ∈ K, k < a → ¬ k <+: a)
    (above : floor ≤ s) : Scan.Right (db.scan start end_ s) H start end_ s := by
  obtain ⟨pairs, scanned, ascending, members⟩ := layered.scan_versions opened free apart end_ s
  refine ⟨pairs, scanned, ascending, fun k v => ?_⟩
  rw [members, (layered.follows free named).shows_above above]

end

/-- A transaction that puts one value, on top of everything committed. -/
def putOne (db : Db) (k : Key) (v : Value) : Except DbError (Db × List Dir) :=
  db.commit ⟨db.appliedTS, [(k, .put, v)], false, [], 0⟩

/-- After commits of "a" and "ab" every scan goes wrong. -/
theorem scan_out_of_order : ∃ db₁ dirs₁ db₂ dirs₂,
    putOne (Db.fresh ⟨1000, 4⟩) [97] [1] = .ok (db₁, dirs₁) ∧ putOne db₁ [97, 98] [2] = .ok (db₂, dirs₂) ∧
    db₂.get [97] = .ok [1] ∧
    db₂.scan none none 2 = .ok [([97, 98], [2]), ([97], [1])] ∧
    db₂.scan (some [97, 98]) none 2 = .ok [([97, 98], [2]), ([97], [1])] ∧
    db₂.scan none (some [97, 98]) 2 = .ok [] ∧
    ¬ Scan.Right (db₂.scan none none 2) db₂.stored none none 2 := by
  have run : (match putOne (Db.fresh ⟨1000, 4⟩) [97] [1] with
      | .ok (db₁, _) =>
        match putOne db₁ [97, 98] [2] with
        | .ok (db₂, _) =>
          decide (db₂.get [97] = .ok [1] ∧
            db₂.scan none none 2 = .ok [([97, 98], [2]), ([97], [1])] ∧
            db₂.scan (some [97, 98]) none 2 = .ok [([97, 98], [2]), ([97], [1])] ∧
            db₂.scan none (some [97, 98]) 2 = .ok [])
        | .error _ => false
      | .error _ => false) = true := by rfl
  split at run
  · next db₁ dirs₁ first =>
    split at run
    · next db₂ dirs₂ second =>
      obtain ⟨read, all, from_, before⟩ := of_decide_eq_true run
      refine ⟨db₁, dirs₁, db₂, dirs₂, first, second, read, all, from_, before, ?_⟩
      rintro ⟨pairs, scanned, ascending, -⟩
      obtain rfl := Except.ok.inj (all.symm.trans scanned)
      exact absurd ascending (by decide)
    · cases run
  · cases run

/-- A scan at the timestamp before the next one. -/
def Db.scanNow (db : Db) (start end_ : Option Key) : Except ScanError (List (Key × Value)) :=
  db.scan start end_ (db.nextTimestamp - 1)

/--
A scan at the applied timestamp yields the commits on record, whatever is under way.

So does a scan of the present, unless a commit is being written.
-/
theorem Engine.scans_committed {s : Engine} {past : List Engine} {events : List Event} (free : Free K)
    (named : [] ∉ K) (sound : db.Sound K) (run : Run.Reach step (fun s a => s.Fine K a) (new db) s past events)
    (start end_ : Option Key) (apart : ∀ a ∈ start, ∀ k ∈ K, k < a → ¬ k <+: a) :
    ∃ pairs, s.db.scan start end_ s.db.appliedTS = .ok pairs ∧ (pairs.map Prod.fst).Pairwise (· < ·) ∧
      (∀ k v, (k, v) ∈ pairs ↔ InRange start end_ k ∧ some v = valueOf db.value k events) ∧
      (s.writer = none → s.db.scanNow start end_ = .ok pairs) := by
  obtain ⟨H, floor, layered, low, applied⟩ := sound.layered
  have agrees := layered.agrees sound.up sound.clock sound.range low applied free named
  have inv : Inv K H db.value s events := by
    refine run.invariant (P := fun s _ events => Inv K H db.value s events)
      (inv_new sound.up sound.clock sound.range layered low applied agrees) ?_
    exact fun _ _ _ _ _ _ _ fine moved inv => inv.step fine moved
  obtain ⟨floor', layered', below⟩ := inv.layered
  obtain ⟨pairs, scanned, ascending, members⟩ : Scan.Right (s.db.scan start end_ s.db.appliedTS) _ start end_ _ :=
    layered'.scan_right inv.up free named apart below.1
  refine ⟨pairs, scanned, ascending, fun k v => ?_, fun still => by rw [Db.scanNow, inv.clock still]; exact scanned⟩
  -- What the commit under way has written is newer than the applied timestamp.
  have later : ∀ v ∈ s.inFlight, s.db.appliedTS < v.ts := by
    unfold inFlight
    cases writing : s.writer with
    | none => simp
    | some c =>
      rintro v ⟨e, _, rfl⟩
      exact (inv.writing c writing).1 ▸ Nat.lt_succ_self _
  rw [members, written, inv.agrees.later later]

/-- After two overlapping transactions the key has the value of the second. -/
theorem Engine.scans_committed_overlap : ∃ s past events pairs, Run.Reach step (fun s a => s.Fine oneByte a)
    (new (Db.fresh ⟨0, 0⟩)) s past events ∧ s.db.scan none none s.db.appliedTS = .ok pairs ∧ ([97], [2]) ∈ pairs := by
  obtain ⟨s, past, events, run, passed⟩ := Run.exec_exists step fineCheck (new (Db.fresh ⟨0, 0⟩)) overlap
    (fun r => decide (some [2] = valueOf (Db.fresh ⟨0, 0⟩).value [97] r.2.2)) (by rfl)
  have fine := run.weaken fun s a passed => fine_of_check passed
  obtain ⟨pairs, scanned, -, members, -⟩ := scans_committed free_oneByte (by simp [oneByte])
    (sound_fresh ⟨0, 0⟩ oneByte) fine none none (by simp)
  exact ⟨s, past, events, pairs, fine, scanned, (members _ _).mpr ⟨by simp [InRange], of_decide_eq_true passed⟩⟩

end Store
