import LittleDb.Lib.Run
import LittleDb.Store.Table

/-! Point reads of a write buffer and of its table: when the version looked for is the one found. -/

namespace Store

open Versioned List Layer Memtable

/-- The last of some writes for a key and a timestamp. -/
def lastWrite (rs : List Record) (k : Key) (ts : Nat) : Option Record :=
  rs.reverse.find? fun r => r.key = k ∧ r.timestamp = ts

/-- What a read returns for a write it finds. -/
def Record.answer (r : Record) : Op × Value := if r.op = .delete then (.delete, []) else (.put, r.value)

/-- The newest write of exactly this key up to the snapshot, if there is one. -/
def Finds (rs : List Record) (k : Key) (s : Nat) (found : Option (Op × Value)) : Prop :=
  (∃ r, lastWrite rs k r.timestamp = some r ∧ r.timestamp ≤ s ∧
    (∀ r' ∈ rs, r'.key = k → r'.timestamp ≤ s → r'.timestamp ≤ r.timestamp) ∧ found = some r.answer) ∨
  (found = none ∧ ∀ r ∈ rs, r.key = k → s < r.timestamp)

/-- Another key's version is encoded between a snapshot and what it sees. -/
def Screened (rs : List Record) (k : Key) (s : Nat) : Prop :=
  (∃ r ∈ rs, r.key = k ∧ r.timestamp ≤ s) ∧
    ∃ u ∈ rs, u.key ≠ k ∧ encodeKey k s ≤ encodeKey u.key u.timestamp ∧
      ∀ r ∈ rs, r.key = k → r.timestamp ≤ s → encodeKey u.key u.timestamp < encodeKey k r.timestamp

variable {rs : List Record} {k : Key} {r : Record}

theorem lastWrite_some {ts : Nat} (found : lastWrite rs k ts = some r) : r ∈ rs ∧ r.key = k ∧ r.timestamp = ts := by
  refine ⟨mem_reverse.mp (mem_of_find?_eq_some found), ?_⟩
  simpa using find?_some found

theorem exists_lastWrite (listed : r ∈ rs) : ∃ last, lastWrite rs r.key r.timestamp = some last := by
  refine Option.isSome_iff_exists.mp (find?_isSome.mpr ⟨r, mem_reverse.mpr listed, ?_⟩)
  simp

theorem lastWrite_snoc (rs : List Record) (r : Record) (k : Key) (ts : Nat) :
    lastWrite (rs ++ [r]) k ts = if r.key = k ∧ r.timestamp = ts then some r else lastWrite rs k ts := by
  rw [lastWrite, reverse_append, reverse_singleton, singleton_append, find?_cons]
  by_cases here : r.key = k ∧ r.timestamp = ts
  · simp [here]
  · rw [if_neg here]
    simp [here, lastWrite]

theorem Memtable.write_versions (data : ∀ r ∈ rs, r.timestamp < 2 ^ 64 ∧ r.op ≠ .commit) :
    ∃ m, rs.foldlM Memtable.apply Memtable.new = some m ∧ m.Open ∧
      ∀ v, v ∈ m.versions ↔ ∃ r, lastWrite rs v.key v.ts = some r ∧ v = r.version := by
  induction rs using List.reverseRecOn with
  | nil => exact ⟨.new, rfl, open_new, by simp [lastWrite]⟩
  | append_singleton rs r ih =>
    obtain ⟨m, written, ready, content⟩ := ih fun r' listed => data r' (by simp [listed])
    obtain ⟨fits, kind⟩ := data r (by simp)
    obtain ⟨m', applied, ready', content'⟩ := ready.apply fits kind
    refine ⟨m', by simp [foldlM_append, written, applied], ready', fun v => ?_⟩
    rw [content', content, lastWrite_snoc]
    by_cases here : r.key = v.key ∧ r.timestamp = v.ts
    · rw [if_pos here]
      constructor
      · rintro (same | ⟨-, other⟩)
        · exact ⟨r, rfl, same⟩
        · exact absurd ⟨here.1.symm, here.2.symm⟩ other
      · rintro ⟨r', found, same⟩
        exact .inl (Option.some.inj found ▸ same)
    · have other : ¬ (v.key = r.key ∧ v.ts = r.timestamp) := fun same => here ⟨same.1.symm, same.2.symm⟩
      have new : v ≠ r.version := fun same => other (by rw [same]; exact ⟨rfl, rfl⟩)
      rw [if_neg here]
      simp [other, new]

section Reads

variable {l : Layer} {s : Nat}

theorem exists_version (content : ∀ v, v ∈ l.versions ↔ ∃ r, lastWrite rs v.key v.ts = some r ∧ v = r.version)
    {r : Record} (listed : r ∈ rs) : ∃ v ∈ l.versions, v.key = r.key ∧ v.ts = r.timestamp := by
  obtain ⟨last, found⟩ := exists_lastWrite listed
  obtain ⟨-, key, ts⟩ := lastWrite_some found
  refine ⟨last.version, (content _).mpr ⟨last, ?_, rfl⟩, key, ts⟩
  change lastWrite rs last.key last.timestamp = some last
  rwa [key, ts]

theorem Layer.Valid.finds_iff (valid : l.Valid) (data : ∀ r ∈ rs, r.op ≠ .commit)
    (content : ∀ v, v ∈ l.versions ↔ ∃ r, lastWrite rs v.key v.ts = some r ∧ v = r.version)
    (fits : s < 2 ^ 64) : Finds rs k s (l.getAsOf k s) ↔ ¬ Screened rs k s := by
  by_cases some_version : ∃ w ∈ l.versions, w.key = k ∧ w.ts ≤ s
  · obtain ⟨w, stored, key, below⟩ := some_version
    obtain ⟨v, visible⟩ := exists_visible stored key below
    obtain ⟨r, last, same⟩ := (content v).mp visible.stored
    obtain ⟨listed, rKey, rTs⟩ := lastWrite_some last
    rw [visible.key] at rKey
    -- The visible version is the write that a right answer names.
    have newest : ∀ r' ∈ rs, r'.key = k → r'.timestamp ≤ s → r'.timestamp ≤ v.ts := by
      intro r' inside rKey' rBelow
      obtain ⟨u, held, uKey, uTs⟩ := exists_version content inside
      have bound := visible.newest u held (uKey.trans rKey') (uTs ▸ rBelow)
      omega
    constructor
    · rintro (⟨r', last', below', top', right⟩ | ⟨-, none⟩) ⟨-, u, uIn, other, low, high⟩
      · obtain ⟨x, held, xKey, xTs⟩ := exists_version content uIn
        have missed := getAsOf_screened valid visible held (by rw [xKey, xTs]; exact low)
          (by rw [xKey, xTs, ← rTs]; exact high r listed rKey (rTs ▸ visible.below)) fits
        rw [missed] at right
        cases right
      · have late := none r listed rKey
        have bound := visible.below
        omega
    · intro open_
      refine .inl ⟨r, by rw [rTs, ← visible.key]; exact last, rTs ▸ visible.below,
        fun r' inside rKey' rBelow => rTs ▸ newest r' inside rKey' rBelow, ?_⟩
      have found := getAsOf_clear valid fits visible fun u held low high => by
        -- An entry of another key before it would screen the key.
        by_contra other
        obtain ⟨x, xLast, rfl⟩ := (content u).mp held
        obtain ⟨xIn, -, -⟩ := lastWrite_some xLast
        refine open_ ⟨⟨r, listed, rKey, rTs ▸ visible.below⟩, x, xIn, other, low, fun r' inside rKey' rBelow => ?_⟩
        refine lt_of_lt_of_le high (not_lt.mp ?_)
        obtain ⟨y, yHeld, -, yTs⟩ := exists_version content inside
        rw [encodeKey_lt_iff (yTs ▸ yHeld.1) visible.stored.1]
        exact not_lt.mpr (newest r' inside rKey' rBelow)
      rw [found, same, Layer.answer, Record.answer, Record.version]
      have kind := data r listed
      cases op : r.op <;> simp_all [payload]
  · have missing : ∀ w ∈ l.versions, w.key = k → s < w.ts := by
      intro w stored key
      by_contra low
      exact some_version ⟨w, stored, key, not_lt.mp low⟩
    have late : ∀ r ∈ rs, r.key = k → s < r.timestamp := by
      intro r listed key
      obtain ⟨v, stored, vKey, vTs⟩ := exists_version content listed
      exact vTs ▸ missing v stored (vKey.trans key)
    refine iff_of_true (.inr ⟨getAsOf_none valid fits missing, late⟩) ?_
    rintro ⟨⟨r, listed, key, below⟩, -⟩
    exact absurd below (not_le.mpr (late r listed key))

end Reads

theorem Memtable.write_flushed (data : ∀ r ∈ rs, r.timestamp < 2 ^ 64 ∧ r.op ≠ .commit) (applied : Nat) :
    ∃ m t, rs.foldlM Memtable.apply Memtable.new = some m ∧ m.Open ∧
      Table.write m.freeze.sl.items m.freeze.len applied = .ok t ∧ t.Valid ∧ t.entries = m.sl ∧
      ∀ v, v ∈ m.versions ↔ ∃ r, lastWrite rs v.key v.ts = some r ∧ v = r.version := by
  obtain ⟨m, written, ready, content⟩ := write_versions data
  obtain ⟨t, flushed, valid, entries, -⟩ := Table.write_ok m.freeze.len applied
    ready.valid.ascending_items ready.valid.data_items
  rw [ready.valid.map_items] at entries
  exact ⟨m, t, written, ready, flushed, valid, entries, content⟩

/--
Point reads find the right version exactly when no other key screens it.

This covers any writes with any keys and timestamps, in the write buffer and in the table it is flushed to.
-/
theorem point_read_iff {rs : List Record} (data : ∀ r ∈ rs, r.timestamp < 2 ^ 64 ∧ r.op ≠ .commit)
    (applied : Nat) (k : Key) {s : Nat} (fits : s < 2 ^ 64) :
    ∃ m t, rs.foldlM Memtable.apply Memtable.new = some m ∧
      Table.write m.freeze.sl.items m.freeze.len applied = .ok t ∧
      (Finds rs k s (m.getAsOf k s) ∧ Finds rs k s (t.getAsOf k s) ↔ ¬ Screened rs k s) := by
  obtain ⟨m, t, written, ready, flushed, valid, entries, content⟩ := write_flushed data applied
  have kinds : ∀ r ∈ rs, r.op ≠ .commit := fun r listed => (data r listed).2
  refine ⟨m, t, written, flushed, ?_⟩
  rw [valid.getAsOf_eq k fits, entries, Memtable.getAsOf, ready.valid.finds_iff kinds content fits, and_self]

theorem not_screened {K : Set Key} (free : Free K) (within : ∀ r ∈ rs, r.key ∈ K) {s : Nat} : ¬ Screened rs k s := by
  rintro ⟨⟨r, listed, rfl, below⟩, u, uIn, other, low, high⟩
  exact other (key_of_between free (within r listed) (within u uIn) (not_lt.mpr low)
    (not_lt.mpr (high r listed rfl below).le))

/-- Two writes of a key with a third of an unrelated key. -/
def threeWrites : List Record := [⟨.put, 1, [97], [1]⟩, ⟨.put, 2, [98], [2]⟩, ⟨.delete, 3, [97], []⟩]

/-- The older value is read at a snapshot between the two. -/
theorem point_read_iff_older : ∃ m t, threeWrites.foldlM Memtable.apply Memtable.new = some m ∧
    Table.write m.freeze.sl.items m.freeze.len 0 = .ok t ∧
    Finds threeWrites [97] 2 (m.getAsOf [97] 2) ∧ Finds threeWrites [97] 2 (t.getAsOf [97] 2) := by
  have writes : ∀ r ∈ threeWrites, r.timestamp < 2 ^ 64 ∧ r.op ≠ .commit := by simp [threeWrites]
  obtain ⟨m, t, written, flushed, iff⟩ := point_read_iff writes 0 [97]
    (show 2 < 2 ^ 64 by decide)
  have free : Free { k | k.length = 1 } := fun a one b one' front => front.eq_of_length (one.trans one'.symm)
  exact ⟨m, t, written, flushed, iff.mpr (not_screened free (by simp [threeWrites]))⟩

/-- A key, and one extending it to between two of its timestamps. -/
def screenedWrites : List Record :=
  [⟨.put, 1, [97], [1]⟩, ⟨.put, 2, [97, 255, 255, 255, 255, 255, 255, 255, 253], [2]⟩]

/-- The shorter key's value is not found at a snapshot behind both. -/
theorem point_read_screened : ∃ m t, screenedWrites.foldlM Memtable.apply Memtable.new = some m ∧
    Table.write m.freeze.sl.items m.freeze.len 0 = .ok t ∧
    m.getAsOf [97] 2 = none ∧ t.getAsOf [97] 2 = none ∧
    ¬ Finds screenedWrites [97] 2 none := by
  have writes : ∀ r ∈ screenedWrites, r.timestamp < 2 ^ 64 ∧ r.op ≠ .commit := by simp [screenedWrites]
  obtain ⟨m, t, written, -, flushed, -⟩ := write_flushed writes 0
  have missed : ((screenedWrites.foldlM Memtable.apply Memtable.new).any fun m =>
      Run.passes (fun t => decide (m.getAsOf [97] 2 = none ∧ t.getAsOf [97] 2 = none))
        (Table.write m.freeze.sl.items m.freeze.len 0)) = true := by
    rfl
  rw [written, Option.any_some, flushed] at missed
  obtain ⟨missing, missing'⟩ := of_decide_eq_true missed
  refine ⟨m, t, written, flushed, missing, missing', ?_⟩
  rintro (⟨r, -, -, -, none⟩ | ⟨-, late⟩)
  · cases none
  · have first := late ⟨.put, 1, [97], [1]⟩ (by simp [screenedWrites]) rfl
    exact absurd first (by decide)

end Store
