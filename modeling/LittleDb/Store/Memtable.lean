import LittleDb.Store.MvccKey

/-! The in-memory write buffer: a sorted layer of versions with size accounting and freezing. -/

namespace Store

open Layer SortedMap

namespace Layer

theorem Valid.put {l : Layer} {k : Key} {t : Nat} {op : Op} {value : Value} (valid : l.Valid) (fits : t < 2 ^ 64)
    (data : op ≠ .commit) : Valid (SortedMap.put (encodeKey k t) (op, value) l) where
  sorted := sorted_put valid.sorted
  encoded e within := by
    rcases (mem_put valid.sorted).mp within with rfl | ⟨old, _⟩
    · exact ⟨k, t, fits, rfl⟩
    · exact valid.encoded e old
  data e within := by
    rcases (mem_put valid.sorted).mp within with rfl | ⟨old, _⟩
    · exact data
    · exact valid.data e old

theorem mem_versions_put {l : Layer} {k : Key} {t : Nat} {op : Op} {value : Value} (valid : l.Valid)
    (fits : t < 2 ^ 64) {v : Version Key Value} : v ∈ versions (SortedMap.put (encodeKey k t) (op, value) l) ↔
    v = ⟨k, t, Store.payload op value⟩ ∨ (v ∈ l.versions ∧ ¬ (v.key = k ∧ v.ts = t)) := by
  constructor
  · rintro ⟨vFits, op', value', within, load⟩
    rcases (mem_put valid.sorted).mp within with new | ⟨old, other⟩
    · simp only [Prod.mk.injEq] at new
      obtain ⟨enc, rfl, rfl⟩ := new
      obtain ⟨key, ts⟩ := encodeKey_inj vFits fits enc
      exact .inl (Version.ext key ts load)
    · refine .inr ⟨⟨vFits, op', value', old, load⟩, ?_⟩
      rintro ⟨rfl, rfl⟩
      exact other rfl
  · rintro (rfl | ⟨⟨vFits, op', value', old, load⟩, other⟩)
    · exact ⟨fits, op, value, (mem_put valid.sorted).mpr (.inl rfl), rfl⟩
    · refine ⟨vFits, op', value', (mem_put valid.sorted).mpr (.inr ⟨old, ?_⟩), load⟩
      exact fun enc => other (encodeKey_inj vFits fits enc)

end Layer

def entryOverhead : Int := 64

structure Memtable where
  /-- The skip list: encoded keys in order, with the operation and the value. -/
  sl : Layer
  size : Int
  frozen : Bool

namespace Memtable

def new : Memtable := ⟨[], 0, false⟩

/-- The accounted size of an entry: key, operation byte, value and overhead. -/
def entrySize (enc : List UInt8) (value : Value) : Int :=
  enc.length + (1 + value.length) + entryOverhead

/-- Writes one version, correcting the size for a version it replaces. -/
def writeLocked (m : Memtable) (userKey : Key) (value : Value) (op : Op) (ts : Nat) : Memtable :=
  let enc := encodeKey userKey ts
  let size :=
    match SortedMap.get enc m.sl with
    | some (_, old) => m.size - entrySize enc old
    | none => m.size
  { m with sl := SortedMap.put enc (op, value) m.sl, size := size + entrySize enc value }

def put (m : Memtable) (userKey : Key) (value : Value) (ts : Nat) : Option Memtable :=
  if m.frozen then none else some (m.writeLocked userKey value .put ts)

def delete (m : Memtable) (userKey : Key) (ts : Nat) : Option Memtable :=
  if m.frozen then none else some (m.writeLocked userKey [] .delete ts)

def getAsOf (m : Memtable) (userKey : Key) (snapshot : Nat) : Option (Op × Value) :=
  m.sl.getAsOf userKey snapshot

def newestVersionTS (m : Memtable) (userKey : Key) : Option Nat := m.sl.newestVersionTS userKey

def len (m : Memtable) : Nat := m.sl.length

def freeze (m : Memtable) : Memtable := { m with frozen := true }

def versions (m : Memtable) : Set (Version Key Value) := m.sl.versions

/-- The write of one data record; a commit marker writes nothing. -/
def apply (m : Memtable) (r : Record) : Option Memtable :=
  match r.op with
  | .put => m.put r.key r.value r.timestamp
  | .delete => m.delete r.key r.timestamp
  | .commit => some m

end Memtable

def Record.version (r : Record) : Version Key Value := ⟨r.key, r.timestamp, payload r.op r.value⟩

namespace Memtable

/-- A buffer the write path can build: open, with a valid layer. -/
structure Open (m : Memtable) : Prop where
  writable : m.frozen = false
  valid : m.sl.Valid

theorem open_new : new.Open := ⟨rfl, valid_nil⟩

@[simp] theorem versions_new : new.versions = ∅ := by
  ext v
  simp [versions, new, Layer.versions]

theorem Open.apply {m : Memtable} {r : Record} (ready : m.Open) (fits : r.timestamp < 2 ^ 64)
    (data : r.op ≠ .commit) : ∃ m', m.apply r = some m' ∧ m'.Open ∧ ∀ v, v ∈ m'.versions ↔ v = r.version ∨
    (v ∈ m.versions ∧ ¬ (v.key = r.key ∧ v.ts = r.timestamp)) := by
  obtain ⟨op, t, k, value⟩ := r
  cases op with
  | put =>
    refine ⟨m.writeLocked k value .put t, by simp [Memtable.apply, Memtable.put, ready.writable],
      ⟨ready.writable, ready.valid.put fits data⟩, fun v => ?_⟩
    exact mem_versions_put ready.valid fits
  | delete =>
    refine ⟨m.writeLocked k [] .delete t, by simp [Memtable.apply, Memtable.delete, ready.writable],
      ⟨ready.writable, ready.valid.put fits data⟩, fun v => ?_⟩
    exact mem_versions_put ready.valid fits
  | commit => exact absurd rfl data

end Memtable

end Store
