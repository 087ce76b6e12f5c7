import LittleDb.Store.Memtable
import LittleDb.Store.Skiplist

/-! The write buffer over the skip list itself: it does what the sorted layer of versions does. -/

namespace Store

open List Option SortedMap

/-- The operation byte in front of the value. -/
def encodeValue (op : Op) (value : Value) : Value := op.toByte :: value

def decodeValue : Value → UInt8 × Value
  | [] => (0, [])
  | op :: raw => (op, raw)

structure SkipMemtable where
  sl : Skiplist
  size : Int

namespace SkipMemtable

def new : SkipMemtable := ⟨.new, 0⟩

/-- Writes one version; nothing if the skip list were to go outside a node. -/
def writeLocked (m : SkipMemtable) (userKey : Key) (value : Value) (op : Op) (ts : Nat) (flips : List Bool) :
    Option SkipMemtable := do
  let enc := encodeKey userKey ts
  let stored := encodeValue op value
  let size :=
    match ← m.sl.get enc with
    | some old => m.size - (enc.length + old.length + entryOverhead)
    | none => m.size
  let sl ← m.sl.put enc stored flips
  some ⟨sl, size + (enc.length + stored.length + entryOverhead)⟩

/-- What a seek for a user key lands on: its timestamp and what is stored. -/
def seekKey (m : SkipMemtable) (userKey : Key) (snapshot : Nat) : Option (Option (Nat × Value)) := do
  let found ← m.sl.seekGE (encodeKey userKey snapshot)
  some (found.bind fun a => (decodeKey (m.sl.nodes a).key).bind fun (k, ts) =>
    if k = userKey then some (ts, (m.sl.nodes a).value) else none)

def getAsOf (m : SkipMemtable) (userKey : Key) (snapshot : Nat) : Option (Option (Op × Value)) :=
  (m.seekKey userKey snapshot).map (Option.map fun (_, stored) =>
    if (decodeValue stored).1 = Op.delete.toByte then (.delete, []) else (.put, (decodeValue stored).2))

def newestVersionTS (m : SkipMemtable) (userKey : Key) : Option (Option Nat) :=
  (m.seekKey userKey maxUint64).map (Option.map Prod.fst)

def len (m : SkipMemtable) : Nat := m.sl.len

/-- The skip list holds the layer's versions, each as its stored bytes. -/
structure Represents (raw : SkipMemtable) (m : Memtable) : Prop where
  entries : ∃ order, raw.sl.Holds order ∧
    order.map raw.sl.entry = m.sl.map (Prod.map id fun p => encodeValue p.1 p.2)
  size : raw.size = m.size

variable {raw : SkipMemtable} {m : Memtable}

theorem represents_new : new.Represents Memtable.new := ⟨⟨[], .empty, rfl⟩, rfl⟩

namespace Represents

section

variable (rep : raw.Represents m)
include rep

theorem writeLocked (k : Key) (value : Value) (op : Op) (ts : Nat) (flips : List Bool) :
    ∃ raw', raw.writeLocked k value op ts flips = some raw' ∧ raw'.Represents (m.writeLocked k value op ts) := by
  obtain ⟨order, holds, entries⟩ := rep.entries
  obtain ⟨sl', order', put, holds', entries'⟩ := holds.put (encodeKey k ts) (encodeValue op value) flips
  rw [entries, put_map (fun p : Op × Value => encodeValue p.1 p.2) _ (op, value)] at entries'
  rw [SkipMemtable.writeLocked, holds.get, entries, SortedMap.get_map, put]
  refine ⟨_, rfl, ⟨order', holds', entries'⟩, ?_⟩
  simp only [Memtable.writeLocked, Memtable.entrySize, rep.size]
  cases SortedMap.get (encodeKey k ts) m.sl with
  | none =>
    simp only [map_none, encodeValue, length_cons]
    omega
  | some old =>
    simp only [map_some, encodeValue, length_cons]
    omega

theorem seekKey (k : Key) (s : Nat) : raw.seekKey k s =
    some ((SortedMap.seek (encodeKey k s) m.sl).head?.bind fun e => (decodeKey e.1).bind fun p =>
      if p.1 = k then some (p.2, encodeValue e.2.1 e.2.2) else none) := by
  obtain ⟨order, holds, entries⟩ := rep.entries
  have lands := holds.seekGE (encodeKey k s) 0
  rw [entries, seek_map, ← head?_eq_getElem?, head?_map] at lands
  rw [SkipMemtable.seekKey]
  cases found : raw.sl.seekGE (encodeKey k s) with
  | none => simp [found] at lands
  | some a =>
    simp only [found, Skiplist.forward, bind_some, map_some, Option.some.injEq] at lands
    cases front : (SortedMap.seek (encodeKey k s) m.sl).head? with
    | none => simp_all
    | some e =>
      rw [front] at lands
      cases a with
      | none => cases lands
      | some a =>
        simp only [map_some, Option.some.injEq, Skiplist.entry, Prod.map, id] at lands
        simp [(Prod.mk.inj lands).1, (Prod.mk.inj lands).2]

theorem getAsOf (k : Key) (s : Nat) : raw.getAsOf k s = some (m.getAsOf k s) := by
  rw [SkipMemtable.getAsOf, rep.seekKey, Memtable.getAsOf, Layer.getAsOf]
  cases SortedMap.seek (encodeKey k s) m.sl with
  | nil => rfl
  | cons e rest =>
    obtain ⟨enc, op, value⟩ := e
    cases decoded : decodeKey enc with
    | none => simp [decoded]
    | some p =>
      by_cases same : p.1 = k
      · cases op <;> simp [decoded, same, encodeValue, decodeValue, Op.toByte]
      · simp [decoded, same]

theorem newestVersionTS (k : Key) : raw.newestVersionTS k = some (m.newestVersionTS k) := by
  rw [SkipMemtable.newestVersionTS, rep.seekKey, Memtable.newestVersionTS, Layer.newestVersionTS]
  cases SortedMap.seek (encodeKey k maxUint64) m.sl with
  | nil => rfl
  | cons e rest =>
    cases decoded : decodeKey e.1 with
    | none => simp [decoded]
    | some p => by_cases same : p.1 = k <;> simp [decoded, same]

theorem len : raw.len = m.len := by
  obtain ⟨order, holds, entries⟩ := rep.entries
  have count := congrArg List.length entries
  rw [length_map, length_map] at count
  exact holds.count.trans count

theorem run (writes : List (Record × List Bool)) : ∃ raw',
    writes.foldlM (fun m w => m.writeLocked w.1.key w.1.value w.1.op w.1.timestamp w.2) raw = some raw' ∧
      raw'.Represents (writes.foldl (fun m w => m.writeLocked w.1.key w.1.value w.1.op w.1.timestamp) m) := by
  induction writes generalizing raw m with
  | nil => exact ⟨raw, rfl, rep⟩
  | cons w writes ih =>
    obtain ⟨raw₁, first, rep₁⟩ := rep.writeLocked w.1.key w.1.value w.1.op w.1.timestamp w.2
    obtain ⟨raw', rest, rep'⟩ := ih rep₁
    exact ⟨raw', by rw [foldlM_cons, first]; exact rest, rep'⟩

end

end Represents

end SkipMemtable

/-- The buffer over a skip list, with any coins, refines the layer. -/
theorem SkipMemtable.refines_memtable (writes : List (Record × List Bool)) :
    let m := writes.foldl (fun m w => m.writeLocked w.1.key w.1.value w.1.op w.1.timestamp) Memtable.new
    ∃ raw, writes.foldlM (fun m w => m.writeLocked w.1.key w.1.value w.1.op w.1.timestamp w.2) new = some raw ∧
      (∀ k s, raw.getAsOf k s = some (m.getAsOf k s)) ∧ (∀ k, raw.newestVersionTS k = some (m.newestVersionTS k)) ∧
      raw.len = m.len ∧ raw.size = m.size := by
  obtain ⟨raw, done, rep⟩ := represents_new.run writes
  exact ⟨raw, done, rep.getAsOf, rep.newestVersionTS, rep.len, rep.size⟩

end Store
