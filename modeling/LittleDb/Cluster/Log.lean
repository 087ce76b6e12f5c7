import Mathlib.Data.List.Basic

/-! The in-memory Raft log of a node, with its compaction base. -/

namespace Cluster

abbrev NodeID := Nat

inductive EntryKind where
  | data
  | config
  deriving DecidableEq, Repr

/-- One log entry: the term it was created in, its kind and payload. -/
structure Entry where
  /-- The term of the leader that created the entry. -/
  term : Nat
  /-- Whether the payload is a transaction or a voter set. -/
  kind : EntryKind
  data : List UInt8
  deriving DecidableEq, Repr

/--
A 1-based log whose entries up to the base index have been compacted away.

The entry at list position zero has the index after the base.
-/
structure RaftLog where
  /-- The highest compacted index, zero for a fresh log. -/
  baseIndex : Nat := 0
  /-- The term of the entry at the base index. -/
  baseTerm : Nat := 0
  entries : List Entry := []
  deriving DecidableEq, Repr

namespace RaftLog

def lastIndex (l : RaftLog) : Nat :=
  l.baseIndex + l.entries.length

/-- The entry at an index above the base, or none where it would be out of range. -/
def entryAt (l : RaftLog) (idx : Nat) : Option Entry :=
  if idx ≤ l.baseIndex then none else l.entries[idx - l.baseIndex - 1]?

/-- The term at an index, or none where the source panics. -/
def term (l : RaftLog) (idx : Nat) : Option Nat :=
  if idx = l.baseIndex then some l.baseTerm else (l.entryAt idx).map Entry.term

/-- The term of the last entry, or the base term. -/
def lastTerm (l : RaftLog) : Nat :=
  -- The last index is always present, so this reading cannot panic.
  (l.entries.getLast?.map Entry.term).getD l.baseTerm

def append (l : RaftLog) (e : Entry) : RaftLog :=
  { l with entries := l.entries ++ [e] }

/-- Drops the entries from an index on, unless compacted or past the end. -/
def truncateFrom (l : RaftLog) (idx : Nat) : RaftLog :=
  if idx ≤ l.baseIndex then l
  else if idx ≤ l.lastIndex then { l with entries := l.entries.take (idx - l.baseIndex - 1) }
  else l

/-- Whether the log is consistent with a leader's previous index and term. -/
def matchesPrev (l : RaftLog) (prevLogIndex prevLogTerm : Nat) : Bool :=
  -- Compacted entries are committed, so agreement there is taken for granted.
  if prevLogIndex < l.baseIndex then true
  else if prevLogIndex = l.baseIndex then decide (prevLogTerm = l.baseTerm)
  else decide (prevLogIndex ≤ l.lastIndex) && decide (l.term prevLogIndex = some prevLogTerm)

/-- Discards the entries up to a new base that the log holds. -/
def compactTo (l : RaftLog) (newBaseIndex newBaseTerm : Nat) : RaftLog :=
  if newBaseIndex ≤ l.baseIndex ∨ l.lastIndex < newBaseIndex then l
  else { baseIndex := newBaseIndex, baseTerm := newBaseTerm,
         entries := l.entries.drop (newBaseIndex - l.baseIndex) }

/-- Discards all entries and installs a base the log need not hold. -/
def resetToBase (newBaseIndex newBaseTerm : Nat) : RaftLog :=
  { baseIndex := newBaseIndex, baseTerm := newBaseTerm, entries := [] }

def entriesAfter (l : RaftLog) (idx : Nat) : List Entry :=
  l.entries.drop (idx - l.baseIndex)

/-- The last configuration entry above the base up to an index, with its index. -/
def latestConfig (l : RaftLog) : Nat → Option (Nat × Entry)
  | 0 => none
  | idx + 1 =>
    -- The source walks down to the base and stops at the first configuration entry.
    if idx + 1 ≤ l.baseIndex then none
    else match l.entryAt (idx + 1) with
      | some e => if e.kind = .config then some (idx + 1, e) else l.latestConfig idx
      | none => l.latestConfig idx

@[simp] theorem lastIndex_append (l : RaftLog) (e : Entry) : (l.append e).lastIndex = l.lastIndex + 1 := by
  simp [lastIndex, append]
  omega

@[simp] theorem baseIndex_append (l : RaftLog) (e : Entry) : (l.append e).baseIndex = l.baseIndex := rfl

@[simp] theorem baseIndex_truncateFrom (l : RaftLog) (idx : Nat) : (l.truncateFrom idx).baseIndex = l.baseIndex := by
  unfold truncateFrom
  split_ifs <;> rfl

@[simp] theorem lastIndex_compactTo (l : RaftLog) (newBaseIndex newBaseTerm : Nat) :
    (l.compactTo newBaseIndex newBaseTerm).lastIndex = l.lastIndex := by
  unfold compactTo
  split_ifs with outside
  · rfl
  · simp only [lastIndex, List.length_drop] at outside ⊢
    omega

theorem latestConfig_compactTo (l : RaftLog) (base t idx : Nat) :
    (l.compactTo base t).latestConfig idx = none ∨ (l.compactTo base t).latestConfig idx = l.latestConfig idx := by
  unfold compactTo
  split_ifs with outside
  · exact .inr rfl
  · -- Above the new base both walks meet the same entries.
    induction idx with
    | zero => exact .inl rfl
    | succ idx ih =>
      unfold latestConfig
      by_cases low : idx + 1 ≤ base
      · exact .inl (if_pos low)
      · have entry : entryAt ⟨base, t, l.entries.drop (base - l.baseIndex)⟩ (idx + 1) = l.entryAt (idx + 1) := by
          rw [entryAt, entryAt, if_neg low, if_neg (by omega), List.getElem?_drop]
          congr 1
          dsimp only
          omega
        rw [if_neg low, if_neg (by omega), entry]
        split
        · split_ifs
          · exact .inr rfl
          · exact ih
        · exact ih

end RaftLog

end Cluster
