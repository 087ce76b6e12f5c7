import LittleDb.Store.Batch

/-! The database that a shipped snapshot is written to, and what opening it gives. -/

namespace Store

open Versioned Table

/-- A pair whose value is the newest version of its key. -/
def Db.LivePair (db : Db) (k : Key) (v : Value) : Prop := ∃ ts, Newest db.versions k ⟨k, ts, some v⟩

def snapshotItems (kvs : List (Key × Value)) (snapshotTS : Nat) : List Item :=
  kvs.map fun kv => ⟨.put, kv.1, kv.2, snapshotTS⟩

/-- Builds a directory of the given pairs, applied index and sessions. -/
def buildSnapshotDB (kvs : List (Key × Value)) (sessions : Sessions)
    (lastIncludedIndex snapshotTS : Nat) : Except TableError Dir :=
  if kvs = [] then .ok ⟨[], [], lastIncludedIndex, sessions⟩
  else
    (Table.write (snapshotItems kvs snapshotTS) kvs.length lastIncludedIndex).map fun t =>
      ⟨[], [(1, t)], lastIncludedIndex, sessions⟩

variable {kvs : List (Key × Value)} {sessions : Sessions} {lastIncludedIndex snapshotTS : Nat} {dir : Dir}

theorem data_snapshotItems (fits : snapshotTS < 2 ^ 64) : ∀ i ∈ snapshotItems kvs snapshotTS, i.Data := by
  intro i listed
  obtain ⟨kv, -, rfl⟩ := List.mem_map.mp listed
  exact ⟨fits, by simp⟩

theorem mem_snapshotItems {v : Version Key Value} : (∃ i ∈ snapshotItems kvs snapshotTS, v = i.version) ↔
    ∃ kv ∈ kvs, v = ⟨kv.1, snapshotTS, some kv.2⟩ := by
  simp [snapshotItems, Item.version, payload]

theorem buildSnapshotDB_cases (built : buildSnapshotDB kvs sessions lastIncludedIndex snapshotTS = .ok dir) :
    (kvs = [] ∧ dir = ⟨[], [], lastIncludedIndex, sessions⟩) ∨
    (∃ t, Table.write (snapshotItems kvs snapshotTS) kvs.length lastIncludedIndex = .ok t ∧
      dir = ⟨[], [(1, t)], lastIncludedIndex, sessions⟩) := by
  unfold buildSnapshotDB at built
  split_ifs at built with empty
  · exact .inl ⟨empty, (Except.ok.inj built).symm⟩
  · cases written : Table.write (snapshotItems kvs snapshotTS) kvs.length lastIncludedIndex with
    | error e => rw [written] at built; cases built
    | ok t =>
      rw [written] at built
      exact .inr ⟨t, rfl, (Except.ok.inj built).symm⟩

structure Db.FromSnapshot (db : Db) (kvs : List (Key × Value)) (sessions : Sessions)
    (lastIncludedIndex snapshotTS : Nat) : Prop where
  versions : ∀ v, v ∈ db.versions ↔ ∃ kv ∈ kvs, v = ⟨kv.1, snapshotTS, some kv.2⟩
  sessions : db.sessions = sessions
  recovered : db.recoveredApplied = lastIncludedIndex
  applied : db.appliedIndex = lastIncludedIndex

theorem Db.FromSnapshot.livePair_iff {db : Db} (made : db.FromSnapshot kvs sessions lastIncludedIndex snapshotTS)
    (k : Key) (v : Value) : db.LivePair k v ↔ (k, v) ∈ kvs := by
  constructor
  · rintro ⟨ts, newest⟩
    obtain ⟨kv, listed, same⟩ := (made.versions _).mp newest.stored
    obtain ⟨rfl, -, load⟩ := Version.mk.inj same
    rwa [Option.some.inj load]
  · intro listed
    refine ⟨snapshotTS, (made.versions _).mpr ⟨(k, v), listed, rfl⟩, rfl, fun u stored _ => ?_⟩
    -- All the versions have the one timestamp of the snapshot.
    obtain ⟨kv, -, rfl⟩ := (made.versions u).mp stored
    exact le_rfl

theorem openWith_built (built : buildSnapshotDB kvs sessions lastIncludedIndex snapshotTS = .ok dir)
    (index : lastIncludedIndex < 2 ^ 64) (ts : snapshotTS < 2 ^ 64) (opts : Options) :
    ∃ db, openWith dir opts = .ok db ∧ db.dir = dir ∧ db.FromSnapshot kvs sessions lastIncludedIndex snapshotTS := by
  have noLog : dir.wal = [] := by
    rcases buildSnapshotDB_cases built with ⟨-, rfl⟩ | ⟨t, -, rfl⟩ <;> rfl
  have read : recover dir.wal = .ok (batchRecords [] ++ [], Framing.log encode (batchRecords [] ++ [])) := by
    rw [noLog]
    rfl
  obtain ⟨m, applied, -, opened⟩ := openWith_batches opts read (by simp) (by simp)
  obtain rfl : Memtable.new = m := Option.some.inj applied
  refine ⟨_, opened, ?_, ?_⟩
  · rcases buildSnapshotDB_cases built with ⟨-, rfl⟩ | ⟨t, -, rfl⟩ <;> rfl
  -- Both the footer and the file of its own carry the index.
  have reached : max (tablesApplied dir) ((dir.appliedBase + 0) % 2 ^ 64) = lastIncludedIndex := by
    have base : dir.appliedBase = lastIncludedIndex := by
      rcases buildSnapshotDB_cases built with ⟨-, rfl⟩ | ⟨t, -, rfl⟩ <;> rfl
    rw [base, add_zero, Nat.mod_eq_of_lt index]
    refine max_eq_right ?_
    rcases buildSnapshotDB_cases built with ⟨-, rfl⟩ | ⟨t, written, rfl⟩
    · exact Nat.zero_le _
    · rw [← write_applied written]
      simp [tablesApplied, discoverSSTables]
  refine ⟨fun v => ?_, ?_, reached, reached⟩
  · rcases buildSnapshotDB_cases built with ⟨rfl, rfl⟩ | ⟨t, written, rfl⟩
    · simp [Db.versions, Db.reopened, Db.tables, discoverSSTables]
    · obtain ⟨t', again, -, entries, -⟩ := write_ok kvs.length lastIncludedIndex
        (write_ascending written) (data_snapshotItems ts)
      obtain rfl := Except.ok.inj (written.symm.trans again)
      rw [← mem_snapshotItems, ← mem_versions_entries (data_snapshotItems ts), ← entries]
      simp [Db.versions, Db.reopened, Db.tables, discoverSSTables, Table.versions]
  · rcases buildSnapshotDB_cases built with ⟨-, rfl⟩ | ⟨t, -, rfl⟩ <;> rfl

end Store
