import LittleDb.Store.Compaction
import Mathlib.Data.Set.Insert

/-! The layers of a database as one versioned map: what reads show and what conflict checks find. -/

namespace Store

open Versioned List Layer Memtable Set

variable {k : Key} {s : Nat}

/-- The reply that stands for what a read shows. -/
def answerOf : Option Value → Except DbError Value
  | some value => .ok value
  | none => .error .keyNotFound

@[simp] theorem reply_answer (v : Version Key Value) : reply (Layer.answer v) = answerOf v.payload := by
  cases load : v.payload <;> simp [Layer.answer, load, reply, answerOf]

@[simp] theorem tableVersions_nil : tableVersions [] = ∅ := by
  ext v
  simp [tableVersions]

@[simp] theorem tableVersions_cons (t : Table) (ts : List Table) :
    tableVersions (t :: ts) = t.versions ∪ tableVersions ts := by
  ext v
  simp [tableVersions]

@[simp] theorem tableVersions_append (ts ts' : List Table) :
    tableVersions (ts ++ ts') = tableVersions ts ∪ tableVersions ts' := by
  induction ts with
  | nil => simp
  | cons t ts ih => simp [ih, union_assoc]

variable {ts : List Table} {K : Set Key} {r : Option Value}

theorem over_tables {U : Set (Version Key Value)} (atop : ∀ t ∈ ts, Over U t.versions) : Over U (tableVersions ts) := by
  rintro u upper v ⟨t, listed, stored⟩
  exact atop t listed u upper v stored

theorem tables_over {T : Set (Version Key Value)} (atop : ∀ t ∈ ts, Over t.versions T) : Over (tableVersions ts) T := by
  rintro u ⟨t, listed, upper⟩ v stored key order
  exact ⟨t, listed, atop t listed u upper v stored key order⟩

/-- Some tables, newest first, of which each lies over the later ones. -/
def Stacked (ts : List Table) : Prop := ts.Pairwise fun t t' => Over t.versions t'.versions

/-- The versions of some tables have keys of a set. -/
def TablesWithin (ts : List Table) (K : Set Key) : Prop := ∀ v ∈ tableVersions ts, v.key ∈ K

theorem findSome_tables
    (valid : ∀ t ∈ ts, t.Valid) (stacked : Stacked ts) (within : TablesWithin ts K) (free : Free K)
    (fits : s < 2 ^ 64) (shows : Shows (tableVersions ts) k s r) :
    (match ts.findSome? fun t => t.getAsOf k s with
      | some hit => reply hit
      | none => .error .keyNotFound) = answerOf r := by
  induction ts with
  | nil =>
    rcases shows with ⟨v, visible, _⟩ | ⟨rfl, _⟩
    · simpa using visible.stored
    · rfl
  | cons t ts ih =>
    obtain ⟨first, stacked'⟩ := pairwise_cons.mp stacked
    have valid' := valid t (by simp)
    have own : t.entries.Within K := fun v stored => within v ⟨t, by simp, stored⟩
    rw [tableVersions_cons, shows_union (over_tables first)] at shows
    rw [findSome?_cons, valid'.getAsOf_eq k fits]
    rcases shows with ⟨v, visible, rfl⟩ | ⟨miss, shows⟩
    · -- The newest table has a version at or below the snapshot.
      rw [getAsOf_visible valid'.layer own free fits visible]
      simp
    · rw [getAsOf_none valid'.layer fits miss]
      exact ih (fun t' listed => valid t' (by simp [listed])) stacked'
        (fun v ⟨t', listed, stored⟩ => within v ⟨t', by simp [listed], stored⟩) shows

theorem getAsOfSnapshot_eq {m : Memtable} (buffer : m.sl.Valid) (valid : ∀ t ∈ ts, t.Valid) (stacked : Stacked ts)
    (atop : ∀ t ∈ ts, Over m.versions t.versions) (own : m.sl.Within K)
    (within : TablesWithin ts K) (free : Free K) (fits : s < 2 ^ 64)
    (shows : Shows (m.versions ∪ tableVersions ts) k s r) : getAsOfSnapshot k s m none ts = answerOf r := by
  rw [shows_union (over_tables atop)] at shows
  unfold getAsOfSnapshot Memtable.getAsOf
  rcases shows with ⟨v, visible, rfl⟩ | ⟨miss, shows⟩
  · rw [getAsOf_visible buffer own free fits visible]
    simp
  · rw [getAsOf_none buffer fits miss]
    exact findSome_tables valid stacked within free fits shows

namespace Db

/-- The versions in the layers of a database that is not being flushed. -/
def versions (db : Db) : Set (Version Key Value) := db.memtable.versions ∪ tableVersions db.tables

/-- A database whose layers hold a history, and show it from a floor on. -/
structure Layered (db : Db) (K : Set Key) (H : Set (Version Key Value)) (floor : Nat) : Prop where
  frozen : db.frozen = none
  memtable : db.memtable.Open
  tables : ∀ t ∈ db.tables, t.Valid
  stacked : Stacked db.tables
  atop : ∀ t ∈ db.tables, Over db.memtable.versions t.versions
  functional : Functional H
  within : ∀ v ∈ H, v.key ∈ K
  keeps : Keeps floor H db.versions
  follows : Free K → [] ∉ K → Follows floor H db.versions

variable {db : Db} {H : Set (Version Key Value)} {floor : Nat}

theorem Layered.memtable_within (layered : db.Layered K H floor) : db.memtable.sl.Within K :=
  fun v stored => layered.within v (layered.keeps.sub (.inl stored))

theorem Layered.tables_within (layered : db.Layered K H floor) : TablesWithin db.tables K :=
  fun v stored => layered.within v (layered.keeps.sub (.inr stored))

theorem Layered.read {r : Option Value} (layered : db.Layered K H floor)
    (free : Free K) (named : [] ∉ K) (high : floor ≤ s) (fits : s < 2 ^ 64) (shows : Shows H k s r) :
    getAsOfSnapshot k s db.memtable none db.tables = answerOf r := by
  have held := ((layered.follows free named).shows_above high).mpr shows
  exact getAsOfSnapshot_eq layered.memtable.valid layered.tables layered.stacked layered.atop
    layered.memtable_within layered.tables_within free fits held

theorem above_iff {newest : Option Nat} : above s newest = true ↔ ∃ t, newest = some t ∧ s < t := by
  cases newest <;> simp [above]

section

variable (layered : db.Layered K H floor)

include layered

theorem Layered.newer_iff (free : Free K) :
    db.hasCommitNewerThanLocked k s = true ↔ ∃ v ∈ db.versions, v.key = k ∧ s < v.ts := by
  have buffer := newestVersionTS_above (k := k) (s := s) layered.memtable.valid layered.memtable_within free
  have table : ∀ t ∈ db.tables, (∃ ts, t.newestVersionTS k = some ts ∧ s < ts) ↔
      ∃ w ∈ t.versions, w.key = k ∧ s < w.ts := by
    intro t listed
    have valid := layered.tables t listed
    rw [valid.newestVersionTS_eq]
    exact newestVersionTS_above valid.layer (fun v stored => layered.tables_within v ⟨t, listed, stored⟩) free
  simp only [hasCommitNewerThanLocked, layered.frozen, Option.any_none, Bool.or_false,
    Bool.or_eq_true, any_eq_true, above_iff]
  constructor
  · rintro (found | ⟨t, listed, found⟩)
    · obtain ⟨w, stored, key, high⟩ := buffer.mp found
      exact ⟨w, .inl stored, key, high⟩
    · obtain ⟨w, stored, key, high⟩ := (table t listed).mp found
      exact ⟨w, .inr ⟨t, listed, stored⟩, key, high⟩
  · rintro ⟨w, stored | ⟨t, listed, stored⟩, key, high⟩
    · exact .inl (buffer.mpr ⟨w, stored, key, high⟩)
    · exact .inr ⟨t, listed, (table t listed).mpr ⟨w, stored, key, high⟩⟩

theorem Layered.newer_iff_written (free : Free K) (high : floor ≤ s) :
    db.hasCommitNewerThanLocked k s = true ↔ ∃ v ∈ H, v.key = k ∧ s < v.ts := by
  rw [layered.newer_iff free]
  constructor
  · rintro ⟨v, stored, key, newer⟩
    exact ⟨v, layered.keeps.sub stored, key, newer⟩
  · rintro ⟨v, written, key, newer⟩
    exact ⟨v, layered.keeps.above v written (lt_of_le_of_lt high newer), key, newer⟩

theorem Layered.write {r : Record} {m : Memtable} (fits : r.timestamp < 2 ^ 64) (data : r.op ≠ .commit)
    (key : r.key ∈ K) (newest : ∀ v ∈ H, v.key = r.key → v.ts < r.timestamp) (high : floor < r.timestamp)
    (written : db.memtable.apply r = some m) : Layered { db with memtable := m } K ({r.version} ∪ H) floor := by
  obtain ⟨m', applied, ready, members⟩ := layered.memtable.apply fits data
  obtain rfl : m' = m := Option.some.inj (applied.symm.trans written)
  -- Nothing is replaced, since no version of this key has this timestamp.
  have grown : m'.versions = {r.version} ∪ db.memtable.versions := by
    ext v
    rw [members v, mem_union, mem_singleton_iff]
    refine or_congr_right ⟨And.left, fun stored => ⟨stored, fun same => ?_⟩⟩
    have below := newest v (layered.keeps.sub (.inl stored)) same.1
    exact absurd same.2 below.ne
  have all : versions { db with memtable := m' } = {r.version} ∪ db.versions := by
    change m'.versions ∪ _ = _
    rw [grown, union_assoc]
    rfl
  refine ⟨layered.frozen, ready, layered.tables, layered.stacked, fun t listed => ?_, ?_, ?_, ?_, ?_⟩
  · change Over m'.versions _
    rw [grown]
    rintro u (rfl | old) v stored same order
    · have below := newest v (layered.keeps.sub (.inr ⟨t, listed, stored⟩)) same.symm
      exact absurd order (not_le.mpr below)
    · exact .inr (layered.atop t listed u old v stored same order)
  · rintro v (rfl | vOld) w (rfl | wOld) same ts
    · rfl
    · exact absurd ts.symm (newest w wOld same.symm).ne
    · exact absurd ts (newest v vOld same).ne
    · exact layered.functional v vOld w wOld same ts
  · rintro v (rfl | old)
    · exact key
    · exact layered.within v old
  · rw [all]
    exact layered.keeps.write _
  · intro free named
    rw [all]
    refine (layered.follows free named).write ?_
    rintro v rfl
    exact high

theorem Layered.congr {db' : Db} (buffer : db'.memtable = db.memtable) (frozen : db'.frozen = db.frozen)
    (tables : db'.sstables = db.sstables) : db'.Layered K H floor := by
  have same : db'.tables = db.tables := by rw [Db.tables, tables]; rfl
  have all : db'.versions = db.versions := by rw [versions, buffer, same]; rfl
  refine ⟨frozen.trans layered.frozen, buffer ▸ layered.memtable, same ▸ layered.tables,
    same ▸ layered.stacked, ?_, layered.functional, layered.within, all ▸ layered.keeps,
    all ▸ layered.follows⟩
  rw [same, buffer]
  exact layered.atop

theorem Layered.collect {front inputs : List (Nat × Table)} {id w : Nat} {bottomOfLSM : Bool} {merged : Table}
    (tail : db.sstables = front ++ inputs) (made : compactSSTables (inputs.map Prod.snd) w bottomOfLSM = .ok merged) :
    Layered { db with sstables := front ++ [(id, merged)] } K H (max floor w) := by
  have split : db.tables = front.map Prod.snd ++ inputs.map Prod.snd := by
    rw [Db.tables, tail, map_append]
  have valid := layered.tables
  have stacked := layered.stacked
  have atop := layered.atop
  rw [split] at valid stacked atop
  obtain ⟨upper, lower, across⟩ := pairwise_append.mp stacked
  have inputsValid : ∀ t ∈ inputs.map Prod.snd, t.Valid := fun t listed => valid t (by simp [listed])
  -- The inputs hold part of the history, so they agree with one another.
  have part : tableVersions (inputs.map Prod.snd) ⊆ H := by
    refine fun v stored => layered.keeps.sub (.inr ?_)
    rw [split, tableVersions_append]
    exact .inr stored
  have agree : Functional (tableVersions (inputs.map Prod.snd)) :=
    fun v vIn u uIn => layered.functional v (part vIn) u (part uIn)
  obtain ⟨merged', made', compacted, members⟩ := compactSSTables_ok inputsValid agree w bottomOfLSM
  obtain rfl : merged' = merged := by
    rw [made] at made'
    exact (Except.ok.inj made').symm
  have sub : merged'.versions ⊆ tableVersions (inputs.map Prod.snd) := compacted.keeps.sub
  have new : Db.tables { db with sstables := front ++ [(id, merged')] } =
      front.map Prod.snd ++ [merged'] := by
    simp [Db.tables]
  -- What lies above the inputs: the buffer and the newer tables.
  have before : db.versions = (db.memtable.versions ∪ tableVersions (front.map Prod.snd)) ∪
      tableVersions (inputs.map Prod.snd) := by
    rw [versions, split, tableVersions_append, union_assoc]
  have after : versions { db with sstables := front ++ [(id, merged')] } =
      (db.memtable.versions ∪ tableVersions (front.map Prod.snd)) ∪ merged'.versions := by
    rw [versions, new, tableVersions_append, union_assoc]
    simp
  refine ⟨layered.frozen, layered.memtable, ?_, ?_, ?_, layered.functional, layered.within, ?_, ?_⟩
  · rw [new]
    intro t listed
    rcases mem_append.mp listed with old | last
    · exact valid t (by simp [old])
    · rw [mem_singleton.mp last]
      exact compacted.valid
  · rw [new]
    refine pairwise_append.mpr ⟨upper, pairwise_singleton .., fun t old t' last => ?_⟩
    rw [mem_singleton.mp last]
    exact (over_tables fun t' listed => across t old t' listed).mono sub
  · rw [new]
    intro t listed
    rcases mem_append.mp listed with old | last
    · exact atop t (by simp [old])
    · rw [mem_singleton.mp last]
      exact (over_tables fun t' listed' => atop t' (by simp [listed'])).mono sub
  · rw [after]
    exact (before ▸ layered.keeps).collect compacted.keeps
  · intro free named
    rw [after]
    refine (before ▸ layered.follows free named).collect ?_ ?_
    · rintro u (inBuffer | inFront)
      · intro v stored key order
        exact .inl ((over_tables fun t listed => atop t (by simp [listed])) u inBuffer v stored key order)
      · intro v stored key order
        have lies : Over (tableVersions (front.map Prod.snd)) (tableVersions (inputs.map Prod.snd)) :=
          tables_over fun t listed => over_tables fun t' listed' => across t listed t' listed'
        exact .inr (lies u inFront v stored key order)
    · cases bottomOfLSM with
      | true =>
        have kept : merged'.versions = { v | Kept w (tableVersions (inputs.map Prod.snd)) v } := by
          ext v
          rw [members v]
          exact mem_versions_swept inputsValid agree free (fun v stored => layered.within v (part stored)) named
        rw [kept]
        exact follows_kept agree
      | false =>
        -- Above older tables nothing is dropped.
        have same : merged'.versions = tableVersions (inputs.map Prod.snd) := by
          ext v
          rw [members v, sweep_false, ← (valid_merged inputsValid).mem_versions, versions_merged inputsValid agree]
        rw [same]
        exact .refl _ _

end

/-- The state after the buffer was written out as a table. -/
def flushed (db : Db) (t : Table) : Db :=
  { db with
    dir :=
      { wal := []
        tables := SortedMap.put db.nextID t db.dir.tables
        appliedBase := db.appliedIndex
        sessions := db.sessions }
    memtable := Memtable.new
    frozen := none
    retired := db.retired ++ [db.memtable.freeze]
    sstables := (db.nextID, t) :: db.sstables
    nextID := db.nextID + 1 }

def flushDirs (db : Db) (t : Table) : List Dir :=
  [{ db.dir with tables := SortedMap.put db.nextID t db.dir.tables },
    { db.dir with tables := SortedMap.put db.nextID t db.dir.tables, wal := [] },
    { db.dir with
      tables := SortedMap.put db.nextID t db.dir.tables, wal := [], appliedBase := db.appliedIndex },
    (db.flushed t).dir]

structure FlushTable (db : Db) (t : Table) : Prop where
  filled : db.memtable.len ≠ 0
  valid : t.Valid
  versions : t.versions = db.memtable.versions
  applied : t.appliedIndex = db.appliedIndex
  reached : t.maxTimestamp = 0 ∨ ∃ v ∈ t.versions, v.ts = t.maxTimestamp

theorem flushLocked_ok (ready : db.memtable.Open) : (db.memtable.len = 0 ∧ db.flushLocked = .ok (db, [])) ∨
    ∃ t, FlushTable db t ∧ db.flushLocked = .ok (db.flushed t, db.flushDirs t) := by
  by_cases empty : db.memtable.len = 0
  · exact .inl ⟨empty, by rw [flushLocked, if_pos empty]⟩
  · right
    obtain ⟨t, written, valid, entries, applied, reached⟩ :=
      Table.write_ok db.memtable.len db.appliedIndex ready.valid.ascending_items ready.valid.data_items
    rw [ready.valid.map_items] at entries
    have content : t.versions = db.memtable.versions := by
      rw [Table.versions, entries]
      rfl
    refine ⟨t, ⟨empty, valid, content, applied, reached.imp id ?_⟩, ?_⟩
    · rintro ⟨i, listed, ts⟩
      refine ⟨i.version, ?_, ts⟩
      rw [content]
      exact ready.valid.mem_versions.mpr ⟨i, listed, rfl⟩
    · have frozen : Table.write db.memtable.freeze.sl.items db.memtable.freeze.len db.appliedIndex = .ok t := written
      rw [flushLocked, if_neg empty]
      dsimp only
      rw [frozen]
      rfl

theorem Layered.flushed {t : Table} (layered : db.Layered K H floor) (made : db.FlushTable t) :
    (db.flushed t).Layered K H floor := by
  have tables : (db.flushed t).tables = t :: db.tables := rfl
  have fresh : (db.flushed t).memtable.versions = ∅ := versions_new
  have all : (db.flushed t).versions = db.versions := by
    rw [Db.versions, fresh, tables, tableVersions_cons, made.versions, empty_union]
    rfl
  refine ⟨rfl, open_new, ?_, ?_, ?_, layered.functional, layered.within, all ▸ layered.keeps, all ▸ layered.follows⟩
  · rw [tables]
    intro t' listed
    rcases mem_cons.mp listed with rfl | old
    · exact made.valid
    · exact layered.tables t' old
  · rw [tables]
    refine pairwise_cons.mpr ⟨fun t' old => ?_, layered.stacked⟩
    rw [made.versions]
    exact layered.atop t' old
  · intro t' _ u upper
    rw [fresh] at upper
    exact upper.elim

end Db

end Store
