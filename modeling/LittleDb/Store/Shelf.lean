import LittleDb.Store.LifeSteps

/-! What tables and log hold together: the latest write of every key among the batches on disk. -/

namespace Store

open Versioned List

def lastRecord (rs : List Record) (k : Key) : Option Record := rs.reverse.find? fun r => r.key = k

/-- The value of a key after some batches, if it has one. -/
def effect (bs : List Batch) (k : Key) : Option Value :=
  (lastRecord (batchData bs) k).bind fun r => payload r.op r.value

def Chained (rs : List Record) : Prop :=
  rs.Pairwise fun r r' => r.key = r'.key → r.timestamp < r'.timestamp

variable {rs rs' : List Record} {k : Key}

theorem lastRecord_append (rs rs' : List Record) (k : Key) :
    lastRecord (rs ++ rs') k = (lastRecord rs' k).or (lastRecord rs k) := by
  rw [lastRecord, reverse_append, find?_append]
  rfl

theorem lastRecord_none (miss : lastRecord rs k = none) : ∀ v ∈ recordVersions rs, v.key ≠ k := by
  rintro v ⟨r, listed, rfl⟩ own
  have other := find?_eq_none.mp miss r (mem_reverse.mpr listed)
  exact other (decide_eq_true own)

theorem lastRecord_some {r : Record} (last : lastRecord rs k = some r) : r ∈ rs ∧ r.key = k := by
  have own := find?_some last
  exact ⟨mem_reverse.mp (mem_of_find?_eq_some last), of_decide_eq_true own⟩

theorem Chained.functional (chained : Chained rs) : Functional (recordVersions rs) := by
  induction rs with
  | nil => simp [Functional]
  | cons r rs ih =>
    obtain ⟨later, chained'⟩ := pairwise_cons.mp chained
    rw [recordVersions_cons]
    rintro v (rfl | vLater) w (rfl | wLater) key ts
    · rfl
    · obtain ⟨r', listed, rfl⟩ := wLater
      exact absurd ts (later r' listed key).ne
    · obtain ⟨r', listed, rfl⟩ := vLater
      exact absurd ts.symm (later r' listed key.symm).ne
    · exact ih chained' v vLater w wLater key ts

theorem Chained.newest {r : Record} (chained : Chained rs) (last : lastRecord rs k = some r) :
    ∀ v ∈ recordVersions rs, v.key = k → v.ts ≤ r.timestamp := by
  induction rs using List.reverseRecOn with
  | nil => cases last
  | append_singleton rs x ih =>
    obtain ⟨chained', _, across⟩ := pairwise_append.mp chained
    rw [lastRecord_append] at last
    rintro v ⟨r', listed, rfl⟩ own
    cases final : lastRecord [x] k with
    | some y =>
      -- The key is written by the very last record.
      rw [final] at last
      obtain rfl := Option.some.inj last
      obtain ⟨inside, key⟩ := lastRecord_some final
      obtain rfl := mem_singleton.mp inside
      rcases mem_append.mp listed with older | same
      · exact (across r' older y inside (own.trans key.symm)).le
      · rw [mem_singleton.mp same]
        exact le_refl _
    | none =>
      rw [final] at last
      rcases mem_append.mp listed with older | same
      · exact ih chained' last _ ⟨r', older, rfl⟩ own
      · exact absurd own (lastRecord_none final _ ⟨r', same, rfl⟩)

theorem Chained.visible {r : Record} {s : Nat} (chained : Chained rs) (last : lastRecord rs k = some r)
    (below : r.timestamp ≤ s) : Visible (recordVersions rs) k s r.version := by
  obtain ⟨listed, own⟩ := lastRecord_some last
  exact ⟨⟨r, listed, rfl⟩, own, below, fun v stored key _ => chained.newest last v stored key⟩

def shelfVersions (tables : List (Nat × Table)) : Set (Version Key Value) :=
  tableVersions (tables.map Prod.snd)

/-- Tables that show the latest batches, and hold them all unless compacted. -/
structure Shelved (K : Set Key) (compacts : Bool) (tables : List (Nat × Table)) (stored : List Batch) :
    Prop where
  valid : ∀ e ∈ tables, e.2.Valid
  stacked : Stacked (tables.map Prod.snd)
  /-- They have one version for each key and timestamp. -/
  functional : Functional (shelfVersions tables)
  sub : shelfVersions tables ⊆ recordVersions (batchData stored)
  keys : ∀ r ∈ batchData stored, r.key ∈ K
  small : ∀ e ∈ tables, e.2.maxTimestamp + 1 < 2 ^ 64
  shows : Free K → [] ∉ K → ∀ k s r, (∀ v ∈ shelfVersions tables, v.ts ≤ s) →
    (Shows (shelfVersions tables) k s r ↔ r = effect stored k)
  exact : compacts = false → shelfVersions tables = recordVersions (batchData stored)

/-- Tables, logged batches they hold too, those only the log holds, and loose records. -/
structure Logbook (K : Set Key) (compacts : Bool) (tables : List (Nat × Table)) (l : Ledger)
    (dups new : List Batch) (rest : List Record) : Prop where
  journal : Journal id l dups new
  shelved : Shelved K compacts tables l.stored
  keys : ∀ r ∈ batchData new, r.key ∈ K
  chained : Chained (batchData (dups ++ new))
  atop : Over (recordVersions (batchData dups)) (shelfVersions tables)
  newer : ∀ v ∈ shelfVersions tables, ∀ r ∈ batchData new, v.ts < r.timestamp
  small : ∀ r ∈ batchRecords (dups ++ new) ++ rest, r.timestamp + 1 < 2 ^ 64

variable {K : Set Key} {compacts : Bool} {tables : List (Nat × Table)} {l : Ledger}
  {dups new : List Batch} {rest : List Record}

theorem Shelved.empty (K : Set Key) (compacts : Bool) : Shelved K compacts [] [] := by
  have nothing : shelfVersions [] = ∅ := tableVersions_nil
  refine ⟨by simp, .nil, by simp [nothing, Functional], by simp [nothing], by simp, by simp, ?_, by simp [nothing]⟩
  intro _ _ k s r _
  rw [nothing, shows_empty]
  rfl

theorem Logbook.empty (K : Set Key) (compacts : Bool) : Logbook K compacts [] .empty [] [] [] :=
  ⟨.empty _, .empty K compacts, by simp, .nil, by simp [Over], by simp, by simp⟩

namespace Logbook

def logVersions (dups new : List Batch) : Set (Version Key Value) :=
  recordVersions (batchData (dups ++ new))

section

variable (book : Logbook K compacts tables l dups new rest)

include book

theorem suffix : dups <:+ l.stored := by
  simpa using book.journal.stored

theorem batches : l.batches = l.stored ++ new := by
  have views := book.journal.views
  simp only [id_eq, map_id] at views
  rw [Ledger.batches, views]

theorem allKeys : ∀ r ∈ batchData (l.stored ++ new), r.key ∈ K := by
  intro r listed
  rw [batchData_append] at listed
  rcases mem_append.mp listed with old | young
  · exact book.shelved.keys r old
  · exact book.keys r young

theorem logOver : Over (logVersions dups new) (shelfVersions tables) := by
  intro u upper t lower key order
  rw [logVersions, batchData_append, recordVersions_append] at upper ⊢
  rcases upper with copied | ⟨r, listed, rfl⟩
  · exact .inl (book.atop u copied t lower key order)
  · exact absurd order (not_le.mpr (book.newer t lower r listed))

theorem functional : Functional (logVersions dups new ∪ shelfVersions tables) :=
  book.logOver.functional book.chained.functional book.shelved.functional

theorem sub : logVersions dups new ∪ shelfVersions tables ⊆ recordVersions (batchData (l.stored ++ new)) := by
  rw [logVersions, batchData_append, batchData_append, recordVersions_append, recordVersions_append]
  obtain ⟨older, split⟩ := book.suffix
  rintro v ((copied | young) | shelved)
  · left
    rw [← split, batchData_append, recordVersions_append]
    exact .inr copied
  · exact .inr young
  · exact .inl (book.shelved.sub shelved)

theorem exact (none : compacts = false) :
    logVersions dups new ∪ shelfVersions tables = recordVersions (batchData (l.stored ++ new)) := by
  refine Set.Subset.antisymm book.sub ?_
  rw [batchData_append, recordVersions_append, ← book.shelved.exact none, logVersions,
    batchData_append, recordVersions_append]
  rintro v (shelved | young)
  · exact .inr shelved
  · exact .inl (.inr young)

theorem shows (free : Free K) (named : [] ∉ K) {s : Nat} {r : Option Value}
    (top : ∀ v ∈ logVersions dups new ∪ shelfVersions tables, v.ts ≤ s) :
    Shows (logVersions dups new ∪ shelfVersions tables) k s r ↔ r = effect (l.stored ++ new) k := by
  obtain ⟨older, split⟩ := book.suffix
  have whole : batchData (l.stored ++ new) = batchData older ++ batchData (dups ++ new) := by
    rw [← split, append_assoc, batchData_append]
  cases last : lastRecord (batchData (dups ++ new)) k with
  | some x =>
    -- The log writes the key, and its last write is the latest of all.
    have inLog : x.version ∈ logVersions dups new := ⟨x, (lastRecord_some last).1, rfl⟩
    have visible : Visible (logVersions dups new ∪ shelfVersions tables) k s x.version :=
      (book.chained.visible last (top _ (.inl inLog))).atop book.logOver
    have value : effect (l.stored ++ new) k = x.version.payload := by
      rw [effect, whole, lastRecord_append, last]
      rfl
    rw [value]
    constructor
    · exact fun shows => shows.unique book.functional (.inl ⟨_, visible, rfl⟩)
    · rintro rfl
      exact .inl ⟨_, visible, rfl⟩
  | none =>
    -- The log does not write the key, so the tables decide.
    have miss : ∀ w ∈ logVersions dups new, w.key = k → s < w.ts :=
      fun w stored own => absurd own (lastRecord_none last w stored)
    have young : lastRecord (batchData new) k = none := by
      rw [batchData_append, lastRecord_append] at last
      exact (Option.or_eq_none_iff.mp last).1
    have value : effect (l.stored ++ new) k = effect l.stored k := by
      rw [effect, batchData_append, lastRecord_append, young, Option.none_or]
      rfl
    rw [value, ← book.shelved.shows free named k s r fun v stored => top v (.inr stored)]
    refine shows_congr fun v own below => ⟨fun stored => ?_, .inr⟩
    rcases stored with logged | shelved
    · exact absurd own (lastRecord_none last v logged)
    · exact shelved

theorem cut {n : Nat} {rest' : List Record} (spared : l.covered ≤ n)
    (shape : (survivors n (dups ++ new) = dups ++ new ∧ rest' <+: rest) ∨
      ∃ b, survivors n (dups ++ new) ++ [b] <+: dups ++ new ∧ rest' <+: b.data) :
    Logbook K compacts tables (l.cut n) dups (survivors (n - l.covered) new) rest' := by
  have left := book.journal.survivors_cut spared
  have front : survivors (n - l.covered) new <+: new := Framing.wholeIn_front ..
  have data : batchData (survivors (n - l.covered) new) <+: batchData new := by
    obtain ⟨lost, split⟩ := front
    exact ⟨batchData lost, by rw [← batchData_append, split]⟩
  refine ⟨book.journal.cut spared, book.shelved, fun r listed => book.keys r (data.subset listed),
    ?_, book.atop, fun v shelved r listed => book.newer v shelved r (data.subset listed), ?_⟩
  · refine book.chained.sublist ?_
    rw [batchData_append, batchData_append]
    exact data.sublist.append_left _
  · intro r listed
    have kept : ∀ r ∈ batchRecords (dups ++ survivors (n - l.covered) new),
        r ∈ batchRecords (dups ++ new) := by
      obtain ⟨lost, split⟩ := front
      intro r inside
      rw [← split, ← append_assoc, batchRecords_append]
      exact mem_append_left _ inside
    rcases mem_append.mp listed with inside | behind
    · exact book.small r (mem_append_left _ (kept r inside))
    · rcases shape with ⟨_, part⟩ | ⟨b, within, part⟩
      · exact book.small r (mem_append_right _ (part.subset behind))
      · -- What is left of the batch cut belongs to the log.
        refine book.small r (mem_append_left _ (mem_flatMap.mpr ⟨b, ?_, ?_⟩))
        · exact within.subset (by simp)
        · simp [Batch.records, part.subset behind]

end

theorem write {b : Batch} {stop : Nat} (book : Logbook K compacts tables l dups new []) (valid : b.Valid)
    (keys : ∀ r ∈ b.data, r.key ∈ K) (single : b.data.Pairwise fun r r' => r.key ≠ r'.key)
    (small : b.marker.timestamp + 1 < 2 ^ 64)
    (newer : ∀ v ∈ logVersions dups new ∪ shelfVersions tables, v.ts < b.marker.timestamp)
    (ends : stop = extent (dups ++ (new ++ [b]))) : Logbook K compacts tables (l.write b stop) dups (new ++ [b])
    [] := by
  refine ⟨book.journal.write rfl ends, book.shelved, fun r listed => ?_, ?_, book.atop,
    fun v shelved r listed => ?_, fun r listed => ?_⟩
  · simp only [batchData_append, batchData_cons, batchData_nil, append_nil] at listed
    rcases mem_append.mp listed with old | young
    · exact book.keys r old
    · exact keys r young
  · rw [← append_assoc, batchData_append]
    simp only [batchData_cons, batchData_nil, append_nil]
    refine pairwise_append.mpr ⟨book.chained, single.imp fun other same => absurd same other,
      fun r old r' young _ => ?_⟩
    -- All records of the batch have its timestamp.
    rw [valid.stamped r' young]
    exact newer r.version (.inl ⟨r, old, rfl⟩)
  · simp only [batchData_append, batchData_cons, batchData_nil, append_nil] at listed
    rcases mem_append.mp listed with old | young
    · exact book.newer v shelved r old
    · rw [valid.stamped r young]
      exact newer v (.inr shelved)
  · rw [append_nil, ← append_assoc, batchRecords_append] at listed
    rcases mem_append.mp listed with old | young
    · exact book.small r (mem_append_left _ old)
    · have stamp : r.timestamp = b.marker.timestamp := by
        simp only [batchRecords_cons, batchRecords_nil, mem_append, mem_singleton] at young
        rcases young with data | rfl
        · exact valid.stamped r data
        · rfl
      rw [stamp]
      exact small

variable (book : Logbook K compacts tables l dups new rest)

include book

theorem shelve {id : Nat} {t : Table} (valid : t.Valid) (content : t.versions = logVersions dups new)
    (reached : t.maxTimestamp = 0 ∨ ∃ v ∈ t.versions, v.ts = t.maxTimestamp) :
    Shelved K compacts ((id, t) :: tables) l.batches := by
  have all : shelfVersions ((id, t) :: tables) = logVersions dups new ∪ shelfVersions tables := by
    rw [shelfVersions, map_cons, tableVersions_cons, content]
    rfl
  rw [book.batches]
  refine ⟨?_, ?_, all ▸ book.functional, all ▸ book.sub, book.allKeys, ?_, ?_, fun none => ?_⟩
  · intro e listed
    rcases mem_cons.mp listed with rfl | old
    · exact valid
    · exact book.shelved.valid e old
  · refine pairwise_cons.mpr ⟨fun t' listed => ?_, book.shelved.stacked⟩
    rw [content]
    exact book.logOver.mono fun v stored => ⟨t', listed, stored⟩
  · intro e listed
    rcases mem_cons.mp listed with rfl | old
    -- The greatest timestamp belongs to a version from the log.
    · rcases reached with zero | ⟨v, stored, ts⟩
      · rw [zero]
        decide
      · rw [content] at stored
        obtain ⟨r, inLog, rfl⟩ := stored
        rw [← ts]
        obtain ⟨b, held, own⟩ := mem_flatMap.mp inLog
        refine book.small r (mem_append_left _ (mem_flatMap.mpr ⟨b, held, ?_⟩))
        simp [Batch.records, own]
    · exact book.shelved.small e old
  · intro free named k s r top
    rw [all] at top ⊢
    exact book.shows free named top
  · rw [all]
    exact book.exact none

theorem held {id : Nat} {t : Table} (valid : t.Valid) (content : t.versions = logVersions dups new)
    (reached : t.maxTimestamp = 0 ∨ ∃ v ∈ t.versions, v.ts = t.maxTimestamp) :
    Logbook K compacts ((id, t) :: tables) l.held (dups ++ new) [] rest := by
  refine ⟨book.journal.held, book.shelve valid content reached, by simp, by simpa using book.chained,
    ?_, by simp, by simpa using book.small⟩
  rw [shelfVersions, map_cons, tableVersions_cons, content]
  refine Over.union (fun u _ t' lower _ _ => lower) book.logOver

theorem removed {id : Nat} {t : Table} (valid : t.Valid) (content : t.versions = logVersions dups new)
    (reached : t.maxTimestamp = 0 ∨ ∃ v ∈ t.versions, v.ts = t.maxTimestamp) :
    Logbook K compacts ((id, t) :: tables) l.held.removed [] [] [] :=
  ⟨.removed _ _, book.shelve valid content reached, by simp, .nil, by simp [Over], by simp, by simp⟩

end Logbook

theorem Shelved.layered {db : Db} {stored : List Batch} (shelved : Shelved K compacts db.sstables stored)
    (frozen : db.frozen = none) : Db.Layered { db with memtable := Memtable.new } K (shelfVersions db.sstables) 0 := by
  have all : Db.versions { db with memtable := Memtable.new } = shelfVersions db.sstables := by
    rw [Db.versions, Memtable.versions_new, Set.empty_union]
    rfl
  refine ⟨frozen, Memtable.open_new, fun t listed => ?_, shelved.stacked, fun t _ u upper => ?_,
    shelved.functional, fun v stored => ?_, all ▸ .refl _ _, fun _ _ => all ▸ .refl _ _⟩
  · obtain ⟨e, found, rfl⟩ := mem_map.mp listed
    exact shelved.valid e found
  · change u ∈ Memtable.new.versions at upper
    rw [Memtable.versions_new] at upper
    exact upper.elim
  · obtain ⟨r, listed, rfl⟩ := shelved.sub stored
    exact shelved.keys r listed

theorem Shelved.collect {db : Db} {stored : List Batch} {front inputs : List (Nat × Table)} {w : Nat}
    {bottomOfLSM : Bool} {merged : Table} (shelved : Shelved K true db.sstables stored) (id : Nat)
    (frozen : db.frozen = none) (tail : db.sstables = front ++ inputs)
    (made : compactSSTables (inputs.map Prod.snd) w bottomOfLSM = .ok merged) :
    Shelved K true (front ++ [(id, merged)]) stored ∧
    shelfVersions (front ++ [(id, merged)]) ⊆ shelfVersions db.sstables ∧
    (merged.maxTimestamp = 0 ∨ ∃ v ∈ shelfVersions db.sstables, v.ts = merged.maxTimestamp) := by
  have layered : Db.Layered { db with memtable := Memtable.new, sstables := front ++ [(id, merged)] } K
      (shelfVersions db.sstables) (max 0 w) := (shelved.layered frozen).collect tail made
  have all : Db.versions { db with memtable := Memtable.new, sstables := front ++ [(id, merged)] } =
      shelfVersions (front ++ [(id, merged)]) := by
    rw [Db.versions, Memtable.versions_new, Set.empty_union]
    rfl
  have sub : shelfVersions (front ++ [(id, merged)]) ⊆ shelfVersions db.sstables :=
    all ▸ layered.keeps.sub
  have inputsValid : ∀ t ∈ inputs.map Prod.snd, t.Valid := by
    intro t listed
    obtain ⟨e, found, rfl⟩ := mem_map.mp listed
    exact shelved.valid e (by rw [tail]; simp [found])
  have agree : Functional (tableVersions (inputs.map Prod.snd)) := by
    have part : tableVersions (inputs.map Prod.snd) ⊆ shelfVersions db.sstables := by
      rw [shelfVersions, tail, map_append, tableVersions_append]
      exact Set.subset_union_right
    exact fun v vIn u uIn => shelved.functional v (part vIn) u (part uIn)
  obtain ⟨merged', made', compacted, _⟩ := compactSSTables_ok inputsValid agree w bottomOfLSM
  obtain rfl : merged' = merged := Except.ok.inj (made'.symm.trans made)
  have reached : merged'.maxTimestamp = 0 ∨
      ∃ v ∈ shelfVersions db.sstables, v.ts = merged'.maxTimestamp := by
    rcases compacted.reached with none | ⟨v, held, ts⟩
    · exact .inl none
    · exact .inr ⟨v, sub ⟨merged', by simp, held⟩, ts⟩
  refine ⟨⟨fun e listed => ?_, layered.stacked, fun v vIn u uIn =>
    shelved.functional v (sub vIn) u (sub uIn), sub.trans shelved.sub, shelved.keys, ?_, ?_, by simp⟩,
    sub, reached⟩
  · refine layered.tables e.2 ?_
    exact mem_map_of_mem listed
  · intro e listed
    rcases mem_append.mp listed with old | last
    · exact shelved.small e (by rw [tail]; simp [old])
    · rw [mem_singleton.mp last]
      change merged'.maxTimestamp + 1 < 2 ^ 64
      rcases reached with zero | ⟨v, ⟨t, listed', inside⟩, ts⟩
      · rw [zero]
        decide
      · obtain ⟨e', found, rfl⟩ := mem_map.mp listed'
        have bound := (shelved.valid e' found).bounded v inside
        have room := shelved.small e' found
        omega
  · intro free named k s r top
    -- Above all versions the watermark makes no difference.
    obtain ⟨high, beyond⟩ : ∃ high, ∀ e ∈ db.sstables, e.2.maxTimestamp ≤ high :=
      ⟨(db.sstables.map fun e => e.2.maxTimestamp).foldl max 0, fun e listed =>
        (foldl_max_le_iff.mp (le_refl _)).2 _ (mem_map_of_mem listed)⟩
    have oldTop : ∀ v ∈ shelfVersions db.sstables, v.ts ≤ high := by
      rintro v ⟨t, listed, inside⟩
      obtain ⟨e, found, rfl⟩ := mem_map.mp listed
      exact ((shelved.valid e found).bounded v inside).trans (beyond e found)
    have follows := layered.follows free named
    rw [all] at follows
    let far := max s (max high w)
    have toFar : s ≤ far := le_max_left ..
    rw [shows_top (fun v stored _ => top v stored) toFar,
      follows.shows_above (le_trans (by simp) (le_max_right s (max high w)) : max 0 w ≤ far)]
    exact shelved.shows free named k far r fun v stored => (oldTop v stored).trans
      ((le_max_left high w).trans (le_max_right s _))

end Store
