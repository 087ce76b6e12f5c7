import LittleDb.Store.Applying
import LittleDb.Store.FlushFailure

/-! Layers that stay in order through writes, flushes and compactions, and the reads that compactions leave alone. -/

namespace Store

open Versioned List Memtable Set

namespace Db

variable {K : Set Key} {H : Set (Version Key Value)} {floor : Nat} {db db' done : Db}

theorem Layered.self (layered : db.Layered K H floor) : db.Layered K db.versions 0 :=
  { layered with
    functional := fun v stored w stored' =>
      layered.functional v (layered.keeps.sub stored) w (layered.keeps.sub stored')
    within := fun v stored => layered.within v (layered.keeps.sub stored)
    keeps := .refl _ _
    follows := fun _ _ => .refl _ _ }

theorem Layered.writes {rs : List Record} {m : Memtable} (layered : db.Layered K H floor)
    (fits : ∀ r ∈ rs, r.timestamp < 2 ^ 64) (data : ∀ r ∈ rs, r.op ≠ .commit) (keys : ∀ r ∈ rs, r.key ∈ K)
    (single : rs.Pairwise fun r r' => r.key ≠ r'.key) (newest : ∀ r ∈ rs, ∀ v ∈ H, v.key = r.key → v.ts < r.timestamp)
    (high : ∀ r ∈ rs, floor < r.timestamp) (written : rs.foldlM Memtable.apply db.memtable = some m) :
    Layered { db with memtable := m } K (recordVersions rs ∪ H) floor := by
  induction rs generalizing db H with
  | nil =>
    obtain rfl : db.memtable = m := Option.some.inj written
    rw [recordVersions_nil, empty_union]
    exact layered
  | cons r rs ih =>
    rw [foldlM_cons] at written
    obtain ⟨m₁, applied, rest⟩ := Option.bind_eq_some_iff.mp written
    have wrote := layered.write (fits r (by simp)) (data r (by simp)) (keys r (by simp))
      (newest r (by simp)) (high r (by simp)) applied
    obtain ⟨others, single'⟩ := pairwise_cons.mp single
    have whole : recordVersions (r :: rs) ∪ H = recordVersions rs ∪ ({r.version} ∪ H) := by
      rw [recordVersions_cons, ← union_assoc, union_comm (recordVersions rs)]
    rw [whole]
    obtain ⟨next, same⟩ : ∃ next, next = { db with memtable := m₁ } := ⟨_, rfl⟩
    have unchanged : { db with memtable := m } = { next with memtable := m } := by rw [same]
    rw [← same] at wrote
    rw [unchanged]
    refine ih wrote (fun r' listed => fits r' (by simp [listed]))
      (fun r' listed => data r' (by simp [listed])) (fun r' listed => keys r' (by simp [listed])) single'
      (fun r' listed v stored same => ?_) (fun r' listed => high r' (by simp [listed])) (by rw [same]; exact rest)
    -- The record just written is of another key.
    rcases stored with rfl | old
    · exact absurd same (others r' listed)
    · exact newest r' (by simp [listed]) v old same

variable {front inputs : List (Nat × Table)} {w s : Nat} {bottomOfLSM : Bool} {merged : Table} {k : Key} {b : Batch}

theorem Layered.tail (layered : db.Layered K H floor) (split : db.sstables = front ++ inputs) :
    Layered { db with memtable := Memtable.new, sstables := inputs } K (tableVersions (inputs.map Prod.snd)) 0 := by
  have tables : db.tables = front.map Prod.snd ++ inputs.map Prod.snd := by
    rw [Db.tables, split, map_append]
  have part : tableVersions (inputs.map Prod.snd) ⊆ H := by
    refine fun v stored => layered.keeps.sub (.inr ?_)
    rw [tables, tableVersions_append]
    exact .inr stored
  have all : versions { db with memtable := Memtable.new, sstables := inputs } =
      tableVersions (inputs.map Prod.snd) := by
    rw [versions, versions_new, empty_union]
    rfl
  have stacked := layered.stacked
  rw [tables] at stacked
  refine ⟨layered.frozen, open_new, fun t listed => layered.tables t ?_,
    (pairwise_append.mp stacked).2.1, fun t _ u upper => ?_,
    fun v stored w stored' => layered.functional v (part stored) w (part stored'),
    fun v stored => layered.within v (part stored), all ▸ .refl _ _, fun _ _ => all ▸ .refl _ _⟩
  · rw [tables]
    exact mem_append_right _ listed
  · change u ∈ Memtable.new.versions at upper
    rw [versions_new] at upper
    exact upper.elim

theorem Layered.shows_collected (id : Nat) {r : Option Value} (layered : db.Layered K H floor) (free : Free K)
    (named : [] ∉ K) (tables : db.sstables = inputs) (buffer : db.memtable = Memtable.new)
    (made : compactSSTables (inputs.map Prod.snd) w bottomOfLSM = .ok merged)
    (spared : w ≤ s ∨ ∀ v ∈ tableVersions (inputs.map Prod.snd), v.ts ≤ s) :
    Shows (versions { db with sstables := [(id, merged)] }) k s r ↔ Shows db.versions k s r := by
  have collected : Layered { db with sstables := [] ++ [(id, merged)] } K db.versions (max 0 w) :=
    layered.self.collect (by simpa using tables) made
  have follows := collected.follows free named
  rw [Nat.zero_max] at follows
  by_cases above : w ≤ s
  · exact follows.shows_above above
  · -- Nothing lies between the snapshot and the watermark, so both show there what they show below it.
    have low := spared.resolve_left above
    have old : ∀ v ∈ db.versions, v.key = k → v.ts ≤ s := by
      rintro v (held | stored) -
      · rw [buffer, versions_new] at held
        exact held.elim
      · rw [Db.tables, tables] at stored
        exact low v stored
    have new : ∀ v ∈ versions { db with sstables := [(id, merged)] }, v.key = k → v.ts ≤ s :=
      fun v stored key => old v (follows.sub stored) key
    have up : s ≤ w := (not_le.mp above).le
    rw [shows_top new up, shows_top old up]
    exact follows.shows_above (le_refl w)

theorem Layered.read_collected (k : Key) (layered : db.Layered K H floor) (free : Free K) (named : [] ∉ K)
    (fits : s < 2 ^ 64) (split : db.sstables = front ++ inputs)
    (made : compactSSTables (inputs.map Prod.snd) w bottomOfLSM = .ok merged)
    (spared : w ≤ s ∨ ∀ v ∈ tableVersions (inputs.map Prod.snd), v.ts ≤ s) :
    getAsOfSnapshot k s Memtable.new none [merged] = getAsOfSnapshot k s Memtable.new none (inputs.map Prod.snd) := by
  have alone := layered.tail split
  obtain ⟨r, shows⟩ := exists_shows (versions { db with memtable := Memtable.new, sstables := inputs }) k s
  have after : Layered { db with memtable := Memtable.new, sstables := [] ++ [(0, merged)] } K
      (versions { db with memtable := Memtable.new, sstables := inputs }) (max 0 w) :=
    alone.self.collect rfl made
  have shown := (alone.shows_collected 0 free named rfl rfl made spared).mpr shows
  have left := after.self.read free named (Nat.zero_le _) fits shown
  have right := alone.self.read free named (Nat.zero_le _) fits shows
  exact left.trans right.symm

theorem getAsOfSnapshot_oldest {front oldest oldest' : List Table}
    (same : getAsOfSnapshot k s Memtable.new none oldest = getAsOfSnapshot k s Memtable.new none oldest')
    (m : Memtable) (frozen : Option Memtable) :
    getAsOfSnapshot k s m frozen (front ++ oldest) = getAsOfSnapshot k s m frozen (front ++ oldest') := by
  have nothing : Memtable.new.getAsOf k s = none := rfl
  unfold getAsOfSnapshot at same ⊢
  simp only [nothing, Option.bind_none, findSome?_append] at same ⊢
  cases m.getAsOf k s with
  | some hit => rfl
  | none =>
    cases frozen.bind fun m => m.getAsOf k s with
    | some hit => rfl
    | none =>
      cases front.findSome? fun t => t.getAsOf k s with
      | some hit => rfl
      | none => exact same

/-- Layers behind the buffer of a failed flush, with the clock ahead. -/
structure Settled (K : Set Key) (db : Db) : Prop where
  layers : Layered { db with frozen := none } K db.versions 0
  past : ∀ v ∈ db.versions, v.ts ≤ db.appliedTS
  clock : db.appliedTS < db.nextTimestamp
  range : db.nextTimestamp < 2 ^ 64

/-- A database that has only grown: newer tables, later commits. -/
structure Grown (K : Set Key) (db db' : Db) : Prop where
  settled : db'.Settled K
  tables : ∃ front, db'.sstables = front ++ db.sstables
  applied : db.appliedTS ≤ db'.appliedTS

theorem Sound.settled (sound : db.Sound K) : db.Settled K := by
  obtain ⟨H, floor, layered, -, past⟩ := sound.layered
  refine ⟨layered.self.congr rfl layered.frozen.symm rfl, fun v stored => past v (layered.keeps.sub stored), ?_,
    sound.range⟩
  have clock := sound.clock
  omega

theorem Settled.refl (settled : db.Settled K) : Grown K db db := ⟨settled, ⟨[], rfl⟩, le_refl _⟩

theorem Grown.trans {db'' : Db} (first : Grown K db db') (second : Grown K db' db'') : Grown K db db'' := by
  obtain ⟨front, tables⟩ := first.tables
  obtain ⟨front', tables'⟩ := second.tables
  refine ⟨second.settled, ⟨front' ++ front, ?_⟩, first.applied.trans second.applied⟩
  rw [tables', tables, append_assoc]

theorem Settled.ahead (settled : db.Settled K) (buffer : db'.memtable = db.memtable)
    (tables : db'.sstables = db.sstables) (applied : db'.appliedTS = db.appliedTS)
    (clock : db'.appliedTS < db'.nextTimestamp) (range : db'.nextTimestamp < 2 ^ 64) : Grown K db db' := by
  have all : db'.versions = db.versions := by
    rw [versions, versions, Db.tables, Db.tables, buffer, tables]
  refine ⟨⟨?_, ?_, clock, range⟩, ⟨[], tables⟩, applied.ge⟩
  · rw [all]
    exact settled.layers.congr buffer rfl tables
  · rw [all, applied]
    exact settled.past

theorem Settled.emptied (settled : db.Settled K) (buffer : db'.memtable = Memtable.new)
    (tables : db'.sstables = db.sstables) (applied : db'.appliedTS = db.appliedTS)
    (next : db'.nextTimestamp = db.nextTimestamp) : Grown K db db' := by
  have split : db.sstables = [] ++ db.sstables := rfl
  have alone := (settled.layers.tail split).self
  have shape : Layered { db' with frozen := none } K db'.versions 0 := by
    have fewer : db'.versions =
        versions { db with frozen := none, memtable := Memtable.new, sstables := db.sstables } := by
      rw [versions, versions, Db.tables, Db.tables, buffer, tables]
    rw [fewer]
    exact alone.congr buffer rfl tables
  refine ⟨⟨shape, fun v stored => ?_, ?_, ?_⟩, ⟨[], tables⟩, applied.ge⟩
  · rw [applied]
    rcases stored with held | old
    · rw [buffer, versions_new] at held
      exact held.elim
    · rw [Db.tables, tables] at old
      exact settled.past v (.inr old)
  · rw [applied, next]
    exact settled.clock
  · rw [next]
    exact settled.range

theorem Layered.logged (ts : Nat) (layers : Layered { db with frozen := none } K db.versions 0)
    (past : ∀ v ∈ db.versions, v.ts ≤ db.appliedTS) (logs : Logged db db' b)
    (stamped : ∀ r ∈ b.data, r.timestamp = ts) (fits : ts < 2 ^ 64) (data : ∀ r ∈ b.data, r.op ≠ .commit)
    (keys : ∀ r ∈ b.data, r.key ∈ K) (single : b.data.Pairwise fun r r' => r.key ≠ r'.key)
    (newer : b.data ≠ [] → db.appliedTS < ts) (applied : db'.appliedTS = max db.appliedTS ts) :
    Layered { db' with frozen := none } K db'.versions 0 ∧ ∀ v ∈ db'.versions, v.ts ≤ db'.appliedTS := by
  have late : ∀ r ∈ b.data, db.appliedTS < r.timestamp := by
    intro r listed
    rw [stamped r listed]
    exact newer (ne_nil_of_mem listed)
  have wrote := layers.writes (fun r listed => by rw [stamped r listed]; exact fits) data keys single
    (fun r listed v stored _ => (past v stored).trans_lt (late r listed))
    (fun r listed => (Nat.zero_le _).trans_lt (late r listed)) logs.memtable
  have all : db'.versions = versions { db with frozen := none, memtable := db'.memtable } := by
    rw [versions, versions, Db.tables, Db.tables, logs.sstables]
  refine ⟨?_, fun v stored => ?_⟩
  · rw [all]
    exact wrote.self.congr rfl rfl logs.sstables
  · rw [all] at stored
    rw [applied]
    -- A version is one of the batch, or was there before.
    rcases wrote.keeps.sub stored with ⟨r, listed, rfl⟩ | old
    · exact (stamped r listed).le.trans (le_max_right _ _)
    · exact (past v old).trans (le_max_left _ _)

theorem Settled.logged (ts : Nat) (settled : db.Settled K) (logs : Logged db db' b)
    (stamped : ∀ r ∈ b.data, r.timestamp = ts) (fits : ts < 2 ^ 64) (data : ∀ r ∈ b.data, r.op ≠ .commit)
    (keys : ∀ r ∈ b.data, r.key ∈ K) (single : b.data.Pairwise fun r r' => r.key ≠ r'.key)
    (newer : b.data ≠ [] → db.appliedTS < ts) (applied : db'.appliedTS = max db.appliedTS ts)
    (clock : db'.appliedTS < db'.nextTimestamp) (range : db'.nextTimestamp < 2 ^ 64) : Grown K db db' := by
  obtain ⟨layers, past⟩ := settled.layers.logged ts settled.past logs stamped fits data keys single newer applied
  exact ⟨⟨layers, past, clock, range⟩, ⟨[], logs.sstables⟩, applied ▸ le_max_left _ _⟩

theorem Settled.flushed {t : Table} (settled : db.Settled K) (made : FlushTable db t) : Grown K db (db.flushed t) := by
  have table : FlushTable { db with frozen := none } t :=
    ⟨made.filled, made.valid, made.versions, made.applied, made.reached⟩
  have layered := settled.layers.flushed table
  refine ⟨⟨layered.self, fun v stored => settled.past v (layered.keeps.sub stored), settled.clock,
    settled.range⟩, ⟨[(db.nextID, t)], rfl⟩, le_refl _⟩

theorem Settled.flushing {dirs : List Dir} (settled : db.Settled K) (flush : Flushing db done dirs) :
    Grown K db done := by
  cases flush with
  | idle => exact settled.refl
  | made t table => exact settled.flushed table

theorem Settled.failFlush {fault : FlushFault} {left : Db} {logging : Bool} (settled : db.Settled K)
    (failed : db.failFlush fault = some (left, logging)) : Grown K db left := by
  have ready : db.memtable.Open := settled.layers.memtable
  rcases flushLocked_ok ready with ⟨-, idle⟩ | ⟨t, table, made⟩
  · simp only [Db.failFlush, idle] at failed
    cases failed
  · simp only [Db.failFlush, made, Db.flushDirs] at failed
    have flush := settled.flushed table
    have same : ∀ dir, Grown K db { db.flushed t with dir := dir } := fun dir =>
      flush.trans (flush.settled.ahead rfl rfl rfl flush.settled.clock flush.settled.range)
    -- The table is known to the database only if the failure came after the new log.
    cases fault <;> simp only [Option.some.injEq, Prod.mk.injEq] at failed <;> obtain ⟨rfl, -⟩ := failed
    case appliedBase renamed => exact same _
    case sessions renamed => exact same _
    all_goals exact settled.emptied rfl rfl rfl rfl

end Db

end Store
