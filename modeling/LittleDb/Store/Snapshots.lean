import LittleDb.Store.EngineSteps
import LittleDb.Store.Open

/-! Snapshot reads: every read of an open transaction returns what was committed before it began. -/

namespace Store

open Versioned List

namespace Db

/-- Layers hold a history up to the applied timestamp, with clock room. -/
structure Sound (db : Db) (K : Set Key) : Prop where
  up : db.closed = false
  clock : db.nextTimestamp = db.appliedTS + 1
  range : db.nextTimestamp < 2 ^ 64
  layered : ∃ H floor, db.Layered K H floor ∧ floor ≤ db.appliedTS ∧ ∀ v ∈ H, v.ts ≤ db.appliedTS

def fresh (opts : Options) : Db where
  opts := opts.normalize
  dir := Dir.empty
  memtable := Memtable.new
  frozen := none
  retired := []
  sstables := []
  nextID := 1
  nextTimestamp := 1
  appliedIndex := 0
  recoveredApplied := 0
  appliedTS := 0
  sessions := fun _ => 0
  closed := false

theorem layered_fresh (opts : Options) (K : Set Key) : (fresh opts).Layered K ∅ 0 := by
  have nothing : (fresh opts).versions = ∅ := by
    simp [versions, fresh, tables]
  refine ⟨rfl, Memtable.open_new, by simp [tables, fresh], .nil, by simp [tables, fresh],
    by simp [Functional], by simp, nothing ▸ .refl _ _, fun _ _ => nothing ▸ .refl _ _⟩

theorem sound_fresh (opts : Options) (K : Set Key) : (fresh opts).Sound K :=
  ⟨rfl, rfl, by simp [fresh], ∅, 0, layered_fresh opts K, le_refl _, by simp⟩

def value (db : Db) (k : Key) : Option Value := (db.get k).toOption

@[simp] theorem toOption_answerOf (r : Option Value) : (answerOf r).toOption = r := by
  cases r <;> rfl

theorem Layered.agrees {db : Db} {K : Set Key} {H : Set (Version Key Value)} {floor : Nat}
    (layered : db.Layered K H floor) (up : db.closed = false) (clock : db.nextTimestamp = db.appliedTS + 1)
    (range : db.nextTimestamp < 2 ^ 64) (low : floor ≤ db.appliedTS) (past : ∀ v ∈ H, v.ts ≤ db.appliedTS)
    (free : Free K) (named : [] ∉ K) : Agrees db.value H db.appliedTS [] := by
  intro k r
  -- Nothing was written between the applied timestamp and the next one.
  have settled : ∀ r, Shows H k db.appliedTS r ↔ Shows H k db.nextTimestamp r :=
    fun r => shows_top (fun v stored _ => past v stored) (by omega)
  have reads : ∀ r, Shows H k db.nextTimestamp r → db.value k = r := by
    intro r shows
    have answer := layered.read free named (by omega : floor ≤ db.nextTimestamp) range shows
    rw [value, get, up, layered.frozen]
    simp [answer]
  obtain ⟨r₀, shows₀⟩ := exists_shows H k db.nextTimestamp
  rw [settled, valueOf]
  constructor
  · exact fun shows => (reads r shows).symm
  · intro same
    rw [same, reads r₀ shows₀]
    exact shows₀

end Db

namespace Engine

variable {K : Set Key} {H₀ : Set (Version Key Value)} {base : Key → Option Value} {s s' : Engine}
  {events : List Event} {past : List Engine} {start : Db}

theorem inv_new {floor : Nat} (up : start.closed = false) (clock : start.nextTimestamp = start.appliedTS + 1)
    (range : start.nextTimestamp < 2 ^ 64) (layered : start.Layered K H₀ floor) (low : floor ≤ start.appliedTS)
    (applied : ∀ v ∈ H₀, v.ts ≤ start.appliedTS) (agrees : Agrees base H₀ start.appliedTS []) :
    Inv K H₀ base (new start) [] := by
  have none_yet : history [] = ∅ := by
    ext v
    simp [history]
  have same : H₀ ∪ history [] = H₀ := by rw [none_yet, Set.union_empty]
  have all : (new start).written H₀ [] = H₀ := by
    rw [written, same]
    exact Set.empty_union _
  have layers : (new start).db.Layered K ((new start).written H₀ []) floor := by
    rw [all]
    exact layered
  refine ⟨up, ⟨floor, layers, low, by simp [new]⟩, same.symm ▸ agrees, same.symm ▸ applied,
    fun _ => clock, range, by simp [new], by simp [new], by simp [new], fun _ _ _ => rfl,
    by simp [new], by simp [new], trivial⟩

theorem single_split {e x : Event} {newer older : List Event} (split : [e] = newer ++ x :: older) :
    x = e ∧ older = [] := by
  cases newer with
  | nil => simpa [eq_comm] using split
  | cons y newer => simp at split

theorem reply_data {op : Op} (value : Value) (data : op ≠ .commit) :
    reply (op, value) = answerOf (payload op value) := by
  cases op with
  | put => rfl
  | delete => rfl
  | commit => exact absurd rfl data

theorem Inv.got {a : Act} {new newer older : List Event} {id : Nat} {k : Key} {r : Except DbError Value}
    (inv : Inv K H₀ base s events) (free : Free K) (named : [] ∉ K) (moves : Moves s a s' new)
    (returned : new = newer ++ .got id k r :: older) : older = [] ∧ r = answerOf (expected base events id k) := by
  cases moves with
  | own ready stillOpen found =>
    obtain ⟨same, rfl⟩ := single_split returned
    simp only [Event.got.injEq] at same
    obtain ⟨rfl, rfl, rfl⟩ := same
    refine ⟨rfl, ?_⟩
    -- The buffered writes are the recorded ones.
    rename_i t hit
    obtain ⟨op, value⟩ := hit
    obtain ⟨known, _⟩ := ready_eq ready
    have txn := inv.txns id t known
    have data := (txn.data _ ((SortedMap.get_eq_some txn.sorted).mp found)).2
    rw [txn.own stillOpen k] at found
    rw [expected, found]
    exact reply_data value data
  | down id' k' closed => exact absurd closed (by simp [inv.up])
  | read captured =>
    obtain ⟨same, rfl⟩ := single_split returned
    simp only [Event.got.injEq] at same
    obtain ⟨rfl, rfl, rfl⟩ := same
    refine ⟨rfl, ?_⟩
    obtain ⟨_, t, known, stillOpen, none_own, sees⟩ := inv.reading id _ captured
    obtain ⟨floor, layered, _⟩ := inv.layered
    have low := (inv.txns id t known).low
    have range := inv.range
    -- The clock is ahead of every snapshot.
    have fits : t.readSnap < 2 ^ 64 := by
      cases under : s.writer with
      | none =>
        have clock := inv.clock under
        omega
      | some c =>
        obtain ⟨isNext, next, _⟩ := inv.writing c under
        omega
    have snapshot : s.readSnap id = t.readSnap := by simp [readSnap, known]
    rw [expected, none_own, snapshot]
    exact (sees free named).read layered.within free fits
  | begin | buffer | empty | conflicted | finish =>
    obtain ⟨same, _⟩ := single_split returned
    cases same
  | _ => simp at returned

/--
Snapshot reads are stable.

Whatever else is under way, an open transaction reads its own last write of a key, or else the value after the
commits completed before it began.
-/
theorem snapshot_reads (free : Free K) (named : [] ∉ K) (sound : start.Sound K)
    (run : Run.Reach step (fun s a => s.Fine K a) (new start) s past events)
    {newer older : List Event} {id : Nat} {k : Key} {r : Except DbError Value}
    (returned : events = newer ++ .got id k r :: older) :
    r = answerOf (expected start.value older id k) := by
  obtain ⟨H, floor, layered, low, applied⟩ := sound.layered
  have agrees := layered.agrees sound.up sound.clock sound.range low applied free named
  have init := inv_new sound.up sound.clock sound.range layered low applied agrees
  -- Every read on record was right when it was recorded, and the record only grows.
  suffices ∀ newer older id k r, events = newer ++ .got id k r :: older →
      r = answerOf (expected start.value older id k) from this newer older id k r returned
  clear returned
  have both : Inv K H start.value s events ∧ ∀ newer older id k r,
      events = newer ++ .got id k r :: older → r = answerOf (expected start.value older id k) := by
    refine Run.Reach.invariant (P := fun s _ events => Inv K H start.value s events ∧
      ∀ newer older id k r, events = newer ++ .got id k r :: older →
        r = answerOf (expected start.value older id k)) ⟨init, by simp⟩ ?_ run
    rintro s a s' past events new _ fine moved ⟨inv, right⟩
    refine ⟨inv.step fine moved, fun newer older id k r returned => ?_⟩
    rcases append_eq_append_iff.mp returned with ⟨front, rfl, rest⟩ | ⟨back, split, rest⟩
    · exact right front older id k r rest
    · cases back with
      | nil =>
        exact right [] older id k r (by simpa using rest.symm)
      | cons e back =>
        simp only [cons_append, List.cons.injEq] at rest
        obtain ⟨rfl, rfl⟩ := rest
        obtain ⟨rfl, answer⟩ := inv.got free named (moves moved) split
        exact answer
  exact both.2

def oneByte : Set Key := { k | k.length = 1 }

theorem free_oneByte : Free oneByte := by
  intro k here k' there front
  exact front.eq_of_length ((show k.length = 1 from here).trans (show k'.length = 1 from there).symm)

/-- Whether a step keeps to keys of one byte and has a timestamp left. -/
def fineCheck (s : Engine) : Act → Bool
  | .put _ key _ => key.length = 1
  | .delete _ key => key.length = 1
  | .commit _ => s.db.nextTimestamp + 1 < 2 ^ 64
  | _ => true

theorem fine_of_check {s : Engine} {a : Act} (passed : fineCheck s a = true) : s.Fine oneByte a := by
  cases a <;> simp_all [fineCheck, Fine, oneByte]

/-- The second transaction begins between two commits, reading the first. -/
def overlap : List Act :=
  [.begin 0, .register 0, .put 0 [97] [1], .commit 0, .write, .finish,
    .begin 1, .register 1,
    .begin 2, .register 2, .put 2 [97] [2], .commit 2, .write, .finish, .flush,
    .get 1 [97], .read 1]

/-- A run with an overwritten key, and the read returns the older value. -/
theorem snapshot_reads_overlap : ∃ s past older,
    Run.Reach step (fun s a => s.Fine oneByte a) (new (Db.fresh ⟨0, 0⟩)) s past
      (.got 1 [97] (.ok [1]) :: older) ∧
    (.ok [1] : Except DbError Value) = answerOf (expected (Db.fresh ⟨0, 0⟩).value older 1 [97]) := by
  obtain ⟨s, past, events, run, passed⟩ := Run.exec_exists step fineCheck (new (Db.fresh ⟨0, 0⟩))
    overlap (fun r => decide (r.2.2.head? = some (.got 1 [97] (.ok [1])))) (by rfl)
  have fine := run.weaken fun s a passed => fine_of_check passed
  cases events with
  | nil => simp at passed
  | cons e older =>
    obtain rfl : e = .got 1 [97] (.ok [1]) := by simpa using passed
    refine ⟨s, past, older, fine, ?_⟩
    exact snapshot_reads free_oneByte (by simp [oneByte]) (Db.sound_fresh ⟨0, 0⟩ oneByte) fine
      (nil_append _).symm

end Engine

end Store
