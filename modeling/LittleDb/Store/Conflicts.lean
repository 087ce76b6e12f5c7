import LittleDb.Store.Snapshots

/-! Write conflicts: of two transactions that write one key, the first to commit wins. -/

namespace Store

open Versioned Function List

theorem mem_of_mem_before {id : Nat} {x : Event} {events : List Event}
    (listed : x ∈ before id events) : x ∈ events := by
  induction events with
  | nil => simp [before] at listed
  | cons e events ih =>
    by_cases own : e = .began id
    · subst own
      simp only [before, if_true] at listed
      exact mem_cons_of_mem _ listed
    · rw [before_cons own] at listed
      exact mem_cons_of_mem _ (ih listed)

theorem mem_before_cons {id : Nat} {x e : Event} {events : List Event}
    (listed : x ∈ before id events) : x ∈ before id (e :: events) := by
  by_cases own : e = .began id
  · subst own
    simpa [before] using mem_of_mem_before listed
  · rwa [before_cons own]

/-- Of two commits of one key, one was on record when the other began. -/
def Ordered (events : List Event) : Prop :=
  ∀ a b tsa tsb wa wb k, a ≠ b → .committed a tsa wa ∈ events → .committed b tsb wb ∈ events →
    k ∈ wa.map Prod.fst → k ∈ wb.map Prod.fst →
    .committed a tsa wa ∈ before b events ∨ .committed b tsb wb ∈ before a events

namespace Engine

variable {K : Set Key} {H₀ : Set (Version Key Value)} {base : Key → Option Value} {s s' : Engine}
  {events : List Event} {past : List Engine} {start : Db}

/-- The commit under way met no commit of its keys later than its snapshot. -/
def Unopposed (s : Engine) (events : List Event) : Prop :=
  ∀ c t, s.writer = some c → s.txns c.id = some t → ∀ id ts writes, .committed id ts writes ∈ events →
    ∀ k ∈ t.writes.map Prod.fst, k ∈ writes.map Prod.fst → ts ≤ t.readSnap

/-- A commit was under way before, or has just passed its check. -/
theorem step_writer {a : Act} {new : List Event} {c' : Committing} {t' : Txn} (moved : s.step a = some (s', new))
    (under : s'.writer = some c') (known : s'.txns c'.id = some t') :
    (∃ c, s.writer = some c ∧ s.txns c.id = some t') ∨
    (∃ id, s.ready id = some t' ∧ t'.finished = false ∧ s.db.conflicts t' = false) := by
  -- Changing another transaction leaves the committing one.
  have keep : ∀ id t, s.ready id = some t → ∀ t₁, s'.txns = update s.txns id (some t₁) →
      s'.writer = s.writer → ∃ c, s.writer = some c ∧ s.txns c.id = some t' := by
    intro id t ready t₁ txns same
    rw [same] at under
    have away := (ready_eq ready).2.2.2 c' under
    rw [txns, update_of_ne away] at known
    exact ⟨c', under, known⟩
  cases moves moved with
  | begin id unknown unlocked => exact absurd (under.symm.trans unlocked) (by simp)
  | buffer ready | rollback ready | closed ready | empty ready | conflicted ready =>
    exact .inl (keep _ _ ready _ rfl rfl)
  | @commit id t ready stillOpen unlocked clear =>
    -- The check has just been passed.
    cases under
    obtain rfl := Option.some.inj ((ready_eq ready).1.symm.trans known)
    exact .inr ⟨id, ready, stillOpen, clear⟩
  | write before =>
    cases under
    exact .inl ⟨_, before, known⟩
  | finish => cases under
  | compact compacts =>
    obtain ⟨writer, txns⟩ : s'.writer = s.writer ∧ s'.txns = s.txns := by cases compacts <;> exact ⟨rfl, rfl⟩
    exact .inl ⟨c', writer ▸ under, txns ▸ known⟩
  | _ => exact .inl ⟨c', under, known⟩

theorem mem_history {id ts : Nat} {writes : Writes} {k : Key} (listed : .committed id ts writes ∈ events)
    (wrote : k ∈ writes.map Prod.fst) : ∃ v ∈ history events, v.key = k ∧ v.ts = ts := by
  obtain ⟨e, within, rfl⟩ := mem_map.mp wrote
  exact ⟨⟨e.1, ts, payload e.2.1 e.2.2⟩, ⟨id, ts, writes, listed, e, within, rfl⟩, rfl, rfl⟩

section

variable (inv : Inv K H₀ base s events)
include inv

theorem Inv.conflicts_iff {id : Nat} {t : Txn} (free : Free K)
    (known : s.txns id = some t) (stillOpen : t.finished = false) : s.db.conflicts t = true ↔
    ∃ v ∈ s.written H₀ events, v.key ∈ t.writes.map Prod.fst ∧ t.readSnap < v.ts := by
  obtain ⟨floor, layered, below⟩ := inv.layered
  have high := below.2 id t known stillOpen
  simp only [Db.conflicts, any_eq_true, layered.newer_iff_written free high]
  constructor
  · rintro ⟨e, listed, v, written, key, newer⟩
    exact ⟨v, written, key ▸ mem_map_of_mem listed, newer⟩
  · rintro ⟨v, written, wrote, newer⟩
    obtain ⟨e, listed, key⟩ := mem_map.mp wrote
    exact ⟨e, listed, v, written, key.symm, newer⟩

/-- Every step keeps the commit under way unopposed. -/
theorem Unopposed.step {a : Act} {new : List Event} (free : Free K)
    (unopposed : s.Unopposed events) (moved : s.step a = some (s', new)) : s'.Unopposed (new ++ events) := by
  intro c' t' under known id ts writes listed k wrote wrote'
  -- While a commit is under way no other one with writes gets on record.
  have older : .committed id ts writes ∈ events := by
    rcases mem_append.mp listed with now | older
    · cases moves moved with
      | finish => cases under
      | empty =>
        simp only [mem_singleton, Event.committed.injEq] at now
        rw [now.2.2] at wrote'
        exact absurd wrote' (by simp)
      | _ => simp at now
    · exact older
  rcases step_writer moved under known with ⟨c, was, found⟩ | ⟨id', ready, stillOpen, clear⟩
  · exact unopposed c t' was found id ts writes older k wrote wrote'
  · by_contra later
    obtain ⟨found, _⟩ := ready_eq ready
    obtain ⟨v, past, key, stamp⟩ := mem_history older wrote'
    have conflict := (inv.conflicts_iff free found stillOpen).mpr
      ⟨v, .inr (.inr past), key ▸ wrote, stamp ▸ not_le.mp later⟩
    exact absurd (clear.symm.trans conflict) (by simp)

theorem Inv.ordered {a : Act} {new : List Event} (unopposed : s.Unopposed events)
    (ordered : Ordered events) (moved : s.step a = some (s', new)) : Ordered (new ++ events) := by
  -- With no new commit that writes something, nothing new is to be ordered.
  have quiet : ∀ e, e.Quiet → Ordered (e :: events) := by
    intro e quiet a b tsa tsb wa wb k away first second wrote wrote'
    have older : ∀ id ts writes, .committed id ts writes ∈ e :: events → k ∈ writes.map Prod.fst →
        .committed id ts writes ∈ events := by
      intro id ts writes listed has
      rcases mem_cons.mp listed with rfl | old
      · obtain rfl : writes = [] := quiet
        cases has
      · exact old
    exact (ordered a b tsa tsb wa wb k away (older _ _ _ first wrote) (older _ _ _ second wrote') wrote
      wrote').imp mem_before_cons mem_before_cons
  cases moves moved with
  | @finish id ts done _ _ _ under =>
    obtain ⟨_, _, _, t, known, _, split⟩ := inv.writing _ under
    simp only [append_nil] at known split
    -- An older commit of one of its keys is in its snapshot, hence from before it began.
    have settled : ∀ id' ts' writes k, .committed id' ts' writes ∈ events → k ∈ done.map Prod.fst →
        k ∈ writes.map Prod.fst → .committed id' ts' writes ∈ before id events := by
      intro id' ts' writes k old wrote wrote'
      have low := unopposed _ t under known id' ts' writes old k (split ▸ wrote) wrote'
      refine (inv.txns id t known).earlier id' ts' writes old ?_ low
      rintro rfl
      exact absurd wrote' (by simp)
    intro a b tsa tsb wa wb k away first second wrote wrote'
    rw [singleton_append] at first second ⊢
    rcases mem_cons.mp first with isA | oldA
    · cases isA
      rcases mem_cons.mp second with isB | oldB
      · cases isB
        exact absurd rfl away
      · exact .inr (mem_before_cons (settled b tsb wb k oldB wrote wrote'))
    · rcases mem_cons.mp second with isB | oldB
      · cases isB
        exact .inl (mem_before_cons (settled a tsa wa k oldA wrote' wrote))
      · exact (ordered a b tsa tsb wa wb k away oldA oldB wrote wrote').imp mem_before_cons mem_before_cons
  | @empty id => exact quiet (.committed id 0 []) rfl
  | begin | buffer | own | down | read | conflicted => exact quiet _ trivial
  | _ => exact ordered

end

theorem conflicted_iff {id : Nat} {t : Txn} {new : List Event} (ready : s.ready id = some t)
    (stillOpen : t.finished = false) (up : s.db.closed = false) (moved : s.step (.commit id) = some (s', new)) :
    .conflicted id ∈ new ↔ s.db.conflicts t = true := by
  simp only [Engine.step, Engine.startCommit, ready, stillOpen, up, Bool.false_eq_true, if_false] at moved
  split_ifs at moved with locked empty conflict <;> cases moved
  · rw [List.isEmpty_iff] at empty
    simp [Db.conflicts, empty]
  · simp [conflict]
  · simp [conflict]

/--
First committer wins.

Of two transactions that commit a write of one key one began after the other had committed, and a commit is refused
exactly when a key it writes has a committed version above its snapshot.
-/
theorem first_committer_wins (free : Free K) (sound : start.Sound K)
    (run : Run.Reach step (fun s a => s.Fine K a) (new start) s past events) :
    Ordered events ∧ ∀ id t s' recorded, s.ready id = some t → t.finished = false →
      s.step (.commit id) = some (s', recorded) →
      (.conflicted id ∈ recorded ↔ ∃ v ∈ s.db.versions ∪ history events,
        v.key ∈ t.writes.map Prod.fst ∧ t.readSnap < v.ts) := by
  obtain ⟨H, floor, layered, low, applied⟩ := sound.layered
  -- What the start shows, whatever its keys are.
  choose base shown using fun k => exists_shows H k start.appliedTS
  have agrees : Agrees base H start.appliedTS [] := fun k r =>
    ⟨fun shows => shows.unique layered.functional (shown k), fun same => same ▸ shown k⟩
  have init := inv_new sound.up sound.clock sound.range layered low applied agrees
  obtain ⟨inv, unopposed, ordered⟩ : Inv K H base s events ∧ s.Unopposed events ∧ Ordered events := by
    refine Run.Reach.invariant (P := fun s _ events => Inv K H base s events ∧
      s.Unopposed events ∧ Ordered events) ⟨init, by simp [Unopposed], by simp [Ordered]⟩ ?_ run
    rintro s a s' past events new _ fine moved ⟨inv, unopposed, ordered⟩
    exact ⟨inv.step fine moved, unopposed.step inv free moved, inv.ordered unopposed ordered moved⟩
  refine ⟨ordered, fun id t s' recorded ready stillOpen moved => ?_⟩
  obtain ⟨known, _⟩ := ready_eq ready
  rw [conflicted_iff ready stillOpen inv.up moved, inv.conflicts_iff free known stillOpen]
  obtain ⟨floor', layered', below⟩ := inv.layered
  have high := below.2 id t known stillOpen
  constructor
  · rintro ⟨v, written, wrote, newer⟩
    exact ⟨v, .inl (layered'.keeps.above v written (lt_of_le_of_lt high newer)), wrote, newer⟩
  · rintro ⟨v, held | committed, wrote, newer⟩
    · exact ⟨v, layered'.keeps.sub held, wrote, newer⟩
    · exact ⟨v, .inr (.inr committed), wrote, newer⟩

/-- Two transactions from one snapshot write one key, and one has committed. -/
def contended : List Act :=
  [.begin 0, .register 0, .begin 1, .register 1, .put 1 [97] [1], .commit 1, .write, .finish,
    .put 0 [97] [2]]

/-- With keys of one byte the second of the two is refused. -/
theorem first_committer_wins_contended : ∃ s past events t s' recorded,
    Run.Reach step (fun s a => s.Fine oneByte a) (new (Db.fresh ⟨0, 0⟩)) s past events ∧
    s.ready 0 = some t ∧ t.finished = false ∧ s.step (.commit 0) = some (s', recorded) ∧
    (.conflicted 0 ∈ recorded ↔ ∃ v ∈ s.db.versions ∪ history events,
      v.key ∈ t.writes.map Prod.fst ∧ t.readSnap < v.ts) ∧
    .conflicted 0 ∈ recorded := by
  obtain ⟨s, past, events, run, passed⟩ := Run.exec_exists step fineCheck (new (Db.fresh ⟨0, 0⟩))
    contended (fun r => (r.1.ready 0).any fun t : Txn => decide (t.finished = false) &&
      (r.1.step (.commit 0)).any fun moved : Engine × List Event => decide (moved.2 = [.conflicted 0]))
    (by rfl)
  have fine := run.weaken fun s a passed => fine_of_check passed
  obtain ⟨t, ready, tested⟩ := (Option.any_eq_true _ _).mp passed
  rw [Bool.and_eq_true, decide_eq_true_eq] at tested
  obtain ⟨stillOpen, committing⟩ := tested
  obtain ⟨⟨s', recorded⟩, moved, conflict⟩ := (Option.any_eq_true _ _).mp committing
  obtain rfl : recorded = [.conflicted 0] := of_decide_eq_true conflict
  exact ⟨s, past, events, t, s', [.conflicted 0], fine, ready, stillOpen, moved,
    (first_committer_wins free_oneByte (Db.sound_fresh ⟨0, 0⟩ oneByte) fine).2 0 t s' _ ready
      stillOpen moved, by simp⟩

/-- One transaction writes a key and one extending it, between snapshots. -/
def extended : List Act :=
  [.begin 0, .register 0, .begin 1, .register 1, .put 1 [97] [1], .put 1 [97, 98] [1],
    .commit 1, .write, .write, .finish, .put 0 [97] [2], .commit 0, .write, .finish]

/-- When a key extends another, two transactions both commit a write of one. -/
theorem second_committer_wins : ∃ s past events,
    Run.Reach step (fun _ _ => True) (new (Db.fresh ⟨0, 0⟩)) s past events ∧ ¬ Ordered events := by
  obtain ⟨s, past, events, run, passed⟩ := Run.exec_exists step (fun _ _ => true)
    (new (Db.fresh ⟨0, 0⟩)) extended (fun r => decide (r.2.2 =
      [.committed 0 2 [([97], .put, [2])], .wrote 0 [97] .put [2],
        .committed 1 1 [([97], .put, [1]), ([97, 98], .put, [1])], .wrote 1 [97, 98] .put [1],
        .wrote 1 [97] .put [1], .began 1, .began 0])) (by rfl)
  refine ⟨s, past, events, run.weaken fun _ _ _ => trivial, fun ordered => ?_⟩
  obtain rfl := of_decide_eq_true passed
  -- Neither commit was on record when the other's transaction began.
  rcases ordered 0 1 2 1 [([97], .put, [2])] [([97], .put, [1]), ([97, 98], .put, [1])] [97]
    (by simp) (by simp) (by simp) (by simp) (by simp) with late | late
  · simp [before] at late
  · simp [before] at late

end Engine

end Store
