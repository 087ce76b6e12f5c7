import LittleDb.Cluster.Calls
import LittleDb.Cluster.Safety

/-! What the outcome of a proposal says about the log. -/

namespace Cluster

open Consensus Quorum List

variable {founders : Nat} {tracked : Prop} {c c' : System} {past : List System}
  {events new : List Event} {s : Abstract} {settings : Settings}

theorem Sim.appended_entry (x : Sim founders tracked c events s) {v w : NodeID} {k idx : Nat}
    {e : Entry} (appended : .appended w k idx e ∈ events)
    (same : (c.node v).log.term idx = some e.term) : (c.node v).log.entryAt idx = some e := by
  obtain ⟨positive, l, led, found⟩ := x.events _ appended
  obtain ⟨i, rfl⟩ : ∃ i, idx = i + 1 := ⟨idx - 1, by omega⟩
  have whole := (x.node v).whole
  rw [whole.term, Option.map_eq_some_iff] at same
  obtain ⟨held, at_, term⟩ := same
  -- Both logs agree up to the index, since they have the same term there.
  have shared := congrArg (·[i]?) (x.matching v led i held e at_ found term)
  simp only [getElem?_take_of_lt (Nat.lt_succ_self i), at_] at shared
  rw [whole.entryAt, at_, shared]
  exact found

/-- What a call that returned nil appended is committed at its node. -/
def Truthful (c : System) (past : List System) (events : List Event) : Prop :=
  ∀ v k, .returned v k .nil ∈ events → ∃ idx e, .appended v k idx e ∈ events ∧
    ∃ st ∈ c :: past, idx ≤ (st.node v).commitIndex ∧ (st.node v).log.entryAt idx = some e

/-- A step that returns on its own term keeps outcomes truthful. -/
theorem Truthful.step (h : Truthful c past events) (x : Sim founders True c events s)
    (calls : Calls c events) {a : Action} (own : c.returnsOwn a = true)
    (moved : c.step a = some (c', new)) : Truthful c' (c :: past) (new ++ events) := by
  intro v k member
  rcases mem_append.mp member with fresh | earlier
  · obtain ⟨_, w, move, _⟩ := System.step_call moved
    obtain ⟨rfl, call, holds, rfl, _, waits, _⟩ := move.of_returned fresh
    obtain ⟨rfl, idx, waits, applied⟩ := waits rfl
    have nx := x.node w
    obtain ⟨e, appended, term⟩ := (calls.held w call holds).waiting idx waits
    rw [nx.id] at fresh ⊢
    have found : (c.node w).log.entryAt idx = some e := by
      refine x.appended_entry appended ?_
      obtain ⟨call, callTerm, purpose, stage⟩ := call
      dsimp only at waits term
      subst waits
      simp only [System.returnsOwn, holds, decide_eq_true_eq] at own
      rw [own applied, term]
    exact ⟨idx, e, mem_append_right _ appended, c, by simp, le_trans applied (nx.applied trivial), found⟩
  · obtain ⟨idx, e, appended, st, visited, rest⟩ := h v k earlier
    exact ⟨idx, e, mem_append_right _ appended, st, mem_cons_of_mem _ visited, rest⟩

/-- An outcome is true: nil is committed, not the leader is nothing. -/
theorem outcome_truthful (positive : 0 < founders)
    (run : Run.Reach System.step (fun c a => (c.careful a && c.returnsOwn a) = true)
      (System.init settings founders) c past events) :
    (∀ v k, .returned v k .nil ∈ events → (∃ idx e, .appended v k idx e ∈ events) ∧
      ∀ idx e, .appended v k idx e ∈ events →
        (∃ st ∈ c :: past, idx ≤ (st.node v).commitIndex ∧
          (st.node v).log.entryAt idx = some e) ∧
        ∀ w e', .applied w idx e' ∈ events → e' = e) ∧
    ∀ v k, .returned v k .notLeader ∈ events → ∀ idx e, .appended v k idx e ∉ events := by
  have calls := Calls.of_reach positive run
  have meets : ∀ (c : System) a, (c.careful a && c.returnsOwn a) = true → Meets True c a :=
    fun c a both => Meets.of_careful (Bool.and_eq_true_iff.mp both).1
  obtain ⟨s, h⟩ := History.of_reach positive (run.weaken meets)
  have truthful : Truthful c past events := by
    refine Run.Reach.invariant (fun _ _ none => absurd none not_mem_nil) ?_ run
    intro c a c' past events new before both moved old
    obtain ⟨_, h⟩ := History.of_reach positive (before.weaken meets)
    exact old.step h.sim (Calls.of_reach positive before) (Bool.and_eq_true_iff.mp both).2 moved
  refine ⟨fun v k returned => ?_, fun v k returned idx e => calls.refused returned⟩
  obtain ⟨idx, e, appended, st, visited, below, found⟩ := truthful v k returned
  refine ⟨⟨idx, e, appended⟩, fun idx' e' appended' => ?_⟩
  -- A call appends at most one entry.
  obtain ⟨rfl, rfl⟩ := calls.once appended appended'
  refine ⟨⟨st, visited, below, found⟩, fun w e' applied => ?_⟩
  -- Both entries are committed, and an index has one committed entry.
  exact (h.sim.events _ applied trivial).unique h.sim.safe (h.certified trivial visited below found)

/-- A proposal that is committed and returns, next to a refused one. -/
theorem outcome_truthful_both : ∃ c past events e,
    Run.Reach System.step (fun c a => (c.careful a && c.returnsOwn a) = true)
      (System.init ⟨0, 0⟩ 3) c past events ∧
    .returned 0 0 .nil ∈ events ∧ .appended 0 0 1 e ∈ events ∧
    (∀ w e', .applied w 1 e' ∈ events → e' = e) ∧
    .returned 0 11 .notLeader ∈ events ∧ ∀ idx e, .appended 0 11 idx e ∉ events := by
  obtain ⟨c, past, events, run, last⟩ := Run.exec_exists System.step
    (fun c a => c.careful a && c.returnsOwn a) (System.init ⟨0, 0⟩ 3)
    [.beginCommit 0, .prepare 0 [7], .propose 0, .replicate 0 1, .deliver 0 .ok .ok,
      .deliver 0 .ok .ok, .consume 0 1 .ok, .fetch 0, .store 0, .finishApply 0, .wake 0,
      -- The second call loses leadership before it appends.
      .beginCommit 0, .prepare 0 [9], .timeout 1 .ok, .deliver 0 .ok .ok, .propose 0]
    (fun r => decide (.returned 0 0 .nil ∈ r.2.2 ∧ .appended 0 0 1 ⟨1, .data, [7]⟩ ∈ r.2.2 ∧
      .returned 0 11 .notLeader ∈ r.2.2)) (by rfl)
  obtain ⟨returned, appended, refused⟩ := of_decide_eq_true last
  obtain ⟨truthful, nothing⟩ := outcome_truthful (by decide) run
  exact ⟨c, past, events, _, run, returned, appended, ((truthful 0 0 returned).2 1 _ appended).2,
    refused, nothing 0 11 refused⟩

/-- A waiting proposal looks at the applied index only, and returns nil. -/
theorem outcome_untruthful : ∃ c past events e e',
    Run.Reach System.step (fun c a => c.careful a = true) (System.init ⟨0, 0⟩ 3) c past events ∧
    .returned 0 0 .nil ∈ events ∧ .appended 0 0 1 e ∈ events ∧ .applied 0 1 e' ∈ events ∧
    e' ≠ e := by
  obtain ⟨c, past, events, run, last⟩ := Run.exec_exists System.step System.careful
    (System.init ⟨0, 0⟩ 3)
    [.beginCommit 0, .prepare 0 [7], .propose 0,
      -- The others elect a second leader, which commits its own first entry.
      .timeout 1 .ok, .deliver 1 .ok .ok, .deliver 1 .ok .ok, .beginCommit 1, .prepare 1 [9],
      .propose 1, .replicate 1 2, .deliver 1 .ok .ok, .deliver 1 .ok .ok, .consume 1 2 .ok,
      -- The first leader replaces its entry and applies the new one before the caller wakes up.
      .replicate 1 0, .deliver 1 .ok .ok, .fetch 0, .store 0, .finishApply 0, .wake 0]
    (fun r => decide (.returned 0 0 .nil ∈ r.2.2 ∧ .appended 0 0 1 ⟨1, .data, [7]⟩ ∈ r.2.2 ∧
      .applied 0 1 ⟨2, .data, [9]⟩ ∈ r.2.2)) (by rfl)
  obtain ⟨returned, appended, applied⟩ := of_decide_eq_true last
  exact ⟨c, past, events, _, _, run, returned, appended, applied, by decide⟩

end Cluster
