import LittleDb.Cluster.History

/-! Safety of the replicated log: matching logs, quorum commits and agreement on what is applied. -/

namespace Cluster

open Consensus Quorum List Option Bool

variable {founders : Nat} {tracked : Prop} {c c' : System} {past : List System}
  {events new : List Event} {s : Abstract} {settings : Settings} {idx : Nat} {e : Entry}

theorem RaftLog.Whole.entry {l : RaftLog} (whole : l.Whole)
    (found : l.entryAt idx = some e) : 0 < idx ∧ l.entries[idx - 1]? = some e := by
  cases idx with
  | zero => simp [RaftLog.entryAt] at found
  | succ i =>
    rw [whole.entryAt] at found
    exact ⟨Nat.succ_pos i, found⟩

theorem Certified.unique (safe : Safe (rules founders) s) {e' : Entry}
    (first : Certified s idx e) (second : Certified s idx e') : e = e' := by
  obtain ⟨_, _, k, l, commit, positive, inside, found⟩ := first
  obtain ⟨_, _, k', l', commit', _, inside', found'⟩ := second
  have same := safe.commits_agree commit commit' (show idx - 1 < k by omega) (show idx - 1 < k' by omega)
  rw [found, found'] at same
  exact Option.some.inj same

theorem acked_agrees (safe : Safe (rules founders) s) {p w : NodeID} {t : Nat} {l log held : List Entry}
    (acked : s.acked p t l) (led : s.led w t log) (holds : l <+: held) (long : idx ≤ l.length)
    (inside : idx ≤ log.length) : ∀ i < idx, ∃ e, log[i]? = some e ∧ held[i]? = some e := by
  obtain ⟨m, led'⟩ := safe.hold.acked_led acked
  intro i below
  -- Both are logs of the one leader of the term.
  have same : log[i]? = l[i]? := by
    rcases safe.one.chain safe.known led led' with pre | pre
    · exact getElem?_of_pre pre (by omega)
    · exact (getElem?_of_pre pre (by omega)).symm
  refine ⟨log[i], getElem?_eq_getElem (by omega), ?_⟩
  rw [← getElem?_of_pre holds (by omega), ← same]
  exact getElem?_eq_getElem (by omega)

namespace History

theorem one_leader (h : History founders tracked c past events s) {st st' : System} (member : st ∈ c :: past)
    (member' : st' ∈ c :: past) {v w : NodeID} (leading : (st.node v).role = .leader)
    (leading' : (st'.node w).role = .leader) (same : (st.node v).currentTerm = (st'.node w).currentTerm) : v = w := by
  obtain ⟨e, q, won⟩ := h.leaders st member v leading
  obtain ⟨e', q', won'⟩ := h.leaders st' member' w leading'
  rw [← same] at won'
  exact h.sim.safe.one won won'

theorem certified (h : History founders tracked c past events s) (on : tracked) {st : System}
    (member : st ∈ c :: past) {v : NodeID} (below : idx ≤ (st.node v).commitIndex)
    (found : (st.node v).log.entryAt idx = some e) : Certified s idx e := by
  obtain ⟨positive, held⟩ := (h.whole st member v).entry found
  exact (h.backed on st member v).certified positive below held

end History

/-- With fixed members, logs that agree on a term at an index agree up to it. -/
theorem log_matching (positive : 0 < founders) (off : settings.snapshotThreshold = 0)
    (run : Run.Reach System.step (fun _ a => (a.fixedMembership && a.calm) = true)
      (System.init settings founders) c past events) :
    ∀ v w i e e', (c.node v).log.entryAt i = some e → (c.node w).log.entryAt i = some e' →
      e.term = e'.term → ∀ j ≤ i, (c.node v).log.entryAt j = (c.node w).log.entryAt j := by
  obtain ⟨_, s, h⟩ := History.of_fixed False off positive
    (fun c a meets => (and_eq_true_iff.mp meets).1)
    (fun c a meets => (and_eq_true_iff.mp meets).2) (fun off => off.elim) run
  intro v w i e e' found found' same j below
  have whole := (h.sim.node v).whole
  have whole' := (h.sim.node w).whole
  obtain ⟨positive, held⟩ := whole.entry found
  obtain ⟨_, held'⟩ := whole'.entry found'
  rw [← (h.sim.node v).log] at held
  rw [← (h.sim.node w).log] at held'
  have shared := h.sim.safe.logs_match held held' same
  rw [(h.sim.node v).log, (h.sim.node w).log] at shared
  cases j with
  | zero => simp [RaftLog.entryAt]
  | succ j =>
    rw [whole.entryAt, whole'.entryAt]
    have position := congrArg (·[j]?) shared
    simpa only [getElem?_take_of_lt (show j < i - 1 + 1 by omega)] using position

/-- A follower stores two entries of the leader, crashes and comes back. -/
theorem log_matching_restart : ∃ c past events,
    Run.Reach System.step (fun _ a => (a.fixedMembership && a.calm) = true)
      (System.init ⟨0, 0⟩ 3) c past events ∧
    (c.node 0).log.entryAt 2 = some ⟨1, .data, [9]⟩ ∧
    (c.node 1).log.entryAt 2 = some ⟨1, .data, [9]⟩ ∧
    (c.node 0).log.entryAt 1 = (c.node 1).log.entryAt 1 := by
  obtain ⟨c, past, events, run, held⟩ := Run.exec_exists System.step
    (fun _ a => a.fixedMembership && a.calm) (System.init ⟨0, 0⟩ 3)
    [.beginCommit 0, .prepare 0 [7], .propose 0, .replicate 0 1, .deliver 0 .ok .ok,
      .deliver 0 .ok .ok, .consume 0 1 .ok, .fetch 0, .store 0, .finishApply 0, .wake 0,
      .beginCommit 0, .prepare 0 [9], .propose 0, .replicate 0 1, .deliver 0 .ok .ok,
      .crash 1 false, .restart 1 .ok]
    (fun r => decide ((r.1.node 0).log.entryAt 2 = some ⟨1, .data, [9]⟩ ∧
      (r.1.node 1).log.entryAt 2 = some ⟨1, .data, [9]⟩)) (by rfl)
  obtain ⟨left, right⟩ := of_decide_eq_true held
  exact ⟨c, past, events, run, left, right,
    log_matching (by decide) rfl run 0 1 2 _ _ left right rfl 1 (by decide)⟩

/-- With fixed members, nodes that apply an index apply the same entry. -/
theorem applied_agree (positive : 0 < founders) (off : settings.snapshotThreshold = 0)
    (run : Run.Reach System.step
      (fun c a => (a.fixedMembership && a.calm && c.answersRound a) = true)
      (System.init settings founders) c past events) :
    ∀ v w idx e e', .applied v idx e ∈ events → .applied w idx e' ∈ events → e = e' := by
  have split : ∀ (c : System) (a : Action), (a.fixedMembership && a.calm && c.answersRound a) = true →
      (a.fixedMembership = true ∧ a.calm = true) ∧ c.answersRound a = true := by
    intro c a meets
    simpa only [and_eq_true] using meets
  obtain ⟨_, s, h⟩ := History.of_fixed True off positive
    (fun c a meets => (split c a meets).1.1) (fun c a meets => (split c a meets).1.2)
    (fun _ c a meets => (split c a meets).2) run
  intro v w idx e e' applied applied'
  exact ((h.sim.events _ applied) trivial).unique h.sim.safe ((h.sim.events _ applied') trivial)

/-- A run in which two nodes apply the first entry. -/
theorem applied_agree_both : ∃ c past events e e',
    Run.Reach System.step (fun c a => (a.fixedMembership && a.calm && c.answersRound a) = true)
      (System.init ⟨0, 0⟩ 3) c past events ∧
    .applied 0 1 e ∈ events ∧ .applied 1 1 e' ∈ events ∧ e = e' := by
  obtain ⟨c, past, events, run, applied⟩ := Run.exec_exists System.step
    (fun c a => a.fixedMembership && a.calm && c.answersRound a) (System.init ⟨0, 0⟩ 3)
    [.beginCommit 0, .prepare 0 [7], .propose 0, .replicate 0 1, .deliver 0 .ok .ok,
      .deliver 0 .ok .ok, .consume 0 1 .ok, .fetch 0, .store 0, .replicate 0 1,
      .deliver 0 .ok .ok, .fetch 1, .store 1]
    (fun r => decide (.applied 0 1 ⟨1, .data, [7]⟩ ∈ r.2.2 ∧ .applied 1 1 ⟨1, .data, [7]⟩ ∈ r.2.2))
    (by rfl)
  obtain ⟨left, right⟩ := of_decide_eq_true applied
  exact ⟨c, past, events, _, _, run, left, right,
    applied_agree (by decide) rfl run 0 1 1 _ _ left right⟩

/-- A leader commits only what every peer it counts has held on its disk. -/
theorem commit_replicated (positive : 0 < founders)
    (run : Run.Reach System.step (fun c a => c.careful a = true) (System.init settings founders)
      c past events)
    {a : Action} (careful : c.careful a = true) (moved : c.step a = some (c', new)) :
    ∀ v term index counted log, .advanced v term index counted log ∈ new →
      ∀ p ∈ counted, ∃ st ∈ c :: past, ∀ i, 1 ≤ i → i ≤ index →
        ∃ e, log.entryAt i = some e ∧ (st.node p).log.entryAt i = some e := by
  obtain ⟨s, h⟩ := History.of_reach positive (run.weaken fun _ _ => Meets.of_careful)
  obtain ⟨s', h', w, turn, stamped, owned, _⟩ :=
    h.step (Polls.of_reach positive run) (Meets.of_careful careful) moved
  intro v term index counted log advanced p counts
  obtain ⟨whole, records⟩ := h'.sim.events _ (mem_append_left events advanced)
  obtain ⟨led, inside, acked⟩ := records trivial
  obtain ⟨l, ack, long⟩ := acked p counts
  -- The counted peer is not the acting leader, so it acknowledged in an earlier step.
  obtain ⟨rfl, others⟩ := owned _ advanced
  rcases stamped.acked ack with earlier | ⟨rfl, _⟩
  · obtain ⟨st, member, holds⟩ := h.acked earlier
    refine ⟨st, member, fun i least most => ?_⟩
    obtain ⟨j, rfl⟩ : ∃ j, i = j + 1 := ⟨i - 1, by omega⟩
    rw [whole.entryAt, (h.whole st member p).entryAt]
    exact acked_agrees h'.sim.safe ack led holds long inside j most
  · exact absurd counts others

/-- The leader's first commit counts a peer that holds the entry. -/
theorem commit_replicated_first : ∃ c past events c' new log,
    Run.Reach System.step (fun c a => c.careful a = true) (System.init ⟨0, 0⟩ 3) c past events ∧
    c.step (.consume 0 1 .ok) = some (c', new) ∧ .advanced 0 1 1 [1] log ∈ new ∧
    ∃ st ∈ c :: past, ∃ e, log.entryAt 1 = some e ∧ (st.node 1).log.entryAt 1 = some e := by
  obtain ⟨c, past, events, run, last⟩ := Run.exec_exists System.step System.careful
    (System.init ⟨0, 0⟩ 3)
    [.beginCommit 0, .prepare 0 [7], .propose 0, .replicate 0 1, .deliver 0 .ok .ok,
      .deliver 0 .ok .ok]
    (fun r => decide (r.1.careful (.consume 0 1 .ok) = true) &&
      (r.1.step (.consume 0 1 .ok)).any fun (q : System × List Event) =>
        decide (.advanced 0 1 1 [1] ⟨0, 0, [⟨1, .data, [7]⟩]⟩ ∈ q.2)) (by rfl)
  obtain ⟨careful, found⟩ := and_eq_true_iff.mp last
  obtain ⟨⟨c', new⟩, moved, advanced⟩ := (any_eq_true _ _).mp found
  have advanced := of_decide_eq_true advanced
  obtain ⟨st, member, agrees⟩ := commit_replicated (by decide) run (of_decide_eq_true careful)
    moved 0 1 1 [1] _ advanced 1 (by decide)
  exact ⟨c, past, events, c', new, _, run, moved, advanced, st, member,
    agrees 1 (le_refl 1) (le_refl 1)⟩

/-- A late reply to an empty round commits what no other node has held. -/
theorem commit_unreplicated : ∃ c past events c' new log,
    Run.Reach System.step (fun _ a => (a.fixedMembership && a.calm) = true)
      (System.init ⟨0, 0⟩ 3) c past events ∧
    c.step (.consume 0 1 .ok) = some (c', new) ∧ .advanced 0 1 1 [1] log ∈ new ∧
    ∀ st ∈ c' :: c :: past, (st.node 1).log.entries = [] := by
  obtain ⟨c, past, events, run, last⟩ := Run.exec_exists System.step
    (fun _ a => a.fixedMembership && a.calm) (System.init ⟨0, 0⟩ 3)
    [.replicate 0 1, .abandon 0 1, .deliver 0 .ok .ok, .beginCommit 0, .prepare 0 [7], .propose 0,
      .replicate 0 1, .deliver 0 .ok .ok, .drop 0]
    (fun r => (r.1.step (.consume 0 1 .ok)).any fun (q : System × List Event) =>
      decide (.advanced 0 1 1 [1] ⟨0, 0, [⟨1, .data, [7]⟩]⟩ ∈ q.2) &&
        (q.1 :: r.1 :: r.2.1).all fun st => decide ((st.node 1).log.entries = []))
    (by rfl)
  obtain ⟨⟨c', new⟩, moved, both⟩ := (any_eq_true _ _).mp last
  obtain ⟨advanced, missing⟩ := and_eq_true_iff.mp both
  exact ⟨c, past, events, c', new, _, run, moved, of_decide_eq_true advanced,
    fun st member => of_decide_eq_true (all_eq_true.mp missing st member)⟩

/-- What is committed at an index is never replaced, and a term has one leader. -/
theorem committed_agree (positive : 0 < founders)
    (run : Run.Reach System.step (fun c a => c.careful a = true) (System.init settings founders)
      c past events) :
    (∀ st ∈ c :: past, ∀ st' ∈ c :: past, ∀ v w idx e e', idx ≤ (st.node v).commitIndex →
      idx ≤ (st'.node w).commitIndex → (st.node v).log.entryAt idx = some e →
      (st'.node w).log.entryAt idx = some e' → e = e') ∧
    ∀ st ∈ c :: past, ∀ st' ∈ c :: past, ∀ v w, (st.node v).role = .leader →
      (st'.node w).role = .leader → (st.node v).currentTerm = (st'.node w).currentTerm → v = w := by
  obtain ⟨s, h⟩ := History.of_reach positive (run.weaken fun _ _ => Meets.of_careful)
  constructor
  · intro st member st' member' v w idx e e' below below' found found'
    exact (h.certified trivial member below found).unique h.sim.safe
      (h.certified trivial member' below' found')
  · intro st member st' member' v w leading leading' same
    exact h.one_leader member member' leading leading' same

/-- A run that commits an entry and then, behind it, the removal of a member. -/
theorem committed_agree_removal : ∃ c past events e,
    Run.Reach System.step (fun c a => c.careful a = true) (System.init ⟨0, 0⟩ 3) c past events ∧
    (c.node 0).config.ids = [0, 1] ∧ 2 ≤ (c.node 0).commitIndex ∧ 2 ≤ (c.node 1).commitIndex ∧
    (c.node 0).log.entryAt 2 = some e ∧ (c.node 1).log.entryAt 2 = some e := by
  obtain ⟨c, past, events, run, last⟩ := Run.exec_exists System.step System.careful
    (System.init ⟨0, 0⟩ 3)
    [.beginCommit 0, .prepare 0 [7], .propose 0, .replicate 0 1, .deliver 0 .ok .ok,
      .deliver 0 .ok .ok, .consume 0 1 .ok, .fetch 0, .store 0, .finishApply 0, .wake 0,
      .beginRemove 0 2, .propose 0, .replicate 0 1, .deliver 0 .ok .ok, .deliver 0 .ok .ok,
      .consume 0 1 .ok, .replicate 0 1, .deliver 0 .ok .ok]
    (fun r => decide ((r.1.node 0).config.ids = [0, 1] ∧ 2 ≤ (r.1.node 0).commitIndex ∧
      2 ≤ (r.1.node 1).commitIndex ∧
      ((r.1.node 0).log.entryAt 2).isSome ∧ ((r.1.node 1).log.entryAt 2).isSome))
    (by rfl)
  obtain ⟨config, first, second, held, held'⟩ := of_decide_eq_true last
  obtain ⟨e, left⟩ := isSome_iff_exists.mp held
  obtain ⟨e', right⟩ := isSome_iff_exists.mp held'
  have same := (committed_agree (by decide) run).1 c mem_cons_self c mem_cons_self
    0 1 2 e e' first second left right
  exact ⟨c, past, events, e, run, config, first, second, left, same ▸ right⟩

/-- Two leaders without an own commit change the members, and both commit at index one. -/
theorem committed_disagree : ∃ c past events e e',
    Run.Reach System.step
      (fun c a => (a.calm && c.answersRound a && c.fitsConfig a && c.forgetsMatches a) = true)
      (System.init ⟨0, 0⟩ 4) c past events ∧
    1 ≤ (c.node 0).commitIndex ∧ 1 ≤ (c.node 1).commitIndex ∧
    (c.node 0).log.entryAt 1 = some e ∧ (c.node 1).log.entryAt 1 = some e' ∧ e ≠ e' := by
  obtain ⟨c, past, events, run, last⟩ := Run.exec_exists System.step
    (fun c a => a.calm && c.answersRound a && c.fitsConfig a && c.forgetsMatches a)
    (System.init ⟨0, 0⟩ 4)
    -- The first leader adds a fifth node, and only that one hears of it.
    [.spawn, .beginAdd 0 4, .pollAdd 0 0, .promote 0 0, .propose 0, .replicate 0 4,
      .deliver 0 .ok .ok, .drop 0,
      -- The others elect a second leader, which removes the first one and commits that.
      .timeout 1 .ok, .deliver 0 .ok .ok, .wake 0, .deliver 0 .ok .ok, .deliver 0 .ok .ok,
      .drop 0, .deliver 0 .ok .ok, .deliver 0 .ok .ok, .beginRemove 1 0, .propose 1,
      .replicate 1 2, .deliver 0 .ok .ok, .deliver 0 .ok .ok, .consume 1 2 .ok,
      -- The first one comes back with the votes of a third founder and the fifth node.
      .timeout 0 .ok, .deliver 2 .ok .ok, .deliver 2 .ok .ok, .deliver 2 .ok .ok,
      .deliver 2 .ok .ok, .abandon 0 4, .drop 0, .drop 0, .beginCommit 0, .prepare 0 [7],
      .propose 0, .replicate 0 3, .deliver 0 .ok .ok, .deliver 0 .ok .ok, .consume 0 3 .ok,
      .replicate 0 3, .deliver 0 .ok .ok, .deliver 0 .ok .ok, .consume 0 3 .ok, .replicate 0 4,
      .deliver 0 .ok .ok, .deliver 0 .ok .ok, .consume 0 4 .ok]
    (fun r => decide (1 ≤ (r.1.node 0).commitIndex ∧ 1 ≤ (r.1.node 1).commitIndex ∧
      (r.1.node 0).log.entryAt 1 =
        some ⟨1, .config, encodeConfig (Members.fullConfig 5)⟩ ∧
      (r.1.node 1).log.entryAt 1 =
        some ⟨2, .config, encodeConfig ((Members.fullConfig 4).erase 0)⟩))
    (by rfl)
  obtain ⟨first, second, left, right⟩ := of_decide_eq_true last
  exact ⟨c, past, events, _, _, run, first, second, left, right, by decide⟩

end Cluster
