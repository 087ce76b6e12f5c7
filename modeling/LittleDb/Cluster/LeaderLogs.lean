import LittleDb.Cluster.Outcome

/-! The logs of leaders: a leader only extends its log, and it holds whatever was committed before. -/

namespace Cluster

open Consensus Quorum Function List Cluster.System

variable {founders : Nat} {tracked : Prop} {ok : System → Action → Prop} {c c' : System} {past : List System}
  {events new : List Event} {s : Abstract} {settings : Settings}

/-- The later log holds the earlier one's entries, apart from compacted ones. -/
def RaftLog.Grows (l l' : RaftLog) : Prop :=
  l.baseIndex ≤ l'.baseIndex ∧ l.entries.drop (l'.baseIndex - l.baseIndex) <+: l'.entries

namespace RaftLog.Grows

variable {l l' l'' : RaftLog}

theorem refl (l : RaftLog) : l.Grows l := ⟨le_refl _, by simp⟩

theorem trans (first : l.Grows l') (second : l'.Grows l'') : l.Grows l'' := by
  refine ⟨first.1.trans second.1, ?_⟩
  have cut := (first.2.drop (l''.baseIndex - l'.baseIndex)).trans second.2
  rwa [drop_drop, show l'.baseIndex - l.baseIndex + (l''.baseIndex - l'.baseIndex) =
    l''.baseIndex - l.baseIndex from by have := first.1; have := second.1; omega] at cut

theorem append (l : RaftLog) (e : Entry) : l.Grows (l.append e) := ⟨le_refl _, by simp [RaftLog.append]⟩

theorem compactTo (l : RaftLog) (idx t : Nat) : l.Grows (l.compactTo idx t) := by
  unfold RaftLog.compactTo
  split_ifs with outside
  · exact refl l
  · exact ⟨by dsimp only; omega, List.prefix_refl _⟩

end RaftLog.Grows

namespace Node

variable {n n' : Node}

/-- The tenure of the node goes on as it may, and its log only grows. -/
def Extends (n n' : Node) : Prop := n.Tenure n' ∧ n.log.Grows n'.log

theorem Same.extends_ (same : n.Same n') : n.Extends n' := ⟨same.tenure, same.log ▸ .refl _⟩

theorem Works.extends_ (works : n.Works n') : n.Extends n' := by
  cases works with
  | aside same => exact same.extends_
  | learn id =>
    obtain ⟨log, -, -, -, term, role⟩ := n.ensurePeer_keeps id
    exact ⟨.inr ⟨term, .inl role⟩, log ▸ .refl _⟩
  | append e leads same => exact ⟨same.tenure, same.log ▸ .append n.log e⟩
  | compact settings same done =>
    unfold maybeCompact at done
    repeat' split at done
    all_goals cases done
    · exact same.extends_
    · exact ⟨same.tenure, same.log ▸ .compactTo ..⟩

end Node

theorem System.step_extends (b : Ballots c.node c.net events) {a : Action} (moved : c.step a = some (c', new))
    (w : NodeID) : (c'.node w).role = .follower ∨ (c.node w).Extends (c'.node w) := by
  have idle : ∀ n : Node, n.Extends n := fun n => (Node.Aside.refl n).extends_
  have put : ∀ {d : System} {v : NodeID} {o : Outcomes}, d.node = c.node →
      o.server.node.role = .follower ∨ (c.node v).Extends o.server.node →
      ((d.put v o).node w).role = .follower ∨ (c.node w).Extends ((d.put v o).node w) := by
    intro d v o same own
    rw [node_put]
    by_cases here : w = v
    · subst here
      rwa [update_self]
    · rw [update_of_ne here, same]
      exact .inr (idle _)
  cases System.moves moved with
  | ordinary ordinary =>
    obtain ⟨v, o, -, turn, rfl⟩ := step_turn ordinary moved
    exact put rfl (.inr turn.works.extends_)
  | deliver _ _ _ handled =>
    refine put rfl ?_
    -- A leader that takes a message of another one has stepped back first.
    rcases handle_cases handled with ⟨m, -, rfl⟩ | ⟨m, -, rfl⟩ | same
    · unfold Node.handleAppendEntries
      dsimp only
      split_ifs
      · exact .inr (idle _)
      all_goals exact .inl rfl
    · unfold Node.handleInstallSnapshot
      dsimp only
      split_ifs
      · exact .inr (idle _)
      all_goals exact .inl rfl
    · exact .inr same.extends_
  | drop | tick => exact .inr (idle _)
  | stop | crash | spawn => exact put rfl (.inl rfl)
  | timeout => exact put rfl (.inr (Node.Aside.maybeStartElection ..).extends_)
  | @install v _ _ _ busy => exact put rfl (.inl ((b.voter v).parked (by rw [busy]; rfl)))
  | restart =>
    refine put rfl (.inl ?_)
    simp only [Node.rebuild, Node.persist, Node.fresh]
    split_ifs <;> rfl

/--
A leader only appends.

Whatever fails, every leader voted for itself; as long as its term lasts it does not stand again, and it keeps all
entries of the lead that it has not compacted.
-/
theorem leader_append_only (positive : 0 < founders)
    (run : Run.Reach System.step ok (System.init settings founders) c past events) :
    ∀ st ∈ c :: past, ∀ v, (st.node v).role = .leader → Cast events v v (st.node v).currentTerm ∧
      ((c.node v).currentTerm = (st.node v).currentTerm → (c.node v).role ≠ .candidate ∧
        ((c.node v).role = .leader → (st.node v).log.Grows (c.node v).log)) := by
  induction run with
  | start =>
    intro st member v leading
    obtain rfl := mem_singleton.mp member
    refine ⟨?_, fun _ => ⟨by simp [leading], fun _ => .refl _⟩⟩
    by_cases first : v = 0
    · subst first
      obtain ⟨peers, next, known, replies, equal, _⟩ := (Node.fresh 0 (List.range founders)
        (if 0 < founders then .fullConfig founders else .empty)).bootstrap_eq
      refine .inr (.inr ⟨rfl, rfl, ?_⟩)
      simp only [System.init, System.node, if_true, equal]
      rfl
    · simp [System.init, System.node, first, Node.fresh] at leading
  | @step c c' past events new a before _ moved ih =>
    have b := (Polls.of_reach positive before).ballots
    intro st member v leading
    rcases mem_cons.mp member with rfl | earlier
    · refine ⟨?_, fun _ => ⟨by simp [leading], fun _ => .refl _⟩⟩
      refine Cast.mono ?_ (subset_append_right ..)
      rcases step_leads b moved leading with ⟨led, term⟩ | ⟨_, _, _, _, _, _, standing, _, equal⟩
      · rw [term]
        exact (ih c mem_cons_self v led).1
      · have stood := ((b.voter v).candidate standing).1
        rw [(b.voter v).id] at stood
        obtain ⟨_, _, _, _, leads, _⟩ := ({ c.node v with votesReceived := _ } : Node).becomeLeader_eq
        rw [equal, leads]
        exact .inr (.inl ⟨rfl, stood⟩)
    · obtain ⟨cast, kept⟩ := ih st earlier v leading
      refine ⟨cast.mono (subset_append_right ..), fun same => ?_⟩
      rcases step_extends b moved v with follower | ⟨⟨higher, -⟩ | ⟨term, role⟩, grows⟩
      · simp [follower]
      · -- The voter remembers its vote for itself, so a later term is a new one.
        have := ((b.voter v).memory cast).1
        omega
      · obtain ⟨stays, growth⟩ := kept (term.symm.trans same)
        rcases role with role | follower | stood
        · rw [role]
          exact ⟨stays, fun leads => (growth leads).trans grows⟩
        · simp [follower]
        · exact absurd stood stays

/-- A leader that appends an entry has the logs of all its earlier states. -/
theorem leader_append_only_first : ∃ c past events,
    Run.Reach System.step (fun _ _ => true = true) (System.init ⟨0, 0⟩ 3) c past events ∧
    (c.node 0).log.entries = [⟨1, .data, [7]⟩] ∧ ∀ st ∈ c :: past, (st.node 0).role = .leader →
      (c.node 0).currentTerm = (st.node 0).currentTerm → (st.node 0).log.Grows (c.node 0).log := by
  obtain ⟨c, past, events, run, last⟩ := Run.exec_exists System.step (fun _ _ => true) (System.init ⟨0, 0⟩ 3)
    [.beginCommit 0, .prepare 0 [7], .propose 0]
    (fun r => decide ((r.1.node 0).log.entries = [⟨1, .data, [7]⟩] ∧ (r.1.node 0).role = .leader)) (by rfl)
  obtain ⟨held, leads⟩ := of_decide_eq_true last
  exact ⟨c, past, events, run, held, fun st member leading same =>
    ((leader_append_only (by decide) run st member 0 leading).2 same).2 leads⟩

theorem Sim.leader_holds (x : Sim founders tracked c events s) {n w : NodeID} {t k : Nat} {l : List Entry}
    (leading : (c.node w).role = .leader) (commit : s.committed n t k l) (below : t ≤ (c.node w).currentTerm) :
    l.take k <+: (c.node w).log.entries := by
  obtain ⟨led, top⟩ := x.safe.known.led_top ((x.node w).leads.mpr leading)
  rw [(x.node w).term, (x.node w).log] at led
  obtain ⟨e, q, won, pre, _⟩ := x.safe.known.led_elected led
  rcases Nat.lt_or_eq_of_le below with earlier | rfl
  · exact (x.safe.complete commit won earlier).trans pre
  · -- A commit of the leader's own term is its own.
    have own := x.safe.laws.led commit
    obtain ⟨_, _, won', _⟩ := x.safe.known.led_elected own
    obtain rfl := x.safe.one won won'
    rw [(x.node w).term, (x.node w).log] at top
    exact (List.take_prefix k l).trans (top l own)

/-- What a node committed in a careful run, every later leader holds. -/
theorem leader_complete (positive : 0 < founders)
    (run : Run.Reach System.step (fun c a => c.careful a = true) (System.init settings founders) c past events)
    {st : System} (member : st ∈ c :: past) {v w : NodeID} {idx : Nat} {e : Entry}
    (leading : (c.node w).role = .leader) (later : (st.node v).currentTerm ≤ (c.node w).currentTerm)
    (below : idx ≤ (st.node v).commitIndex) (found : (st.node v).log.entryAt idx = some e) :
    (c.node w).log.entryAt idx = some e := by
  obtain ⟨s, h⟩ := History.of_reach positive (run.weaken fun _ _ => Meets.of_careful)
  obtain ⟨least, held⟩ := (h.whole st member v).entry found
  rcases h.backed trivial st member v with zero | ⟨n, t, k, l, commit, known, inside, shared⟩
  · omega
  · have pre := h.sim.leader_holds leading commit (known.trans later)
    obtain ⟨i, rfl⟩ : ∃ i, idx = i + 1 := ⟨idx - 1, by omega⟩
    have there : (l.take k)[i]? = some e := by
      have same := congrArg (·[i]?) shared
      simp only [getElem?_take_of_lt (show i < (st.node v).commitIndex by omega)] at same
      rw [getElem?_take_of_lt (by omega), ← same]
      exact held
    rw [(h.sim.node w).whole.entryAt, ← getElem?_of_pre pre (List.getElem?_eq_some_iff.mp there).1]
    exact there

/-- A second node takes over with the entry that the first one committed. -/
theorem leader_complete_takeover : ∃ c past events,
    Run.Reach System.step (fun c a => c.careful a = true) (System.init ⟨0, 0⟩ 3) c past events ∧
    (c.node 1).role = .leader ∧ (c.node 1).log.entryAt 1 = some ⟨1, .data, [7]⟩ := by
  obtain ⟨c, past, events, run, last⟩ := Run.exec_exists System.step System.careful (System.init ⟨0, 0⟩ 3)
    [.beginCommit 0, .prepare 0 [7], .propose 0, .replicate 0 1, .deliver 0 .ok .ok, .deliver 0 .ok .ok,
      .consume 0 1 .ok, .timeout 1 .ok, .deliver 1 .ok .ok, .deliver 1 .ok .ok]
    (fun r => decide ((r.1.node 1).role = .leader ∧ (r.1.node 0).currentTerm ≤ (r.1.node 1).currentTerm ∧
      1 ≤ (r.1.node 0).commitIndex ∧ (r.1.node 0).log.entryAt 1 = some ⟨1, .data, [7]⟩)) (by rfl)
  obtain ⟨leading, later, below, found⟩ := of_decide_eq_true last
  exact ⟨c, past, events, run, leading, leader_complete (by decide) run mem_cons_self leading later below found⟩

/-- A history goes on with the run, and what it has committed stays so. -/
theorem History.continue_ {past' : List System} {events' : List Event} (h : History founders tracked c past events s)
    (polls : Polls c events) (rest : Run.Reach System.step (Meets tracked) c c' past' events') :
    ∃ s', History founders tracked c' (past' ++ past) (events' ++ events) s' ∧ Polls c' (events' ++ events) ∧
      ∀ {n t k l}, s.committed n t k l → s'.committed n t k l := by
  induction rest with
  | start => exact ⟨s, h, polls, id⟩
  | step a before meets moved ih =>
    obtain ⟨s₁, h₁, polls₁, more⟩ := ih
    obtain ⟨s₂, h₂, v, turn, -⟩ := h₁.step polls₁ meets moved
    rw [← append_assoc] at h₂
    exact ⟨s₂, h₂, append_assoc .. ▸ polls₁.step moved, fun commit => turn.committed (more commit)⟩

theorem System.propose_appends {v w : NodeID} {k idx : Nat} {e : Entry}
    (moved : c.step (.propose v) = some (c', new)) (appended : .appended w k idx e ∈ new) :
    (c.node v).role = .leader ∧ e.term = (c.node v).currentTerm ∧ idx = (c.node v).log.lastIndex + 1 := by
  obtain ⟨-, o, done, -, rfl⟩ := act_cases moved
  unfold Server.propose at done
  split at done
  · dsimp only at done
    split_ifs at done with refused
    · cases done
      simp at appended
    · split at done
      · cases done
      · next advanced =>
        cases done
        rcases mem_cons.mp appended with same | other
        · cases same
          simp only [not_or, not_not] at refused
          exact ⟨refused.1, refused.2.1.symm, RaftLog.lastIndex_append ..⟩
        · exact (Node.maybeAdvanceCommit_silent advanced _ other).elim
  · cases done

/-- What was committed before a proposal lies below its entry. -/
theorem commits_real_time (positive : 0 < founders)
    (run : Run.Reach System.step (fun c a => c.careful a = true) (System.init settings founders) c past events)
    {v w u : NodeID} {k idx : Nat} {e : Entry} (careful : c.careful (.propose v) = true)
    (moved : c.step (.propose v) = some (c', new)) (appended : .appended v k idx e ∈ new)
    {c'' st st' : System} {past' : List System} {events' : List Event}
    (rest : Run.Reach System.step (fun c a => c.careful a = true) c' c'' past' events') (later : st' ∈ c'' :: past')
    (below : idx ≤ (st'.node w).commitIndex) (found : (st'.node w).log.entryAt idx = some e)
    (earlier : st ∈ c :: past) : (st.node u).commitIndex < idx := by
  obtain ⟨s, h⟩ := History.of_reach positive (run.weaken fun _ _ => Meets.of_careful)
  have polls := Polls.of_reach positive run
  obtain ⟨s', h', _, turn, -⟩ := h.step polls (Meets.of_careful careful) moved
  obtain ⟨s'', h'', -, more⟩ := h'.continue_ (polls.step moved) (rest.weaken fun _ _ => Meets.of_careful)
  obtain ⟨leading, term, rfl⟩ := propose_appends moved appended
  have safe := h.sim.safe
  obtain ⟨led, top⟩ := safe.known.led_top ((h.sim.node v).leads.mpr leading)
  rw [(h.sim.node v).term, ← term] at led top
  by_contra reached
  rcases h.backed trivial st earlier u with zero | ⟨n, t, i, l, commit, -, inside, -⟩
  · omega
  -- An earlier commit at the index is of the same entry.
  have held : l[(c.node v).log.lastIndex]? = some e := by
    obtain ⟨x, there⟩ := Rules.exists_getElem? l (c.node v).log.lastIndex
      (by have := (safe.commit_length commit).2; omega)
    have first : Certified s'' ((c.node v).log.lastIndex + 1) x :=
      ⟨n, t, i, l, more (turn.committed commit), Nat.succ_pos _, by omega, there⟩
    rw [there, first.unique h''.sim.safe (h''.certified trivial (List.mem_append_left _ later) below found)]
  -- So the proposer, who is the only leader of the term, had it in its log before.
  have own := safe.known.pre_from (safe.laws.led commit) (List.prefix_refl l)
  obtain ⟨_, l', led', pre⟩ := safe.known.entry_from own held
  obtain ⟨_, _, won, _⟩ := safe.known.led_elected led
  obtain ⟨_, _, won', _⟩ := safe.known.led_elected led'
  obtain rfl := safe.one won won'
  have short := (pre.trans (top l' led')).length_le
  have whole := (h.sim.node v).whole.lastIndex
  rw [(h.sim.node v).log, List.length_take, ← whole] at short
  have := (List.getElem?_eq_some_iff.mp held).1
  omega

/-- After a takeover the new leader's entry is committed above the old one's. -/
theorem commits_real_time_takeover : ∃ c past events c' new c'' past' events' k e,
    Run.Reach System.step (fun c a => c.careful a = true) (System.init ⟨0, 0⟩ 3) c past events ∧
    (c.node 0).commitIndex = 1 ∧ (c.node 1).commitIndex = 0 ∧ c.step (.propose 1) = some (c', new) ∧
    .appended 1 k 2 e ∈ new ∧ Run.Reach System.step (fun c a => c.careful a = true) c' c'' past' events' ∧
    2 ≤ (c''.node 1).commitIndex ∧ ∀ st ∈ c :: past, ∀ u, (st.node u).commitIndex < 2 := by
  obtain ⟨c, past, events, run, last⟩ := Run.exec_exists System.step System.careful (System.init ⟨0, 0⟩ 3)
    [.beginCommit 0, .prepare 0 [7], .propose 0, .replicate 0 1, .deliver 0 .ok .ok, .deliver 0 .ok .ok,
      .consume 0 1 .ok, .timeout 1 .ok, .deliver 1 .ok .ok, .deliver 1 .ok .ok, .beginCommit 1, .prepare 1 [9]]
    (fun r => decide ((r.1.node 0).commitIndex = 1 ∧ (r.1.node 1).commitIndex = 0 ∧
        r.1.careful (.propose 1) = true) &&
      (r.1.step (.propose 1)).any fun (q : System × List Event) =>
        decide (.appended 1 10 2 ⟨2, .data, [9]⟩ ∈ q.2) &&
        (Run.exec System.step System.careful q.1 [] []
          [.replicate 1 2, .deliver 1 .ok .ok, .deliver 1 .ok .ok, .consume 1 2 .ok, .replicate 1 2, .deliver 1 .ok .ok,
            .deliver 1 .ok .ok, .consume 1 2 .ok]).any
          fun (t : System × List System × List Event) => decide (2 ≤ (t.1.node 1).commitIndex ∧
            (t.1.node 1).log.entryAt 2 = some ⟨2, .data, [9]⟩)) (by rfl)
  obtain ⟨now, found⟩ := Bool.and_eq_true_iff.mp last
  obtain ⟨one, zero, careful⟩ := of_decide_eq_true now
  obtain ⟨⟨c', new⟩, moved, both⟩ := (Option.any_eq_true _ _).mp found
  obtain ⟨appended, goes⟩ := Bool.and_eq_true_iff.mp both
  obtain ⟨⟨c'', past', events'⟩, ran, ends⟩ := (Option.any_eq_true _ _).mp goes
  obtain ⟨below, held⟩ := of_decide_eq_true ends
  have rest := Run.exec_reach .start ran
  exact ⟨c, past, events, c', new, c'', past', events', 10, _, run, one, zero, moved, of_decide_eq_true appended, rest,
    below, fun st earlier u => commits_real_time (by decide) run careful moved (of_decide_eq_true appended) rest
      mem_cons_self below held earlier⟩

end Cluster
