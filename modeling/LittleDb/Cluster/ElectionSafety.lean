import LittleDb.Cluster.FixedMembership

/-! Election safety: who can lead a term, and that a fixed membership elects one leader per term. -/

namespace Cluster

open Quorum Function List Node Cluster.System

/-- The node led before the step already, in the same term. -/
def Stays (c c' : System) (v : NodeID) : Prop :=
  (c.node v).role = .leader ∧ (c'.node v).currentTerm = (c.node v).currentTerm

/-- The step counts the granted vote that completes a candidate's majority. -/
def Wins (c c' : System) (v : NodeID) : Prop :=
  ∃ (i : Nat) (pkt : Packet) (sender : NodeID), c.net[i]? = some pkt ∧ pkt.dst = v ∧
    pkt.msg = .requestVoteResponse sender (c.node v).currentTerm true ∧
    (c.node v).role = .candidate ∧ (c.node v).majority ≤ (c.node v).votesReceived + 1 ∧
    c'.node v = { c.node v with votesReceived := (c.node v).votesReceived + 1 }.becomeLeader

variable {n : Node} {tag i founders term : Nat} {saveTerm saveVote : Save} {settings : Settings} {c c' : System}
  {pkt : Packet} {v w : NodeID} {events new events' : List Event} {a : Action} {node : NodeID → Node}
  {net : List Packet} {ok : System → Action → Prop} {past : List System}

theorem Move.leads {n' : Node} (move : Move n n') (leading : n'.role = .leader) :
    n.role = .leader ∧ n'.currentTerm = n.currentTerm := by
  cases move with
  | quiet same =>
    rcases same.role with equal | lost
    · exact ⟨by rw [← equal, leading], same.term⟩
    · exact Role.noConfusion (lost.symm.trans leading)
  | adopt m _ _ role _ same =>
    -- The term was adopted as a follower.
    rcases same.role with equal | lost
    · exact Role.noConfusion ((equal.trans role).symm.trans leading)
    · exact Role.noConfusion (lost.symm.trans leading)

theorem Node.maybeStartElection_leads {leaderTransfer : Bool} {save : Save}
    (leading : (n.maybeStartElection leaderTransfer tag save).node.role = .leader) : n.role = .leader ∧
      (n.maybeStartElection leaderTransfer tag save).node.currentTerm = n.currentTerm := by
  rcases n.maybeStartElection_cases leaderTransfer tag save with
    equal | ⟨_, _, _, equal | ⟨-, equal⟩⟩ <;> rw [equal] at leading ⊢
  · exact ⟨leading, rfl⟩
  · cases leading
  · exact ⟨leading, rfl⟩

theorem Node.handleRequestVote_leads {now : Nat} {m : RequestVote}
    (leading : (n.handleRequestVote settings now m tag saveTerm saveVote).node.role = .leader) : n.role = .leader ∧
    (n.handleRequestVote settings now m tag saveTerm saveVote).node.currentTerm = n.currentTerm := by
  unfold Node.handleRequestVote at leading ⊢
  split_ifs at leading ⊢
  · exact ⟨leading, rfl⟩
  · rcases (n.catchUp m.term saveTerm).considerVote_cases m tag saveVote with
      ⟨_, _, _, equal⟩ | ⟨_, _, equal⟩ <;> rw [equal] at leading ⊢ <;>
      exact (Move.catchUp n m.term saveTerm).leads leading

theorem System.handle_leads {effect : Effect} (found : c.net[i]? = some pkt)
    (handled : c.handle (c.node pkt.dst) pkt saveTerm saveVote = some effect) (result : c'.node pkt.dst = effect.node)
    (leading : effect.node.role = .leader) : Stays c c' pkt.dst ∨ Wins c c' pkt.dst := by
  unfold Stays
  rw [result]
  unfold System.handle at handled
  split at handled
  · cases handled
    exact .inl ((handleAppendEntries_mild ..).move.leads leading)
  · cases handled
    exact .inl (handleRequestVote_leads leading)
  · rename_i sender term voteGranted isAnswer
    cases handled
    unfold Node.handleVoteResponse at leading result ⊢
    dsimp only at leading result ⊢
    -- Only the vote that makes a majority starts a lead.
    split_ifs at leading result ⊢ with higher stale granted enough
    · exact .inl ((Move.stepDown saveTerm higher).leads leading)
    · exact .inl ⟨leading, rfl⟩
    · simp only [ne_eq, not_or, Decidable.not_not] at stale
      obtain ⟨standing, rfl⟩ := stale
      subst granted
      exact .inr ⟨i, pkt, sender, found, rfl, isAnswer, standing, enough, result⟩
    · exact .inl ⟨leading, rfl⟩
    · exact .inl ⟨leading, rfl⟩
  · cases handled
    unfold Node.handleTimeoutNow at leading ⊢
    split_ifs at leading ⊢
    · exact .inl ⟨leading, rfl⟩
    · exact .inl (maybeStartElection_leads leading)
  · cases handled
    exact .inl ((handleInstallSnapshot_mild ..).move.leads leading)
  all_goals
    split_ifs at handled <;> cases handled <;> exact .inl ⟨leading, rfl⟩

theorem Stays.of_same (same : c'.node v = c.node v) (leading : (c'.node v).role = .leader) : Stays c c' v := by
  unfold Stays
  rw [same] at leading ⊢
  exact ⟨leading, rfl⟩

theorem Stays.mild {o : Outcomes} (mild : Mild (c.node v) o.server.node o.sends o.events)
    (leading : ((c.bump.put v o).node w).role = .leader) : Stays c (c.bump.put v o) w := by
  by_cases same : w = v
  · subst same
    unfold Stays
    rw [node_put, update_self] at leading ⊢
    exact mild.move.leads leading
  · refine Stays.of_same ?_ leading
    rw [node_put, update_of_ne same, node_bump]

theorem System.step_leads (b : Ballots c.node c.net events) (moved : c.step a = some (c', new))
    (leading : (c'.node w).role = .leader) : Stays c c' w ∨ Wins c c' w := by
  -- A step of another node changes nothing here.
  have put : ∀ {d : System} {v : NodeID} {o : Outcomes}, d.node = c.node → ((d.put v o).node w).role = .leader →
      (w = v → o.server.node.role = .leader → Stays c (d.put v o) w) → Stays c (d.put v o) w := by
    intro d v o same leads own
    by_cases here : w = v
    · refine own here ?_
      rwa [node_put, here, update_self] at leads
    · refine Stays.of_same ?_ leads
      rw [node_put, update_of_ne here, same]
  cases System.moves moved with
  | ordinary ordinary =>
    obtain ⟨v, o, -, mild, rfl, -⟩ := step_ordinary ordinary moved
    exact .inl (Stays.mild mild leading)
  | @deliver i pkt _ _ effect found _ _ handled =>
    by_cases same : w = pkt.dst
    · subst same
      have result := congrFun (node_put ((c.take i).bump) pkt.dst
        { server := { c.server pkt.dst with node := effect.node }, sends := effect.sends }) pkt.dst
      rw [update_self] at result
      rw [result] at leading
      exact handle_leads found handled result leading
    · exact .inl (put rfl leading fun here => absurd here same)
  | drop | tick => exact .inl ⟨leading, rfl⟩
  | stop | crash | spawn => exact .inl (put rfl leading fun _ leads => by cases leads)
  | @timeout v save =>
    refine .inl (put rfl leading fun here leads => ?_)
    subst here
    unfold Stays
    rw [node_put, update_self]
    exact maybeStartElection_leads leads
  | @install v _ _ _ busy =>
    -- A node that installs a snapshot is a follower.
    have follower := (b.voter v).parked (by rw [busy]; rfl)
    exact .inl (put rfl leading fun _ leads => Role.noConfusion (follower.symm.trans leads))
  | restart =>
    refine .inl (put rfl leading fun _ leads => ?_)
    simp only [Node.rebuild, Node.persist, Node.fresh] at leads
    split_ifs at leads

theorem Ballots.quorum (b : Ballots node net events) {sender : NodeID} (found : net[i]? = some pkt) (to_ : pkt.dst = v)
    (isGrant : pkt.msg = .requestVoteResponse sender (node v).currentTerm true) (standing : (node v).role = .candidate)
    (enough : (node v).majority ≤ (node v).votesReceived + 1) : .stood v (node v).currentTerm ∈ events ∧ ∃ voters :
    Finset NodeID, Majority (node v).config.toFinset voters ∧ ∀ w ∈ voters, Cast events w v (node v).currentTerm := by
  have id := (b.voter v).id
  obtain ⟨stood, voters, size, inside, cast, _⟩ := b.count found to_ isGrant standing
  dsimp only at stood size inside cast
  rw [id] at stood cast
  refine ⟨stood, voters, ⟨inside, ?_⟩, cast⟩
  unfold Node.majority at enough
  rw [Members.card_toFinset, size]
  omega

/-- A node was elected by founders, or is the bootstrap leader. -/
def Elected (founders : Nat) (events : List Event) (v : NodeID) (term : Nat) : Prop :=
  (v = 0 ∧ term = 1) ∨ ∃ voters : Finset NodeID,
    Majority (Members.fullConfig founders).toFinset voters ∧ ∀ w ∈ voters, Cast events w v term

theorem Elected.unique (b : Ballots node net events)
    (first : Elected founders events v term) (second : Elected founders events w term) : v = w := by
  -- Nobody stands for the first term, so a vote in it is the bootstrap leader's own.
  have bootstrap : ∀ {k : NodeID} {voters : Finset NodeID}, term = 1 →
      Majority (Members.fullConfig founders).toFinset voters →
      (∀ x ∈ voters, Cast events x k term) → k = 0 := by
    intro k voters one quorum cast
    have some : 0 < voters.card := by
      have := quorum.2
      omega
    obtain ⟨x, member⟩ := Finset.card_pos.mp some
    rcases cast x member with granted | ⟨_, stood⟩ | ⟨_, same, _⟩
    · have := b.stood_ge (b.granted_stood granted)
      omega
    · have := b.stood_ge stood
      omega
    · exact same
  rcases first with ⟨rfl, one⟩ | ⟨voters, quorum, cast⟩
  · rcases second with ⟨rfl, _⟩ | ⟨voters', quorum', cast'⟩
    · rfl
    · exact (bootstrap one quorum' cast').symm
  · rcases second with ⟨rfl, one⟩ | ⟨voters', quorum', cast'⟩
    · exact bootstrap one quorum cast
    · obtain ⟨x, left, right⟩ := quorum.meet (Near.refl _) quorum'
      exact b.unique (cast x left) (cast' x right)

theorem Elected.mono (elected : Elected founders events v term) (more : events ⊆ events') :
    Elected founders events' v term := by
  rcases elected with first | ⟨voters, quorum, cast⟩
  · exact .inl first
  · exact .inr ⟨voters, quorum, fun w member => (cast w member).mono more⟩

def LeadersElected (founders : Nat) (events : List Event) (c : System) : Prop :=
  ∀ v, (c.node v).role = .leader → Elected founders events v (c.node v).currentTerm

theorem Node.bootstrap_eq (n : Node) : ∃ peers next known replies,
    n.bootstrap = { n with role := .leader, transferring := false, votedFor := some n.id
                           disk := ⟨1, some n.id⟩, peers := peers, nextIndex := next
                           matchIndex := known, respCh := replies } ∧
    (∀ p, known p = n.matchIndex p ∨ known p = 0) ∧
    (∀ p, replies p = n.respCh p ∨ replies p = none) ∧
    ∀ p ∈ peers, p ∈ n.peers ∨ (p ∈ n.config.ids ∧ p ≠ n.id) := by
  obtain ⟨peers, next, known, replies, equal, forgets, _, empties, _, source⟩ :=
    ({ n with votedFor := some n.id, disk := ⟨1, some n.id⟩ }).becomeLeader_eq
  exact ⟨peers, next, known, replies, equal, forgets, empties, source⟩

/-- Node zero starts as the bootstrap leader. -/
theorem System.init_node_zero {settings : Settings} {founders : Nat} (positive : 0 < founders) :
    (System.init settings founders).node 0 =
      (Node.fresh 0 (List.range founders) (.fullConfig founders)).bootstrap := by
  simp only [System.init, System.node, if_pos positive, if_true]

/-- Every other node starts fresh, and runs if it is a founder. -/
theorem System.init_node {settings : Settings} {founders : Nat} {v : NodeID} (other : v ≠ 0) :
    (System.init settings founders).node v =
      { Node.fresh v (List.range founders) (if v < founders then .fullConfig founders else .empty)
        with up := decide (v < founders) } := by
  simp only [System.init, System.node, if_neg other]

theorem Voter.init (founders : Nat) (positive : 0 < founders) (settings : Settings) (v : NodeID) :
    Voter v ((System.init settings founders).node v) [] [] := by
  -- The only vote at the start is that of the bootstrap leader.
  have only : ∀ {k term}, Cast [] v k term → v = 0 ∧ k = 0 ∧ term = 1 := by
    intro k term cast
    simpa [Cast] using cast
  by_cases zero : v = 0
  · subst zero
    obtain ⟨peers, next, known, replies, equal, _⟩ :=
      (Node.fresh 0 (List.range founders) (.fullConfig founders)).bootstrap_eq
    rw [init_node_zero positive, equal]
    refine ⟨rfl, ⟨le_refl _, le_refl _⟩, ?_, ?_, ?_, ?_⟩
    · intro k term cast
      obtain ⟨_, rfl, rfl⟩ := only cast
      exact ⟨le_refl _, fun _ => rfl⟩
    · intro k term cast
      obtain ⟨_, rfl, rfl⟩ := only cast
      exact ⟨le_refl _, fun _ => rfl⟩
    · exact fun standing => Role.noConfusion standing
    · exact fun busy => by cases busy
  · rw [init_node zero]
    refine ⟨rfl, ⟨le_refl _, le_refl _⟩, ?_, ?_, ?_, fun _ => rfl⟩
    · exact fun cast => absurd (only cast).1 zero
    · exact fun cast => absurd (only cast).1 zero
    · exact fun standing => Role.noConfusion standing

theorem Polls.init (settings : Settings) (positive : 0 < founders) : Polls (System.init settings founders) [] := by
  have empty : Cluster.ballots (System.init settings founders).net = [] := rfl
  refine ⟨⟨Voter.init founders positive settings, by simp, by simp, ?_, by simp [empty],
    by simp [empty], by simp [System.init], by simp [System.init]⟩, ?_, ?_⟩
  · intro v k k' term cast cast'
    simp only [Cast, not_mem_nil, and_false, false_or] at cast cast'
    exact cast.2.1.trans cast'.2.1.symm
  · intro v outside
    have started : founders ≤ v := outside
    have other : v ≠ 0 := ne_of_gt (lt_of_lt_of_le positive started)
    simp [System.init, System.node, other, started]
  · intro v k term cast
    simp only [Cast, not_mem_nil, and_false, false_or] at cast
    rw [cast.1]
    exact positive

theorem Fixed.init (settings : Settings) : Fixed founders (System.init settings founders) := by
  refine ⟨rfl, ?_, by simp [System.init]⟩
  intro v inside
  have fresh : (Node.fresh v (List.range founders) (Members.fullConfig founders)).Plain founders :=
    ⟨rfl, rfl, by simp [Node.fresh], by simp [Node.fresh], by simp [Node.fresh]⟩
  have threads : Threads.Plain {} := ⟨by simp, rfl⟩
  refine ⟨?_, threads⟩
  simp only [System.init, if_pos inside]
  split_ifs
  · refine Node.Plain.aside ?_ (Node.Aside.bootstrap _).toSame
    exact ⟨fresh.config, fresh.base, fresh.entries, fresh.installing, fresh.peers⟩
  · exact ⟨fresh.config, fresh.base, fresh.entries, fresh.installing, fresh.peers⟩

/-- The laws of votes hold along every run. -/
theorem Polls.of_reach (positive : 0 < founders)
    (run : Run.Reach System.step ok (System.init settings founders) c past events) : Polls c events := by
  refine run.invariant (P := fun c _ events => Polls c events) (Polls.init settings positive) ?_
  intro c a c' past events new _ _ moved polls
  exact polls.step moved

/-- Without membership changes the membership is fixed. -/
theorem Fixed.of_reach (positive : 0 < founders) (small : founders < 2 ^ 32)
    (fixed : ∀ c a, ok c a → a.fixedMembership = true)
    (run : Run.Reach System.step ok (System.init settings founders) c past events) : Fixed founders c := by
  refine run.invariant (P := fun c _ _ => Fixed founders c) (Fixed.init settings) ?_
  intro c a c' past events new before meets moved x
  exact x.step (fun _ _ _ => small) (Polls.of_reach positive before) (fixed c a meets) moved

/-- A step keeps every leader elected. -/
theorem LeadersElected.step (polls : Polls c events) (fixed : Fixed founders c) (x : LeadersElected founders events c)
    (moved : c.step a = some (c', new)) : LeadersElected founders (new ++ events) c' := by
  intro v leading
  rcases step_leads polls.ballots moved leading with ⟨led, term⟩ | wins
  · rw [term]
    exact (x v led).mono (subset_append_right ..)
  · obtain ⟨i, pkt, sender, found, to_, isGrant, standing, enough, result⟩ := wins
    obtain ⟨stood, voters, quorum, cast⟩ :=
      polls.ballots.quorum found to_ isGrant standing enough
    have started := polls.voters (.inr (.inl ⟨rfl, stood⟩))
    rw [fixed.size] at started
    rw [show (c.node v).config = .fullConfig founders from (fixed.servers v started).node.config] at quorum
    have term : (c'.node v).currentTerm = (c.node v).currentTerm := by
      obtain ⟨peers, next, known, replies, equal, _⟩ :=
        ({ c.node v with votesReceived := (c.node v).votesReceived + 1 }).becomeLeader_eq
      rw [result, equal]
    rw [term]
    exact .inr ⟨voters, quorum, fun w member =>
      (cast w member).mono (subset_append_right ..)⟩

/-- What the states of a run with a fixed membership leave in the record. -/
structure Recorded (founders : Nat) (events : List Event) (c : System) : Prop where
  leaders : LeadersElected founders events c
  grants : ∀ {pkt sender term}, pkt ∈ c.net → pkt.msg = .requestVoteResponse sender term true →
    .granted sender pkt.dst term ∈ events

theorem Recorded.mono (x : Recorded founders events c) (more : events ⊆ events') : Recorded founders events' c :=
  ⟨fun v leading => (x.leaders v leading).mono more, fun member isGrant => more (x.grants member isGrant)⟩

theorem Recorded.of_reach (positive : 0 < founders) (small : founders < 2 ^ 32)
    (run : Run.Reach System.step (fun _ a => a.fixedMembership = true) (System.init settings founders) c past events) :
    ∀ s ∈ c :: past, Recorded founders events s := by
  refine run.invariant (P := fun c past events => ∀ s ∈ c :: past, Recorded founders events s) ?_ ?_
  · intro s member
    rw [mem_singleton.mp member]
    refine ⟨?_, by simp [System.init]⟩
    intro v leading
    -- Only the bootstrap leader leads at the start.
    by_cases zero : v = 0
    · subst zero
      obtain ⟨peers, next, known, replies, equal, _⟩ := (Node.fresh 0 (List.range founders)
        (if 0 < founders then .fullConfig founders else .empty)).bootstrap_eq
      refine .inl ⟨rfl, ?_⟩
      simp only [System.init, System.node, if_true, equal]
      rfl
    · simp [System.init, System.node, zero, Node.fresh] at leading
  · intro c a c' past events new before meets moved x s member
    have polls := Polls.of_reach positive before
    have fixed := Fixed.of_reach positive small (fun _ _ => id) before
    rcases mem_cons.mp member with rfl | old
    · exact ⟨(x c mem_cons_self).leaders.step polls fixed moved, (polls.step moved).ballots.answered⟩
    · exact (x s old).mono (subset_append_right ..)

/-- Leaders of one term are one node, and a node's votes in a term go to one. -/
theorem election_safety {settings : Settings} {founders : Nat} (positive : 0 < founders)
    (small : founders < 2 ^ 32) {c : System} {past : List System} {events : List Event}
    (run : Run.Reach System.step (fun _ a => a.fixedMembership = true)
      (System.init settings founders) c past events) :
    (∀ s ∈ c :: past, ∀ s' ∈ c :: past, ∀ v w, (s.node v).role = .leader →
      (s'.node w).role = .leader → (s.node v).currentTerm = (s'.node w).currentTerm → v = w) ∧
    ∀ s ∈ c :: past, ∀ s' ∈ c :: past, ∀ pkt ∈ s.net, ∀ pkt' ∈ s'.net, ∀ sender term,
      pkt.msg = .requestVoteResponse sender term true →
      pkt'.msg = .requestVoteResponse sender term true → pkt.dst = pkt'.dst := by
  have recorded := Recorded.of_reach positive small run
  have ballots := (Polls.of_reach positive run).ballots
  constructor
  · intro s member s' member' v w leading leading' same
    have first := (recorded s member).leaders v leading
    have second := (recorded s' member').leaders w leading'
    rw [← same] at second
    exact first.unique ballots second
  · intro s member s' member' pkt sent pkt' sent' sender term isGrant isGrant'
    have first := (recorded s member).grants sent isGrant
    have second := (recorded s' member').grants sent' isGrant'
    exact ballots.unique (.inl first) (.inl second)

/-- A second node takes over the lead while a voter crashes and comes back. -/
theorem election_safety_takeover : ∃ c past events,
    Run.Reach System.step (fun _ a => a.fixedMembership = true) (System.init ⟨0, 0⟩ 3)
      c past events ∧ (c.node 1).role = .leader ∧
    ∀ s ∈ c :: past, ∀ v, (s.node v).role = .leader →
      (s.node v).currentTerm = (c.node 1).currentTerm → v = 1 := by
  obtain ⟨c, past, events, run, leading⟩ := Run.exec_exists System.step
    (fun _ a => a.fixedMembership) (System.init ⟨0, 0⟩ 3)
    [.timeout 1 .ok, .deliver 1 .kept .ok, .crash 2 false, .restart 2 .ok, .deliver 1 .ok .ok]
    (fun r => decide ((r.1.node 1).role = .leader)) (by rfl)
  refine ⟨c, past, events, run, of_decide_eq_true leading, ?_⟩
  intro s member v leads same
  exact (election_safety (by decide) (by decide) run).1 s member c mem_cons_self v 1 leads
    (of_decide_eq_true leading) same

/-- A vote stays on disk until a later term, the only one of its term. -/
theorem votes_durable (positive : 0 < founders)
    (run : Run.Reach System.step ok (System.init settings founders) c past events) (cast : Cast events v k term) :
    Keeps (c.node v).disk.currentTerm (c.node v).disk.votedFor k term ∧ ∀ k', Cast events v k' term → k' = k := by
  have ballots := (Polls.of_reach positive run).ballots
  exact ⟨(ballots.voter v).durable cast, fun k' cast' => ballots.unique cast' cast⟩

/-- A voter that crashes after its vote has it on its disk again. -/
theorem votes_durable_restart : ∃ c past events,
    Run.Reach System.step (fun _ _ => true = true) (System.init ⟨0, 0⟩ 3) c past events ∧
    .granted 2 1 2 ∈ events ∧ Keeps (c.node 2).disk.currentTerm (c.node 2).disk.votedFor 1 2 := by
  obtain ⟨c, past, events, run, voted⟩ := Run.exec_exists System.step (fun _ _ => true) (System.init ⟨0, 0⟩ 3)
    [.timeout 1 .ok, .deliver 1 .kept .ok, .crash 2 false, .restart 2 .ok]
    (fun r => decide (.granted 2 1 2 ∈ r.2.2)) (by rfl)
  have voted := of_decide_eq_true voted
  exact ⟨c, past, events, run, voted, (votes_durable (by decide) run (.inl voted)).1⟩

end Cluster
