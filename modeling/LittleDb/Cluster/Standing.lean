import LittleDb.Cluster.ElectionSafety

/-! Candidates: whether one that holds a majority of votes can stay a candidate. -/

namespace Cluster

open Function List

namespace Node

/-- A candidate has not yet counted a majority of votes. -/
def Pending (n : Node) : Prop := n.role = .candidate → n.votesReceived < n.majority

/-- The node may stand, and nobody else votes in its configuration. -/
def alone (n : Node) : Bool :=
  decide (n.role ≠ .leader) && n.installing.isNone && decide (n.config.ids = [n.id])

variable {n n' : Node}

variable (pending : n.Pending)

include pending

theorem Pending.quiet (same : Cluster.Quiet n n') : n'.Pending := by
  intro standing
  obtain ⟨votes, config⟩ := same.votes standing
  -- The role is not given up, so the node was a candidate before.
  have before : n.role = .candidate := by
    rcases same.role with kept | lost
    · exact kept.symm.trans standing
    · cases lost.symm.trans standing
  have below := pending before
  unfold majority at below ⊢
  rw [votes, config]
  exact below

theorem Pending.move (move : Move n n') : n'.Pending := by
  cases move with
  | quiet same => exact pending.quiet same
  | adopt m id higher role disk same =>
    have follower : m.Pending := fun standing => by cases role.symm.trans standing
    exact follower.quiet same

theorem Pending.considerVote (m : RequestVote) (tag : Nat) (save : Save) :
    (n.considerVote m tag save).node.Pending := by
  rcases n.considerVote_cases m tag save with ⟨-, -, -, granted⟩ | ⟨d, -, refused⟩
  · rw [granted]
    exact pending
  · rw [refused]
    exact pending

theorem Pending.handleRequestVote (settings : Settings) (now : Nat) (m : RequestVote) (tag : Nat)
    (saveTerm saveVote : Save) : (n.handleRequestVote settings now m tag saveTerm saveVote).node.Pending := by
  unfold Node.handleRequestVote
  split_ifs
  · exact pending
  · exact (pending.move (Move.catchUp n m.term saveTerm)).considerVote m tag saveVote

theorem Pending.handleVoteResponse (term : Nat) (voteGranted : Bool) (save : Save) :
    (n.handleVoteResponse term voteGranted save).node.Pending := by
  unfold Node.handleVoteResponse
  dsimp only
  split_ifs with higher stale granted enough
  · exact pending.move (Move.stepDown save higher)
  · exact pending
  · -- The node leads now.
    obtain ⟨peers, next, known, replies, equal, -⟩ :=
      { n with votesReceived := n.votesReceived + 1 }.becomeLeader_eq
    rw [equal]
    intro standing
    cases standing
  · exact fun _ => not_le.mp enough
  · exact pending

theorem Pending.maybeStartElection (leaderTransfer : Bool) (tag : Nat) (save : Save)
    (others : save.succeeded = true → n.alone = false) :
    (n.maybeStartElection leaderTransfer tag save).node.Pending := by
  unfold Node.maybeStartElection
  dsimp only
  split_ifs with idle saved
  · exact pending
  · simp only [not_or, Bool.not_eq_true, Option.isSome_eq_false_iff] at idle
    obtain ⟨role, free, inside⟩ := idle
    have member : n.id ∈ n.config.ids := by simpa [inConfig] using inside
    -- The node is a member, and not the only one.
    have many : 2 ≤ n.config.ids.length := by
      by_contra few
      have single : n.config.ids = [n.id] := by
        obtain ⟨p, only⟩ := length_eq_one_iff.mp (le_antisymm (by omega) (length_pos_of_mem member))
        rw [only] at member ⊢
        rw [mem_singleton.mp member]
      have refused := others saved
      simp [alone, role, free, single] at refused
    intro _
    simp only [majority, persist]
    split_ifs
    all_goals
      change 1 < n.config.ids.length / 2 + 1
      omega
  · exact pending

end Node

namespace System

/-- The node that stands in a step, if its vote for itself can be saved. -/
def stander (c : System) : Action → Option NodeID
  | .timeout v save => if save.succeeded then some v else none
  | .deliver i saveTerm _ =>
    match c.net[i]? with
    | some { dst, msg := .timeoutNow _ _, .. } => if saveTerm.succeeded then some dst else none
    | _ => none
  | _ => none

/-- Nobody stands for election as the only member of its configuration. -/
def accompanied (c : System) (a : Action) : Bool := (c.stander a).all fun v => !(c.node v).alone

variable {c c' : System} {new : List Event}

theorem put_pending (pending : ∀ v, (c.node v).Pending) {v : NodeID} {o : Outcomes}
    (own : o.server.node.Pending) : ∀ w, ((c.put v o).node w).Pending := by
  intro w
  rw [node_put]
  by_cases same : w = v
  · subst same
    rwa [update_self]
  · rw [update_of_ne same]
    exact pending w

theorem handle_pending {n : Node} (pending : n.Pending) {pkt : Packet} {saveTerm saveVote : Save} {effect : Effect}
    (others : ∀ sender term, pkt.msg = .timeoutNow sender term → saveTerm.succeeded = true → n.alone = false)
    (handled : c.handle n pkt saveTerm saveVote = some effect) : effect.node.Pending := by
  unfold System.handle at handled
  split at handled
  · cases handled
    exact pending.move (Node.handleAppendEntries_mild ..).move
  · cases handled
    exact pending.handleRequestVote _ _ _ _ _ _
  · cases handled
    exact pending.handleVoteResponse _ _ _
  · next sender term order =>
    cases handled
    unfold Node.handleTimeoutNow
    split_ifs
    · exact pending
    · exact pending.maybeStartElection _ _ _ (others sender term order)
  · cases handled
    exact pending.move (Node.handleInstallSnapshot_mild ..).move
  all_goals
    split_ifs at handled <;> cases handled
    · exact pending
    · exact pending

theorem step_pending {events : List Event} (polls : Polls c events) (pending : ∀ v, (c.node v).Pending) {a : Action}
    (others : c.accompanied a = true) (moved : c.step a = some (c', new)) : ∀ v, (c'.node v).Pending := by
  unfold accompanied at others
  cases moves moved with
  | ordinary ordinary =>
    obtain ⟨v, o, -, mild, rfl, -⟩ := step_ordinary ordinary moved
    exact put_pending (c := c.bump) pending ((pending v).move mild.move)
  | @deliver i pkt _ _ _ found _ _ handled =>
    refine put_pending (c := (c.take i).bump) pending (handle_pending (pending pkt.dst) ?_ handled)
    intro sender term order saved
    obtain ⟨dst, tag, msg⟩ := pkt
    cases order
    simpa [stander, found, saved] using others
  | drop => exact pending
  -- A stopped node is no candidate.
  | @stop i => exact put_pending (c := c.take i) pending fun standing => by cases standing
  | @timeout v =>
    refine put_pending (c := c.bump) pending ((pending v).maybeStartElection _ _ _ fun saved => ?_)
    simpa [stander, saved] using others
  | @install v _ _ _ busy =>
    -- A node that installs a snapshot is a follower.
    have follower := (polls.ballots.voter v).parked (by rw [busy]; rfl)
    refine put_pending (c := c.bump) pending fun standing => ?_
    cases follower.symm.trans standing
  | crash => exact put_pending pending fun standing => by cases standing
  | restart =>
    -- A node comes back as a follower.
    refine put_pending pending fun standing => ?_
    simp only [Node.rebuild, Node.persist, Node.fresh] at standing
    split_ifs at standing
  | spawn => exact put_pending (c := { c with size := c.size + 1 }) pending fun standing => by cases standing
  | tick => exact pending

theorem init_pending (settings : Settings) (founders : Nat) :
    ∀ v, ((System.init settings founders).node v).Pending := by
  intro v
  -- Node zero leads the first term, whatever its configuration is.
  have led : ∀ n : Node, n.bootstrap.Pending := by
    intro n standing
    obtain ⟨peers, next, known, replies, equal, -⟩ :=
      { n with votedFor := some n.id, disk := ⟨1, some n.id⟩ }.becomeLeader_eq
    rw [Node.bootstrap, equal] at standing
    cases standing
  simp only [System.init, System.node]
  split_ifs
  · exact led _
  · exact led _
  · exact fun standing => by cases standing
  · exact fun standing => by cases standing

/-- A candidate never holds a majority, if nobody stands as the only member. -/
theorem candidates_pending {settings : Settings} {founders : Nat} {c : System} {past : List System}
    {events : List Event} (positive : 0 < founders)
    (run : Run.Reach System.step (fun c a => c.accompanied a = true) (System.init settings founders) c past
      events) (v : NodeID) (standing : (c.node v).role = .candidate) :
    (c.node v).votesReceived < (c.node v).majority := by
  have pending : ∀ v, (c.node v).Pending := by
    refine run.invariant (P := fun c _ _ => ∀ v, (c.node v).Pending) (init_pending settings founders) ?_
    intro c a c' past events new before others moved pending
    exact step_pending (Polls.of_reach positive before) pending others moved
  exact pending v standing

/-- Of three nodes one stands and has not won yet. -/
theorem candidates_pending_three : ∃ c past events,
    Run.Reach System.step (fun c a => c.accompanied a = true) (System.init ⟨0, 0⟩ 3) c past events ∧
    (c.node 1).role = .candidate ∧ (c.node 1).votesReceived = 1 ∧
    (c.node 1).votesReceived < (c.node 1).majority := by
  obtain ⟨c, past, events, run, passed⟩ := Run.exec_exists System.step accompanied (System.init ⟨0, 0⟩ 3)
    [.timeout 1 .ok] (fun r => decide ((r.1.node 1).role = .candidate ∧ (r.1.node 1).votesReceived = 1)) (by rfl)
  obtain ⟨standing, one⟩ := of_decide_eq_true passed
  exact ⟨c, past, events, run, standing, one, candidates_pending (by decide) run 1 standing⟩

/-- A restarted node that is its own cluster stands, and stays a candidate. -/
theorem single_candidate_stuck : ∃ c past events,
    Run.Reach System.step (fun _ _ => True) (System.init ⟨0, 0⟩ 1) c past events ∧
    (c.node 0).role = .candidate ∧ (c.node 0).votesReceived = 1 ∧ (c.node 0).majority = 1 ∧ c.net = [] := by
  obtain ⟨c, past, events, run, passed⟩ := Run.exec_exists System.step (fun _ _ => true)
    (System.init ⟨0, 0⟩ 1) [.crash 0 false, .restart 0 .ok, .timeout 0 .ok]
    (fun r => decide ((r.1.node 0).role = .candidate ∧ (r.1.node 0).votesReceived = 1 ∧
      (r.1.node 0).majority = 1) && r.1.net.isEmpty) (by rfl)
  rw [Bool.and_eq_true, List.isEmpty_iff] at passed
  obtain ⟨standing, votes, enough⟩ := of_decide_eq_true passed.1
  exact ⟨c, past, events, run.weaken fun _ _ _ => trivial, standing, votes, enough, passed.2⟩

end System

end Cluster
