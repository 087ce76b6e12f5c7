import LittleDb.Cluster.Ballots
import Mathlib.Data.List.Induction

/-! Every step of the cluster keeps the laws of votes. -/

namespace Cluster

open Function List Option Node

/-- A step that casts and counts no vote adopts a term, or does nothing. -/
inductive Move (n : Node) : Node → Prop where
  | quiet {n' : Node} (same : Quiet n n') : Move n n'
  /-- A higher term is adopted first, and may or may not reach the disk. -/
  | adopt {n' : Node} (m : Node) (id : m.id = n.id) (higher : n.currentTerm < m.currentTerm)
      (role : m.role = .follower)
      (disk : m.disk = n.disk ∨ m.disk = ⟨m.currentTerm, m.votedFor⟩)
      (same : Quiet m n') : Move n n'

/-- A step that casts and counts no vote, with what it sends and records. -/
structure Mild (n n' : Node) (sends : List Packet) (events : List Event) : Prop where
  move : Move n n'
  silent : ∀ pkt ∈ sends, pkt.ballot = none
  plain : ∀ e ∈ events, e.isVote = false

variable {n n' n'' m : Node} {v : NodeID} {net sends : List Packet} {events : List Event}

/-- A step that sends and records nothing. -/
theorem Mild.of_quiet (same : Quiet n n') : Mild n n' [] [] :=
  ⟨.quiet same, by simp, by simp⟩

/-- Adopting a higher term is a move. -/
theorem Move.stepDown {term : Nat} (save : Save) (higher : n.currentTerm < term) : Move n (n.stepDown term save) := by
  refine .adopt (n.stepDown term save) ?_ ?_ ?_ ?_ (Quiet.refl _)
  · simp only [Node.stepDown, Node.persist]
    split_ifs <;> rfl
  · simp only [Node.stepDown, Node.persist]
    split_ifs <;> exact higher
  · simp only [Node.stepDown, Node.persist]
    split_ifs <;> rfl
  · simp only [Node.stepDown, Node.persist]
    split_ifs
    · exact .inr rfl
    · exact .inl rfl

/-- A step that casts and counts no vote keeps a node's laws. -/
theorem Voter.move (x : Voter v n net events) (move : Move n n') : Voter v n' net events := by
  cases move with
  | quiet same => exact x.quiet same
  | adopt m id higher role disk same => exact (x.adopt id higher role disk).quiet same

/-- A mild step of one node keeps the laws. -/
theorem Ballots.mild {node : NodeID → Node} (b : Ballots node net events) {new : List Event}
    (mild : Mild (node v) n' sends new) : Ballots (update node v n') (net ++ sends) (new ++ events) :=
  ((b.set ((b.voter v).move mild.move)).send mild.silent).record mild.plain

namespace Node

/-- A new replication target changes replication state only. -/
theorem ensurePeer_eq (n : Node) (id : NodeID) : ∃ peers next known replies,
    n.ensurePeer id = { n with peers := peers, nextIndex := next, matchIndex := known
                               respCh := replies } ∧
    (∀ p, known p = n.matchIndex p ∨ known p = 0) ∧
    (∀ p, replies p = n.respCh p ∨ replies p = none) ∧
    n.peers ⊆ peers ∧ ∀ p ∈ peers, p ∈ n.peers ∨ (p = id ∧ p ≠ n.id) := by
  unfold ensurePeer
  split_ifs with known
  · exact ⟨n.peers, n.nextIndex, n.matchIndex, n.respCh, rfl, fun _ => .inl rfl,
      fun _ => .inl rfl, List.Subset.refl _, fun _ => .inl⟩
  · refine ⟨_, _, _, _, rfl, ?_, ?_, subset_append_left .., ?_⟩
    · intro p
      by_cases same : p = id <;> simp [same]
    · intro p
      by_cases same : p = id <;> simp [same]
    · intro p member
      rcases mem_append.mp member with old | new
      · exact .inl old
      · rw [mem_singleton.mp new]
        exact .inr ⟨rfl, fun same => known (.inl same)⟩

/-- A new replication target touches no votes. -/
theorem ensurePeer_quiet (n : Node) (id : NodeID) : Quiet n (n.ensurePeer id) := by
  obtain ⟨peers, next, known, replies, equal, _⟩ := n.ensurePeer_eq id
  rw [equal]
  exact ⟨rfl, rfl, rfl, rfl, .inl rfl, fun _ => ⟨rfl, rfl⟩, .inl⟩

/-- Making all members targets changes replication state only. -/
theorem reconcilePeers_eq (n : Node) : ∃ peers next known replies,
    n.reconcilePeers = { n with peers := peers, nextIndex := next, matchIndex := known
                                respCh := replies } ∧
    (∀ p, known p = n.matchIndex p ∨ known p = 0) ∧
    (∀ p, replies p = n.respCh p ∨ replies p = none) ∧
    n.peers ⊆ peers ∧ ∀ p ∈ peers, p ∈ n.peers ∨ (p ∈ n.config.ids ∧ p ≠ n.id) := by
  unfold reconcilePeers
  generalize n.config.ids = ids
  -- One member at a time, from the front.
  induction ids using List.reverseRecOn with
  | nil =>
    exact ⟨n.peers, n.nextIndex, n.matchIndex, n.respCh, rfl, fun _ => .inl rfl,
      fun _ => .inl rfl, List.Subset.refl _, fun _ => .inl⟩
  | append_singleton ids id ih =>
    obtain ⟨peers, next, known, replies, equal, forgets, empties, more, source⟩ := ih
    obtain ⟨peers', next', known', replies', equal', forgets', empties', more', source'⟩ :=
      (List.foldl ensurePeer n ids).ensurePeer_eq id
    rw [foldl_append, foldl_cons, foldl_nil, equal']
    rw [equal] at forgets' empties' more' source' ⊢
    refine ⟨peers', next', known', replies', rfl, ?_, ?_, List.Subset.trans more more', ?_⟩
    · intro p
      rcases forgets' p with same | zero
      · rw [same]
        exact forgets p
      · exact .inr zero
    · intro p
      rcases empties' p with same | empty
      · rw [same]
        exact empties p
      · exact .inr empty
    · intro p member
      rcases source' p member with old | ⟨rfl, other⟩
      · rcases source p old with older | ⟨inside, other⟩
        · exact .inl older
        · exact .inr ⟨mem_append_left _ inside, other⟩
      · exact .inr ⟨by simp, other⟩

/-- A new leader changes its role and forgets its voters' matches. -/
theorem becomeLeader_eq (n : Node) : ∃ peers next known replies,
    n.becomeLeader = { n with role := .leader, transferring := false, peers := peers
                              nextIndex := next, matchIndex := known, respCh := replies } ∧
    (∀ p, known p = n.matchIndex p ∨ known p = 0) ∧ (∀ p ∈ n.votingPeers, known p = 0) ∧
    (∀ p, replies p = n.respCh p ∨ replies p = none) ∧
    n.peers ⊆ peers ∧ ∀ p ∈ peers, p ∈ n.peers ∨ (p ∈ n.config.ids ∧ p ≠ n.id) := by
  obtain ⟨peers, next, known, replies, equal, forgets, empties, more, source⟩ :=
    { n with role := .leader, transferring := false }.reconcilePeers_eq
  unfold becomeLeader
  dsimp only
  rw [equal]
  refine ⟨peers, _, _, replies, rfl, ?_, ?_, empties, more, source⟩
  · intro p
    dsimp only
    split_ifs
    · exact .inr rfl
    · exact forgets p
  · intro p member
    dsimp only
    rw [if_pos]
    exact member

/-- Advancing the commit index touches no votes. -/
theorem maybeAdvanceCommit_mild {n n' : Node} {events : List Event}
    (done : n.maybeAdvanceCommit = some (n', events)) : Quiet n n' ∧ ∀ e ∈ events, e.isVote = false := by
  have still : Quiet n n ∧ ∀ e ∈ ([] : List Event), e.isVote = false := ⟨Quiet.refl n, by simp⟩
  unfold maybeAdvanceCommit at done
  dsimp only at done
  split at done
  · cases done
    exact still
  · split_ifs at done with above
    · split at done
      · cases done
      · split_ifs at done
        · cases done
          exact ⟨⟨rfl, rfl, rfl, rfl, .inl rfl, fun _ => ⟨rfl, rfl⟩, .inl⟩, by simp [Event.isVote]⟩
        · cases done
          exact still
    · cases done
      exact still

/-- Compacting the log touches no votes. -/
theorem maybeCompact_quiet {n n' : Node} {settings : Settings}
    (done : n.maybeCompact settings = some n') : Quiet n n' := by
  unfold maybeCompact at done
  split_ifs at done
  · cases done
    exact Quiet.refl n
  · split at done
    · cases done
    · cases done
      exact ⟨rfl, rfl, rfl, rfl, .inl rfl, fun _ => ⟨rfl, rfl⟩, .inl⟩

end Node

/-- Quiet steps compose. -/
theorem Quiet.trans (first : Quiet n n') (second : Quiet n' n'') : Quiet n n'' := by
  refine ⟨second.id.trans first.id, second.term.trans first.term, second.vote.trans first.vote,
    second.disk.trans first.disk, ?_, ?_, ?_⟩
  · rcases second.role with same | lost
    · rw [same]
      exact first.role
    · exact .inr lost
  · intro standing
    obtain ⟨votes, config⟩ := second.votes standing
    have before : n'.role = .candidate := by
      rcases second.role with same | lost
      · rw [← same, standing]
      · rw [lost] at standing
        cases standing
    obtain ⟨votes', config'⟩ := first.votes before
    exact ⟨votes.trans votes', config.trans config'⟩
  · intro busy
    rcases second.parked busy with old | follower
    · rcases first.parked old with older | follower
      · exact .inl older
      · rcases second.role with same | lost
        · exact .inr (same.trans follower)
        · exact .inr lost
    · exact .inr follower

/-- A quiet step after a move is part of the move. -/
theorem Move.then (move : Move n n') (same : Quiet n' n'') : Move n n'' := by
  cases move with
  | quiet first => exact .quiet (first.trans same)
  | adopt m id higher role disk first => exact .adopt m id higher role disk (first.trans same)

/-- A move after a quiet step is a move of the whole. -/
theorem Move.after (move : Move m n') (taken : Quiet n m) : Move n n' := by
  cases move with
  | quiet same => exact .quiet (taken.trans same)
  | adopt m' id higher role disk same =>
    refine .adopt m' (id.trans taken.id) (by rw [← taken.term]; exact higher) role ?_ same
    rwa [← taken.disk]

/-- A mild step after a quiet one is mild. -/
theorem Mild.after (mild : Mild m n' sends events) (taken : Quiet n m) : Mild n n' sends events :=
  ⟨mild.move.after taken, mild.silent, mild.plain⟩

/-- Adopting a message's term, when it is higher, is a move. -/
theorem Move.catchUp (n : Node) (term : Nat) (save : Save) : Move n (n.catchUp term save) := by
  unfold Node.catchUp
  split_ifs with higher
  · exact Move.stepDown save higher
  · exact .quiet (Quiet.refl n)

/-- Giving up the role while votes stay is quiet. -/
theorem Quiet.follow (n : Node) (id : n'.id = n.id) (term : n'.currentTerm = n.currentTerm)
    (vote : n'.votedFor = n.votedFor) (disk : n'.disk = n.disk) (role : n'.role = .follower) : Quiet n n' :=
  ⟨id, term, vote, disk, .inr role, fun standing => Role.noConfusion (role.symm.trans standing), fun _ => .inr role⟩

/-- Changing log, indices and peers while votes stay is quiet. -/
theorem Quiet.work (n : Node) (id : n'.id = n.id) (term : n'.currentTerm = n.currentTerm)
    (vote : n'.votedFor = n.votedFor) (disk : n'.disk = n.disk) (role : n'.role = n.role)
    (votes : n'.votesReceived = n.votesReceived) (config : n'.config = n.config)
    (installing : n'.installing = n.installing) : Quiet n n' :=
  ⟨id, term, vote, disk, .inl role, fun _ => ⟨votes, config⟩, fun busy => .inl (by rw [← installing]; exact busy)⟩

/-- A message other than a request or a grant carries no vote. -/
theorem silent_singleton {pkt : Packet} (none : pkt.ballot = none) : ∀ p ∈ [pkt], p.ballot = Option.none := by
  intro p member
  rw [mem_singleton.mp member, none]

namespace Node

/-- The follower side of replication casts no vote. -/
theorem handleAppendEntries_mild (n : Node) (now : Nat) (m : AppendEntries) (tag : Nat)
    (save : Save) : Mild n (n.handleAppendEntries now m tag save).node (n.handleAppendEntries now m tag save).sends
      (n.handleAppendEntries now m tag save).events := by
  have deferred : Move n ((n.catchUp m.term save).deferTo now) :=
    (Move.catchUp n m.term save).then (Quiet.follow _ rfl rfl rfl rfl rfl)
  unfold handleAppendEntries
  dsimp only
  split_ifs
  · exact ⟨.quiet (Quiet.refl n), silent_singleton rfl, by simp⟩
  · exact ⟨deferred.then (Quiet.follow _ rfl rfl rfl rfl rfl), silent_singleton rfl, by simp⟩
  · exact ⟨deferred, silent_singleton rfl, by simp⟩

/-- Stopping inside a replication call casts no vote. -/
theorem stopInAppendEntries_move (n : Node) (m : AppendEntries) (count : Nat) (cut : Bool) :
    Move n (n.stopInAppendEntries m count cut) := by
  unfold stopInAppendEntries
  dsimp only
  split_ifs
  · exact .quiet (Quiet.refl n)
  · exact (Move.catchUp n m.term .ok).then (Quiet.work _ rfl rfl rfl rfl rfl rfl rfl rfl)
  · exact Move.catchUp n m.term .ok

/-- The follower side of a snapshot casts no vote. -/
theorem handleInstallSnapshot_mild (n : Node) (now : Nat) (m : InstallSnapshot) (tag : Nat)
    (save : Save) : Mild n (n.handleInstallSnapshot now m tag save).node (n.handleInstallSnapshot now m tag save).sends
      (n.handleInstallSnapshot now m tag save).events := by
  have deferred : Move n ((n.catchUp m.term save).deferTo now) :=
    (Move.catchUp n m.term save).then (Quiet.follow _ rfl rfl rfl rfl rfl)
  unfold handleInstallSnapshot
  dsimp only
  split_ifs
  · exact ⟨.quiet (Quiet.refl n), silent_singleton rfl, by simp⟩
  · exact ⟨deferred, silent_singleton rfl, by simp⟩
  · exact ⟨deferred.then (Quiet.follow _ rfl rfl rfl rfl rfl), by simp, by simp⟩

/-- A reply to a round casts and counts no vote. -/
theorem finishRound_mild {n : Node} {settings : Settings} {p : NodeID} {resp : Response}
    {term prevLogIndex count : Nat} {save : Save} {effect : Effect}
    (done : n.finishRound settings p resp term prevLogIndex count save = some effect) :
    Mild n effect.node effect.sends effect.events := by
  unfold finishRound at done
  split_ifs at done with higher
  · cases done
    exact ⟨Move.stepDown save higher, by simp, by simp⟩
  · cases done
    exact Mild.of_quiet (Quiet.refl n)
  · obtain ⟨⟨advanced, events⟩, commit, rest⟩ := bind_eq_some_iff.mp done
    obtain ⟨compacted, compact, last⟩ := bind_eq_some_iff.mp rest
    cases last
    obtain ⟨quiet, plain⟩ := maybeAdvanceCommit_mild commit
    have recorded : Quiet n (n.onAppendSuccess p (prevLogIndex + count)) :=
      Quiet.work _ rfl rfl rfl rfl rfl rfl rfl rfl
    exact ⟨.quiet ((recorded.trans quiet).trans (maybeCompact_quiet compact)), by simp, plain⟩
  · cases done
    exact Mild.of_quiet (Quiet.work _ rfl rfl rfl rfl rfl rfl rfl rfl)

/-- A reply to a snapshot casts and counts no vote. -/
theorem finishSnapshot_mild (n : Node) (p : NodeID) (resp : Response) (term lastIncludedIndex : Nat) (save : Save) :
    Mild n (n.finishSnapshot p resp term lastIncludedIndex save).node
      (n.finishSnapshot p resp term lastIncludedIndex save).sends
      (n.finishSnapshot p resp term lastIncludedIndex save).events := by
  unfold finishSnapshot
  split_ifs with higher
  · exact ⟨Move.stepDown save higher, by simp, by simp⟩
  · exact Mild.of_quiet (Quiet.refl n)
  · exact Mild.of_quiet (Quiet.work _ rfl rfl rfl rfl rfl rfl rfl rfl)
  · exact Mild.of_quiet (Quiet.refl n)

end Node

namespace Server

variable {s : Server} {o : Outcomes} {settings : Settings} {p : NodeID} {tag : Nat}

/-- Appending an entry touches no votes. -/
theorem propose_mild (done : s.propose = some o) : Mild s.node o.server.node o.sends o.events := by
  unfold propose at done
  split at done
  · dsimp only at done
    split_ifs at done with refused
    · cases done
      exact ⟨.quiet (Quiet.refl _), by simp, by simp [Event.isVote]⟩
    · split at done
      · cases done
      · rename_i node events commit
        cases done
        obtain ⟨quiet, plain⟩ := maybeAdvanceCommit_mild commit
        have leading : s.node.role = .leader := by
          by_contra other
          exact refused (.inl other)
        have appended : ∀ e, Quiet s.node (appendOwn s.node e) := fun e =>
          ⟨rfl, rfl, rfl, rfl, .inl rfl, fun standing => Role.noConfusion (leading.symm.trans standing), .inl⟩
        refine ⟨.quiet ((appended _).trans quiet), by simp, ?_⟩
        intro e member
        rcases mem_cons.mp member with rfl | later
        · rfl
        · exact plain e later
  · cases done

/-- Recording an applied entry touches no votes. -/
theorem finishApply_mild (done : s.finishApply settings = some o) : Mild s.node o.server.node o.sends o.events := by
  unfold finishApply at done
  split at done
  · split at done
    · cases done
    · rename_i compact
      cases done
      have applied : ∀ idx, Quiet s.node { s.node with lastApplied := idx } := fun _ =>
        Quiet.work _ rfl rfl rfl rfl rfl rfl rfl rfl
      exact Mild.of_quiet ((applied _).trans (maybeCompact_quiet compact))
  · cases done

/-- Starting a round touches no votes. -/
theorem replicate_mild (done : s.replicate p tag = some o) : Mild s.node o.server.node o.sends o.events := by
  unfold replicate at done
  split_ifs at done
  split at done
  · cases done
  · rename_i round sends started
    cases done
    refine ⟨.quiet (Quiet.refl _), ?_, by simp⟩
    unfold Node.startRound at started
    dsimp only at started
    split_ifs at started
    · cases started
      simp
    · cases started
      simp
    · split at started
      · cases started
      · cases started
        exact silent_singleton rfl

/-- Shipping a snapshot touches no votes. -/
theorem ship_mild (done : s.ship p tag = some o) : Mild s.node o.server.node o.sends o.events := by
  unfold ship at done
  split at done
  · split at done
    · cases done
    · rename_i shipped
      cases done
      refine ⟨.quiet (Quiet.refl _), ?_, by simp⟩
      unfold Node.shipSnapshot at shipped
      split_ifs at shipped
      · cases shipped
        simp
      · cases shipped
        simp
      · split at shipped
        · cases shipped
        · cases shipped
          exact silent_singleton rfl
  · cases done

/-- Taking a reply touches no votes. -/
theorem consume_mild {save : Save} (done : s.consume settings p save = some o) :
    Mild s.node o.server.node o.sends o.events := by
  unfold consume at done
  obtain ⟨pkt, _, rest⟩ := bind_eq_some_iff.mp done
  obtain ⟨resp, _, last⟩ := bind_eq_some_iff.mp rest
  have taken : Quiet s.node { s.node with respCh := update s.node.respCh p none } :=
    Quiet.work _ rfl rfl rfl rfl rfl rfl rfl rfl
  dsimp only at last
  split at last
  · obtain ⟨effect, finished, result⟩ := bind_eq_some_iff.mp last
    cases result
    exact (finishRound_mild finished).after taken
  · cases last
    exact (finishSnapshot_mild _ p resp _ _ save).after taken
  · cases last

end Server

/-- Winning keeps a candidate's laws. -/
theorem Voter.lead (x : Voter v n net events) (standing : n.role = .candidate) : Voter v n.becomeLeader net events := by
  obtain ⟨peers, next, known, replies, equal, _⟩ := n.becomeLeader_eq
  rw [equal]
  exact { x with
    candidate := fun leading => Role.noConfusion leading
    parked := fun busy => Role.noConfusion (standing.symm.trans (x.parked busy)) }

/-- Rebuilding a node from its durable state keeps its laws. -/
theorem Voter.rebuild (x : Voter v n net events) (peers : List NodeID) (save : Save) :
    Voter v (n.rebuild peers save) net events := by
  -- The term read back is the saved one, or a higher one found in the log.
  have kept : ∀ {k term}, Cast events v k term → Keeps
      (if n.disk.currentTerm < n.log.lastTerm then n.log.lastTerm else n.disk.currentTerm)
      (if n.disk.currentTerm < n.log.lastTerm then none else n.disk.votedFor) k term := by
    intro k term cast
    split_ifs with behind
    · exact (x.durable cast).newer behind
    · exact x.durable cast
  have positive : 1 ≤ (if n.disk.currentTerm < n.log.lastTerm then n.log.lastTerm
      else n.disk.currentTerm) := by
    have := x.positive.2
    split_ifs <;> omega
  have follower : (n.rebuild peers save).role = .follower := by
    simp only [Node.rebuild, Node.persist, Node.fresh]
    split_ifs <;> rfl
  exact {
    id := by
      simp only [Node.rebuild, Node.persist, Node.fresh]
      split_ifs <;> exact x.id
    positive := by
      simp only [Node.rebuild, Node.persist, Node.fresh]
      cases save.onDisk
      · exact ⟨positive, x.positive.2⟩
      · exact ⟨positive, positive⟩
    memory := by
      simp only [Node.rebuild, Node.persist, Node.fresh]
      cases save.onDisk <;> exact kept
    durable := by
      simp only [Node.rebuild, Node.persist, Node.fresh]
      cases save.onDisk
      · exact x.durable
      · exact kept
    candidate := fun standing => Role.noConfusion (follower.symm.trans standing)
    parked := fun _ => follower }

end Cluster
