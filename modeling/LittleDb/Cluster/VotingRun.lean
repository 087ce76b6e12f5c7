import LittleDb.Cluster.Voting

/-! The laws of votes hold along every run of the cluster. -/

namespace Cluster

open Function List Node Server Cluster.System

variable {v : NodeID} {a : Action}

namespace System

section

variable (c : System)
include c

@[simp] theorem server_put (v : NodeID) (o : Outcomes) :
    (c.put v o).server = update c.server v o.server := rfl

@[simp] theorem node_put (v : NodeID) (o : Outcomes) : (c.put v o).node = update c.node v o.server.node := by
  funext w
  by_cases same : w = v
  · subst same
    simp [put, node]
  · simp [put, node, same]

@[simp] theorem net_put (v : NodeID) (o : Outcomes) :
    (c.put v o).net = c.net ++ o.sends := rfl

@[simp] theorem node_bump : c.bump.node = c.node := rfl

@[simp] theorem net_bump : c.bump.net = c.net := rfl

@[simp] theorem node_take (i : Nat) : (c.take i).node = c.node := rfl

@[simp] theorem net_take (i : Nat) : (c.take i).net = c.net.eraseIdx i := rfl

end

variable {c c' : System} {new : List Event}

theorem act_cases {f : Server → Option Outcomes} (moved : c.act v f = some (c', new)) :
    (c.node v).up = true ∧ ∃ o, f (c.server v) = some o ∧ c' = c.bump.put v o ∧ new = o.events := by
  unfold act at moved
  split_ifs at moved with running
  split at moved
  · cases moved
  · rename_i o done
    cases moved
    exact ⟨running, o, done, rfl, rfl⟩

end System

/-- A step that stands in no election, counts no vote and ends no install. -/
def Action.ordinary : Action → Bool
  | .deliver .. | .drop .. | .stop .. | .timeout .. | .install .. | .crash .. | .restart .. | .spawn | .tick =>
    false
  | _ => true

namespace System

/-- Every way in which the cluster can take a step that is not ordinary. -/
inductive Moves (c : System) : Action → System → List Event → Prop
  | ordinary {a : Action} {c' : System} {new : List Event} (ordinary : a.ordinary = true) : c.Moves a c' new
  | deliver {i : Nat} {pkt : Packet} {saveTerm saveVote : Save} {effect : Effect} (found : c.net[i]? = some pkt)
      (up : (c.node pkt.dst).up = true) (free : (c.node pkt.dst).installing = none)
      (handled : c.handle (c.node pkt.dst) pkt saveTerm saveVote = some effect) :
      c.Moves (.deliver i saveTerm saveVote) ((c.take i).bump.put pkt.dst
        { server := { c.server pkt.dst with node := effect.node }, sends := effect.sends }) effect.events
  | drop {i : Nat} : c.Moves (.drop i) (c.take i) []
  | stop {i count : Nat} {cut : Bool} {pkt : Packet} (found : c.net[i]? = some pkt)
      (up : (c.node pkt.dst).up = true) (free : (c.node pkt.dst).installing = none) : c.Moves (.stop i count cut)
        ((c.take i).put pkt.dst { server := halt (c.stopIn (c.node pkt.dst) pkt count cut) }) []
  | timeout {v : NodeID} {save : Save} (up : (c.node v).up = true) : c.Moves (.timeout v save)
      (c.bump.put v { server := { c.server v with node := ((c.node v).maybeStartElection false c.nextTag save).node }
                      sends := ((c.node v).maybeStartElection false c.nextTag save).sends
                      events := ((c.node v).maybeStartElection false c.nextTag save).events })
      ((c.node v).maybeStartElection false c.nextTag save).events
  | install {v : NodeID} {m : InstallSnapshot} {tag : Nat} (up : (c.node v).up = true)
      (busy : (c.node v).installing = some (m, tag)) (idle : (c.threads v).applying = none) :
      c.Moves (.install v) (c.bump.put v
        { server := { c.server v with node := ((c.node v).completeInstall m tag).node }
          sends := ((c.node v).completeInstall m tag).sends }) []
  | crash {v : NodeID} {installed : Bool} {n : Node} (up : (c.node v).up = true)
      (left : n = c.node v ∨ ∃ m tag, (c.node v).installing = some (m, tag) ∧ n = (c.node v).swapInSnapshot m) :
      c.Moves (.crash v installed) (c.put v { server := halt n }) []
  | restart {v : NodeID} {save : Save} (started : v < c.size) (down : (c.node v).up = false)
      (base : (c.node v).log.baseIndex ≤ (c.node v).stored) : c.Moves (.restart v save) (c.put v
        { server := { node := (c.node v).rebuild (List.range c.size) save, threads := {} } }) []
  | spawn : c.Moves .spawn ({ c with size := c.size + 1 }.put c.size
      { server := { node := Node.fresh c.size (List.range (c.size + 1)) .empty, threads := {} } }) []
  | tick : c.Moves .tick { c with now := c.now + 1 } []

/-- Every step does just that. -/
theorem moves {c c' : System} {new : List Event} (moved : c.step a = some (c', new)) : c.Moves a c' new := by
  cases a <;> try exact .ordinary rfl
  case deliver i saveTerm saveVote =>
    simp only [System.step, System.deliver] at moved
    split at moved
    · cases moved
    · next pkt found =>
      split_ifs at moved with free
      split at moved
      · cases moved
      · next handled =>
        cases moved
        exact .deliver found free.1 free.2 handled
  case drop i =>
    simp only [System.step] at moved
    split_ifs at moved
    cases moved
    exact .drop
  case stop i count cut =>
    simp only [System.step, System.stop] at moved
    split at moved
    · cases moved
    · next found =>
      split_ifs at moved with free
      cases moved
      exact .stop found free.1 free.2
  case timeout v save =>
    simp only [System.step, System.timeout] at moved
    obtain ⟨up, o, done, rfl, rfl⟩ := act_cases moved
    cases done
    exact .timeout up
  case install v =>
    simp only [System.step, System.install] at moved
    obtain ⟨up, o, done, rfl, rfl⟩ := act_cases moved
    split at done
    · next m tag busy idle =>
      cases done
      exact .install up busy idle
    · cases done
  case crash v installed =>
    simp only [System.step, System.crash] at moved
    cases up : (c.server v).node.up with
    | false => simp [up] at moved
    | true =>
      rw [up, if_pos rfl] at moved
      cases moved
      -- The crash may fall behind the marker of an install.
      refine .crash up ?_
      cases busy : (c.server v).node.installing with
      | none => exact .inl rfl
      | some pair =>
        cases installed with
        | false => exact .inl rfl
        | true => exact .inr ⟨pair.1, pair.2, busy, rfl⟩
  case restart v save =>
    simp only [System.step, System.restart] at moved
    split_ifs at moved with down
    cases moved
    exact .restart down.1 (by simpa using down.2.1) down.2.2
  case spawn =>
    cases moved
    exact .spawn
  case tick =>
    cases moved
    exact .tick

end System

variable {c : System} {new events : List Event} {node : NodeID → Node} {net : List Packet} {i term : Nat}
  {pkt : Packet} {e : Event}

theorem System.step_ordinary {c' : System} (ordinary : a.ordinary = true)
    (moved : c.step a = some (c', new)) : ∃ v o, (c.node v).up = true ∧
      Mild (c.node v) o.server.node o.sends o.events ∧ c' = c.bump.put v o ∧ new = o.events := by
  -- Every goroutine but the ones above has a lemma that says its step is mild.
  have mildly : ∀ {v : NodeID} {f : Server → Option Outcomes},
      (∀ {o}, f (c.server v) = some o → Mild (c.node v) o.server.node o.sends o.events) →
      c.act v f = some (c', new) → ∃ v o, (c.node v).up = true ∧
        Mild (c.node v) o.server.node o.sends o.events ∧ c' = c.bump.put v o ∧ new = o.events := by
    intro v f mild acted
    obtain ⟨up, o, done, put, events⟩ := act_cases acted
    exact ⟨v, o, up, mild done, put, events⟩
  cases a <;> simp only [System.step] at moved
  case deliver | drop | stop | timeout | install | crash | restart | spawn | tick => cases ordinary
  -- Most goroutines leave the node alone, or change what no vote depends on.
  case beginCommit | prepare | cancel | beginRemove | pollAdd | expireAdd | promote | fetch | scan | abandon =>
    refine mildly (fun done => ?_) moved
    simp only [Server.beginCommit, Server.prepare, Server.cancel, Server.beginRemove, Server.pollAdd,
      Server.expireAdd, Server.promote, Server.fetch, Server.scan, Server.abandon] at done
    repeat' split at done
    all_goals cases done
    all_goals exact .of_quiet (.refl _)
  case beginTransfer | abortTransfer | pollTransfer | wake | store =>
    refine mildly (fun done => ?_) moved
    simp only [Server.beginTransfer, Server.abortTransfer, Server.pollTransfer, Server.wake, Server.store] at done
    repeat' split at done
    all_goals cases done
    all_goals exact ⟨.quiet (.work _ rfl rfl rfl rfl rfl rfl rfl rfl), by simp [Packet.ballot], by simp [Event.isVote]⟩
  case beginAdd =>
    split_ifs at moved
    refine mildly (fun done => ?_) moved
    simp only [Server.beginAdd] at done
    split_ifs at done
    cases done
    exact .of_quiet (ensurePeer_quiet ..)
  case relinquish =>
    refine mildly (fun done => ?_) moved
    simp only [Server.relinquish] at done
    repeat' split at done
    all_goals cases done
    · exact .of_quiet (.follow _ rfl rfl rfl rfl rfl)
    · exact .of_quiet (.refl _)
  case replicate => exact mildly replicate_mild moved
  case consume => exact mildly consume_mild moved
  case ship => exact mildly ship_mild moved
  case propose => exact mildly propose_mild moved
  case finishApply => exact mildly finishApply_mild moved

namespace Node

theorem maybeStartElection_cases (n : Node) (leaderTransfer : Bool) (tag : Nat) (save : Save) :
    n.maybeStartElection leaderTransfer tag save = { node := n } ∨
    (n.role ≠ .leader ∧ n.installing = none ∧ n.id ∈ n.config.ids ∧
      ((n.maybeStartElection leaderTransfer tag save =
          { node := { n with currentTerm := n.currentTerm + 1, role := .candidate
                             votedFor := some n.id, votesReceived := 1
                             disk := ⟨n.currentTerm + 1, some n.id⟩ }
            sends := n.votingPeers.map fun p =>
              { dst := p, tag := tag
                msg := .requestVote
                  { sender := n.id, term := n.currentTerm + 1, candidateID := n.id
                    lastLogIndex := n.log.lastIndex, lastLogTerm := n.log.lastTerm
                    leaderTransfer := leaderTransfer } }
            events := [.stood n.id (n.currentTerm + 1)] }) ∨
        (save = .kept ∧ n.maybeStartElection leaderTransfer tag save =
          { node := { n with disk := ⟨n.currentTerm + 1, some n.id⟩ } }))) := by
  by_cases idle : n.role = .leader ∨ n.installing.isSome ∨ ¬ n.inConfig
  · exact .inl (if_pos idle)
  · simp only [not_or, Bool.not_eq_true, Option.isSome_eq_false_iff, Option.isNone_iff_eq_none] at idle
    have member : n.id ∈ n.config.ids := by simpa [inConfig] using idle.2.2
    unfold maybeStartElection
    rw [if_neg (by simp [idle])]
    cases save with
    | ok => exact .inr ⟨idle.1, idle.2.1, member, .inl rfl⟩
    | lost => exact .inl rfl
    | kept => exact .inr ⟨idle.1, idle.2.1, member, .inr ⟨rfl, rfl⟩⟩

theorem considerVote_cases (n : Node) (m : RequestVote) (tag : Nat) (save : Save) :
    (m.term = n.currentTerm ∧ (n.votedFor = none ∨ n.votedFor = some m.candidateID) ∧
      n.candidateUpToDate m.lastLogIndex m.lastLogTerm ∧
      n.considerVote m tag save =
        { node := { n with votedFor := some m.candidateID
                           disk := ⟨n.currentTerm, some m.candidateID⟩ }
          sends := [{ dst := m.sender, tag := tag
                      msg := .requestVoteResponse n.id n.currentTerm true }]
          events := [.granted n.id m.candidateID n.currentTerm] }) ∨
    ∃ d, (d = n.disk ∨ (d = ⟨n.currentTerm, some m.candidateID⟩ ∧
        (n.votedFor = none ∨ n.votedFor = some m.candidateID) ∧ save = .kept)) ∧
      n.considerVote m tag save =
        { node := { n with disk := d }
          sends := [{ dst := m.sender, tag := tag
                      msg := .requestVoteResponse n.id n.currentTerm false }] } := by
  unfold considerVote
  split_ifs with willing saved
  · cases save with
    | ok => exact .inl ⟨willing.1, willing.2.1, willing.2.2, rfl⟩
    | lost => cases saved
    | kept => cases saved
  · cases save with
    | ok => exact absurd rfl saved
    | lost => exact .inr ⟨n.disk, .inl rfl, rfl⟩
    | kept => exact .inr ⟨_, .inr ⟨rfl, willing.2.1, rfl⟩, rfl⟩
  · exact .inr ⟨n.disk, .inl rfl, rfl⟩

end Node

theorem Ballots.maybeStartElection (b : Ballots node net events) (v : NodeID) (leaderTransfer : Bool) (tag : Nat)
    (save : Save) : Ballots (update node v ((node v).maybeStartElection leaderTransfer tag save).node)
    (net ++ ((node v).maybeStartElection leaderTransfer tag save).sends)
    (((node v).maybeStartElection leaderTransfer tag save).events ++ events) := by
  rcases (node v).maybeStartElection_cases leaderTransfer tag save with
    equal | ⟨_, free, member, equal | ⟨-, equal⟩⟩
  · rw [equal]
    exact b.mild (Mild.of_quiet (Quiet.refl _))
  · rw [equal]
    exact b.stand (m := ⟨(node v).id, (node v).currentTerm + 1, (node v).id,
      (node v).log.lastIndex, (node v).log.lastTerm, leaderTransfer⟩) tag member free rfl rfl rfl rfl
  · rw [equal]
    have tried := b.set ((b.voter v).tried (d := ⟨(node v).currentTerm + 1, some (node v).id⟩)
      (.inl (Nat.lt_succ_self _)))
    simpa using tried

theorem Ballots.handleRequestVote (b : Ballots node net events) {m : RequestVote}
    (found : net[i]? = some pkt) (isRequest : pkt.msg = .requestVote m) (settings : Settings)
    (now : Nat) (saveTerm saveVote : Save) :
    let effect := (node pkt.dst).handleRequestVote settings now m pkt.tag saveTerm saveVote
    Ballots (update node pkt.dst effect.node) (net.eraseIdx i ++ effect.sends) (effect.events ++ events) := by
  dsimp only
  unfold Node.handleRequestVote
  split_ifs
  · exact (b.lose i).mild ⟨.quiet (Quiet.refl _), silent_singleton rfl, by simp⟩
  -- The term of the request is adopted first, then the vote is considered.
  have caught := b.set ((b.voter pkt.dst).move (Move.catchUp _ m.term saveTerm))
  rcases ((node pkt.dst).catchUp m.term saveTerm).considerVote_cases m pkt.tag saveVote with
    ⟨current, free, _, equal⟩ | ⟨d, disk, equal⟩
  · have asked := b.asked (mem_of_getElem? found) isRequest
    have carries : pkt.ballot = some (pkt.dst, m.candidateID, m.term) := by
      simp [Packet.ballot, isRequest]
    rw [current] at carries
    have granted := caught.grant (v := pkt.dst) (k := m.candidateID) pkt.tag found
      (by rw [update_self]; exact carries) (by rw [update_self]; exact free) rfl
    rw [equal, asked]
    simpa only [update_self, update_idem, singleton_append] using granted
  · have tried : Voter pkt.dst { (node pkt.dst).catchUp m.term saveTerm with disk := d }
        (net.eraseIdx i) events := by
      have voter := (caught.lose i).voter pkt.dst
      rw [update_self] at voter
      rcases disk with same | ⟨rfl, free, _⟩
      · rw [same]
        exact voter
      · exact voter.tried (.inr ⟨rfl, free⟩)
    rw [equal]
    exact ((b.lose i).set tried).send (silent_singleton rfl)

theorem Node.handleVoteResponse_sends (n : Node) (term : Nat) (voteGranted : Bool) (save : Save) :
    (n.handleVoteResponse term voteGranted save).sends = [] := by
  unfold Node.handleVoteResponse
  dsimp only
  split_ifs <;> rfl

theorem Node.handleVoteResponse_events (n : Node) (term : Nat) (voteGranted : Bool) (save : Save) :
    (n.handleVoteResponse term voteGranted save).events = [] := by
  unfold Node.handleVoteResponse
  dsimp only
  split_ifs <;> rfl

theorem Ballots.handleVoteResponse (b : Ballots node net events) {sender : NodeID} {voteGranted : Bool}
    (found : net[i]? = some pkt) (isAnswer : pkt.msg = .requestVoteResponse sender term voteGranted) (save : Save) :
    Ballots (update node pkt.dst ((node pkt.dst).handleVoteResponse term voteGranted save).node)
    (net.eraseIdx i) events := by
  have still := (b.lose i).set ((b.lose i).voter pkt.dst)
  unfold Node.handleVoteResponse
  split_ifs with higher stale granted
  · exact (b.lose i).set (((b.lose i).voter pkt.dst).move (Move.stepDown save higher))
  · exact still
  · simp only [ne_eq, not_or, Decidable.not_not] at stale
    obtain ⟨standing, rfl⟩ := stale
    subst granted
    have counted := b.count found rfl isAnswer standing
    have voter : Voter pkt.dst { node pkt.dst with
        votesReceived := (node pkt.dst).votesReceived + 1 } (net.eraseIdx i) events :=
      { (b.lose i).voter pkt.dst with candidate := fun _ => counted }
    dsimp only
    split_ifs
    · exact (b.lose i).set (voter.lead standing)
    · exact (b.lose i).set voter
  · exact still

namespace Ballots

variable {c' : System}

variable (b : Ballots c.node c.net events)

include b

theorem handle {i : Nat} {pkt : Packet} {saveTerm saveVote : Save} {effect : Effect} (found : c.net[i]? = some pkt)
    (handled : c.handle (c.node pkt.dst) pkt saveTerm saveVote = some effect) :
    Ballots (update c.node pkt.dst effect.node) (c.net.eraseIdx i ++ effect.sends) (effect.events ++ events) := by
  unfold System.handle at handled
  -- A reply to a replicator is put into its channel.
  have route : ∀ {sender : NodeID}, (if sender ∉ (c.node pkt.dst).peers then
      some { node := c.node pkt.dst }
      else if ((c.node pkt.dst).respCh sender).isSome then none
      else some { node := { c.node pkt.dst with
        respCh := update (c.node pkt.dst).respCh sender (some pkt) } } : Option Effect) =
      some effect → Ballots (update c.node pkt.dst effect.node)
        (c.net.eraseIdx i ++ effect.sends) (effect.events ++ events) := by
    intro sender routed
    split_ifs at routed
    · cases routed
      exact (b.lose i).mild (Mild.of_quiet (Quiet.work _ rfl rfl rfl rfl rfl rfl rfl rfl))
    · cases routed
      exact (b.lose i).mild (Mild.of_quiet (Quiet.refl _))
  split at handled
  · cases handled
    exact (b.lose i).mild (handleAppendEntries_mild ..)
  · rename_i m isRequest
    cases handled
    exact b.handleRequestVote found isRequest ..
  · rename_i isAnswer
    cases handled
    have counted := b.handleVoteResponse found isAnswer saveTerm
    rw [handleVoteResponse_sends, handleVoteResponse_events, append_nil]
    exact counted
  · cases handled
    unfold Node.handleTimeoutNow
    split_ifs
    · exact (b.lose i).mild (Mild.of_quiet (Quiet.refl _))
    · exact (b.lose i).maybeStartElection ..
  · cases handled
    exact (b.lose i).mild (handleInstallSnapshot_mild ..)
  · exact route handled
  · exact route handled

theorem halt {n : Node} (move : Move (c.node v) n) : Ballots (update c.node v (System.halt n).node) c.net events :=
  b.set ((b.voter v).move (move.then (Quiet.follow _ rfl rfl rfl rfl rfl)))

theorem spawn (peers : List NodeID) (never : ∀ {k term}, ¬ Cast events c.size k term) :
    Ballots (update c.node c.size (Node.fresh c.size peers .empty)) c.net events := by
  refine b.set ?_
  exact {
    id := rfl
    positive := ⟨le_refl _, le_refl _⟩
    memory := fun cast => absurd cast never
    durable := fun cast => absurd cast never
    candidate := fun standing => Role.noConfusion standing
    parked := fun busy => by cases busy }

end Ballots

def Event.voter : Event → Option NodeID
  | .stood candidate _ => some candidate
  | .granted voter _ _ => some voter
  | _ => none

theorem cast_new {k : NodeID} (cast : Cast (new ++ events) v k term) :
    Cast events v k term ∨ ∃ e ∈ new, e.voter = some v := by
  rcases cast with granted | ⟨rfl, stood⟩ | first
  · rcases mem_append.mp granted with fresh | old
    · exact .inr ⟨_, fresh, rfl⟩
    · exact .inl (.inl old)
  · rcases mem_append.mp stood with fresh | old
    · exact .inr ⟨_, fresh, rfl⟩
    · exact .inl (.inr (.inl ⟨rfl, old⟩))
  · exact .inl (.inr (.inr first))

theorem Event.voter_of_plain (plain : e.isVote = false) : e.voter = none := by
  cases e <;> simp_all [Event.isVote, Event.voter]

theorem Node.maybeStartElection_voter (n : Node) (leaderTransfer : Bool) (tag : Nat) (save : Save)
    (member : e ∈ (n.maybeStartElection leaderTransfer tag save).events) : e.voter = some n.id := by
  rcases n.maybeStartElection_cases leaderTransfer tag save with
    equal | ⟨_, _, _, equal | ⟨-, equal⟩⟩ <;> rw [equal] at member <;> simp at member
  subst member
  rfl

theorem System.handle_voter {n : Node} {saveTerm saveVote : Save}
    {effect : Effect} (handled : c.handle n pkt saveTerm saveVote = some effect)
    (member : e ∈ effect.events) : e.voter = none ∨ e.voter = some n.id := by
  unfold System.handle at handled
  split at handled
  · cases handled
    exact .inl (Event.voter_of_plain ((handleAppendEntries_mild ..).plain e member))
  -- A vote is recorded under the own name, also in a new term.
  · rename_i m isRequest
    cases handled
    unfold Node.handleRequestVote at member
    split_ifs at member
    · cases member
    · have id : (n.catchUp m.term saveTerm).id = n.id := by
        cases Move.catchUp n m.term saveTerm with
        | quiet same => exact same.id
        | adopt _ id _ _ _ same => exact same.id.trans id
      rcases (n.catchUp m.term saveTerm).considerVote_cases m pkt.tag saveVote with
        ⟨_, _, _, equal⟩ | ⟨d, _, equal⟩ <;> rw [equal] at member <;> simp at member
      subst member
      exact .inr (congrArg some id)
  · cases handled
    rw [handleVoteResponse_events] at member
    cases member
  · cases handled
    unfold Node.handleTimeoutNow at member
    split_ifs at member
    · cases member
    · exact .inr (maybeStartElection_voter _ _ _ _ member)
  · cases handled
    exact .inl (Event.voter_of_plain ((handleInstallSnapshot_mild ..).plain e member))
  all_goals
    split_ifs at handled <;> cases handled <;> cases member

/-- The laws of votes, together with which nodes have been started. -/
structure Polls (c : System) (events : List Event) : Prop where
  ballots : Ballots c.node c.net events
  idle : ∀ v, c.size ≤ v → (c.node v).up = false
  voters : ∀ {v k term}, Cast events v k term → v < c.size

namespace Polls

variable {c' : System}

theorem started (p : Polls c events) (running : (c.node v).up = true) : v < c.size := by
  by_contra outside
  rw [p.idle v (Nat.le_of_not_lt outside)] at running
  cases running

theorem of_put (p : Polls c events) {c₀ : System} {o : Outcomes} (node : c₀.node = c.node) (size : c₀.size = c.size)
    (inside : v < c.size) (ballots : Ballots (update c.node v o.server.node) (c₀.net ++ o.sends) (new ++ events))
    (voter : ∀ e ∈ new, e.voter = none ∨ e.voter = some v) : Polls (c₀.put v o) (new ++ events) := by
  have same : (c₀.put v o).size = c.size := size
  rw [← node] at ballots
  refine ⟨by rwa [node_put], ?_, ?_⟩
  · intro w outside
    rw [same] at outside
    rw [node_put, node, update_of_ne (ne_of_gt (lt_of_lt_of_le inside outside))]
    exact p.idle w outside
  · intro w k term cast
    rw [same]
    rcases cast_new cast with old | ⟨e, member, own⟩
    · exact p.voters old
    · rcases voter e member with none | same
      · rw [none] at own
        cases own
      · rw [same] at own
        cases own
        exact inside

theorem mild (p : Polls c events) {o : Outcomes} (running : (c.node v).up = true)
    (mild : Mild (c.node v) o.server.node o.sends o.events) : Polls (c.bump.put v o) (o.events ++ events) := by
  exact p.of_put rfl rfl (p.started running) (p.ballots.mild mild) fun e member =>
    .inl (Event.voter_of_plain (mild.plain e member))

/-- Every step of the cluster keeps the laws of votes. -/
theorem step (p : Polls c events) (moved : c.step a = some (c', new)) : Polls c' (new ++ events) := by
  have b := p.ballots
  cases System.moves moved with
  | ordinary ordinary =>
    obtain ⟨v, o, running, mild, rfl, rfl⟩ := step_ordinary ordinary moved
    exact p.mild running mild
  | @deliver i pkt saveTerm saveVote effect found running _ handled =>
    have id := (b.voter pkt.dst).id
    refine p.of_put rfl rfl (p.started running) (b.handle found handled) ?_
    intro e member
    have := handle_voter handled member
    rwa [id] at this
  | @drop i => exact ⟨b.lose i, p.idle, p.voters⟩
  | @stop i count cut pkt found running =>
    have move : Move (c.node pkt.dst) (c.stopIn (c.node pkt.dst) pkt count cut) := by
      unfold System.stopIn
      split
      · exact stopInAppendEntries_move ..
      · split_ifs
        · exact .quiet (Quiet.refl _)
        · exact Move.catchUp ..
      · exact .quiet (Quiet.refl _)
    refine p.of_put rfl rfl (p.started running) ?_ (by simp)
    rw [append_nil]
    exact Ballots.halt (c := c.take i) (b.lose i) move
  | @timeout v save running =>
    refine p.of_put rfl rfl (p.started running) (b.maybeStartElection v false c.nextTag save) fun e member => ?_
    exact .inr ((maybeStartElection_voter _ _ _ _ member).trans (congrArg some (b.voter v).id))
  | @install v m tag running busy =>
    -- A node that installs a snapshot is a follower.
    have follower := (b.voter v).parked (by rw [busy]; rfl)
    exact p.mild running ⟨.quiet (Quiet.follow _ rfl rfl rfl rfl follower), silent_singleton rfl, by simp⟩
  | @crash v installed n running left =>
    have move : Move (c.node v) n := by
      rcases left with rfl | ⟨m, tag, -, rfl⟩
      · exact .quiet (Quiet.refl _)
      · exact .quiet (Quiet.work _ rfl rfl rfl rfl rfl rfl rfl rfl)
    refine p.of_put rfl rfl (p.started running) ?_ (by simp)
    rw [append_nil]
    exact b.halt move
  | @restart v save inside =>
    refine p.of_put rfl rfl inside ?_ (by simp)
    rw [append_nil]
    exact b.set ((b.voter v).rebuild _ save)
  | spawn =>
    refine ⟨?_, ?_, fun cast => Nat.lt_succ_of_lt (p.voters cast)⟩
    · rw [node_put, net_put, append_nil]
      exact b.spawn _ fun cast => lt_irrefl _ (p.voters cast)
    · intro w outside
      have above : c.size < w := outside
      rw [node_put, update_of_ne (ne_of_gt above)]
      exact p.idle w (le_of_lt above)
  | tick => exact ⟨b, p.idle, p.voters⟩

end Polls

end Cluster
