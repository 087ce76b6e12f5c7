import LittleDb.Cluster.Node

/-! Elections: standing, voting, counting votes and stepping down. -/

namespace Cluster

namespace Node

/-- Whether the node heard from a leader within the minimum election timeout. -/
def withinLeaderStickiness (n : Node) (settings : Settings) (now : Nat) : Bool :=
  match n.lastLeaderContact with
  | none => false
  | some contact => decide (0 < settings.electionMin) && decide (now - contact < settings.electionMin)

/-- Promotes the node to leader of its term and resets its voters. -/
def becomeLeader (n : Node) : Node :=
  let n := { n with role := .leader, transferring := false }.reconcilePeers
  -- Peers outside the configuration keep whatever index they had.
  { n with
    nextIndex := fun p => if p ∈ n.votingPeers then n.log.lastIndex + 1 else n.nextIndex p
    matchIndex := fun p => if p ∈ n.votingPeers then 0 else n.matchIndex p }

/-- Adopts a higher term and reverts to follower; a failed save is ignored. -/
def stepDown (n : Node) (term : Nat) (save : Save) : Node :=
  { n with currentTerm := term, role := .follower, votedFor := none,
           transferring := false }.persist save

/-- Adopts the term of a message when it is higher. -/
def catchUp (n : Node) (term : Nat) (save : Save) : Node :=
  if n.currentTerm < term then n.stepDown term save else n

/-- Defers to a leader of the current term and notes when it was heard from. -/
def deferTo (n : Node) (now : Nat) : Node :=
  { n with role := .follower, lastLeaderContact := some now }

/-- Becomes a candidate for a new term and asks the voting peers for votes. -/
def maybeStartElection (n : Node) (leaderTransfer : Bool) (tag : Nat) (save : Save) : Effect :=
  if n.role = .leader ∨ n.installing.isSome ∨ ¬ n.inConfig then { node := n }
  else
    let stood := { n with currentTerm := n.currentTerm + 1, role := .candidate,
                          votedFor := some n.id, votesReceived := 1 }.persist save
    if save.succeeded then
      { node := stood
        sends := stood.votingPeers.map fun p =>
          { dst := p, tag := tag
            msg := .requestVote
              { sender := n.id, term := stood.currentTerm, candidateID := n.id
                lastLogIndex := n.log.lastIndex, lastLogTerm := n.log.lastTerm
                leaderTransfer := leaderTransfer } }
        events := [.stood n.id stood.currentTerm] }
    else
      -- A failed save rolls back everything but what may have reached the disk.
      { node := { n with disk := stood.disk } }

/-- Starts an election ordered by a transfer, unless the order is stale. -/
def handleTimeoutNow (n : Node) (term : Nat) (tag : Nat) (save : Save) : Effect :=
  if term < n.currentTerm then { node := n } else n.maybeStartElection true tag save

/-- Whether a candidate's last index and term are as up to date as the log. -/
def candidateUpToDate (n : Node) (candIndex candTerm : Nat) : Bool :=
  if candTerm ≠ n.log.lastTerm then decide (n.log.lastTerm < candTerm)
  else decide (n.log.lastIndex ≤ candIndex)

/-- Grants a vote to an up-to-date candidate of the current term. -/
def considerVote (n : Node) (m : RequestVote) (tag : Nat) (save : Save) : Effect :=
  if m.term = n.currentTerm ∧ (n.votedFor = none ∨ n.votedFor = some m.candidateID) ∧
      n.candidateUpToDate m.lastLogIndex m.lastLogTerm then
    let voted := { n with votedFor := some m.candidateID }.persist save
    if save.succeeded then
      { node := voted
        sends := [{ dst := m.sender, tag := tag, msg := .requestVoteResponse n.id n.currentTerm true }]
        events := [.granted n.id m.candidateID n.currentTerm] }
    else
      -- A vote that may not be durable is taken back and declined.
      { node := { n with disk := voted.disk }
        sends := [{ dst := m.sender, tag := tag
                    msg := .requestVoteResponse n.id n.currentTerm false }] }
  else
    { node := n
      sends := [{ dst := m.sender, tag := tag
                  msg := .requestVoteResponse n.id n.currentTerm false }] }

def handleRequestVote (n : Node) (settings : Settings) (now : Nat) (m : RequestVote) (tag : Nat)
    (saveTerm saveVote : Save) : Effect :=
  if ¬ m.leaderTransfer ∧ n.withinLeaderStickiness settings now then
    -- A request that would disrupt a live leader is declined without adopting its term.
    { node := n
      sends := [{ dst := m.sender, tag := tag, msg := .requestVoteResponse n.id n.currentTerm false }] }
  else (n.catchUp m.term saveTerm).considerVote m tag saveVote

def handleVoteResponse (n : Node) (term : Nat) (voteGranted : Bool) (save : Save) : Effect :=
  if n.currentTerm < term then { node := n.stepDown term save }
  else if n.role ≠ .candidate ∨ term ≠ n.currentTerm then { node := n }
  else if voteGranted then
    let counted := { n with votesReceived := n.votesReceived + 1 }
    if counted.majority ≤ counted.votesReceived then { node := counted.becomeLeader }
    else { node := counted }
  else { node := n }

end Node

end Cluster
