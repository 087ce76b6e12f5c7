import LittleDb.Cluster.System

/-! Conditions on the steps of a run, as checks on the state before a step. -/

namespace Cluster

def Action.calm : Action → Bool
  | .deliver _ saveTerm saveVote => decide (saveTerm = .ok) && decide (saveVote = .ok)
  | .timeout _ save | .consume _ _ save | .restart _ save => decide (save = .ok)
  | _ => true

def Round.tag : Round → Option Nat
  | .append _ _ _ tag => some tag
  | .snapshot _ _ tag => some tag
  | _ => none

/-- The vote is the last one that a candidate needs. -/
def Node.elects (n : Node) (term : Nat) (voteGranted : Bool) : Bool :=
  voteGranted && decide (n.role = .candidate ∧ term = n.currentTerm ∧ n.majority ≤ n.votesReceived + 1)

/-- The leader committed an own entry, or leads the first term with none. -/
def Node.Begins (n : Node) : Prop :=
  n.log.term n.commitIndex = some n.currentTerm ∨ n.currentTerm = 1 ∧ n.commitIndex = 0

instance (n : Node) : Decidable n.Begins :=
  inferInstanceAs (Decidable (_ ∨ _))

namespace System

/-- A reply that a replicator takes answers the same round's message. -/
def answersRound (c : System) : Action → Bool
  | .consume v p _ =>
    decide (((c.node v).respCh p).map Packet.tag = ((c.threads v).rounds p).tag)
  | _ => true

/-- A configuration built for a proposal fits its encoding. -/
def fitsConfig (c : System) : Action → Bool
  | .beginRemove v id => decide ((c.node v).config.erase id).Fits
  | .promote v j =>
    ((c.threads v).joins[j]?).all fun join => decide ((c.node v).config.insert join.id).Fits
  | _ => true

/-- A configuration comes after an own commit, or from the first leader. -/
def ownTermCommit (c : System) : Action → Bool
  | .propose v =>
    match (c.threads v).proposer with
    | some { stage := .ready .config _, .. } => decide (c.node v).Begins
    | _ => true
  | _ => true

/-- The last vote reaches a candidate that remembers matches of voters only. -/
def forgetsMatches (c : System) : Action → Bool
  | .deliver i _ _ => (c.net[i]?).all fun pkt =>
    match pkt.msg with
    | .requestVoteResponse _ term voteGranted =>
      let n := c.node pkt.dst
      !n.elects term voteGranted || n.peers.all fun p => decide (p ∈ n.votingPeers ∨ n.matchIndex p = 0)
    | _ => true
  | _ => true

/-- The log that a step may compact is still below the threshold. -/
def uncompacted (c : System) : Action → Bool
  | .consume v _ _ | .finishApply v =>
    decide (c.settings.snapshotThreshold = 0 ∨ (c.node v).log.entries.length < c.settings.snapshotThreshold)
  | _ => true

/-- The conditions under which the cluster keeps to the protocol. -/
def careful (c : System) (a : Action) : Bool :=
  a.calm && c.answersRound a && c.fitsConfig a && c.ownTermCommit a && c.forgetsMatches a && c.uncompacted a

/-- A proposal that wakes to an applied index finds its own term there. -/
def returnsOwn (c : System) : Action → Bool
  | .wake v =>
    match (c.threads v).proposer with
    | some { term, stage := .waiting idx, .. } =>
      decide (idx ≤ (c.node v).lastApplied → (c.node v).log.term idx = some term)
    | _ => true
  | _ => true

end System

end Cluster
