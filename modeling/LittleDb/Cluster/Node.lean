import LittleDb.Cluster.Log
import LittleDb.Cluster.Config

/-! Messages, the state of one node and of its goroutines, and what a run records. -/

namespace Cluster

open Function List

inductive Role where
  | follower
  | candidate
  | leader
  deriving DecidableEq, Repr

/-- The leader's call: entries to append after a previous position. -/
structure AppendEntries where
  sender : NodeID
  term : Nat
  prevLogIndex : Nat
  prevLogTerm : Nat
  entries : List Entry
  leaderCommit : Nat
  deriving DecidableEq, Repr

structure RequestVote where
  sender : NodeID
  term : Nat
  candidateID : NodeID
  lastLogIndex : Nat
  lastLogTerm : Nat
  /-- Whether the campaign was ordered by a leadership transfer. -/
  leaderTransfer : Bool
  deriving DecidableEq, Repr

/-- A snapshot's position and membership; the contents travel beside it. -/
structure InstallSnapshot where
  sender : NodeID
  term : Nat
  lastIncludedIndex : Nat
  lastIncludedTerm : Nat
  config : List UInt8
  leaderCommit : Nat
  deriving DecidableEq, Repr

inductive Message where
  | appendEntries (m : AppendEntries)
  | appendResponse (sender : NodeID) (term : Nat) (success : Bool) (matchIndex conflictHint : Nat)
  | requestVote (m : RequestVote)
  | requestVoteResponse (sender : NodeID) (term : Nat) (voteGranted : Bool)
  | timeoutNow (sender : NodeID) (term : Nat)
  /-- A snapshot for a follower that fell behind the compacted prefix. -/
  | installSnapshot (m : InstallSnapshot)
  | installSnapshotResponse (sender : NodeID) (term : Nat) (success : Bool) (matchIndex : Nat)
  deriving DecidableEq, Repr

/-- A message to a node, with the tag of its round, which no handler reads. -/
structure Packet where
  dst : NodeID
  msg : Message
  tag : Nat
  deriving DecidableEq, Repr

structure HardState where
  currentTerm : Nat
  votedFor : Option NodeID
  deriving DecidableEq, Repr

inductive Save where
  | ok
  /-- The save fails and the old state stays on disk. -/
  | lost
  /-- The save fails although the new state reached the disk. -/
  | kept
  deriving DecidableEq, Repr

def Save.succeeded : Save → Bool
  | .ok => true
  | .lost => false
  | .kept => false

def Save.onDisk : Save → Bool
  | .ok => true
  | .lost => false
  | .kept => true

/-- Timer and compaction settings; a zero threshold disables compaction. -/
structure Settings where
  electionMin : Nat
  snapshotThreshold : Nat

/--
The fields of a node.

The log and the base configuration stand for memory and file at once; the hard state on disk can lag behind.
-/
structure Node where
  id : NodeID
  up : Bool
  role : Role
  currentTerm : Nat
  votedFor : Option NodeID
  config : Members
  baseConfig : Members
  transferring : Bool
  log : RaftLog
  commitIndex : Nat
  lastApplied : Nat
  /-- When the node last heard from a leader of its term. -/
  lastLeaderContact : Option Nat
  votesReceived : Nat
  peers : List NodeID
  nextIndex : NodeID → Nat
  /-- The highest index each peer is known to hold. -/
  matchIndex : NodeID → Nat
  /-- The reply waiting for each peer's replicator; the channel holds one. -/
  respCh : NodeID → Option Packet
  /-- The snapshot being installed, with the tag of its message. -/
  installing : Option (InstallSnapshot × Nat)
  disk : HardState
  stored : Nat

inductive Round where
  | idle
  | append (term prevLogIndex count tag : Nat)
  /-- Is about to scan the store for a snapshot. -/
  | scanning (term : Nat)
  | scanned (term lastIncludedIndex : Nat)
  | snapshot (term lastIncludedIndex tag : Nat)
  deriving DecidableEq, Repr

inductive Applying where
  | fetched (idx : Nat) (e : Entry)
  | stored (idx : Nat)
  deriving DecidableEq, Repr

inductive Purpose where
  | client
  | add (id : NodeID)
  | remove (id : NodeID)
  deriving DecidableEq, Repr

inductive Stage where
  /-- Leadership was checked and the entry is not built yet. -/
  | opened
  | ready (kind : EntryKind) (data : List UInt8)
  /-- The entry was appended at an index and the caller waits. -/
  | waiting (idx : Nat)
  | committed
  deriving DecidableEq, Repr

structure Call where
  call : Nat
  term : Nat
  purpose : Purpose
  stage : Stage
  deriving DecidableEq, Repr

/-- An addition of a server that waits for its learner to catch up. -/
structure Join where
  id : NodeID
  term : Nat
  target : Nat
  caught : Bool
  deriving DecidableEq, Repr

structure Transfer where
  term : Nat
  target : NodeID
  last : Nat
  handed : Bool
  deriving DecidableEq, Repr

structure Threads where
  rounds : NodeID → Round := fun _ => .idle
  applying : Option Applying := none
  proposer : Option Call := none
  joins : List Join := []
  transfers : List Transfer := []

inductive Outcome where
  | nil
  | notLeader
  /-- Appended, but leadership was lost before it was applied. -/
  | maybeCommitted
  deriving DecidableEq, Repr

inductive Event where
  /-- A candidate voted for itself and asked for votes. -/
  | stood (candidate : NodeID) (term : Nat)
  | granted (voter candidate : NodeID) (term : Nat)
  /-- A leader advanced its commit index, counting these peers. -/
  | advanced (node : NodeID) (term index : Nat) (counted : List NodeID) (log : RaftLog)
  | applied (node : NodeID) (idx : Nat) (e : Entry)
  | appended (node : NodeID) (call idx : Nat) (e : Entry)
  | returned (node : NodeID) (call : Nat) (outcome : Outcome)
  deriving DecidableEq, Repr

/-- The result of a critical section: the node, what it sends and records. -/
structure Effect where
  node : Node
  sends : List Packet := []
  events : List Event := []

namespace Node

def majority (n : Node) : Nat :=
  n.config.ids.length / 2 + 1

/-- The current voting members other than this node, in id order. -/
def votingPeers (n : Node) : List NodeID :=
  n.config.ids.filter (· ≠ n.id)

/-- Whether this node is a voting member of its current configuration. -/
def inConfig (n : Node) : Bool :=
  decide (n.id ∈ n.config.ids)

/-- Recomputes the configuration from the log, or from the base. -/
def deriveConfig (n : Node) : Members :=
  match n.log.latestConfig n.log.lastIndex with
  | some (_, e) => decodeConfig e.data
  | none => n.baseConfig

def configAsOf (n : Node) (idx : Nat) : Members :=
  match n.log.latestConfig idx with
  | some (_, e) => decodeConfig e.data
  | none => n.baseConfig

/-- Whether the newest configuration entry in the log is committed. -/
def latestConfigEntryCommitted (n : Node) : Bool :=
  match n.log.latestConfig n.log.lastIndex with
  | some (idx, _) => decide (idx ≤ n.commitIndex)
  | none => true

/-- Writes term and vote to disk, as far as the save gets. -/
def persist (n : Node) (save : Save) : Node :=
  if save.onDisk then { n with disk := ⟨n.currentTerm, n.votedFor⟩ } else n

/-- Makes a peer a replication target, unless it is one already. -/
def ensurePeer (n : Node) (id : NodeID) : Node :=
  if id = n.id ∨ id ∈ n.peers then n
  else { n with
    nextIndex := update n.nextIndex id (n.log.lastIndex + 1)
    matchIndex := update n.matchIndex id 0
    respCh := update n.respCh id none
    peers := n.peers ++ [id] }

def reconcilePeers (n : Node) : Node :=
  n.config.ids.foldl ensurePeer n

end Node

namespace Members

def adopt (m : Members) (e : Entry) : Members :=
  if e.kind = .config then decodeConfig e.data else m

/-- The configuration behind some entries, the last one's among them. -/
def adoptAll (m : Members) (es : List Entry) : Members := es.foldl adopt m

theorem adoptAll_append (m : Members) (es more : List Entry) :
    m.adoptAll (es ++ more) = (m.adoptAll es).adoptAll more := foldl_append

theorem adoptAll_concat (m : Members) (es : List Entry) (e : Entry) :
    m.adoptAll (es ++ [e]) = (m.adoptAll es).adopt e := by
  rw [adoptAll_append]
  rfl

theorem adoptAll_plain (m : Members) {es : List Entry} (plain : ∀ e ∈ es, e.kind ≠ .config) : m.adoptAll es = m := by
  induction es with
  | nil => rfl
  | cons e es ih =>
    have same : m.adopt e = m := if_neg (plain e mem_cons_self)
    show (m.adopt e).adoptAll es = m
    rw [same]
    exact ih fun e' later => plain e' (mem_cons_of_mem e later)

theorem adoptAll_again (m : Members) (es : List Entry) : (m.adoptAll es).adoptAll es = m.adoptAll es := by
  -- The last entry decides, and where it does not the entries before it do.
  induction es using List.reverseRecOn with
  | nil => rfl
  | append_singleton es e ih =>
    rw [adoptAll_concat, adoptAll_concat]
    by_cases config : e.kind = .config
    · simp only [adopt, if_pos config]
    · simp only [adopt, if_neg config]
      exact ih

end Members

namespace Node

theorem configAsOf_eq (n : Node) (idx : Nat) :
    n.configAsOf idx = n.baseConfig.adoptAll (n.log.entries.take (idx - n.log.baseIndex)) := by
  induction idx with
  | zero =>
    rw [Nat.zero_sub, take_zero]
    rfl
  | succ idx ih =>
    unfold configAsOf at ih ⊢
    unfold RaftLog.latestConfig
    by_cases compacted : idx + 1 ≤ n.log.baseIndex
    · rw [if_pos compacted, Nat.sub_eq_zero_of_le compacted, take_zero]
      rfl
    have above : idx + 1 - n.log.baseIndex = idx - n.log.baseIndex + 1 := by omega
    have place : idx + 1 - n.log.baseIndex - 1 = idx - n.log.baseIndex := by omega
    rw [if_neg compacted, RaftLog.entryAt, if_neg compacted, place, above]
    cases found : n.log.entries[idx - n.log.baseIndex]? with
    | none =>
      -- The log ends before this index.
      have ended := getElem?_eq_none_iff.mp found
      rw [take_of_length_le (by omega), ← take_of_length_le ended]
      exact ih
    | some e =>
      rw [take_add_one, found, Option.toList_some, Members.adoptAll_concat, Members.adopt]
      by_cases config : e.kind = .config
      · simp only [if_pos config]
      · simp only [if_neg config]
        exact ih

theorem deriveConfig_eq (n : Node) : n.deriveConfig = n.baseConfig.adoptAll n.log.entries := by
  have whole := n.configAsOf_eq n.log.lastIndex
  rw [RaftLog.lastIndex, Nat.add_sub_cancel_left, take_length] at whole
  exact whole

end Node

end Cluster
