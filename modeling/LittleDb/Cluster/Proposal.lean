import LittleDb.Cluster.Replication

/-! Proposals, membership changes, leadership transfers and the apply loop on one node. -/

namespace Cluster

open Function

structure Server where
  node : Node
  threads : Threads

structure Outcomes where
  server : Server
  sends : List Packet := []
  events : List Event := []

namespace Server

def setProposer (s : Server) (call : Option Call) : Server :=
  { s with threads := { s.threads with proposer := call } }

/-- A commit or read barrier takes the commit lock and checks leadership. -/
def beginCommit (s : Server) (call : Nat) : Option Outcomes :=
  if s.threads.proposer = none ∧ s.node.role = .leader then
    some { server := s.setProposer (some ⟨call, s.node.currentTerm, .client, .opened⟩) }
  else none

/-- The store has built the entry of a commit or read barrier. -/
def prepare (s : Server) (data : List UInt8) : Option Outcomes :=
  match s.threads.proposer with
  | some call =>
    if call.stage = .opened then
      some { server := s.setProposer (some { call with stage := .ready .data data }) }
    else none
  | none => none

/-- The store refuses to build an entry, so nothing is proposed. -/
def cancel (s : Server) : Option Outcomes :=
  match s.threads.proposer with
  | some call => if call.stage = .opened then some { server := s.setProposer none } else none
  | none => none

/-- The leader side of removing a server, up to the proposal. -/
def beginRemove (s : Server) (id : NodeID) (call : Nat) : Option Outcomes :=
  let n := s.node
  if s.threads.proposer = none ∧ n.role = .leader ∧ n.latestConfigEntryCommitted ∧
      id ∈ n.config.ids ∧ (n.config.erase id).ids ≠ [] then
    some { server := s.setProposer (some ⟨call, n.currentTerm, .remove id,
      .ready .config (encodeConfig (n.config.erase id))⟩) }
  else none

/-- The first phase of adding a server: replication to the learner starts. -/
def beginAdd (s : Server) (id : NodeID) : Option Outcomes :=
  let n := s.node
  if n.role = .leader ∧ id ∉ n.config.ids then
    some { server := { node := n.ensurePeer id
                       threads := { s.threads with
                         joins := s.threads.joins ++ [⟨id, n.currentTerm, n.commitIndex, false⟩] } } }
  else none

/-- The second phase of adding a server: has the learner caught up? -/
def pollAdd (s : Server) (j : Nat) : Option Outcomes :=
  match s.threads.joins[j]? with
  | some join =>
    if s.node.role ≠ .leader ∨ s.node.currentTerm ≠ join.term then
      some { server := { s with threads := { s.threads with joins := s.threads.joins.eraseIdx j } } }
    else if join.target ≤ s.node.matchIndex join.id then
      some { server := { s with threads := { s.threads with
        joins := s.threads.joins.set j { join with caught := true } } } }
    else none
  | none => none

def expireAdd (s : Server) (j : Nat) : Option Outcomes :=
  match s.threads.joins[j]? with
  | some _ =>
    some { server := { s with threads := { s.threads with joins := s.threads.joins.eraseIdx j } } }
  | none => none

/-- The third phase of adding a server, up to the proposal. -/
def promote (s : Server) (j : Nat) (call : Nat) : Option Outcomes :=
  let n := s.node
  match s.threads.joins[j]? with
  | some join =>
    if s.threads.proposer = none ∧ join.caught then
      let rest := { s with threads := { s.threads with joins := s.threads.joins.eraseIdx j } }
      if n.role ≠ .leader ∨ n.currentTerm ≠ join.term ∨ ¬ n.latestConfigEntryCommitted then
        some { server := rest }
      else
        some { server := rest.setProposer (some ⟨call, join.term, .add join.id,
          .ready .config (encodeConfig (n.config.insert join.id))⟩) }
    else none
  | none => none

/-- Appends an entry as leader, adopting a configuration at once. -/
def appendOwn (n : Node) (e : Entry) : Node :=
  let n := { n with log := n.log.append e }
  { n with config := if e.kind = .config then decodeConfig e.data else n.config }

/-- The proposal: a last check of leadership, then the entry is appended. -/
def propose (s : Server) : Option Outcomes :=
  match s.threads.proposer with
  | some { call, term, purpose, stage := .ready kind data } =>
    let n := s.node
    if n.role ≠ .leader ∨ n.currentTerm ≠ term ∨ n.transferring then
      some { server := s.setProposer none, events := [.returned n.id call .notLeader] }
    else
      let e : Entry := ⟨term, kind, data⟩
      let appended := appendOwn n e
      match appended.maybeAdvanceCommit with
      | none => none
      | some (node, events) =>
        let waiting := some { call, term, purpose, stage := .waiting appended.log.lastIndex }
        some { server := { node := node, threads := { s.threads with proposer := waiting } }
               events := .appended n.id call appended.log.lastIndex e :: events }
  | _ => none

/-- The waiting proposer wakes up and looks whether its index was applied. -/
def wake (s : Server) : Option Outcomes :=
  match s.threads.proposer with
  | some { call, term, purpose, stage := .waiting idx } =>
    let n := s.node
    if idx ≤ n.lastApplied then
      -- Only a member that removed itself has something left to do.
      let left := if purpose = .remove n.id then some { call, term, purpose, stage := .committed }
        else none
      some { server := s.setProposer left, events := [.returned n.id call .nil] }
    else if n.role ≠ .leader then
      some { server := s.setProposer none, events := [.returned n.id call .maybeCommitted] }
    else none
  | _ => none

/-- A leader that removed itself stops leading without changing its term. -/
def relinquish (s : Server) : Option Outcomes :=
  match s.threads.proposer with
  | some call =>
    if call.stage = .committed then
      let n := s.node
      let node := if n.role = .leader ∧ ¬ n.inConfig then { n with role := .follower } else n
      some { server := { node := node, threads := { s.threads with proposer := none } } }
    else none
  | none => none

/-- A leadership transfer starts: the leader stops accepting proposals. -/
def beginTransfer (s : Server) (target : NodeID) : Option Outcomes :=
  let n := s.node
  if n.role = .leader ∧ target ≠ n.id ∧ ¬ n.transferring ∧ target ∈ n.config.ids then
    some { server := { node := { n with transferring := true }
                       threads := { s.threads with transfers := s.threads.transfers ++
                         [⟨n.currentTerm, target, n.log.lastIndex, false⟩] } } }
  else none

/-- A transfer tells its target to campaign once it has caught up. -/
def pollTransfer (s : Server) (j : Nat) (tag : Nat) : Option Outcomes :=
  let n := s.node
  match s.threads.transfers[j]? with
  | some transfer =>
    let gone := { s with threads := { s.threads with transfers := s.threads.transfers.eraseIdx j } }
    if transfer.handed then
      if n.role ≠ .leader then some { server := gone } else none
    else if n.role ≠ .leader ∨ n.currentTerm ≠ transfer.term then some { server := gone }
    else if transfer.last ≤ n.matchIndex transfer.target then
      some { server := { s with threads := { s.threads with
               transfers := s.threads.transfers.set j { transfer with handed := true } } }
             sends := [{ dst := transfer.target, tag := tag
                         msg := .timeoutNow n.id transfer.term }] }
    else none
  | none => none

/-- A transfer runs out of time, and a leader resumes accepting proposals. -/
def abortTransfer (s : Server) (j : Nat) : Option Outcomes :=
  match s.threads.transfers[j]? with
  | some _ =>
    let n := s.node
    some { server := { node := { n with transferring := n.transferring && decide (n.role ≠ .leader) }
                       threads := { s.threads with
                         transfers := s.threads.transfers.eraseIdx j } } }
  | none => none

/-- The apply loop reads the next committed entry, or panics without it. -/
def fetch (s : Server) : Option Outcomes :=
  let n := s.node
  if s.threads.applying = none ∧ n.installing = none ∧ n.lastApplied < n.commitIndex then
    match n.log.entryAt (n.lastApplied + 1) with
    | none => none
    | some e => some { server := { s with threads := { s.threads with
        applying := some (.fetched (n.lastApplied + 1) e) } } }
  else none

def store (s : Server) : Option Outcomes :=
  match s.threads.applying with
  | some (.fetched idx e) =>
    some { server := { node := { s.node with stored := idx }
                       threads := { s.threads with applying := some (.stored idx) } }
           events := [.applied s.node.id idx e] }
  | _ => none

/-- The apply loop records the entry as applied and may compact the log. -/
def finishApply (s : Server) (settings : Settings) : Option Outcomes :=
  match s.threads.applying with
  | some (.stored idx) =>
    match { s.node with lastApplied := idx }.maybeCompact settings with
    | none => none
    | some node =>
      some { server := { node := node, threads := { s.threads with applying := none } } }
  | _ => none

def replicate (s : Server) (p : NodeID) (tag : Nat) : Option Outcomes :=
  if p ∈ s.node.peers ∧ s.threads.rounds p = .idle then
    match s.node.startRound p tag with
    | none => none
    | some (round, sends) =>
      some { server := { s with threads := { s.threads with
               rounds := update s.threads.rounds p round } }
             sends := sends }
  else none

/-- The replicator of a peer scans the store for a snapshot. -/
def scan (s : Server) (p : NodeID) : Option Outcomes :=
  match s.threads.rounds p with
  | .scanning term =>
    some { server := { s with threads := { s.threads with
      rounds := update s.threads.rounds p (.scanned term s.node.stored) } } }
  | _ => none

/-- The replicator of a peer ships the snapshot it scanned. -/
def ship (s : Server) (p : NodeID) (tag : Nat) : Option Outcomes :=
  match s.threads.rounds p with
  | .scanned term lastIncludedIndex =>
    match s.node.shipSnapshot p term lastIncludedIndex tag with
    | none => none
    | some (round, sends) =>
      some { server := { s with threads := { s.threads with
               rounds := update s.threads.rounds p round } }
             sends := sends }
  | _ => none

/-- The replicator of a peer takes the reply waiting in its channel. -/
def consume (s : Server) (settings : Settings) (p : NodeID) (save : Save) : Option Outcomes := do
  let pkt ← s.node.respCh p
  let resp ← pkt.msg.response
  let n := { s.node with respCh := update s.node.respCh p none }
  let threads := { s.threads with rounds := update s.threads.rounds p .idle }
  match s.threads.rounds p with
  | .append term prevLogIndex count _ =>
    let effect ← n.finishRound settings p resp term prevLogIndex count save
    some { server := { node := effect.node, threads := threads }
           sends := effect.sends, events := effect.events }
  | .snapshot term lastIncludedIndex _ =>
    let effect := n.finishSnapshot p resp term lastIncludedIndex save
    some { server := { node := effect.node, threads := threads }
           sends := effect.sends, events := effect.events }
  | _ => none

/-- The replicator of a peer gives up waiting for a reply. -/
def abandon (s : Server) (p : NodeID) : Option Outcomes :=
  match s.threads.rounds p with
  | .append _ _ _ _ | .snapshot _ _ _ =>
    some { server := { s with threads := { s.threads with
      rounds := update s.threads.rounds p .idle } } }
  | _ => none

end Server

end Cluster
