import LittleDb.Lib.Run
import LittleDb.Cluster.Proposal

/-! The whole cluster: its nodes, the messages between them, and every step it can take. -/

namespace Cluster

open Function

structure System where
  settings : Settings
  size : Nat
  server : NodeID → Server
  net : List Packet
  nextTag : Nat
  now : Nat

def System.node (c : System) (v : NodeID) : Node := (c.server v).node

def System.threads (c : System) (v : NodeID) : Threads := (c.server v).threads

/-- A freshly built node: a follower of the first term with an empty log. -/
def Node.fresh (id : NodeID) (peers : List NodeID) (boot : Members) : Node where
  id := id
  up := true
  role := .follower
  currentTerm := 1
  votedFor := none
  config := boot
  baseConfig := boot
  transferring := false
  log := {}
  commitIndex := 0
  lastApplied := 0
  lastLeaderContact := none
  votesReceived := 0
  peers := peers.filter (· ≠ id)
  nextIndex := fun _ => 1
  matchIndex := fun _ => 0
  respCh := fun _ => none
  installing := none
  disk := ⟨1, none⟩
  stored := 0

/-- A node rebuilt from its durable state: a follower, at the higher term. -/
def Node.rebuild (n : Node) (peers : List NodeID) (save : Save) : Node :=
  -- A log term above the saved one means the saved vote belongs to an older term.
  let behind := n.disk.currentTerm < n.log.lastTerm
  { Node.fresh n.id peers n.baseConfig with
    up := save.succeeded
    config := n.deriveConfig
    log := n.log
    currentTerm := if behind then n.log.lastTerm else n.disk.currentTerm
    votedFor := if behind then none else n.disk.votedFor
    commitIndex := n.stored
    lastApplied := n.stored
    disk := n.disk
    stored := n.stored }.persist save

/-- The bootstrap leader: node zero leads the first term without an election. -/
def Node.bootstrap (n : Node) : Node :=
  { n with votedFor := some n.id, disk := ⟨1, some n.id⟩ }.becomeLeader

/-- A cluster of founders just after its start; no others run. -/
def System.init (settings : Settings) (n : Nat) : System where
  settings := settings
  size := n
  server v :=
    let node := Node.fresh v (List.range n) (if v < n then Members.fullConfig n else .empty)
    { node := if v = 0 then node.bootstrap else { node with up := decide (v < n) }, threads := {} }
  net := []
  nextTag := 0
  now := 0

inductive Action where
  /-- A message is delivered; the saves say how persisting term and vote ends. -/
  | deliver (i : Nat) (saveTerm saveVote : Save)
  | drop (i : Nat)
  | stop (i count : Nat) (cut : Bool)
  | timeout (v : NodeID) (save : Save)
  | replicate (v p : NodeID)
  | consume (v p : NodeID) (save : Save)
  | abandon (v p : NodeID)
  | scan (v p : NodeID)
  | ship (v p : NodeID)
  | install (v : NodeID)
  | beginCommit (v : NodeID)
  /-- The store builds the entry of a commit or read barrier. -/
  | prepare (v : NodeID) (data : List UInt8)
  | cancel (v : NodeID)
  | beginRemove (v id : NodeID)
  | beginAdd (v id : NodeID)
  | pollAdd (v : NodeID) (j : Nat)
  | expireAdd (v : NodeID) (j : Nat)
  | promote (v : NodeID) (j : Nat)
  | propose (v : NodeID)
  | wake (v : NodeID)
  | relinquish (v : NodeID)
  | beginTransfer (v target : NodeID)
  | pollTransfer (v : NodeID) (j : Nat)
  | abortTransfer (v : NodeID) (j : Nat)
  | fetch (v : NodeID)
  | store (v : NodeID)
  | finishApply (v : NodeID)
  /-- A node crashes; a running install may have passed its point of no return. -/
  | crash (v : NodeID) (installed : Bool)
  | restart (v : NodeID) (save : Save)
  | spawn
  | tick
  deriving DecidableEq, Repr

namespace System

/-- Puts back a server together with what its step sent. -/
def put (c : System) (v : NodeID) (o : Outcomes) : System :=
  { c with server := update c.server v o.server, net := c.net ++ o.sends }

def bump (c : System) : System :=
  { c with nextTag := c.nextTag + 1 }

def take (c : System) (i : Nat) : System :=
  { c with net := c.net.eraseIdx i }

/-- Lets a goroutine of a running node take a step. -/
def act (c : System) (v : NodeID) (f : Server → Option Outcomes) : Option (System × List Event) :=
  if (c.node v).up then
    match f (c.server v) with
    | none => none
    | some o => some (c.bump.put v o, o.events)
  else none

/-- The critical section that handles a message, or none if the loop is blocked. -/
def handle (c : System) (n : Node) (pkt : Packet) (saveTerm saveVote : Save) : Option Effect :=
  match pkt.msg with
  | .appendEntries m => some (n.handleAppendEntries c.now m pkt.tag saveTerm)
  | .requestVote m => some (n.handleRequestVote c.settings c.now m pkt.tag saveTerm saveVote)
  | .requestVoteResponse _ term voteGranted =>
    some (n.handleVoteResponse term voteGranted saveTerm)
  | .timeoutNow _ term => some (n.handleTimeoutNow term c.nextTag saveTerm)
  | .installSnapshot m => some (n.handleInstallSnapshot c.now m pkt.tag saveTerm)
  | .appendResponse sender _ _ _ _ | .installSnapshotResponse sender _ _ _ =>
    -- A reply goes to the sender's replicator, whose channel holds one reply.
    if sender ∉ n.peers then some { node := n }
    else if (n.respCh sender).isSome then none
    else some { node := { n with respCh := update n.respCh sender (some pkt) } }

/-- Delivers a message to a running node whose inbox loop is free. -/
def deliver (c : System) (i : Nat) (saveTerm saveVote : Save) : Option (System × List Event) :=
  match c.net[i]? with
  | none => none
  | some pkt =>
    let s := c.server pkt.dst
    if s.node.up ∧ s.node.installing = none then
      match c.handle s.node pkt saveTerm saveVote with
      | none => none
      | some effect =>
        some ((c.take i).bump.put pkt.dst
          { server := { s with node := effect.node }, sends := effect.sends }, effect.events)
    else none

def halt (n : Node) : Server :=
  { node := { n with up := false, role := .follower }, threads := {} }

/-- What a node has made durable when it stops while handling a message. -/
def stopIn (c : System) (n : Node) (pkt : Packet) (count : Nat) (cut : Bool) : Node :=
  match pkt.msg with
  | .appendEntries m => n.stopInAppendEntries m count cut
  | .requestVote m =>
    -- The adopted term may be saved before the vote is.
    if ¬ m.leaderTransfer ∧ n.withinLeaderStickiness c.settings c.now then n
    else n.catchUp m.term .ok
  | _ => n

/-- Stops a node inside the handling of a message. -/
def stop (c : System) (i count : Nat) (cut : Bool) : Option (System × List Event) :=
  match c.net[i]? with
  | none => none
  | some pkt =>
    let s := c.server pkt.dst
    if s.node.up ∧ s.node.installing = none then
      some ((c.take i).put pkt.dst { server := halt (c.stopIn s.node pkt count cut) }, [])
    else none

def timeout (c : System) (v : NodeID) (save : Save) : Option (System × List Event) :=
  c.act v fun s =>
    let effect := s.node.maybeStartElection false c.nextTag save
    some { server := { s with node := effect.node }, sends := effect.sends, events := effect.events }

/-- Finishes an install while the apply loop is outside an iteration. -/
def install (c : System) (v : NodeID) : Option (System × List Event) :=
  c.act v fun s =>
    match s.node.installing, s.threads.applying with
    | some (m, tag), none =>
      let effect := s.node.completeInstall m tag
      some { server := { s with node := effect.node }, sends := effect.sends
             events := effect.events }
    | _, _ => none

/-- Stops a node; an install past its marker is completed on the next start. -/
def crash (c : System) (v : NodeID) (installed : Bool) : Option (System × List Event) :=
  let s := c.server v
  if s.node.up then
    let n := match s.node.installing with
      | some (m, _) => if installed then s.node.swapInSnapshot m else s.node
      | none => s.node
    some (c.put v { server := halt n }, [])
  else none

def restart (c : System) (v : NodeID) (save : Save) : Option (System × List Event) :=
  let n := c.node v
  -- A store behind the log's base is reported as corruption and the node does not start.
  if v < c.size ∧ ¬ n.up ∧ n.log.baseIndex ≤ n.stored then
    some (c.put v { server := { node := n.rebuild (List.range c.size) save, threads := {} } }, [])
  else none

/-- Starts the next server as a learner with an empty configuration. -/
def spawn (c : System) : Option (System × List Event) :=
  some ({ c with size := c.size + 1 }.put c.size
    { server := { node := Node.fresh c.size (List.range (c.size + 1)) .empty, threads := {} } }, [])

/-- One step of the cluster, or none when the action is not possible. -/
def step (c : System) : Action → Option (System × List Event)
  | .deliver i saveTerm saveVote => c.deliver i saveTerm saveVote
  | .drop i => if i < c.net.length then some (c.take i, []) else none
  | .stop i count cut => c.stop i count cut
  | .timeout v save => c.timeout v save
  | .replicate v p => c.act v fun s => s.replicate p c.nextTag
  | .consume v p save => c.act v fun s => s.consume c.settings p save
  | .abandon v p => c.act v fun s => s.abandon p
  | .scan v p => c.act v fun s => s.scan p
  | .ship v p => c.act v fun s => s.ship p c.nextTag
  | .install v => c.install v
  | .beginCommit v => c.act v fun s => s.beginCommit c.nextTag
  | .prepare v data => c.act v fun s => s.prepare data
  | .cancel v => c.act v Server.cancel
  | .beginRemove v id => c.act v fun s => s.beginRemove id c.nextTag
  | .beginAdd v id => if id < c.size then c.act v fun s => s.beginAdd id else none
  | .pollAdd v j => c.act v fun s => s.pollAdd j
  | .expireAdd v j => c.act v fun s => s.expireAdd j
  | .promote v j => c.act v fun s => s.promote j c.nextTag
  | .propose v => c.act v Server.propose
  | .wake v => c.act v Server.wake
  | .relinquish v => c.act v Server.relinquish
  | .beginTransfer v target => c.act v fun s => s.beginTransfer target
  | .pollTransfer v j => c.act v fun s => s.pollTransfer j c.nextTag
  | .abortTransfer v j => c.act v fun s => s.abortTransfer j
  | .fetch v => c.act v Server.fetch
  | .store v => c.act v Server.store
  | .finishApply v => c.act v fun s => s.finishApply c.settings
  | .crash v installed => c.crash v installed
  | .restart v save => c.restart v save
  | .spawn => c.spawn
  | .tick => some ({ c with now := c.now + 1 }, [])

end System

end Cluster
