import LittleDb.Cluster.Election
import Mathlib.Data.List.Sort

/-! Replication: shipping entries, storing them, counting replies, committing and compacting. -/

namespace Cluster

open Function

/-- The part of a reply that a replicator reads, of either kind. -/
structure Response where
  term : Nat
  success : Bool
  conflictHint : Nat
  deriving DecidableEq, Repr

def Message.response : Message → Option Response
  | .appendResponse _ term success _ conflictHint => some ⟨term, success, conflictHint⟩
  | .installSnapshotResponse _ term success _ => some ⟨term, success, 0⟩
  | _ => none

def Message.replier : Message → Option NodeID
  | .appendResponse sender _ _ _ _ => some sender
  | .installSnapshotResponse sender _ _ _ => some sender
  | _ => none

/--
Walks through shipped entries, the first of which has the given index.

The flag tells whether a configuration entry may have been appended or dropped.
-/
def RaftLog.appendWindow (l : RaftLog) (idx : Nat) : List Entry → RaftLog × Bool
  | [] => (l, false)
  | e :: rest =>
    if idx ≤ l.baseIndex then l.appendWindow (idx + 1) rest
    else if idx ≤ l.lastIndex ∧ l.term idx = some e.term then
      -- The log already holds this entry.
      l.appendWindow (idx + 1) rest
    else
      -- A conflicting suffix is dropped before the entry is appended.
      let conflict := decide (idx ≤ l.lastIndex)
      let result := ((if conflict then l.truncateFrom idx else l).append e).appendWindow (idx + 1) rest
      (result.1, conflict || decide (e.kind = .config) || result.2)

/-- The log when a node stops after storing the first of the shipped entries. -/
def RaftLog.stopInWindow (l : RaftLog) (m : AppendEntries) (count : Nat) (cut : Bool) : RaftLog :=
  let stored := (l.appendWindow (m.prevLogIndex + 1) (m.entries.take count)).1
  let next := m.prevLogIndex + 1 + count
  -- A conflict with the next entry may have been cut off already.
  match m.entries[count]? with
  | some e =>
    if cut ∧ stored.baseIndex < next ∧ next ≤ stored.lastIndex ∧ stored.term next ≠ some e.term
    then stored.truncateFrom next else stored
  | none => stored

namespace Node

/-- Stores shipped entries, derives the configuration, follows the commit. -/
def storeEntries (n : Node) (m : AppendEntries) : Node :=
  let window := n.log.appendWindow (m.prevLogIndex + 1) m.entries
  let n := { n with log := window.1 }
  { n with
    config := if window.2 then n.deriveConfig else n.config
    -- The commit index does not move past the end of the log.
    commitIndex := max n.commitIndex (min m.leaderCommit n.log.lastIndex) }

def handleAppendEntries (n : Node) (now : Nat) (m : AppendEntries) (tag : Nat) (save : Save) : Effect :=
  let reply (n : Node) (success : Bool) (matchIndex conflictHint : Nat) : Effect :=
    { node := n
      sends := [{ dst := m.sender, tag := tag
                  msg := .appendResponse n.id n.currentTerm success matchIndex conflictHint }] }
  if m.term < n.currentTerm then reply n false 0 0
  else
    let n := (n.catchUp m.term save).deferTo now
    if n.log.matchesPrev m.prevLogIndex m.prevLogTerm then
      reply (n.storeEntries m) true (m.prevLogIndex + m.entries.length) 0
    else reply n false 0 (n.log.lastIndex + 1)

/-- What is left of a node that stops inside a replication call. -/
def stopInAppendEntries (n : Node) (m : AppendEntries) (count : Nat) (cut : Bool) : Node :=
  if m.term < n.currentTerm then n
  else
    let n := n.catchUp m.term .ok
    if n.log.matchesPrev m.prevLogIndex m.prevLogTerm then
      { n with log := n.log.stopInWindow m count cut }
    else n

/-- The first half of a round: what to ship to a peer, or none for a panic. -/
def startRound (n : Node) (p : NodeID) (tag : Nat) : Option (Round × List Packet) :=
  if n.role ≠ .leader then some (.idle, [])
  else if n.nextIndex p = 0 then none
  else
    let prevLogIndex := n.nextIndex p - 1
    if prevLogIndex < n.log.baseIndex then some (.scanning n.currentTerm, [])
    else match n.log.term prevLogIndex with
      | none => none
      | some prevLogTerm =>
        let entries := n.log.entriesAfter prevLogIndex
        some (.append n.currentTerm prevLogIndex entries.length tag,
          [{ dst := p, tag := tag
             msg := .appendEntries
               { sender := n.id, term := n.currentTerm, prevLogIndex := prevLogIndex
                 prevLogTerm := prevLogTerm, entries := entries
                 leaderCommit := n.commitIndex } }])

/-- Records that a peer holds the log up to an index, which only grows. -/
def onAppendSuccess (n : Node) (p : NodeID) (matchIndex : Nat) : Node :=
  let best := max matchIndex (n.matchIndex p)
  { n with matchIndex := update n.matchIndex p best
           nextIndex := update n.nextIndex p (best + 1) }

/-- Backs a peer up to the index it asked for. -/
def onAppendReject (n : Node) (p : NodeID) (hint : Nat) : Node :=
  { n with nextIndex := update n.nextIndex p (max hint 1) }

/-- The match values of the voters, the leader's own being its last index. -/
def matchValues (n : Node) : List Nat :=
  (if n.inConfig then [n.log.lastIndex] else []) ++ n.votingPeers.map n.matchIndex

/-- Commits the highest index a majority holds, if it is of the current term. -/
def maybeAdvanceCommit (n : Node) : Option (Node × List Event) :=
  let vals := n.matchValues.insertionSort (· ≥ ·)
  match vals[vals.length / 2]? with
  | none => some (n, [])
  | some cand =>
    if n.commitIndex < cand then
      match n.log.term cand with
      | none => none
      | some term =>
        if term = n.currentTerm then
          some ({ n with commitIndex := cand },
            [.advanced n.id n.currentTerm cand
              (n.votingPeers.filter fun p => decide (cand ≤ n.matchIndex p)) n.log])
        else some (n, [])
    else some (n, [])

/-- Compacts the log up to the applied index once it is long enough. -/
def maybeCompact (n : Node) (settings : Settings) : Option Node :=
  if settings.snapshotThreshold = 0 ∨ n.log.entries.length < settings.snapshotThreshold ∨
      n.lastApplied ≤ n.log.baseIndex then some n
  else match n.log.term n.lastApplied with
    | none => none
    | some newBaseTerm =>
      some { n with baseConfig := n.configAsOf n.lastApplied
                    log := n.log.compactTo n.lastApplied newBaseTerm }

/-- The second half of a replication round: what a reply does to the leader. -/
def finishRound (n : Node) (settings : Settings) (p : NodeID) (resp : Response)
    (term prevLogIndex count : Nat) (save : Save) : Option Effect :=
  if n.currentTerm < resp.term then some { node := n.stepDown resp.term save }
  else if n.role ≠ .leader ∨ n.currentTerm ≠ term then some { node := n }
  else if resp.success then do
    -- The indices are those of the message just sent, whatever the reply answers.
    let (n, events) ← (n.onAppendSuccess p (prevLogIndex + count)).maybeAdvanceCommit
    let n ← n.maybeCompact settings
    return { node := n, events := events }
  else some { node := n.onAppendReject p resp.conflictHint }

/-- Builds the snapshot message once the store was scanned up to an index. -/
def shipSnapshot (n : Node) (p : NodeID) (term lastIncludedIndex tag : Nat) : Option (Round × List Packet) :=
  if n.role ≠ .leader ∨ n.currentTerm ≠ term then some (.idle, [])
  else if lastIncludedIndex < n.log.baseIndex then some (.idle, [])
  else match n.log.term lastIncludedIndex with
    | none => none
    | some lastIncludedTerm =>
      some (.snapshot term lastIncludedIndex tag,
        [{ dst := p, tag := tag
           msg := .installSnapshot
             { sender := n.id, term := term, lastIncludedIndex := lastIncludedIndex
               lastIncludedTerm := lastIncludedTerm
               config := encodeConfig (n.configAsOf lastIncludedIndex)
               leaderCommit := n.commitIndex } }])

/-- What a reply to a snapshot does to the leader. -/
def finishSnapshot (n : Node) (p : NodeID) (resp : Response) (term lastIncludedIndex : Nat) (save : Save) : Effect :=
  if n.currentTerm < resp.term then { node := n.stepDown resp.term save }
  else if n.role ≠ .leader ∨ n.currentTerm ≠ term then { node := n }
  else if resp.success then
    { node := { n with
        matchIndex := update n.matchIndex p (max lastIncludedIndex (n.matchIndex p))
        nextIndex := update n.nextIndex p (lastIncludedIndex + 1) } }
  else { node := n }

/-- The follower side of a snapshot, up to the start of the install. -/
def handleInstallSnapshot (n : Node) (now : Nat) (m : InstallSnapshot) (tag : Nat) (save : Save) : Effect :=
  let reply (n : Node) (success : Bool) (matchIndex : Nat) : Effect :=
    { node := n
      sends := [{ dst := m.sender, tag := tag
                  msg := .installSnapshotResponse n.id n.currentTerm success matchIndex }] }
  if m.term < n.currentTerm then reply n false 0
  else
    let n := (n.catchUp m.term save).deferTo now
    if m.lastIncludedIndex ≤ n.lastApplied then reply n true m.lastIncludedIndex
    else { node := { n with installing := some (m, tag) } }

/-- The durable effect of an install: log base, configuration, store. -/
def swapInSnapshot (n : Node) (m : InstallSnapshot) : Node :=
  { n with log := RaftLog.resetToBase m.lastIncludedIndex m.lastIncludedTerm
           -- A message without a configuration leaves the base configuration alone.
           baseConfig := if m.config = [] then n.baseConfig else decodeConfig m.config
           stored := m.lastIncludedIndex }

/-- Finishes an install and acknowledges it with the accepted term. -/
def completeInstall (n : Node) (m : InstallSnapshot) (tag : Nat) : Effect :=
  let swapped := n.swapInSnapshot m
  { node := { swapped with
      config := if m.config = [] then n.config else swapped.baseConfig
      commitIndex := m.lastIncludedIndex
      lastApplied := m.lastIncludedIndex
      installing := none }
    sends := [{ dst := m.sender, tag := tag
                msg := .installSnapshotResponse n.id m.term true m.lastIncludedIndex }] }

end Node

end Cluster
