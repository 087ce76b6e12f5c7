import LittleDb.Cluster.Protocol
import LittleDb.Cluster.VotingRun

/-! What a step may do to the log, the configuration and the leader contact of a node, said once for all steps. -/

namespace Cluster

open Function List Option

variable {settings : Settings} {p : NodeID} {n : Node}

/-- The action changes no membership and starts no server. -/
def Action.fixedMembership : Action → Bool
  | .beginRemove _ _ | .beginAdd _ _ | .promote _ _ | .spawn => false
  | _ => true

def Action.replicates : Action → Bool
  | .replicate .. | .consume .. | .abandon .. | .scan .. | .ship .. => true
  | _ => false

def Purpose.members (config : Members) : Purpose → Members
  | .client => config
  | .add id => config.insert id
  | .remove id => config.erase id

structure Threads.Plain (t : Threads) : Prop where
  proposer : ∀ call data, t.proposer = some call → call.stage ≠ .ready .config data
  joins : t.joins = []

namespace Node

def frame (n : Node) : NodeID × Bool × Option Nat × Members × Members × RaftLog ×
    Option (InstallSnapshot × Nat) × (NodeID → Option Packet) × List NodeID :=
  (n.id, n.up, n.lastLeaderContact, n.config, n.baseConfig, n.log, n.installing, n.respCh, n.peers)

/-- A later term, as a candidate outside installs; or the role kept, lost or won. -/
def Tenure (n n' : Node) : Prop :=
  n.currentTerm < n'.currentTerm ∧ (n'.role = .follower ∨ n.installing = none) ∨
    n'.currentTerm = n.currentTerm ∧ (n'.role = n.role ∨ n'.role = .follower ∨ n.role = .candidate)

/-- Log, configurations and install stay, and only voters become peers. -/
structure Same (n n' : Node) : Prop where
  id : n'.id = n.id
  up : n'.up = n.up
  contact : n'.lastLeaderContact = n.lastLeaderContact
  config : n'.config = n.config
  baseConfig : n'.baseConfig = n.baseConfig
  log : n'.log = n.log
  installing : n'.installing = n.installing
  peers : ∀ p ∈ n'.peers, p ∈ n.peers ∨ (p ∈ n.config.ids ∧ p ≠ n.id)
  commit : n.commitIndex ≤ n'.commitIndex
  tenure : n.Tenure n'

structure Aside (n n' : Node) : Prop extends n.Same n' where
  replies : ∀ p, n'.respCh p = n.respCh p ∨ n'.respCh p = none

variable {n' n'' : Node}

/-- Tenures compose while no install begins or ends. -/
theorem Tenure.trans (first : n.Tenure n') (second : n'.Tenure n'') (installing : n'.installing = n.installing) :
    n.Tenure n'' := by
  rcases first with ⟨higher, kind⟩ | ⟨term, role⟩ <;> rcases second with ⟨later, kind'⟩ | ⟨term', role'⟩
  · exact .inl ⟨higher.trans later, installing ▸ kind'⟩
  · refine .inl ⟨term' ▸ higher, ?_⟩
    rcases kind with follower | free
    · rcases role' with same | down | candidate
      · exact .inl (same.trans follower)
      · exact .inl down
      · exact absurd (follower.symm.trans candidate) nofun
    · exact .inr free
  · exact .inl ⟨term ▸ later, installing ▸ kind'⟩
  · refine .inr ⟨term'.trans term, ?_⟩
    rcases role' with same | down | candidate
    · exact same ▸ role
    · exact .inr (.inl down)
    · rcases role with same | follower | stood
      · exact .inr (.inr (same ▸ candidate))
      · exact absurd (follower.symm.trans candidate) nofun
      · exact .inr (.inr stood)

namespace Aside

/-- An unchanged frame, a grown commit index and a tenure are enough. -/
theorem of_frame (same : n'.frame = n.frame) (commit : n.commitIndex ≤ n'.commitIndex) (tenure : n.Tenure n') :
    n.Aside n' := by
  simp only [frame, Prod.mk.injEq] at same
  obtain ⟨id, up, contact, config, baseConfig, log, installing, replies, peers⟩ := same
  exact ⟨⟨id, up, contact, config, baseConfig, log, installing, fun p listed => .inl (peers ▸ listed), commit, tenure⟩,
    fun p => .inl (congrFun replies p)⟩

/-- Nothing that matters has changed. -/
theorem of_eq (same : (n'.frame, n'.commitIndex, n'.currentTerm, n'.role) =
    (n.frame, n.commitIndex, n.currentTerm, n.role)) : n.Aside n' := by
  simp only [Prod.mk.injEq] at same
  obtain ⟨frame, commit, term, role⟩ := same
  exact .of_frame frame commit.ge (.inr ⟨term, .inl role⟩)

/-- Doing nothing is a step aside. -/
theorem refl (n : Node) : n.Aside n := .of_eq rfl

/-- One step after another. -/
theorem trans (first : n.Aside n') (second : n'.Aside n'') : n.Aside n'' where
  id := second.id.trans first.id
  up := second.up.trans first.up
  contact := second.contact.trans first.contact
  config := second.config.trans first.config
  baseConfig := second.baseConfig.trans first.baseConfig
  log := second.log.trans first.log
  installing := second.installing.trans first.installing
  replies p := by
    rcases second.replies p with same | empty
    · rw [same]
      exact first.replies p
    · exact .inr empty
  peers p listed := by
    rcases second.peers p listed with old | ⟨voting, other⟩
    · exact first.peers p old
    · exact .inr ⟨first.config ▸ voting, first.id ▸ other⟩
  commit := first.commit.trans second.commit
  tenure := first.tenure.trans second.tenure first.installing

/-- Saving term and vote. -/
theorem persist (n : Node) (save : Save) : n.Aside (n.persist save) := by
  unfold Node.persist
  split_ifs <;> exact .of_eq rfl

/-- Adopting a term. -/
theorem stepDown {term : Nat} (higher : n.currentTerm < term) (save : Save) : n.Aside (n.stepDown term save) := by
  unfold Node.stepDown
  refine .trans ?_ (.persist _ save)
  exact .of_frame rfl (le_refl _) (.inl ⟨higher, .inl rfl⟩)

/-- Adopting the term of a message. -/
theorem catchUp (n : Node) (term : Nat) (save : Save) : n.Aside (n.catchUp term save) := by
  unfold Node.catchUp
  split_ifs with higher
  · exact .stepDown higher save
  · exact .refl n

/-- Winning an election. -/
theorem becomeLeader (stood : n.role = .candidate) : n.Aside n.becomeLeader := by
  obtain ⟨peers, next, known, replies, equal, _, _, empties, _, source⟩ := n.becomeLeader_eq
  rw [equal]
  exact ⟨⟨rfl, rfl, rfl, rfl, rfl, rfl, rfl, source, le_refl _, .inr ⟨rfl, .inr (.inr stood)⟩⟩, empties⟩

/-- The bootstrap leader starts as if it had stood. -/
theorem bootstrap (n : Node) :
    Aside { n with votedFor := some n.id, disk := ⟨1, some n.id⟩, role := .candidate } n.bootstrap :=
  becomeLeader (n := { n with votedFor := some n.id, disk := ⟨1, some n.id⟩, role := .candidate }) rfl

/-- Standing for election. -/
theorem maybeStartElection (n : Node) (leaderTransfer : Bool) (tag : Nat) (save : Save) :
    n.Aside (n.maybeStartElection leaderTransfer tag save).node := by
  rcases n.maybeStartElection_cases leaderTransfer tag save with same | ⟨-, free, -, stood | ⟨-, failed⟩⟩
  · rw [same]
    exact .refl n
  · rw [stood]
    exact .of_frame rfl (le_refl _) (.inl ⟨Nat.lt_succ_self _, .inr free⟩)
  · rw [failed]
    exact .of_eq rfl

/-- Being told to campaign. -/
theorem handleTimeoutNow (n : Node) (term tag : Nat) (save : Save) :
    n.Aside (n.handleTimeoutNow term tag save).node := by
  unfold Node.handleTimeoutNow
  split_ifs
  · exact .refl n
  · exact .maybeStartElection ..

/-- Voting. -/
theorem handleRequestVote (n : Node) (settings : Settings) (now : Nat) (m : RequestVote) (tag : Nat)
    (saveTerm saveVote : Save) : n.Aside (n.handleRequestVote settings now m tag saveTerm saveVote).node := by
  unfold Node.handleRequestVote
  split_ifs
  · exact .refl n
  · refine (Aside.catchUp n m.term saveTerm).trans ?_
    rcases (n.catchUp m.term saveTerm).considerVote_cases m tag saveVote with ⟨-, -, -, granted⟩ | ⟨d, -, refused⟩
    · rw [granted]
      exact .of_eq rfl
    · rw [refused]
      exact .of_eq rfl

/-- Counting a vote. -/
theorem handleVoteResponse (n : Node) (term : Nat) (voteGranted : Bool) (save : Save) :
    n.Aside (n.handleVoteResponse term voteGranted save).node := by
  unfold Node.handleVoteResponse
  dsimp only
  split_ifs with higher stale
  · exact .stepDown higher save
  · exact .refl n
  · refine .trans ?_ (.becomeLeader ?_)
    · exact .of_eq rfl
    · exact of_not_not fun other => stale (.inl other)
  · exact .of_eq rfl
  · exact .refl n

/-- Advancing the commit index. -/
theorem maybeAdvanceCommit {events : List Event} (done : n.maybeAdvanceCommit = some (n', events)) : n.Aside n' := by
  unfold Node.maybeAdvanceCommit at done
  dsimp only at done
  repeat' split at done
  all_goals cases done
  all_goals first
    | exact .refl _
    | exact .of_frame rfl (le_of_lt ‹_›) (.inr ⟨rfl, .inl rfl⟩)

/-- Handling the reply to a snapshot. -/
theorem finishSnapshot (n : Node) (p : NodeID) (resp : Response) (term lastIncludedIndex : Nat)
    (save : Save) : n.Aside (n.finishSnapshot p resp term lastIncludedIndex save).node := by
  unfold Node.finishSnapshot
  split_ifs with higher
  · exact .stepDown higher save
  · exact .refl n
  · exact .of_eq rfl
  · exact .refl n

end Aside

/-- A goroutine may do nothing, add a learner or an own entry, or compact. -/
inductive Works (n : Node) : Node → Prop where
  | aside {n' : Node} (same : n.Aside n') : Works n n'
  | learn (id : NodeID) : Works n (n.ensurePeer id)
  | append {n' : Node} (e : Entry) (leads : n.role = .leader) (same : (Server.appendOwn n e).Aside n') : Works n n'
  | compact {m n' : Node} (settings : Settings) (same : n.Aside m) (done : m.maybeCompact settings = some n') :
    Works n n'

/-- A new replication target leaves log, configuration and term alone. -/
theorem ensurePeer_keeps (n : Node) (id : NodeID) : (n.ensurePeer id).log = n.log ∧
    (n.ensurePeer id).config = n.config ∧ (n.ensurePeer id).baseConfig = n.baseConfig ∧
      (n.ensurePeer id).commitIndex = n.commitIndex ∧ (n.ensurePeer id).currentTerm = n.currentTerm ∧
      (n.ensurePeer id).role = n.role := by
  obtain ⟨peers, next, known, replies, equal, -⟩ := n.ensurePeer_eq id
  rw [equal]
  exact ⟨rfl, rfl, rfl, rfl, rfl, rfl⟩

/-- Compacting touches log and base configuration only. -/
theorem maybeCompact_keeps (done : n.maybeCompact settings = some n') :
    n'.id = n.id ∧ n'.up = n.up ∧ n'.lastLeaderContact = n.lastLeaderContact ∧ n'.config = n.config ∧
      n'.installing = n.installing ∧ n'.respCh = n.respCh ∧ n'.peers = n.peers := by
  unfold Node.maybeCompact at done
  repeat' split at done
  all_goals cases done
  all_goals exact ⟨rfl, rfl, rfl, rfl, rfl, rfl, rfl⟩

/-- No goroutine stops its node, hears a leader, or begins or ends an install. -/
theorem Works.keeps (works : n.Works n') : n'.up = n.up ∧ n'.lastLeaderContact = n.lastLeaderContact ∧
    n'.installing = n.installing ∧ n'.id = n.id ∧ ∀ p, n'.respCh p = n.respCh p ∨ n'.respCh p = none := by
  cases works with
  | aside same => exact ⟨same.up, same.contact, same.installing, same.id, same.replies⟩
  | learn id =>
    obtain ⟨_, _, _, _, equal, -, empties, -⟩ := n.ensurePeer_eq id
    rw [equal]
    exact ⟨rfl, rfl, rfl, rfl, empties⟩
  | append e leads same => exact ⟨same.up, same.contact, same.installing, same.id, same.replies⟩
  | compact settings same done =>
    obtain ⟨id, up, contact, -, installing, replies, -⟩ := maybeCompact_keeps done
    rw [id, up, contact, installing, replies]
    exact ⟨same.up, same.contact, same.installing, same.id, same.replies⟩

/-- A compaction brings no new entries. -/
theorem maybeCompact_entries (done : n.maybeCompact settings = some n') : n'.log.entries ⊆ n.log.entries := by
  unfold Node.maybeCompact at done
  repeat' split at done
  all_goals cases done
  · exact List.Subset.refl _
  · dsimp only
    unfold RaftLog.compactTo
    split_ifs
    · exact List.Subset.refl _
    · exact drop_subset ..

/-- A membership change that a leader builds behind the gate. -/
structure Builds (n : Node) (call : Call) (data : List UInt8) : Prop where
  leads : n.role = .leader
  term : call.term = n.currentTerm
  gate : n.latestConfigEntryCommitted = true
  change : data = encodeConfig (call.purpose.members n.config)

/-- What a membership change relies on between gate and proposal. -/
structure Lasts (n n' : Node) : Prop where
  config : n'.config = n.config
  installing : n'.installing = n.installing
  gate : n.latestConfigEntryCommitted = true → n'.latestConfigEntryCommitted = true
  tenure : n.Tenure n'

/-- The gate is open when the latest configuration entry is committed. -/
theorem gate_iff (n : Node) : n.latestConfigEntryCommitted = true ↔
    ∀ i e, n.log.latestConfig n.log.lastIndex = some (i, e) → i ≤ n.commitIndex := by
  unfold latestConfigEntryCommitted
  cases n.log.latestConfig n.log.lastIndex with
  | none => simp
  | some found =>
    obtain ⟨i, e⟩ := found
    simp +contextual [eq_comm]

/-- A node that stays the same keeps its lead. -/
theorem Same.lasts (same : n.Same n') : n.Lasts n' := by
  refine ⟨same.config, same.installing, fun gate => ?_, same.tenure⟩
  rw [gate_iff] at gate ⊢
  rw [same.log]
  exact fun i e found => (gate i e found).trans same.commit

/-- A new replication target ends no lead. -/
theorem Lasts.ensurePeer (n : Node) (id : NodeID) : n.Lasts (n.ensurePeer id) := by
  obtain ⟨peers, next, known, replies, equal, -⟩ := n.ensurePeer_eq id
  rw [equal]
  exact ⟨rfl, rfl, fun gate => gate, .inr ⟨rfl, .inl rfl⟩⟩

/-- A compaction ends no lead. -/
theorem Lasts.maybeCompact {m : Node} (lasts : n.Lasts m)
    (done : m.maybeCompact settings = some n') : n.Lasts n' := by
  unfold Node.maybeCompact at done
  repeat' split at done
  all_goals cases done
  · exact lasts
  · refine ⟨lasts.config, lasts.installing, fun gate => ?_, lasts.tenure.trans (.inr ⟨rfl, .inl rfl⟩) lasts.installing⟩
    have before := m.gate_iff.mp (lasts.gate gate)
    rw [gate_iff, RaftLog.lastIndex_compactTo]
    intro i e found
    rcases m.log.latestConfig_compactTo m.lastApplied _ m.log.lastIndex with none | same
    · cases none.symm.trans found
    · exact before i e (same.symm.trans found)

/-- Taking a reply sends nothing, and may lead to a compaction. -/
theorem Aside.finishRound {resp : Response} {term prevLogIndex count : Nat} {save : Save} {effect : Effect}
    (taken : n.Aside n') (done : n'.finishRound settings p resp term prevLogIndex count save = some effect) :
    effect.sends = [] ∧ (n.Aside effect.node ∨ ∃ m, n.Aside m ∧ m.maybeCompact settings = some effect.node) := by
  unfold Node.finishRound at done
  split_ifs at done with higher
  · cases done
    exact ⟨rfl, .inl (taken.trans (.stepDown higher save))⟩
  · cases done
    exact ⟨rfl, .inl taken⟩
  · obtain ⟨⟨advanced, events⟩, commit, rest⟩ := bind_eq_some_iff.mp done
    obtain ⟨compacted, compact, last⟩ := bind_eq_some_iff.mp rest
    cases last
    have noted : n'.Aside (n'.onAppendSuccess p (prevLogIndex + count)) := .of_eq rfl
    exact ⟨rfl, .inr ⟨advanced, (taken.trans noted).trans (.maybeAdvanceCommit commit), compact⟩⟩
  · cases done
    exact ⟨rfl, .inl (taken.trans (.of_eq rfl))⟩

end Node

/-- A message by which a goroutine of a node asks others. -/
def Packet.From (n : Node) (pkt : Packet) : Prop :=
  match pkt.msg with
  | .appendEntries m => ∀ e ∈ m.entries, e ∈ n.log.entries
  | .installSnapshot m => ∃ idx, m.config = encodeConfig (n.configAsOf idx)
  | .timeoutNow _ _ | .requestVote _ => True
  | _ => False

def Packet.Election (pkt : Packet) : Prop :=
  match pkt.msg with
  | .requestVote _ | .requestVoteResponse _ _ _ | .timeoutNow _ _ => True
  | _ => False

/-- An election message is no call of a leader. -/
theorem Packet.Election.exchangeless {pkt : Packet} (election : pkt.Election) :
    (∀ m, pkt.msg ≠ .appendEntries m) ∧ ∀ m, pkt.msg ≠ .installSnapshot m := by
  unfold Packet.Election at election
  constructor <;> intro m same <;> simp [same] at election

namespace Node

/-- A round is sent under the name of its leader. -/
theorem startRound_sends {tag : Nat} {round : Round} {sends : List Packet}
    (started : n.startRound p tag = some (round, sends)) : ∀ pkt ∈ sends, pkt.From n := by
  unfold Node.startRound at started
  dsimp only at started
  repeat' split at started
  all_goals cases started
  · simp
  · simp
  · simpa [Packet.From, RaftLog.entriesAfter] using fun e listed => mem_of_mem_drop listed

/-- A snapshot is sent under the name of its leader. -/
theorem shipSnapshot_sends {term lastIncludedIndex tag : Nat} {round : Round} {sends : List Packet}
    (shipped : n.shipSnapshot p term lastIncludedIndex tag = some (round, sends)) : ∀ pkt ∈ sends, pkt.From n := by
  unfold Node.shipSnapshot at shipped
  repeat' split at shipped
  all_goals cases shipped
  · simp
  · simp
  · simpa [Packet.From] using ⟨lastIncludedIndex, rfl⟩

/-- A vote request is answered by election messages only. -/
theorem handleRequestVote_sends (n : Node) (settings : Settings) (now : Nat) (m : RequestVote) (tag : Nat)
    (saveTerm saveVote : Save) :
    ∀ pkt ∈ (n.handleRequestVote settings now m tag saveTerm saveVote).sends, pkt.Election := by
  unfold Node.handleRequestVote Node.considerVote
  dsimp only
  split_ifs <;> simp [Packet.Election]

/-- A candidate sends election messages only. -/
theorem maybeStartElection_sends (n : Node) (leaderTransfer : Bool) (tag : Nat) (save : Save) :
    ∀ pkt ∈ (n.maybeStartElection leaderTransfer tag save).sends, pkt.Election := by
  unfold Node.maybeStartElection
  dsimp only
  split_ifs
  · simp
  · intro pkt sent
    obtain ⟨p, -, rfl⟩ := mem_map.mp sent
    trivial
  · simp

/-- A node told to campaign sends election messages only. -/
theorem handleTimeoutNow_sends (n : Node) (term tag : Nat) (save : Save) :
    ∀ pkt ∈ (n.handleTimeoutNow term tag save).sends, pkt.Election := by
  unfold Node.handleTimeoutNow
  split_ifs
  · simp
  · exact n.maybeStartElection_sends true tag save

end Node

/-- What one goroutine does to its server in a step, and what it sends. -/
structure Server.Turn (a : Action) (s : Server) (o : Outcomes) : Prop where
  works : s.node.Works o.server.node
  sends : ∀ pkt ∈ o.sends, pkt.From s.node
  idle : s.node.installing ≠ none → s.threads.applying = none → o.server.threads.applying = none
  origin : ∀ e ∈ o.server.node.log.entries, e ∈ s.node.log.entries ∨
    ∃ call, s.threads.proposer = some call ∧ call.stage = .ready e.kind e.data
  peers : a.fixedMembership = true → ∀ p ∈ o.server.node.peers, p ∈ s.node.peers ∨
    (p ∈ s.node.config.ids ∧ p ≠ s.node.id)
  holder : ∀ call data, o.server.threads.proposer = some call → call.stage = .ready .config data →
    (s.threads.proposer = some call ∧ s.node.Lasts o.server.node) ∨
      (s.node.Builds call data ∧ o.server.node = s.node ∧ a.fixedMembership = false)
  joins : a.fixedMembership = true → s.threads.joins = [] → o.server.threads.joins = []
  rounds : a.replicates = false → o.server.threads.rounds = s.threads.rounds ∧ ∀ pkt ∈ o.sends, pkt.Election

variable {a : Action} {s : Server} {o : Outcomes}

/-- A goroutine beside the log and the apply loop. -/
theorem Server.Turn.beside (same : s.node.Aside o.server.node) (sends : ∀ pkt ∈ o.sends, pkt.From s.node)
    (idle : s.node.installing ≠ none → s.threads.applying = none → o.server.threads.applying = none)
    (holder : o.server.threads.proposer = s.threads.proposer) (joins : o.server.threads.joins = s.threads.joins)
    (rounds : a.replicates = false → o.server.threads.rounds = s.threads.rounds ∧ ∀ pkt ∈ o.sends, pkt.Election) :
    s.Turn a o where
  works := .aside same
  sends := sends
  idle := idle
  origin _ listed := .inl (same.log ▸ listed)
  peers _ := same.peers
  holder _ _ holds _ := .inl ⟨holder ▸ holds, same.toSame.lasts⟩
  joins _ none := joins.trans none
  rounds := rounds

/-- Such a goroutine that sends nothing. -/
theorem Server.Turn.aside (same : s.node.Aside o.server.node)
    (silent : o.sends = []) (loop : o.server.threads.applying = s.threads.applying)
    (holder : ∀ call data, o.server.threads.proposer = some call → call.stage = .ready .config data →
      s.threads.proposer = some call ∨ (s.node.Builds call data ∧ o.server.node = s.node ∧ a.fixedMembership = false))
    (joins : a.fixedMembership = true → s.threads.joins = [] → o.server.threads.joins = [])
    (rounds : a.replicates = false → o.server.threads.rounds = s.threads.rounds) : s.Turn a o where
  works := .aside same
  sends := by simp [silent]
  idle _ idle := loop.trans idle
  origin _ listed := .inl (same.log ▸ listed)
  peers _ := same.peers
  holder call data holds ready := (holder call data holds ready).imp_left fun old => ⟨old, same.toSame.lasts⟩
  joins := joins
  rounds other := ⟨rounds other, by simp [silent]⟩

/-- A goroutine that ends with a compaction. -/
theorem Server.Turn.compact (same : s.node.Aside n) (done : n.maybeCompact settings = some o.server.node)
    (silent : o.sends = []) (loop : s.threads.applying = none → o.server.threads.applying = none)
    (holder : o.server.threads.proposer = s.threads.proposer) (joins : o.server.threads.joins = s.threads.joins)
    (rounds : a.replicates = false → o.server.threads.rounds = s.threads.rounds) : s.Turn a o where
  works := .compact settings same done
  sends := by simp [silent]
  idle _ := loop
  origin e listed := .inl (same.log ▸ Node.maybeCompact_entries done listed)
  peers _ p listed := by
    obtain ⟨-, -, -, -, -, -, peers⟩ := Node.maybeCompact_keeps done
    exact same.peers p (peers ▸ listed)
  holder _ _ holds _ := .inl ⟨holder ▸ holds, same.toSame.lasts.maybeCompact done⟩
  joins _ none := joins.trans none
  rounds other := ⟨rounds other, by simp [silent]⟩

/-- Calls without membership changes stay so. -/
theorem Server.Turn.plain (turn : s.Turn a o)
    (fixed : a.fixedMembership = true) (plain : s.threads.Plain) : o.server.threads.Plain where
  proposer call data holds ready := by
    rcases turn.holder call data holds ready with ⟨old, -⟩ | ⟨-, -, changes⟩
    · exact plain.proposer call data old ready
    · exact absurd (fixed.symm.trans changes) nofun
  joins := turn.joins fixed plain.joins

namespace System

variable {c c' : System} {new : List Event}

/-- What an ordinary step does to the server that takes it. -/
theorem step_turn {a : Action} (ordinary : a.ordinary = true) (moved : c.step a = some (c', new)) :
    ∃ v o, (c.node v).up = true ∧ (c.server v).Turn a o ∧ c' = c.bump.put v o := by
  have acts : ∀ {v : NodeID} {f : Server → Option Outcomes}, c.act v f = some (c', new) →
      (∀ o, f (c.server v) = some o → (c.server v).Turn a o) →
      ∃ v o, (c.node v).up = true ∧ (c.server v).Turn a o ∧ c' = c.bump.put v o := by
    intro v f acted turns
    obtain ⟨up, o, done, put, -⟩ := act_cases acted
    exact ⟨v, o, up, turns o done, put⟩
  cases a <;> simp only [System.step] at moved
  case deliver | drop | stop | timeout | install | crash | restart | spawn | tick => cases ordinary
  -- Most goroutines only change what they are doing themselves.
  case beginCommit | prepare | cancel | wake =>
    refine acts moved fun o done => ?_
    simp only [Server.beginCommit, Server.prepare, Server.cancel, Server.wake] at done
    repeat' split at done
    all_goals cases done
    all_goals refine .aside (.refl _) rfl rfl ?_ (fun _ none => none) fun _ => rfl
    all_goals rintro _ _ ⟨⟩ ⟨⟩
  case beginRemove =>
    refine acts moved fun o done => ?_
    unfold Server.beginRemove at done
    dsimp only at done
    split_ifs at done with allowed
    cases done
    refine .aside (.refl _) rfl rfl (fun call data holds ready => .inr ⟨?_, rfl, rfl⟩) (fun fixed => by cases fixed)
      fun _ => rfl
    cases holds
    cases ready
    exact ⟨allowed.2.1, rfl, allowed.2.2.1, rfl⟩
  case promote =>
    refine acts moved fun o done => ?_
    unfold Server.promote at done
    dsimp only at done
    split at done
    · split_ifs at done with free lost
      · cases done
        exact .aside (.refl _) rfl rfl (fun _ _ holds _ => .inl holds) (fun fixed => by cases fixed) fun _ => rfl
      · cases done
        refine .aside (.refl _) rfl rfl (fun call data holds ready => .inr ⟨?_, rfl, rfl⟩) (fun fixed => by cases fixed)
          fun _ => rfl
        simp only [not_or, not_not] at lost
        cases holds
        cases ready
        exact ⟨lost.1, lost.2.1.symm, lost.2.2, rfl⟩
    · cases done
  case pollAdd | expireAdd =>
    refine acts moved fun o done => ?_
    simp only [Server.pollAdd, Server.expireAdd] at done
    repeat' split at done
    all_goals cases done
    all_goals refine .aside (.refl _) rfl rfl (fun _ _ holds _ => .inl holds) (fun _ none => ?_) fun _ => rfl
    all_goals simp [none]
  case scan | abandon =>
    refine acts moved fun o done => ?_
    simp only [Server.scan, Server.abandon] at done
    repeat' split at done
    all_goals cases done
    all_goals
      exact .aside (.refl _) rfl rfl (fun _ _ holds _ => .inl holds) (fun _ none => none) fun still => by cases still
  case fetch =>
    refine acts moved fun o done => ?_
    unfold Server.fetch at done
    dsimp only at done
    split_ifs at done with free
    split at done
    · cases done
    · cases done
      exact .beside (.refl _) (by simp) (fun busy => absurd free.2.1 busy) rfl rfl fun _ => ⟨rfl, by simp⟩
  case pollTransfer =>
    refine acts moved fun o done => ?_
    simp only [Server.pollTransfer] at done
    repeat' split at done
    all_goals cases done
    · exact .aside (.refl _) rfl rfl (fun _ _ holds _ => .inl holds) (fun _ none => none) fun _ => rfl
    · exact .aside (.refl _) rfl rfl (fun _ _ holds _ => .inl holds) (fun _ none => none) fun _ => rfl
    · exact .beside (.refl _) (by simp [Packet.From]) (fun _ idle => idle) rfl rfl
        fun _ => ⟨rfl, by simp [Packet.Election]⟩
  case replicate | ship =>
    refine acts moved fun o done => ?_
    simp only [Server.replicate, Server.ship] at done
    repeat' split at done
    all_goals cases done
    all_goals
      next sent =>
      refine .beside (.refl _) ?_ (fun _ idle => idle) rfl rfl fun still => by cases still
      first | exact Node.startRound_sends sent | exact Node.shipSnapshot_sends sent
  case beginTransfer | abortTransfer =>
    refine acts moved fun o done => ?_
    simp only [Server.beginTransfer, Server.abortTransfer] at done
    repeat' split at done
    all_goals cases done
    all_goals exact .aside (.of_eq rfl) rfl rfl (fun _ _ holds _ => .inl holds) (fun _ none => none) fun _ => rfl
  case store =>
    refine acts moved fun o done => ?_
    unfold Server.store at done
    split at done
    · next fetched =>
      cases done
      exact .beside (.of_eq rfl) (by simp) (fun _ idle => by cases fetched.symm.trans idle) rfl rfl
        fun _ => ⟨rfl, by simp⟩
    · cases done
  case beginAdd v id =>
    split_ifs at moved
    refine acts moved fun o done => ?_
    unfold Server.beginAdd at done
    dsimp only at done
    split_ifs at done
    cases done
    exact { works := .learn id, sends := by simp, idle := fun _ idle => idle
            origin := fun e listed => .inl ((Node.ensurePeer_keeps ..).1 ▸ listed), peers := fun fixed => by cases fixed
            holder := fun _ _ holds _ => .inl ⟨holds, .ensurePeer ..⟩, joins := fun fixed => by cases fixed
            rounds := fun _ => ⟨rfl, by simp⟩ }
  case propose v =>
    refine acts moved fun o done => ?_
    unfold Server.propose at done
    split at done
    · next kind data holder =>
      dsimp only at done
      split_ifs at done with refused
      · cases done
        exact .aside (.refl _) rfl rfl (fun _ _ none => by cases none) (fun _ none => none) fun _ => rfl
      · split at done
        · cases done
        · next node events commit =>
          cases done
          have same := Node.Aside.maybeAdvanceCommit commit
          have peers : node.peers = (c.node v).peers := by
            rcases Node.maybeAdvanceCommit_cases commit with ⟨rfl, -⟩ | ⟨_, -, -, rfl, -⟩ <;> rfl
          exact { works := .append _ (not_not.mp (not_or.mp refused).1) same, sends := by simp
                  idle := fun _ idle => idle
                  origin := fun e listed => by
                    rcases mem_append.mp (same.log ▸ listed) with old | own
                    · exact .inl old
                    · rw [mem_singleton.mp own]
                      exact .inr ⟨_, holder, rfl⟩
                  peers := fun _ p listed => .inl (peers ▸ listed)
                  holder := by rintro _ _ ⟨⟩ ⟨⟩
                  joins := fun _ none => none, rounds := fun _ => ⟨rfl, by simp⟩ }
    · cases done
  case relinquish =>
    refine acts moved fun o done => ?_
    unfold Server.relinquish at done
    split at done
    · split_ifs at done
      cases done
      refine .aside ?_ rfl rfl (fun _ _ none => by cases none) (fun _ none => none) fun _ => rfl
      dsimp only
      split_ifs
      · exact .of_frame rfl (le_refl _) (.inr ⟨rfl, .inr (.inl rfl)⟩)
      · exact .refl _
    · cases done
  case finishApply =>
    refine acts moved fun o done => ?_
    unfold Server.finishApply at done
    split at done
    · split at done
      · cases done
      · next compact =>
        cases done
        refine .compact ?_ compact rfl (fun _ => rfl) rfl rfl fun _ => rfl
        exact .of_eq rfl
    · cases done
  case consume v p save =>
    refine acts moved fun o done => ?_
    unfold Server.consume at done
    obtain ⟨pkt, -, rest⟩ := bind_eq_some_iff.mp done
    obtain ⟨resp, -, last⟩ := bind_eq_some_iff.mp rest
    have taken : (c.node v).Aside { c.node v with respCh := update (c.node v).respCh p none } := by
      refine { Node.Aside.refl (c.node v) with replies := fun q => ?_ }
      by_cases same : q = p
      · exact .inr (by simp [same])
      · exact .inl (update_of_ne same ..)
    dsimp only at last
    split at last
    · obtain ⟨effect, finished, result⟩ := bind_eq_some_iff.mp last
      cases result
      obtain ⟨silent, aside | ⟨m, aside, compact⟩⟩ := Node.Aside.finishRound taken finished
      · exact .aside aside silent rfl (fun _ _ holds _ => .inl holds) (fun _ none => none) fun still => by cases still
      · exact .compact aside compact silent id rfl rfl fun still => by cases still
    · cases last
      refine .aside (taken.trans (.finishSnapshot ..)) ?_ rfl (fun _ _ holds _ => .inl holds) (fun _ none => none)
        fun still => by cases still
      dsimp only
      unfold Node.finishSnapshot
      split_ifs <;> rfl
    · cases last

variable {pkt : Packet} {saveTerm saveVote : Save} {effect : Effect}

/-- What a message does to a node, if it is no call of a leader. -/
theorem handle_cases (handled : c.handle n pkt saveTerm saveVote = some effect) :
    (∃ m, pkt.msg = .appendEntries m ∧ effect = n.handleAppendEntries c.now m pkt.tag saveTerm) ∨
    (∃ m, pkt.msg = .installSnapshot m ∧ effect = n.handleInstallSnapshot c.now m pkt.tag saveTerm) ∨
    n.Same effect.node := by
  unfold System.handle at handled
  split at handled
  · next m call =>
    cases handled
    exact .inl ⟨m, call, rfl⟩
  · cases handled
    exact .inr (.inr (Node.Aside.handleRequestVote ..).toSame)
  · cases handled
    exact .inr (.inr (Node.Aside.handleVoteResponse ..).toSame)
  · cases handled
    exact .inr (.inr (Node.Aside.handleTimeoutNow ..).toSame)
  · next m call =>
    cases handled
    exact .inr (.inl ⟨m, call, rfl⟩)
  all_goals
    split_ifs at handled <;> cases handled
    · exact .inr (.inr ⟨rfl, rfl, rfl, rfl, rfl, rfl, rfl, fun _ => .inl, le_refl _, .inr ⟨rfl, .inl rfl⟩⟩)
    · exact .inr (.inr (Node.Aside.refl n).toSame)

/-- Nobody answers with a replication call or a snapshot. -/
theorem handle_sends (handled : c.handle n pkt saveTerm saveVote = some effect) : ∀ sent ∈ effect.sends,
      (∀ m, sent.msg ≠ .appendEntries m) ∧ ∀ m, sent.msg ≠ .installSnapshot m := by
  unfold System.handle at handled
  split at handled
  · cases handled
    unfold Node.handleAppendEntries
    dsimp only
    split_ifs <;> simp
  · cases handled
    exact fun sent listed => (n.handleRequestVote_sends _ _ _ _ _ _ sent listed).exchangeless
  · cases handled
    rw [Node.handleVoteResponse_sends]
    simp
  · cases handled
    exact fun sent listed => (n.handleTimeoutNow_sends _ _ _ sent listed).exchangeless
  · cases handled
    unfold Node.handleInstallSnapshot
    dsimp only
    split_ifs <;> simp
  all_goals
    split_ifs at handled <;> cases handled
    all_goals simp

/-- A node stopped in a handler keeps its name and its install. -/
theorem stopIn_keeps (c : System) (n : Node) (pkt : Packet) (count : Nat) (cut : Bool) :
    (c.stopIn n pkt count cut).id = n.id ∧ (c.stopIn n pkt count cut).installing = n.installing := by
  have caught := fun term => Node.Aside.catchUp n term .ok
  unfold System.stopIn Node.stopInAppendEntries
  split
  · dsimp only
    split_ifs
    · exact ⟨rfl, rfl⟩
    · exact ⟨(caught _).id, (caught _).installing⟩
    · exact ⟨(caught _).id, (caught _).installing⟩
  · split_ifs
    · exact ⟨rfl, rfl⟩
    · exact ⟨(caught _).id, (caught _).installing⟩
  · exact ⟨rfl, rfl⟩

/-- No step changes the settings. -/
theorem step_settings {a : Action} (moved : c.step a = some (c', new)) : c'.settings = c.settings := by
  cases moves moved with
  | ordinary ordinary =>
    obtain ⟨_, _, _, _, rfl⟩ := step_turn ordinary moved
    rfl
  | deliver | drop | stop | timeout | install | crash | restart | spawn | tick => rfl

/-- A run keeps the settings it started with. -/
theorem run_settings {ok : System → Action → Prop} {founders : Nat} {past : List System} {events : List Event}
    (run : Run.Reach System.step ok (System.init settings founders) c past events) : c.settings = settings :=
  run.invariant (P := fun c _ _ => c.settings = settings) rfl fun _ _ _ _ _ _ _ _ moved same =>
    (step_settings moved).trans same

end System

end Cluster
