import LittleDb.Cluster.ElectionSafety

/-! How a state of the cluster stands for a state of the replicated-log protocol. -/

namespace Cluster

open Consensus Quorum List

abbrev Abstract := Consensus.State NodeID Entry

def Certified (s : Abstract) (idx : Nat) (e : Entry) : Prop :=
  ∃ n t k l, s.committed n t k l ∧ 0 < idx ∧ idx ≤ k ∧ l[idx - 1]? = some e

/-- A commit index inside a prefix shared with a committed log. -/
def Backed (s : Abstract) (t : Nat) (log : List Entry) (commit : Nat) : Prop :=
  commit = 0 ∨ ∃ n t' k l, s.committed n t' k l ∧ t' ≤ t ∧ commit ≤ k ∧
    log.take commit = l.take commit

/--
What the protocol's state says about one node.

Commit and match indices stand for commits and acknowledgements only in tracked runs.
-/
structure NodeSim (founders : Nat) (tracked : Prop) (s : Abstract) (v : NodeID) (n : Node) :
    Prop where
  id : n.id = v
  whole : n.log.Whole
  term : s.term v = n.currentTerm
  log : s.log v = n.log.entries
  leads : s.leads v ↔ n.role = .leader
  disk : n.disk = ⟨n.currentTerm, n.votedFor⟩
  idle : n.installing = none
  voted : ∀ {k l}, s.voted v n.currentTerm k l → n.votedFor = some k
  candidate : n.role = .candidate →
    s.stood v n.currentTerm n.log.entries ∧ ∀ e q, ¬ s.elected v n.currentTerm e q
  config : n.up = true → n.config = n.deriveConfig
  base : n.baseConfig = .fullConfig founders ∨ n.baseConfig = .empty
  members : n.role ≠ .follower →
    n.config.toFinset = (rules founders).members n.log.entries
  peers : ∀ p ∈ n.peers, p ≠ v
  strangers : ∀ p, p ∉ n.peers → n.matchIndex p = 0 ∧ n.respCh p = none
  commit : tracked → s.commit v = n.commitIndex
  acks : tracked → n.role = .leader → ∀ p, 0 < n.matchIndex p →
    ∃ l, s.acked p n.currentTerm l ∧ n.matchIndex p ≤ l.length
  own : tracked → n.role = .leader → n.log.term n.commitIndex = some n.currentTerm →
    ∃ l, s.committed v n.currentTerm n.commitIndex l ∧ l <+: n.log.entries
  stored : tracked → n.stored ≤ n.commitIndex
  applied : tracked → n.lastApplied ≤ n.commitIndex

/-- A configuration to be proposed by a leader in the term it was built in. -/
def Proposable (founders : Nat) (n : Node) (data : List UInt8) : Prop :=
  ∃ m : Members, data = encodeConfig m ∧ m.Fits ∧
    Near ((rules founders).members n.log.entries) m.toFinset ∧
    n.latestConfigEntryCommitted = true

/-- What the protocol's state says about the goroutines of one node. -/
structure ThreadSim (founders : Nat) (tracked : Prop) (s : Abstract) (limit : Nat) (srv : Server) :
    Prop where
  rounds : ∀ p, srv.threads.rounds p = .idle ∨ ∃ term prev count tag,
    srv.threads.rounds p = .append term prev count tag ∧ tag < limit
  fetched : tracked → ∀ idx e, srv.threads.applying = some (.fetched idx e) →
    Certified s idx e ∧ idx ≤ srv.node.commitIndex
  stored : tracked → ∀ idx, srv.threads.applying = some (.stored idx) →
    idx ≤ srv.node.commitIndex
  proposal : ∀ call data, srv.threads.proposer = some call → call.stage = .ready .config data →
    call.term ≤ srv.node.currentTerm ∧ (call.term = srv.node.currentTerm →
      srv.node.role ≠ .candidate ∧ (srv.node.role = .leader → Proposable founders srv.node data))

/-- What the protocol's state says about a message on its way. -/
def PacketSim (founders : Nat) (tracked : Prop) (s : Abstract) (pkt : Packet) : Prop :=
  match pkt.msg with
  | .appendEntries m =>
    -- The message ships the rest of a log its sender led with.
    m.sender ≠ pkt.dst ∧ ∃ l, s.led m.sender m.term l ∧ m.prevLogIndex ≤ l.length ∧
      m.entries = l.drop m.prevLogIndex ∧
      (∀ i y, m.prevLogIndex = i + 1 → l[i]? = some y → y.term = m.prevLogTerm) ∧
      (tracked → Backed s m.term l m.leaderCommit)
  | .requestVote m => ∃ l, s.stood m.candidateID m.term l ∧ l.length = m.lastLogIndex ∧
      (rules founders).lastTerm l = m.lastLogTerm
  | .installSnapshot _ => False
  | .installSnapshotResponse _ _ _ _ => False
  | _ => True

/-- What a message with the tag of a waiting round can be. -/
def Answers (s : Abstract) (term total : Nat) (p : NodeID) (pkt : Packet) : Prop :=
  match pkt.msg with
  | .appendEntries m => pkt.dst = p ∧ m.term = term ∧ m.prevLogIndex + m.entries.length = total
  | .appendResponse sender replied true _ _ =>
    sender = p ∧ replied = term ∧ ∃ l, s.acked p term l ∧ l.length = total
  | _ => True

def Packet.IsReply (pkt : Packet) : Prop :=
  ∃ sender term success known hint, pkt.msg = .appendResponse sender term success known hint

/-- What the protocol's state says about a recorded event. -/
def EventSim (tracked : Prop) (s : Abstract) : Event → Prop
  | .stood k term => ∃ l, s.voted k term k l
  | .granted v k term => ∃ l, s.voted v term k l
  | .advanced v term index counted log => log.Whole ∧ (tracked → s.led v term log.entries ∧
      index ≤ log.entries.length ∧ ∀ p ∈ counted, ∃ l, s.acked p term l ∧ index ≤ l.length)
  | .applied _ idx e => tracked → Certified s idx e
  | .appended v _ idx e => 0 < idx ∧ ∃ l, s.led v e.term l ∧ l[idx - 1]? = some e
  | .returned _ _ _ => True

/-- A commit is advanced by the acting node, which is none of its peers. -/
def Event.OwnedBy (v : NodeID) : Event → Prop
  | .advanced w _ _ counted _ => w = v ∧ v ∉ counted
  | _ => True

/-- The message is on its way or waits in a channel. -/
def System.Holds (c : System) (pkt : Packet) : Prop :=
  pkt ∈ c.net ∨ ∃ v p, (c.node v).respCh p = some pkt

/-- The cluster's state stands for a reachable state of the protocol. -/
structure Sim (founders : Nat) (tracked : Prop) (c : System) (events : List Event) (s : Abstract) :
    Prop where
  reach : Reachable (rules founders) s
  node : ∀ v, NodeSim founders tracked s v (c.node v)
  threads : ∀ v, ThreadSim founders tracked s c.nextTag (c.server v)
  unborn : ∀ v, c.size ≤ v → ∃ peers, c.node v = { Node.fresh v peers .empty with up := false }
  net : ∀ pkt ∈ c.net, PacketSim founders tracked s pkt
  channel : ∀ v p pkt, (c.node v).respCh p = some pkt → pkt.IsReply
  tags : ∀ pkt, c.Holds pkt → pkt.tag < c.nextTag
  rounds : ∀ v p term prev count tag, (c.threads v).rounds p = .append term prev count tag →
    ∀ pkt, c.Holds pkt → pkt.tag = tag → Answers s term (prev + count) p pkt
  events : ∀ e ∈ events, EventSim tracked s e

section Mono

variable {founders : Nat} {tracked : Prop} {v : NodeID} {s s' : Abstract}

theorem Certified.mono {idx : Nat} {e : Entry} (known : Certified s idx e)
    (turn : Turn (rules founders) v s s') : Certified s' idx e := by
  obtain ⟨n, t, k, l, commit, rest⟩ := known
  exact ⟨n, t, k, l, turn.committed commit, rest⟩

theorem Backed.mono {t t' : Nat} {log : List Entry} {commit : Nat} (known : Backed s t log commit)
    (turn : Turn (rules founders) v s s') (later : t ≤ t') : Backed s' t' log commit := by
  rcases known with zero | ⟨n, u, k, l, source, below, rest⟩
  · exact .inl zero
  · exact .inr ⟨n, u, k, l, turn.committed source, le_trans below later, rest⟩

theorem PacketSim.mono {pkt : Packet} (known : PacketSim founders tracked s pkt)
    (turn : Turn (rules founders) v s s') : PacketSim founders tracked s' pkt := by
  unfold PacketSim at known ⊢
  split
  · rename_i m isAppend
    simp only [isAppend] at known
    obtain ⟨other, l, led, inside, part, prev, backed⟩ := known
    exact ⟨other, l, turn.led led, inside, part, prev, fun on => (backed on).mono turn (le_refl _)⟩
  · rename_i m isRequest
    simp only [isRequest] at known
    obtain ⟨l, stood, rest⟩ := known
    exact ⟨l, turn.stood stood, rest⟩
  · rename_i isSnapshot
    simp only [isSnapshot] at known
  · rename_i isResponse
    simp only [isResponse] at known
  · trivial

theorem Answers.mono {term total : Nat} {p : NodeID} {pkt : Packet} (known : Answers s term total p pkt)
    (turn : Turn (rules founders) v s s') : Answers s' term total p pkt := by
  unfold Answers at known ⊢
  split
  · rename_i isAppend
    simp only [isAppend] at known
    exact known
  · rename_i isReply
    simp only [isReply] at known
    obtain ⟨sender, same, l, acked, length⟩ := known
    exact ⟨sender, same, l, turn.acked acked, length⟩
  · trivial

theorem EventSim.mono {e : Event} (known : EventSim tracked s e)
    (turn : Turn (rules founders) v s s') : EventSim tracked s' e := by
  cases e with
  | stood k term =>
    obtain ⟨l, voted⟩ := known
    exact ⟨l, turn.voted voted⟩
  | granted w k term =>
    obtain ⟨l, voted⟩ := known
    exact ⟨l, turn.voted voted⟩
  | advanced w term index counted log =>
    refine ⟨known.1, fun on => ?_⟩
    obtain ⟨led, inside, acked⟩ := known.2 on
    refine ⟨turn.led led, inside, fun p member => ?_⟩
    obtain ⟨l, ack, long⟩ := acked p member
    exact ⟨l, turn.acked ack, long⟩
  | applied w idx e => exact fun on => (known on).mono turn
  | appended w call idx e =>
    obtain ⟨positive, l, led, found⟩ := known
    exact ⟨positive, l, turn.led led, found⟩
  | returned w call outcome => trivial

theorem NodeSim.other {w : NodeID} {n : Node} (x : NodeSim founders tracked s w n)
    (turn : Turn (rules founders) v s s') (away : w ≠ v) : NodeSim founders tracked s' w n := by
  exact { x with
    term := (turn.term w away).trans x.term
    log := (turn.log w away).trans x.log
    leads := (turn.leads w away).trans x.leads
    voted := fun vote => x.voted (turn.voted_own away vote)
    candidate := by
      intro standing
      obtain ⟨stood, fresh⟩ := x.candidate standing
      exact ⟨turn.stood stood, fun e q won => fresh e q (turn.elected_own away won)⟩
    commit := fun on => (turn.commit w away).trans (x.commit on)
    acks := by
      intro on leading p positive
      obtain ⟨l, acked, long⟩ := x.acks on leading p positive
      exact ⟨l, turn.acked acked, long⟩
    own := by
      intro on leading at_
      obtain ⟨l, commit, pre⟩ := x.own on leading at_
      exact ⟨l, turn.committed commit, pre⟩ }

theorem ThreadSim.mono {limit limit' : Nat} {srv : Server} (x : ThreadSim founders tracked s limit srv)
    (turn : Turn (rules founders) v s s') (more : limit ≤ limit') : ThreadSim founders tracked s' limit' srv := by
  exact { x with
    rounds := by
      intro p
      rcases x.rounds p with idle | ⟨term, prev, count, tag, waits, below⟩
      · exact .inl idle
      · exact .inr ⟨term, prev, count, tag, waits, by omega⟩
    fetched := fun on idx e reads =>
      ⟨(x.fetched on idx e reads).1.mono turn, (x.fetched on idx e reads).2⟩ }

end Mono

/-- A node's turn adds to the records at most what its log shows afterwards. -/
structure Stamped (v : NodeID) (log : List Entry) (new : List Event) (s s' : Abstract) : Prop where
  acked : ∀ {w t l}, s'.acked w t l → s.acked w t l ∨ (w = v ∧ l <+: log)
  led : ∀ {w t l}, s'.led w t l → s.led w t l ∨ (w = v ∧ l = log ∧
    ((log = s.log v ∧ ∀ e q, ¬ s.elected v t e q) ∨
      ∃ k idx e, .appended v k idx e ∈ new ∧ log = s.log v ++ [e]))

theorem Stamped.of_same {v : NodeID} {log : List Entry} {new : List Event} {s s' : Abstract}
    (acked : s'.acked = s.acked) (led : s'.led = s.led) : Stamped v log new s s' := by
  refine ⟨fun ack => .inl ?_, fun leads => .inl ?_⟩
  · rwa [acked] at ack
  · rwa [led] at leads

/-- What a server's step shows so that the cluster still stands for a state. -/
structure Local (founders : Nat) (tracked : Prop) (c : System) (v : NodeID) (s s' : Abstract)
    (limit : Nat) (o : Outcomes) : Prop where
  turn : Turn (rules founders) v s s'
  stamped : Stamped v o.server.node.log.entries o.events s s'
  node : NodeSim founders tracked s' v o.server.node
  threads : ThreadSim founders tracked s' limit o.server
  channel : ∀ p pkt, o.server.node.respCh p = some pkt → c.Holds pkt ∧ pkt.IsReply
  sends : ∀ pkt ∈ o.sends, PacketSim founders tracked s' pkt ∧ pkt.tag < limit
  rounds : ∀ p term prev count tag, o.server.threads.rounds p = .append term prev count tag →
    (c.threads v).rounds p = .append term prev count tag ∨ c.nextTag ≤ tag
  answers : ∀ pkt ∈ o.sends, ∀ w p term prev count,
    (Function.update c.server v o.server w).threads.rounds p = .append term prev count pkt.tag →
    Answers s' term (prev + count) p pkt
  events : ∀ e ∈ o.events, EventSim tracked s' e ∧ e.OwnedBy v

/-- A server's part in a step of the cluster, through steps of the protocol. -/
abbrev Part (founders : Nat) (tracked : Prop) (c : System) (s : Abstract) (v : NodeID) (o : Outcomes) : Prop :=
  ∃ s', Local founders tracked c v s s' (c.nextTag + 1) o

/-- A server that handles a message in this way does its part. -/
abbrev Handled (founders : Nat) (tracked : Prop) (c : System) (s : Abstract) (v : NodeID) (effect : Effect) : Prop :=
  Part founders tracked c s v
    { server := { c.server v with node := effect.node }, sends := effect.sends, events := effect.events }

structure System.Lesser (c c₀ : System) : Prop where
  settings : c₀.settings = c.settings
  size : c₀.size = c.size
  server : c₀.server = c.server
  net : c₀.net ⊆ c.net
  nextTag : c.nextTag ≤ c₀.nextTag

theorem System.Lesser.refl (c : System) : c.Lesser c :=
  ⟨rfl, rfl, rfl, List.Subset.refl _, le_refl _⟩

theorem System.Lesser.bump (c : System) : c.Lesser c.bump :=
  ⟨rfl, rfl, rfl, List.Subset.refl _, Nat.le_succ _⟩

theorem System.Lesser.take (c : System) (i : Nat) : c.Lesser (c.take i) :=
  ⟨rfl, rfl, rfl, eraseIdx_subset, le_refl _⟩

theorem System.Lesser.take_bump (c : System) (i : Nat) : c.Lesser (c.take i).bump :=
  ⟨rfl, rfl, rfl, eraseIdx_subset, Nat.le_succ _⟩

namespace Sim

variable {founders : Nat} {tracked : Prop} {c c₀ : System} {events : List Event} {s s' : Abstract}

variable (x : Sim founders tracked c events s)

include x

theorem put (less : c.Lesser c₀) {v : NodeID} (started : v < c.size) {o : Outcomes}
    (part : Local founders tracked c v s s' c₀.nextTag o) :
    Sim founders tracked (c₀.put v o) (o.events ++ events) s' := by
  have server : ∀ w, w ≠ v → (c₀.put v o).server w = c.server w := by
    intro w away
    rw [System.server_put, Function.update_of_ne away, less.server]
  have node : ∀ w, w ≠ v → (c₀.put v o).node w = c.node w := by
    intro w away
    exact congrArg Server.node (server w away)
  have own : (c₀.put v o).server v = o.server := by
    rw [System.server_put, Function.update_self]
  -- Whatever the cluster holds afterwards was held before or is new.
  have held : ∀ pkt, (c₀.put v o).Holds pkt → c.Holds pkt ∨ pkt ∈ o.sends := by
    rintro pkt (flying | ⟨w, p, waits⟩)
    · rcases mem_append.mp flying with old | new
      · exact .inl (.inl (less.net old))
      · exact .inr new
    · by_cases same : w = v
      · subst same
        rw [System.node, own] at waits
        exact .inl (part.channel p pkt waits).1
      · rw [node w same] at waits
        exact .inl (.inr ⟨w, p, waits⟩)
  exact {
    reach := part.turn.reach x.reach
    node := by
      intro w
      by_cases same : w = v
      · subst same
        rw [System.node, own]
        exact part.node
      · rw [node w same]
        exact (x.node w).other part.turn same
    threads := by
      intro w
      by_cases same : w = v
      · subst same
        rw [own]
        exact part.threads
      · rw [server w same]
        exact (x.threads w).mono part.turn less.nextTag
    unborn := by
      intro w outside
      rw [show (c₀.put v o).size = c₀.size from rfl, less.size] at outside
      rw [node w (ne_of_gt (lt_of_lt_of_le started outside))]
      exact x.unborn w outside
    net := by
      intro pkt member
      rcases mem_append.mp member with old | new
      · exact (x.net pkt (less.net old)).mono part.turn
      · exact (part.sends pkt new).1
    channel := by
      intro w p pkt waits
      by_cases same : w = v
      · subst same
        rw [System.node, own] at waits
        exact (part.channel p pkt waits).2
      · rw [node w same] at waits
        exact x.channel w p pkt waits
    tags := by
      intro pkt holds
      rcases held pkt holds with old | new
      · exact lt_of_lt_of_le (x.tags pkt old) less.nextTag
      · exact (part.sends pkt new).2
    rounds := by
      intro w p term prev count tag waits pkt holds same
      rcases held pkt holds with old | new
      · -- An old message answers an old round, and a new round has a new tag.
        have before : (c.threads w).rounds p = .append term prev count tag := by
          by_cases here : w = v
          · subst here
            rw [System.threads, own] at waits
            rcases part.rounds p term prev count tag waits with kept | fresh
            · exact kept
            · have := x.tags pkt old
              omega
          · rw [System.threads, server w here] at waits
            exact waits
        exact (x.rounds w p term prev count tag before pkt old same).mono part.turn
      · subst same
        refine part.answers pkt new w p term prev count ?_
        rw [← less.server]
        exact waits
    events := by
      intro e member
      rcases mem_append.mp member with new | old
      · exact (part.events e new).1
      · exact (x.events e old).mono part.turn }

theorem lesser (less : c.Lesser c₀) : Sim founders tracked c₀ events s := by
  have node : c₀.node = c.node := by
    funext v
    exact congrArg (fun f => (f v).node) less.server
  -- What is left to receive was there before.
  have held : ∀ pkt, c₀.Holds pkt → c.Holds pkt := by
    rintro pkt (flying | waits)
    · exact .inl (less.net flying)
    · rw [node] at waits
      exact .inr waits
  exact {
    reach := x.reach
    node := by
      rw [node]
      exact x.node
    threads := by
      rw [less.server]
      exact fun v => (x.threads v).mono (Turn.refl _ 0 s) less.nextTag
    unborn := by
      rw [node, less.size]
      exact x.unborn
    net := fun pkt member => x.net pkt (less.net member)
    channel := by
      rw [node]
      exact x.channel
    tags := fun pkt holds => lt_of_lt_of_le (x.tags pkt (held pkt holds)) less.nextTag
    rounds := by
      intro v p term prev count tag waits pkt holds same
      rw [System.threads, less.server] at waits
      exact x.rounds v p term prev count tag waits pkt (held pkt holds) same
    events := x.events }

theorem safe : Safe (rules founders) s :=
  Safe.of_reachable x.reach

end Sim

end Cluster
