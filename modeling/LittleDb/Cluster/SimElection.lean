import LittleDb.Cluster.Discipline
import LittleDb.Cluster.Simulation

/-! Elections simulate the protocol: standing, voting, winning and stepping down. -/

namespace Cluster

open Consensus Quorum List Node

/-- The conditions a step has to meet in a tracked or untracked run. -/
structure Meets (tracked : Prop) (c : System) (a : Action) : Prop where
  calm : a.calm = true
  fits : c.fitsConfig a = true
  gate : ∀ v call data, a = .propose v → (c.threads v).proposer = some call →
    call.stage = .ready .config data → tracked ∧ (c.node v).Begins
  replies : tracked → c.answersRound a = true
  fresh : tracked → c.forgetsMatches a = true
  short : c.uncompacted a = true

theorem Node.persist_ok (n : Node) :
    n.persist .ok = { n with disk := ⟨n.currentTerm, n.votedFor⟩ } := rfl

variable {founders : Nat} {tracked : Prop} {c : System} {events : List Event} {s s' : Abstract}
  {v : NodeID} {n : Node} {limit : Nat}

variable {t : Nat} {up : Bool} {n' : Node} {k : NodeID} {pkt : Packet}

section

variable (x : NodeSim founders tracked s v n) (known : Records (rules founders) s)
include x known

theorem NodeSim.follow (below : n.currentTerm ≤ t) {vote : Option NodeID}
    (kept : t = n.currentTerm → vote = n.votedFor) (alive : up = true → n.up = true)
    (transferring : Bool) (contact : Option Nat) :
    NodeSim founders tracked (s.follow v t) v { n with
      up := up, currentTerm := t, role := .follower, votedFor := vote
      transferring := transferring, lastLeaderContact := contact, disk := ⟨t, vote⟩ } := by
  exact { x with
    term := Function.update_self ..
    leads := by simp [State.follow]
    disk := rfl
    voted := by
      intro k l vote'
      have bound := known.voted_le vote'
      rw [x.term] at bound
      have same : t = n.currentTerm := le_antisymm bound below
      rw [kept same]
      exact x.voted (by rw [← same]; exact vote')
    candidate := fun standing => Role.noConfusion standing
    config := fun running => x.config (alive running)
    members := fun other => absurd rfl other
    acks := fun _ leading => Role.noConfusion leading
    own := fun _ leading => Role.noConfusion leading }

theorem NodeSim.rest (alive : up = true → n.up = true) :
    NodeSim founders tracked (s.follow v n.currentTerm) v { n with up := up, role := .follower } := by
  have follow := x.follow known (le_refl _) (fun _ => rfl) alive n.transferring n.lastLeaderContact
  rw [← x.disk] at follow
  exact follow

theorem NodeSim.stepDown
    (higher : n.currentTerm < t) : NodeSim founders tracked (s.follow v t) v (n.stepDown t .ok) := by
  rw [Node.stepDown, persist_ok]
  exact x.follow known (le_of_lt higher) (fun same => by omega) (fun running => running) false n.lastLeaderContact

end

theorem ThreadSim.follow {t : Threads} (x : ThreadSim founders tracked s limit ⟨n, t⟩)
    (commit : n.commitIndex ≤ n'.commitIndex) (term : n.currentTerm ≤ n'.currentTerm)
    (role : n'.role = .follower) : ThreadSim founders tracked s limit ⟨n', t⟩ := by
  exact { x with
    fetched := fun on idx e reads =>
      ⟨(x.fetched on idx e reads).1, le_trans (x.fetched on idx e reads).2 commit⟩
    stored := fun on idx stores => le_trans (x.stored on idx stores) commit
    proposal := by
      intro call data holds ready
      refine ⟨le_trans (x.proposal call data holds ready).1 term, fun _ => ?_⟩
      dsimp only
      rw [role]
      exact ⟨fun standing => Role.noConfusion standing, fun leading => Role.noConfusion leading⟩ }

theorem ThreadSim.advance {t : Threads} (x : ThreadSim founders tracked s limit ⟨n, t⟩)
    (commit : n.commitIndex ≤ n'.commitIndex)
    (term : n.currentTerm < n'.currentTerm) : ThreadSim founders tracked s limit ⟨n', t⟩ := by
  exact { x with
    fetched := fun on idx e reads =>
      ⟨(x.fetched on idx e reads).1, le_trans (x.fetched on idx e reads).2 commit⟩
    stored := fun on idx stores => le_trans (x.stored on idx stores) commit
    proposal := by
      intro call data holds ready
      have below : call.term ≤ n.currentTerm := (x.proposal call data holds ready).1
      refine ⟨?_, fun same => ?_⟩ <;> dsimp only at * <;> omega }

theorem ThreadSim.same {t : Threads} (x : ThreadSim founders tracked s limit ⟨n, t⟩)
    (commit : n'.commitIndex = n.commitIndex) (term : n'.currentTerm = n.currentTerm)
    (role : n'.role = n.role) (log : n'.log = n.log) : ThreadSim founders tracked s limit ⟨n', t⟩ := by
  exact { x with
    fetched := by rw [commit]; exact x.fetched
    stored := by rw [commit]; exact x.stored
    proposal := by
      intro call data holds ready
      have old := x.proposal call data holds ready
      unfold Proposable Node.latestConfigEntryCommitted at old ⊢
      dsimp only at old ⊢
      rw [commit, term, role, log]
      exact old }

theorem Round.update_idle (rounds : NodeID → Round) (p q : NodeID) :
    Function.update rounds p .idle q = rounds q ∨ Function.update rounds p .idle q = .idle := by
  by_cases same : q = p
  · simp [same]
  · exact .inl (Function.update_of_ne same ..)

theorem ThreadSim.idle {t : Threads} (x : ThreadSim founders tracked s limit ⟨n, t⟩) (p : NodeID) :
    ThreadSim founders tracked s limit ⟨n, { t with rounds := Function.update t.rounds p .idle }⟩ := by
  exact { x with
    rounds := by
      intro q
      rcases Round.update_idle t.rounds p q with same | idle
      · dsimp only
        rw [same]
        exact x.rounds q
      · exact .inl idle }

theorem Local.of_turn (x : Sim founders tracked c events s) {t' : Threads} {sends : List Packet} {new : List Event}
    (turn : Turn (rules founders) v s s') (stamped : Stamped v n'.log.entries new s s')
    (node : NodeSim founders tracked s' v n') (threads : ThreadSim founders tracked s' limit ⟨n', t'⟩)
    (channel : ∀ p, n'.respCh p = (c.node v).respCh p ∨ n'.respCh p = none)
    (rounds : ∀ p, t'.rounds p = (c.threads v).rounds p ∨ t'.rounds p = .idle)
    (sent : ∀ pkt ∈ sends, PacketSim founders tracked s' pkt ∧ pkt.tag < limit ∧
      ∀ w p term prev count, (c.threads w).rounds p = .append term prev count pkt.tag →
        Answers s' term (prev + count) p pkt) (happened : ∀ e ∈ new, EventSim tracked s' e ∧ e.OwnedBy v) :
    Local founders tracked c v s s' limit ⟨⟨n', t'⟩, sends, new⟩ := by
  -- No goroutine waits in a round it did not wait in before.
  have before : ∀ p term prev count tag, t'.rounds p = .append term prev count tag →
      (c.threads v).rounds p = .append term prev count tag := by
    intro p term prev count tag waits
    rcases rounds p with same | idle
    · rw [← same]
      exact waits
    · rw [idle] at waits
      cases waits
  exact {
    turn := turn
    stamped := stamped
    node := node
    threads := threads
    channel := by
      intro p pkt waits
      rcases channel p with same | empty
      · rw [same] at waits
        exact ⟨.inr ⟨v, p, waits⟩, x.channel v p pkt waits⟩
      · rw [empty] at waits
        cases waits
    sends := fun pkt member => ⟨(sent pkt member).1, (sent pkt member).2.1⟩
    rounds := fun p term prev count tag waits => .inl (before p term prev count tag waits)
    answers := by
      intro pkt member w p term prev count waits
      refine (sent pkt member).2.2 w p term prev count ?_
      by_cases same : w = v
      · subst same
        rw [Function.update_self] at waits
        exact before p term prev count pkt.tag waits
      · rw [Function.update_of_ne same] at waits
        exact waits
    events := happened }

theorem Sim.still (x : Sim founders tracked c events s) {t' : Threads} {sends : List Packet} {new : List Event}
    (node : NodeSim founders tracked s v n') (threads : ThreadSim founders tracked s c.nextTag ⟨n', t'⟩)
    (channel : ∀ p, n'.respCh p = (c.node v).respCh p ∨ n'.respCh p = none)
    (rounds : ∀ p, t'.rounds p = (c.threads v).rounds p ∨ t'.rounds p = .idle)
    (sent : ∀ pkt ∈ sends, PacketSim founders tracked s pkt ∧ pkt.tag < c.nextTag + 1 ∧
      ∀ w p term prev count, (c.threads w).rounds p = .append term prev count pkt.tag →
        Answers s term (prev + count) p pkt) (happened : ∀ e ∈ new, EventSim tracked s e ∧ e.OwnedBy v) :
    Part founders tracked c s v ⟨⟨n', t'⟩, sends, new⟩ :=
  ⟨s, Local.of_turn x (Turn.refl _ v s) (Stamped.of_same rfl rfl) node
    (threads.mono (Turn.refl _ v s) (Nat.le_succ _)) channel rounds sent happened⟩

theorem NodeSim.stand (x : NodeSim founders tracked s v n) (known : Records (rules founders) s)
    (running : n.up = true) (member : n.id ∈ n.config.ids) :
    NodeSim founders tracked (s.stand v) v { n with
      currentTerm := n.currentTerm + 1, role := .candidate, votedFor := some n.id
      votesReceived := 1, disk := ⟨n.currentTerm + 1, some n.id⟩ } := by
  have term : (s.stand v).term v = n.currentTerm + 1 := by
    rw [← x.term]
    exact Function.update_self ..
  exact { x with
    term := term
    leads := by simp [State.stand]
    disk := rfl
    -- No vote of the new term was on record.
    voted := by
      rintro k l (old | ⟨_, _, self, _⟩)
      · have bound := known.voted_le old
        rw [x.term] at bound
        exact absurd bound (Nat.not_succ_le_self _)
      · rw [self, x.id]
    candidate := by
      intro _
      refine ⟨.inr ⟨rfl, by rw [x.term], x.log.symm⟩, ?_⟩
      intro e q won
      have bound := known.elected_le won
      rw [x.term] at bound
      exact absurd bound (Nat.not_succ_le_self _)
    members := by
      intro _
      have nonempty : n.deriveConfig.ids ≠ [] := by
        rw [← x.config running]
        exact ne_nil_of_mem member
      have members := deriveConfig_members x.whole x.base (.inr nonempty)
      rwa [← x.config running] at members
    acks := fun _ leading => Role.noConfusion leading
    own := fun _ leading => Role.noConfusion leading }

theorem Sim.maybeStartElection (x : Sim founders tracked c events s)
    (running : (c.node v).up = true) (leaderTransfer : Bool) :
    Handled founders tracked c s v ((c.node v).maybeStartElection leaderTransfer c.nextTag .ok) := by
  have nx := x.node v
  rcases (c.node v).maybeStartElection_cases leaderTransfer c.nextTag .ok with
    equal | ⟨_, _, member, equal | ⟨⟨⟩, -⟩⟩ <;> rw [equal]
  · exact x.still nx (x.threads v) (fun _ => .inl rfl) (fun _ => .inl rfl) (by simp) (by simp)
  · have turn := Turn.stand (R := rules founders) s v
    have node := nx.stand x.safe.known running member
    refine ⟨s.stand v, Local.of_turn x turn (Stamped.of_same rfl rfl) node ?_
      (fun _ => .inl rfl) (fun _ => .inl rfl) ?_ ?_⟩
    · exact ((x.threads v).mono turn (Nat.le_succ c.nextTag)).advance (le_refl _) (Nat.lt_succ_self _)
    · intro pkt sent
      obtain ⟨p, _, rfl⟩ := mem_map.mp sent
      refine ⟨⟨(c.node v).log.entries, ?_, nx.whole.lastIndex.symm,
        (nx.whole.lastTerm founders).symm⟩, Nat.lt_succ_self _, fun _ _ _ _ _ _ => trivial⟩
      dsimp only
      rw [nx.id]
      exact (node.candidate rfl).1
    · intro e recorded
      rw [mem_singleton.mp recorded]
      exact ⟨⟨s.log v, .inr ⟨nx.id, by rw [nx.term], nx.id, rfl⟩⟩, trivial⟩

theorem Sim.catchUp (x : Sim founders tracked c events s) (v : NodeID) (t : Nat) :
    ∃ s', Turn (rules founders) v s s' ∧ NodeSim founders tracked s' v ((c.node v).catchUp t .ok) ∧
    ThreadSim founders tracked s' c.nextTag ⟨(c.node v).catchUp t .ok, (c.server v).threads⟩ ∧ s'.acked = s.acked ∧
    s'.led = s.led := by
  have nx := x.node v
  unfold Node.catchUp
  split_ifs with higher
  · have below : s.term v ≤ t := by
      rw [nx.term]
      exact le_of_lt higher
    have turn := Turn.follow (R := rules founders) s below
    refine ⟨s.follow v t, turn, nx.stepDown x.safe.known higher, ?_, rfl, rfl⟩
    exact ((x.threads v).mono turn (le_refl _)).follow (le_refl _) (le_of_lt higher) rfl
  · exact ⟨s, Turn.refl _ v s, nx, x.threads v, rfl, rfl⟩

theorem NodeSim.grant (x : NodeSim founders tracked s v n) (free : n.votedFor = none ∨ n.votedFor = some k) :
    NodeSim founders tracked (s.grant v k) v { n with votedFor := some k, disk := ⟨n.currentTerm, some k⟩ } := by
  exact { x with
    disk := rfl
    voted := by
      rintro k' l (old | ⟨_, _, same, _⟩)
      · have before := x.voted old
        rcases free with none | some
        · rw [none] at before
          cases before
        · rw [some] at before
          exact before
      · rw [same] }

theorem Sim.handleRequestVote (x : Sim founders tracked c events s)
    {m : RequestVote} (member : pkt ∈ c.net) (isRequest : pkt.msg = .requestVote m) :
    Handled founders tracked c s pkt.dst ((c.node pkt.dst).handleRequestVote c.settings c.now m pkt.tag .ok .ok) := by
  have tagged : pkt.tag < c.nextTag + 1 := Nat.lt_succ_of_lt (x.tags pkt (.inl member))
  -- A refusal says nothing about the protocol.
  have refuse : ∀ {s' : Abstract} {n' : Node}, Turn (rules founders) pkt.dst s s' →
      Stamped pkt.dst n'.log.entries [] s s' → NodeSim founders tracked s' pkt.dst n' →
      ThreadSim founders tracked s' c.nextTag ⟨n', (c.server pkt.dst).threads⟩ →
      n'.respCh = (c.node pkt.dst).respCh → Part founders tracked c s pkt.dst ⟨⟨n', (c.server pkt.dst).threads⟩,
          [⟨m.sender, .requestVoteResponse n'.id n'.currentTerm false, pkt.tag⟩], []⟩ := by
    intro s' n' turn stamped node threads channel
    refine ⟨s', Local.of_turn x turn stamped node (threads.mono (Turn.refl _ pkt.dst s') (Nat.le_succ _))
      (fun p => .inl (congrFun channel p)) (fun _ => .inl rfl) ?_ (by simp)⟩
    intro reply sent
    rw [mem_singleton.mp sent]
    exact ⟨trivial, tagged, fun _ _ _ _ _ _ => trivial⟩
  unfold Node.handleRequestVote
  split_ifs
  · exact refuse (Turn.refl _ pkt.dst s) (Stamped.of_same rfl rfl) (x.node pkt.dst) (x.threads pkt.dst) rfl
  obtain ⟨s₁, turn, node, threads, acked, led⟩ := x.catchUp pkt.dst m.term
  have channel : ((c.node pkt.dst).catchUp m.term .ok).respCh = (c.node pkt.dst).respCh := by
    unfold Node.catchUp
    split_ifs <;> rfl
  rcases ((c.node pkt.dst).catchUp m.term .ok).considerVote_cases m pkt.tag .ok with
    ⟨current, free, fresh, equal⟩ | ⟨d, disk, equal⟩
  · rw [equal]
    have request := x.net pkt member
    simp only [PacketSim, isRequest] at request
    obtain ⟨log, stood, length, last⟩ := request
    rw [current] at stood
    rw [← length, ← last] at fresh
    have grant : Turn (rules founders) pkt.dst s₁ (s₁.grant pkt.dst m.candidateID) := by
      have asked : s₁.stood m.candidateID (s₁.term pkt.dst) log := by
        rw [node.term]
        exact turn.stood stood
      refine Turn.grant asked ?_ ?_
      · intro k l vote
        rw [node.term] at vote
        have before := node.voted vote
        rcases free with none | some
        · rw [none] at before
          cases before
        · rw [some] at before
          exact (Option.some.inj before).symm
      · rw [node.log]
        exact candidateUpToDate_spec node.whole fresh
    refine ⟨_, Local.of_turn x (turn.trans grant) (Stamped.of_same acked led) (node.grant free)
      ((threads.mono grant (Nat.le_succ _)).same rfl rfl rfl rfl)
      (fun p => .inl (congrFun channel p)) (fun _ => .inl rfl) ?_ ?_⟩
    · intro reply sent
      rw [mem_singleton.mp sent]
      exact ⟨trivial, tagged, fun _ _ _ _ _ _ => trivial⟩
    · intro e recorded
      rw [mem_singleton.mp recorded]
      exact ⟨⟨s₁.log pkt.dst, .inr ⟨node.id, node.term.symm, rfl, rfl⟩⟩, trivial⟩
  · have same : d = ((c.node pkt.dst).catchUp m.term .ok).disk := by
      rcases disk with same | ⟨_, _, impossible⟩
      · exact same
      · cases impossible
    rw [equal, same]
    exact refuse turn (Stamped.of_same acked led) node threads channel

theorem NodeSim.below (x : NodeSim founders tracked s v n) (known : Records (rules founders) s)
    (standing : n.role = .candidate) {idx : Nat} : n.log.term idx ≠ some n.currentTerm := by
  have stood := (x.candidate standing).1
  obtain ⟨above, _⟩ := known.stood_above stood
  intro at_
  cases idx with
  | zero =>
    rw [x.whole.term_zero] at at_
    have := Option.some.inj at_
    omega
  | succ i =>
    rw [x.whole.term, Option.map_eq_some_iff] at at_
    obtain ⟨e, found, term⟩ := at_
    have top := (known.ascending (known.stood_from stood)).le_lastTerm found
    have value : (rules founders).term e = n.currentTerm := term
    omega

theorem NodeSim.win (x : NodeSim founders tracked s v n) (known : Records (rules founders) s)
    (standing : n.role = .candidate) (q : Finset NodeID) (votes : Nat)
    (fresh : tracked → ∀ p ∈ n.peers, p ∈ n.votingPeers ∨ n.matchIndex p = 0) :
    NodeSim founders tracked (s.win v q) v { n with votesReceived := votes }.becomeLeader := by
  obtain ⟨peers, next, matched, replies, equal, forgets, reset, empties, more, source⟩ :=
    { n with votesReceived := votes }.becomeLeader_eq
  rw [equal]
  have strange : ∀ p, n.matchIndex p = 0 → matched p = 0 := by
    intro p unknown
    rcases forgets p with same | zero
    · exact same.trans unknown
    · exact zero
  exact { x with
    leads := by simp [State.win]
    candidate := fun other => Role.noConfusion other
    members := fun _ => x.members fun follower => Role.noConfusion (standing.symm.trans follower)
    peers := by
      intro p member
      rcases source p member with old | ⟨_, other⟩
      · exact x.peers p old
      · rw [← x.id]
        exact other
    strangers := by
      intro p absent
      obtain ⟨unknown, silent⟩ := x.strangers p fun old => absent (more old)
      refine ⟨strange p unknown, ?_⟩
      rcases empties p with same | empty
      · exact same.trans silent
      · exact empty
    acks := by
      -- The voters are reset, and nothing is known about anyone else.
      intro on _ p positive
      have zero : matched p = 0 := by
        by_cases old : p ∈ n.peers
        · exact (fresh on p old).elim (reset p) (strange p)
        · exact strange p (x.strangers p old).1
      dsimp only at positive
      omega
    own := fun _ _ at_ => absurd at_ (x.below known standing) }

theorem Sim.voted (x : Sim founders tracked c events s) {w : NodeID}
    (cast : Cast events w k t) (later : 2 ≤ t) : ∃ l, s.voted w t k l := by
  rcases cast with granted | ⟨rfl, stood⟩ | ⟨_, _, first⟩
  · exact x.events _ granted
  · exact x.events _ stood
  · omega

theorem Sim.handleVoteResponse (x : Sim founders tracked c events s) (polls : Polls c events)
    {i : Nat} {sender : NodeID} {term : Nat} {voteGranted : Bool} (found : c.net[i]? = some pkt)
    (isAnswer : pkt.msg = .requestVoteResponse sender term voteGranted)
    (fresh : tracked → (c.node pkt.dst).elects term voteGranted = true →
      ∀ p ∈ (c.node pkt.dst).peers, p ∈ (c.node pkt.dst).votingPeers ∨ (c.node pkt.dst).matchIndex p = 0) :
    Handled founders tracked c s pkt.dst ((c.node pkt.dst).handleVoteResponse term voteGranted .ok) := by
  have nx := x.node pkt.dst
  have wait : ∀ {n' : Node}, NodeSim founders tracked s pkt.dst n' → n'.commitIndex = (c.node pkt.dst).commitIndex →
      n'.currentTerm = (c.node pkt.dst).currentTerm → n'.role = (c.node pkt.dst).role →
      n'.log = (c.node pkt.dst).log → n'.respCh = (c.node pkt.dst).respCh →
      Part founders tracked c s pkt.dst ⟨⟨n', (c.server pkt.dst).threads⟩, [], []⟩ := by
    intro n' node commit term role log channel
    exact x.still node ((x.threads pkt.dst).same commit term role log) (fun p => .inl (congrFun channel p))
      (fun _ => .inl rfl) (by simp) (by simp)
  unfold Node.handleVoteResponse
  dsimp only
  split_ifs with higher stale granted enough
  · have below : s.term pkt.dst ≤ term := by
      rw [nx.term]
      exact le_of_lt higher
    have turn := Turn.follow (R := rules founders) s below
    exact ⟨_, Local.of_turn x turn (Stamped.of_same rfl rfl) (nx.stepDown x.safe.known higher)
      (((x.threads pkt.dst).mono turn (Nat.le_succ _)).follow (le_refl _) (le_of_lt higher) rfl)
      (fun _ => .inl rfl) (fun _ => .inl rfl) (by simp) (by simp)⟩
  · exact wait nx rfl rfl rfl rfl rfl
  · -- The vote completes a majority of the protocol's members.
    simp only [ne_eq, not_or, Decidable.not_not] at stale
    obtain ⟨standing, rfl⟩ := stale
    subst granted
    obtain ⟨stood, voters, quorum, cast⟩ :=
      polls.ballots.quorum found rfl isAnswer standing enough
    have later := polls.ballots.stood_ge stood
    have turn : Turn (rules founders) pkt.dst s (s.win pkt.dst voters) := by
      obtain ⟨asked, once⟩ := nx.candidate standing
      refine Turn.win ?_ ?_ ?_ ?_
      · rw [nx.term, nx.log]
        exact asked
      · rw [nx.term]
        exact once
      · rw [nx.log, ← nx.members fun follower => Role.noConfusion (standing.symm.trans follower)]
        exact quorum
      · intro w member
        rw [nx.term]
        exact x.voted (cast w member) later
    have node := nx.win x.safe.known standing voters ((c.node pkt.dst).votesReceived + 1)
      fun on => fresh on (decide_eq_true ⟨standing, rfl, enough⟩)
    obtain ⟨peers, next, matched, replies, equal, _, _, empties, _⟩ := { c.node pkt.dst with
      votesReceived := (c.node pkt.dst).votesReceived + 1 }.becomeLeader_eq
    rw [equal] at node ⊢
    have stamped : Stamped pkt.dst (c.node pkt.dst).log.entries [] s (s.win pkt.dst voters) := by
      refine ⟨.inl, ?_⟩
      rintro w t l (old | ⟨rfl, rfl, rfl⟩)
      · exact .inl old
      · refine .inr ⟨rfl, nx.log, .inl ⟨nx.log.symm, ?_⟩⟩
        rw [nx.term]
        exact (nx.candidate standing).2
    refine ⟨_, Local.of_turn x turn stamped node ?_ empties (fun _ => .inl rfl) (by simp) (by simp)⟩
    have threads := (x.threads pkt.dst).mono turn (Nat.le_succ _)
    exact { threads with
      proposal := by
        intro call data holds ready
        obtain ⟨below, exact_⟩ := threads.proposal call data holds ready
        exact ⟨below, fun same => absurd standing (exact_ same).1⟩ }
  · exact wait { nx with } rfl rfl rfl rfl rfl
  · exact wait nx rfl rfl rfl rfl rfl

end Cluster
