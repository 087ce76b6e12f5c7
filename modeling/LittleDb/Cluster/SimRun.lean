import LittleDb.Cluster.SimProposal

/-! Every run that meets the conditions stands for a run of the replicated-log protocol. -/

namespace Cluster

open Consensus Quorum List Cluster.System

variable {founders : Nat} {tracked : Prop} {c c' c₀ : System} {events new : List Event}
  {s s' : Abstract} {v : NodeID}

/-- A step of the cluster in the protocol's state: one node takes a turn. -/
def Advances (founders : Nat) (c c' : System) (new : List Event) (s s' : Abstract) : Prop :=
  ∃ v, Turn (rules founders) v s s' ∧ Stamped v (c'.node v).log.entries new s s' ∧
    (∀ e ∈ new, e.OwnedBy v) ∧ ∀ w, w ≠ v → c'.node w = c.node w

theorem Advances.idle (same : c'.node = c.node) : Advances founders c c' [] s s :=
  ⟨0, Turn.refl _ 0 s, Stamped.of_same rfl rfl, by simp, fun w _ => congrFun same w⟩

section

variable (x : Sim founders tracked c events s)

include x

theorem Sim.take_part (less : c.Lesser c₀) (started : v < c.size) {o : Outcomes}
    (part : ∃ s', Local founders tracked c v s s' c₀.nextTag o) : ∃ s', Sim founders tracked (c₀.put v o)
    (o.events ++ events) s' ∧ Advances founders c (c₀.put v o) o.events s s' := by
  obtain ⟨s', part⟩ := part
  refine ⟨s', x.put less started part, v, part.turn, ?_, fun e recorded => (part.events e recorded).2, ?_⟩
  · rw [node_put, Function.update_self]
    exact part.stamped
  · intro w away
    rw [node_put, Function.update_of_ne away]
    exact congrArg Server.node (congrFun less.server w)

theorem Sim.act (polls : Polls c events) {f : Server → Option Outcomes}
    (part : ∀ {o}, (c.node v).up = true → f (c.server v) = some o →
      Part founders tracked c s v o) (moved : c.act v f = some (c', new)) :
    ∃ s', Sim founders tracked c' (new ++ events) s' ∧ Advances founders c c' new s s' := by
  obtain ⟨running, o, done, rfl, rfl⟩ := act_cases moved
  exact x.take_part (System.Lesser.bump c) (polls.started running) (part running done)

theorem Sim.receive {pkt : Packet} (member : pkt ∈ c.net) (isReply : pkt.IsReply) {sender : NodeID} {effect : Effect}
    (handled : (if sender ∉ (c.node pkt.dst).peers then some { node := c.node pkt.dst }
      else if ((c.node pkt.dst).respCh sender).isSome then none
      else some { node := { c.node pkt.dst with
        respCh := Function.update (c.node pkt.dst).respCh sender (some pkt) } } : Option Effect) =
      some effect) : Handled founders tracked c s pkt.dst effect := by
  have nx := x.node pkt.dst
  have threads := (x.threads pkt.dst).mono (Turn.refl (rules founders) pkt.dst s) (Nat.le_succ c.nextTag)
  -- The reply waits in the channel, unless the sender is a stranger.
  split_ifs at handled with known busy
  · cases handled
    have part : Local founders tracked c pkt.dst s s (c.nextTag + 1)
        ⟨⟨c.node pkt.dst, (c.server pkt.dst).threads⟩, [], []⟩ :=
      Local.of_turn x (Turn.refl (rules founders) pkt.dst s) (Stamped.of_same rfl rfl) nx threads
        (fun _ => .inl rfl) (fun _ => .inl rfl) (by simp) (by simp)
    refine ⟨s, { part with
      answers := by simp
      node := { nx with
        strangers := by
          intro q absent
          refine ⟨(nx.strangers q absent).1, ?_⟩
          have other : q ≠ sender := fun same => absent (same ▸ known)
          exact (Function.update_of_ne other ..).trans (nx.strangers q absent).2 }
      threads := threads.same rfl rfl rfl rfl
      channel := ?_ }⟩
    intro q other waits
    dsimp only at waits
    by_cases same : q = sender
    · subst same
      rw [Function.update_self] at waits
      cases waits
      exact ⟨.inl member, isReply⟩
    · rw [Function.update_of_ne same] at waits
      exact ⟨.inr ⟨pkt.dst, q, waits⟩, x.channel pkt.dst q other waits⟩
  · cases handled
    exact x.still nx (x.threads _) (fun _ => .inl rfl) (fun _ => .inl rfl) (by simp) (by simp)

theorem Sim.handle (polls : Polls c events) {i : Nat} {pkt : Packet} {effect : Effect} (found : c.net[i]? = some pkt)
    (running : (c.node pkt.dst).up = true) (fresh : tracked → c.forgetsMatches (.deliver i .ok .ok) = true)
    (handled : c.handle (c.node pkt.dst) pkt .ok .ok = some effect) :
    Handled founders tracked c s pkt.dst effect := by
  have member := mem_of_getElem? found
  have sim := x.net pkt member
  unfold System.handle at handled
  split at handled
  · rename_i m isAppend
    cases handled
    exact x.handleAppendEntries member isAppend
  · rename_i m isRequest
    cases handled
    exact x.handleRequestVote member isRequest
  · rename_i sender term voteGranted isAnswer
    cases handled
    refine x.handleVoteResponse polls found isAnswer fun on elects => ?_
    have forgets := fresh on
    simpa only [System.forgetsMatches, found, Option.all_some, isAnswer, elects, Bool.not_true, Bool.false_or,
      all_eq_true, decide_eq_true_eq] using forgets
  · cases handled
    unfold Node.handleTimeoutNow
    split_ifs
    · exact x.still (x.node _) (x.threads _) (fun _ => .inl rfl) (fun _ => .inl rfl) (by simp) (by simp)
    · exact x.maybeStartElection running true
  · rename_i m isSnapshot
    -- No snapshot is on its way.
    simp only [PacketSim, isSnapshot] at sim
  · rename_i isReply
    exact x.receive member ⟨_, _, _, _, _, isReply⟩ handled
  · rename_i isReply
    simp only [PacketSim, isReply] at sim

theorem Sim.rebuild (v : NodeID) (peers : List NodeID) : ∃ s', Local founders tracked c v s s' c.nextTag
      { server := { node := (c.node v).rebuild peers .ok, threads := {} } } := by
  have nx := x.node v
  -- The log is never ahead of the saved term, so the saved term and vote are read back.
  have current : ¬ (c.node v).disk.currentTerm < (c.node v).log.lastTerm := by
    have bound := (x.safe.known.log_from v).2
    rw [nx.log, nx.term, ← nx.whole.lastTerm] at bound
    rw [nx.disk]
    exact not_lt.mpr bound
  have rebuilt : (c.node v).rebuild peers .ok =
      { Node.fresh (c.node v).id peers (c.node v).baseConfig with
        config := (c.node v).deriveConfig
        log := (c.node v).log
        currentTerm := (c.node v).currentTerm
        votedFor := (c.node v).votedFor
        commitIndex := (c.node v).stored
        lastApplied := (c.node v).stored
        disk := ⟨(c.node v).currentTerm, (c.node v).votedFor⟩
        stored := (c.node v).stored } := by
    unfold Node.rebuild
    rw [Node.persist_ok]
    simp only [current, if_false, Save.succeeded]
    rw [nx.disk]
    rfl
  have follow := Turn.follow (R := rules founders) (v := v) s (t := (c.node v).currentTerm) (by rw [nx.term])
  -- The commit index falls back to what the store holds.
  have forgotten : ∃ s', Turn (rules founders) v (s.follow v (c.node v).currentTerm) s' ∧
      s'.term = (s.follow v (c.node v).currentTerm).term ∧ s'.log = s.log ∧
      s'.leads = (s.follow v (c.node v).currentTerm).leads ∧ s'.voted = s.voted ∧
      s'.acked = s.acked ∧ s'.led = s.led ∧ (tracked → s'.commit v = (c.node v).stored) := by
    by_cases on : tracked
    · refine ⟨State.learn _ v (c.node v).stored, Turn.forget _ ?_, rfl, rfl, rfl, rfl, rfl, rfl,
        fun _ => Function.update_self ..⟩
      show (c.node v).stored ≤ s.commit v
      rw [nx.commit on]
      exact nx.stored on
    · exact ⟨_, Turn.refl _ v _, rfl, rfl, rfl, rfl, rfl, rfl, fun on' => absurd on' on⟩
  obtain ⟨s', forget, term, log, leads, voted, acked, led, commit⟩ := forgotten
  rw [rebuilt]
  refine ⟨s', Local.of_turn x (follow.trans forget) (Stamped.of_same acked led) ?_ ?_
    (fun _ => .inr rfl) (fun _ => .inr rfl) (by simp) (by simp)⟩
  · exact { nx with
      term := by
        rw [term]
        exact Function.update_self ..
      log := by
        rw [log]
        exact nx.log
      leads := by
        rw [leads]
        simp [State.follow, Node.fresh]
      disk := rfl
      idle := rfl
      voted := by
        rw [voted]
        exact nx.voted
      candidate := fun standing => Role.noConfusion standing
      config := fun _ => rfl
      members := fun other => absurd rfl other
      peers := by
        intro p member
        rw [← nx.id]
        simpa using (mem_filter.mp member).2
      strangers := fun _ _ => ⟨rfl, rfl⟩
      commit := commit
      acks := fun _ leading => Role.noConfusion leading
      own := fun _ leading => Role.noConfusion leading
      stored := fun _ => le_refl _
      applied := fun _ => le_refl _ }
  · exact ⟨fun _ => .inl rfl, by simp, by simp, by simp⟩

theorem Sim.resize : Sim founders tracked { c with size := c.size + 1 } events s := by
  exact { x with unborn := fun v outside => x.unborn v (Nat.le_of_succ_le outside) }

theorem Sim.spawn (peers : List NodeID) :
    ∃ s', Local founders tracked { c with size := c.size + 1 } c.size s s' c.nextTag
      { server := { node := Node.fresh c.size peers .empty, threads := {} } } := by
  obtain ⟨old, untouched⟩ := x.unborn c.size (le_refl _)
  have nx := x.node c.size
  rw [untouched] at nx
  refine ⟨s, Local.of_turn x.resize (Turn.refl _ c.size s) (Stamped.of_same rfl rfl) ?_ ?_
    (fun _ => .inr rfl) (fun _ => .inr rfl) (by simp) (by simp)⟩
  · exact { nx with
      config := fun _ => rfl
      peers := by
        intro p member
        simpa using (mem_filter.mp member).2
      strangers := fun _ _ => ⟨rfl, rfl⟩ }
  · exact ⟨fun _ => .inl rfl, by simp, by simp, by simp⟩

end

/-- Every step that meets the conditions is a turn of the protocol. -/
theorem Sim.step (x : Sim founders tracked c events s) (polls : Polls c events) {a : Action}
    (meets : Meets tracked c a) (moved : c.step a = some (c', new)) :
    ∃ s', Sim founders tracked c' (new ++ events) s' ∧ Advances founders c c' new s s' := by
  have calm := meets.calm
  have fits := meets.fits
  have gate := meets.gate
  have replies := meets.replies
  cases System.moves moved with
  | @deliver i pkt saveTerm saveVote effect found running _ handled =>
    simp only [Action.calm, Bool.and_eq_true, decide_eq_true_eq] at calm
    obtain ⟨rfl, rfl⟩ := calm
    exact x.take_part (System.Lesser.take_bump c i) (polls.started running)
      (x.handle polls found running meets.fresh handled)
  | @drop i => exact ⟨s, x.lesser (System.Lesser.take c i), Advances.idle rfl⟩
  | @stop i count cut pkt found running =>
    refine x.take_part (System.Lesser.take c i) (polls.started running) ?_
    have still := x.halt_caught (c.take i).nextTag pkt.dst 0
    rw [show (c.node pkt.dst).catchUp 0 .ok = c.node pkt.dst from if_neg (Nat.not_lt_zero _)] at still
    unfold System.stopIn
    split
    · next m isAppend => exact x.stopInAppendEntries (mem_of_getElem? found) isAppend count cut
    · split_ifs
      · exact still
      · exact x.halt_caught _ pkt.dst _
    · exact still
  | timeout running =>
    obtain rfl := of_decide_eq_true calm
    exact x.take_part (System.Lesser.bump c) (polls.started running) (x.maybeStartElection running false)
  -- No snapshot is shipped, so none is installed.
  | @install v _ _ _ busy => cases (x.node v).idle.symm.trans busy
  | @crash v _ _ running left =>
    rcases left with rfl | ⟨m, tag, busy, -⟩
    · have still := x.halt_caught c.nextTag v 0
      rw [show (c.node v).catchUp 0 .ok = c.node v from if_neg (Nat.not_lt_zero _)] at still
      exact x.take_part (System.Lesser.refl c) (polls.started running) still
    · cases (x.node v).idle.symm.trans busy
  | @restart v save started =>
    obtain rfl := of_decide_eq_true calm
    exact x.take_part (System.Lesser.refl c) started (x.rebuild v _)
  | spawn =>
    obtain ⟨s', sim, u, turn, stamped, owned, others⟩ := x.resize.take_part
      (System.Lesser.refl _) (Nat.lt_succ_self c.size) (x.spawn (List.range (c.size + 1)))
    exact ⟨s', sim, u, turn, stamped, owned, others⟩
  | tick => exact ⟨s, x.lesser ⟨rfl, rfl, rfl, List.Subset.refl _, le_refl _⟩, Advances.idle rfl⟩
  | ordinary ordinary =>
    cases a <;> first | cases ordinary; done | simp only [System.step] at moved
    case replicate v q => exact x.act polls (fun _ done => x.replicate done) moved
    case consume v q save =>
      obtain rfl : save = .ok := of_decide_eq_true calm
      refine x.act polls (fun _ done => x.consume (fun on => ?_) meets.short done) moved
      exact of_decide_eq_true (replies on)
    case abandon v q => exact x.act polls (fun _ done => x.abandon done) moved
    -- With whole logs no snapshot is ever scanned or shipped.
    case scan v q | ship v q =>
      refine x.act polls (fun _ done => ?_) moved
      simp only [Server.scan, Server.ship] at done
      split at done
      · rename_i busy
        rcases (x.threads v).rounds q with idle | ⟨_, _, _, _, waits, _⟩
        · rw [idle] at busy
          cases busy
        · rw [waits] at busy
          cases busy
      · cases done
    case beginCommit v => exact x.act polls (fun _ done => x.beginCommit done) moved
    case prepare v data => exact x.act polls (fun _ done => x.prepare done) moved
    case cancel v => exact x.act polls (fun _ done => x.cancel done) moved
    case beginRemove v id =>
      exact x.act polls (fun _ done => x.beginRemove (of_decide_eq_true fits) done) moved
    case beginAdd v id =>
      split_ifs at moved
      exact x.act polls (fun _ done => x.beginAdd done) moved
    case pollAdd v j => exact x.act polls (fun _ done => x.pollAdd done) moved
    case expireAdd v j => exact x.act polls (fun _ done => x.expireAdd done) moved
    case promote v j =>
      refine x.act polls (fun _ done => x.promote (fun join found => ?_) done) moved
      simp only [System.fitsConfig, found, Option.all_some, decide_eq_true_eq] at fits
      exact fits
    case propose v =>
      exact x.act polls (fun running done => x.propose running (fun call data => gate v call data rfl) done) moved
    case wake v => exact x.act polls (fun _ done => x.wake done) moved
    case relinquish v => exact x.act polls (fun _ done => x.relinquish done) moved
    case beginTransfer v target => exact x.act polls (fun _ done => x.beginTransfer done) moved
    case pollTransfer v j => exact x.act polls (fun _ done => x.pollTransfer done) moved
    case abortTransfer v j => exact x.act polls (fun _ done => x.abortTransfer done) moved
    case fetch v => exact x.act polls (fun _ done => x.fetch done) moved
    case store v => exact x.act polls (fun _ done => x.store done) moved
    case finishApply v => exact x.act polls (fun _ done => x.finishApply meets.short done) moved

theorem System.init_silent (settings : Settings) (founders : Nat) (v p : NodeID) :
    ((System.init settings founders).node v).respCh p = none := by
  have bootstrap : ∀ config, (Node.fresh 0 (List.range founders) config).bootstrap.respCh p =
      none := by
    intro config
    obtain ⟨_, _, _, _, equal, _, empties, _⟩ :=
      (Node.fresh 0 (List.range founders) config).bootstrap_eq
    rw [equal]
    exact (empties p).elim (fun same => same) (fun same => same)
  simp only [System.init, System.node]
  by_cases first : v = 0
  · subst first
    exact bootstrap _
  · rw [if_neg first]
    rfl

theorem Sim.init {settings : Settings} (positive : 0 < founders) :
    Sim founders tracked (System.init settings founders) [] (State.init (rules founders)) := by
  have nothing : ∀ pkt, ¬ (System.init settings founders).Holds pkt := by
    rintro pkt (member | ⟨v, p, waits⟩)
    · cases member
    · rw [init_silent] at waits
      cases waits
  refine ⟨.init, ?_, ?_, ?_, by simp [System.init], ?_, ?_, ?_, by simp⟩
  · intro v
    -- Node zero is the bootstrap leader, every other node follows.
    by_cases zero : v = 0
    · subst zero
      obtain ⟨peers, next, known, replies, equal, forgets, empties, source⟩ :=
        (Node.fresh 0 (List.range founders) (.fullConfig founders)).bootstrap_eq
      rw [init_node_zero positive, equal]
      have unknown : ∀ p, known p = 0 := fun p => (forgets p).elim id id
      have silent : ∀ p, replies p = none := fun p => (empties p).elim id id
      exact {
        id := rfl
        whole := ⟨rfl, rfl⟩
        term := rfl
        log := rfl
        leads := ⟨fun _ => rfl, fun _ => rfl⟩
        disk := rfl
        idle := rfl
        voted := fun vote => vote.elim
        candidate := fun standing => Role.noConfusion standing
        config := fun _ => rfl
        base := .inl rfl
        members := fun _ => rfl
        peers := by
          intro p member
          rcases source p member with old | ⟨_, other⟩
          · simpa using (mem_filter.mp old).2
          · exact other
        strangers := fun p _ => ⟨unknown p, silent p⟩
        commit := fun _ => rfl
        acks := by
          intro _ _ p known
          dsimp only at known
          rw [unknown p] at known
          exact absurd known (lt_irrefl 0)
        own := fun _ _ at_ => by cases at_
        stored := fun _ => le_refl _
        applied := fun _ => le_refl _ }
    · rw [init_node zero]
      exact {
        id := rfl
        whole := ⟨rfl, rfl⟩
        term := rfl
        log := rfl
        leads := ⟨fun first => absurd first zero, fun leading => Role.noConfusion leading⟩
        disk := rfl
        idle := rfl
        voted := fun vote => vote.elim
        candidate := fun standing => Role.noConfusion standing
        config := fun _ => rfl
        base := by
          dsimp only [Node.fresh]
          split_ifs
          · exact .inl rfl
          · exact .inr rfl
        members := fun other => absurd rfl other
        peers := by
          intro p member
          simpa using (mem_filter.mp member).2
        strangers := fun _ _ => ⟨rfl, rfl⟩
        commit := fun _ => rfl
        acks := fun _ leading => Role.noConfusion leading
        own := fun _ leading => Role.noConfusion leading
        stored := fun _ => le_refl _
        applied := fun _ => le_refl _ }
  · exact fun _ => ⟨fun _ => .inl rfl, by simp [System.init], by simp [System.init], by simp [System.init]⟩
  · intro v outside
    have started : founders ≤ v := outside
    have other : v ≠ 0 := ne_of_gt (lt_of_lt_of_le positive started)
    refine ⟨List.range founders, ?_⟩
    simp [System.init, System.node, other, not_lt.mpr started]
  · intro v p pkt waits
    rw [init_silent] at waits
    cases waits
  · exact fun pkt held => absurd held (nothing pkt)
  · exact fun _ _ _ _ _ _ _ pkt held => absurd held (nothing pkt)

end Cluster
