import LittleDb.Cluster.IndexOrder

/-! Which log indices the handlers read, and the runs in which none of them is out of range. -/

namespace Cluster

open Function Option RaftLog

def Round.Reaches (n : Node) : Round → Prop
  | .idle => True
  | .append term prevLogIndex count _ => n.Owns term (prevLogIndex + count)
  | .scanning term => n.Owns term 0
  | .scanned term lastIncludedIndex => n.Owns term lastIncludedIndex
  | .snapshot term lastIncludedIndex _ => n.Owns term lastIncludedIndex

/-- An iteration of the apply loop that its node can finish. -/
def Applying.Due (n : Node) : Applying → Prop
  | .fetched idx _ => idx = n.lastApplied + 1 ∧ idx ≤ n.commitIndex
  | .stored idx => idx = n.lastApplied + 1 ∧ idx = n.stored

theorem Round.Reaches.later {n n' : Node} {round : Round} (reaches : round.Reaches n)
    (later : n.Later n') : round.Reaches n' := by
  cases round with
  | idle => trivial
  | append => exact Node.Owns.later reaches later
  | scanning => exact Node.Owns.later reaches later
  | scanned => exact Node.Owns.later reaches later
  | snapshot => exact Node.Owns.later reaches later

theorem Applying.Due.steady {n n' : Node} {job : Applying} (due : job.Due n) (steady : n.Steady n') : job.Due n' := by
  cases job with
  | fetched idx e =>
    obtain ⟨next, inside⟩ := due
    exact ⟨steady.applied ▸ next, inside.trans steady.committed⟩
  | stored idx =>
    obtain ⟨next, same⟩ := due
    exact ⟨steady.applied ▸ next, steady.stored ▸ same⟩

/-- A server with indices in order; a stopped one's log reaches its store. -/
structure Server.InRange (s : Server) : Prop where
  stored : s.node.stored ≤ s.node.log.lastIndex
  kept : s.node.up = true → s.node.Kept
  rounds : ∀ p, s.threads.rounds p ≠ .idle →
    p ∈ s.node.peers ∧ (s.threads.rounds p).Reaches s.node
  applying : ∀ job, s.threads.applying = some job → job.Due s.node

namespace Server.InRange

variable {s : Server} {o : Outcomes}

variable {n : Node} {t : Threads} {p : NodeID} {tag : Nat} {settings : Settings}

section

variable (x : s.InRange)

include x

theorem move (moves : s.node.Moves n)
    (rounds : t.rounds = s.threads.rounds) (applying : t.applying = s.threads.applying) : InRange ⟨n, t⟩ := by
  refine ⟨moves.kept.stored.trans moves.kept.committed, fun _ => moves.kept, fun p busy => ?_, fun job found => ?_⟩
  · change t.rounds p ≠ .idle at busy
    change p ∈ n.peers ∧ (t.rounds p).Reaches n
    rw [rounds] at busy ⊢
    obtain ⟨member, reaches⟩ := x.rounds p busy
    exact ⟨moves.later.peers member, reaches.later moves.later⟩
  · exact (x.applying job (applying ▸ found)).steady moves.steady

theorem quiet (rounds : t.rounds = s.threads.rounds)
    (applying : t.applying = s.threads.applying) : InRange ⟨s.node, t⟩ :=
  ⟨x.stored, x.kept, by rw [rounds]; exact x.rounds, by rw [applying]; exact x.applying⟩

theorem turn {round : Round} (moves : s.node.Moves n) (rounds : t.rounds = update s.threads.rounds p round)
    (applying : t.applying = s.threads.applying)
    (reaches : round ≠ .idle → p ∈ n.peers ∧ round.Reaches n) : InRange ⟨n, t⟩ := by
  refine ⟨moves.kept.stored.trans moves.kept.committed, fun _ => moves.kept, fun q busy => ?_,
    fun job found => (x.applying job (applying ▸ found)).steady moves.steady⟩
  change t.rounds q ≠ .idle at busy
  change q ∈ n.peers ∧ (t.rounds q).Reaches n
  rw [rounds] at busy ⊢
  by_cases same : q = p
  · subst same
    rw [update_self] at busy ⊢
    exact reaches busy
  · rw [update_of_ne same] at busy ⊢
    obtain ⟨member, reaches'⟩ := x.rounds q busy
    exact ⟨moves.later.peers member, reaches'.later moves.later⟩

theorem beginAdd (up : s.node.up = true) {id : NodeID} (done : s.beginAdd id = some o) : o.server.InRange := by
  unfold Server.beginAdd at done
  dsimp only at done
  split_ifs at done
  cases done
  exact x.move ((x.kept up).ensurePeer id) rfl rfl

theorem propose (up : s.node.up = true) (done : s.propose = some o) : o.server.InRange := by
  unfold Server.propose at done
  split at done
  · next call term purpose kind data _ =>
    dsimp only at done
    split_ifs at done with refused
    · cases done
      exact x.quiet rfl rfl
    · simp only [not_or, not_not] at refused
      have appended := (x.kept up).appendOwn ⟨term, kind, data⟩
      obtain ⟨n, events, tallied, moved⟩ := appended.kept.maybeAdvanceCommit refused.1
      rw [tallied] at done
      cases done
      exact x.move (appended.trans moved) rfl rfl
  · cases done

theorem relinquish (up : s.node.up = true) (done : s.relinquish = some o) : o.server.InRange := by
  unfold Server.relinquish at done
  split at done
  · split_ifs at done
    cases done
    refine x.move ?_ rfl rfl
    split_ifs
    · exact (x.kept up).follow (le_refl _)
    · exact .refl (x.kept up)
  · cases done

theorem fetch (done : s.fetch = some o) : o.server.InRange := by
  unfold Server.fetch at done
  dsimp only at done
  split_ifs at done with due
  split at done
  · cases done
  · next e found =>
    cases done
    refine ⟨x.stored, x.kept, x.rounds, fun job fetched => ?_⟩
    cases fetched
    exact ⟨rfl, due.2.2⟩

section

variable (up : s.node.up = true)
include up

theorem store (done : s.store = some o) : o.server.InRange := by
  unfold Server.store at done
  split at done
  · next idx e fetched =>
    cases done
    obtain ⟨rfl, inside⟩ := x.applying _ fetched
    have kept := x.kept up
    refine ⟨inside.trans kept.committed, fun _ => ⟨kept.base, Nat.le_succ _, inside, kept.committed,
      kept.foreign, kept.leading, kept.installing⟩, fun p busy => ?_, fun job stored => ?_⟩
    · obtain ⟨member, reaches⟩ := x.rounds p busy
      exact ⟨member, reaches.later ⟨fun _ member => member, le_refl _, fun role => .inl ⟨role, rfl⟩,
        fun role => .inl ⟨role, le_refl _⟩⟩⟩
    · cases stored
      exact ⟨rfl, rfl⟩
  · cases done

theorem recorded {idx : Nat} (stored : s.threads.applying = some (.stored idx)) :
    { s.node with lastApplied := idx }.Kept := by
  obtain ⟨rfl, same⟩ := x.applying _ stored
  have kept := x.kept up
  exact ⟨kept.base.trans (Nat.le_succ _), same.le, kept.stored, kept.committed, kept.foreign,
    kept.leading, kept.installing⟩

theorem finishApply (done : s.finishApply settings = some o) : o.server.InRange := by
  unfold Server.finishApply at done
  split at done
  · next idx stored =>
    have kept := x.recorded up stored
    obtain ⟨n, compacted, moved⟩ := kept.maybeCompact settings
    rw [compacted] at done
    cases done
    refine ⟨moved.kept.stored.trans moved.kept.committed, fun _ => moved.kept, fun p busy => ?_, nofun⟩
    obtain ⟨member, reaches⟩ := x.rounds p busy
    have same : s.node.Later { s.node with lastApplied := idx } :=
      ⟨fun _ member => member, le_refl _, fun role => .inl ⟨role, rfl⟩, fun role => .inl ⟨role, le_refl _⟩⟩
    exact ⟨moved.later.peers member, reaches.later (same.trans moved.later)⟩
  · cases done

theorem replicate (done : s.replicate p tag = some o) : o.server.InRange := by
  unfold Server.replicate at done
  split_ifs at done with idle
  have kept := x.kept up
  obtain ⟨round, sends, started, shape⟩ := kept.startRound idle.1 tag
  rw [started] at done
  cases done
  refine x.turn (.refl kept) rfl rfl fun busy => ⟨idle.1, ?_⟩
  by_cases leads : s.node.role = .leader
  · rcases shape with rfl | rfl | ⟨prevLogIndex, count, rfl, ends⟩
    · trivial
    · exact ⟨le_refl _, fun stood => absurd (leads.symm.trans stood) (by decide), fun _ _ => Nat.zero_le _⟩
    · exact ⟨le_refl _, fun stood => absurd (leads.symm.trans stood) (by decide), fun _ _ => ends.le⟩
  · have none : s.node.startRound p tag = some (.idle, []) := by
      unfold Node.startRound
      rw [if_pos leads]
    rw [none] at started
    cases started
    exact absurd rfl busy

theorem scan (done : s.scan p = some o) : o.server.InRange := by
  unfold Server.scan at done
  split at done
  · next term scanning =>
    cases done
    obtain ⟨member, reaches⟩ := x.rounds p (by rw [scanning]; exact nofun)
    rw [scanning] at reaches
    exact x.turn (.refl (x.kept up)) rfl rfl fun _ =>
      ⟨member, reaches.past, reaches.candidate, fun _ _ => x.stored⟩
  · cases done

theorem ship (done : s.ship p tag = some o) : o.server.InRange := by
  unfold Server.ship at done
  split at done
  · next term idx scanned =>
    obtain ⟨member, reaches⟩ := x.rounds p (by rw [scanned]; exact nofun)
    rw [scanned] at reaches
    obtain ⟨round, sends, shipped, shape⟩ :=
      Node.Kept.shipSnapshot (n := s.node) (p := p) tag reaches.leader
    rw [shipped] at done
    cases done
    refine x.turn (.refl (x.kept up)) rfl rfl fun busy => ⟨member, ?_⟩
    rcases shape with rfl | rfl
    · trivial
    · exact reaches
  · cases done

theorem abandon (done : s.abandon p = some o) : o.server.InRange := by
  unfold Server.abandon at done
  split at done
  · cases done
    exact x.turn (.refl (x.kept up)) rfl rfl fun busy => absurd rfl busy
  · cases done
    exact x.turn (.refl (x.kept up)) rfl rfl fun busy => absurd rfl busy
  · cases done

theorem consume {save : Save}
    (hint : ∀ pkt resp term prevLogIndex count tag, s.node.respCh p = some pkt →
      pkt.msg.response = some resp → s.threads.rounds p = .append term prevLogIndex count tag →
      s.node.BacksWithin term resp) (done : s.consume settings p save = some o) : o.server.InRange := by
  unfold Server.consume at done
  simp only [bind_eq_bind, bind_eq_some_iff] at done
  obtain ⟨pkt, waiting, resp, read, done⟩ := done
  have cleared : s.node.Moves { s.node with respCh := update s.node.respCh p none } :=
    (x.kept up).aside rfl
  split at done
  · next term prevLogIndex count tag round =>
    obtain ⟨member, reaches⟩ := x.rounds p (by rw [round]; exact nofun)
    rw [round] at reaches
    obtain ⟨effect, finished, moved⟩ := cleared.kept.finishRound settings member resp save
      reaches.leader (hint pkt resp _ _ _ _ waiting read round)
    rw [finished] at done
    simp only [bind_some] at done
    cases done
    exact x.turn (cleared.trans moved) rfl rfl fun busy => absurd rfl busy
  · next term idx tag round =>
    obtain ⟨member, reaches⟩ := x.rounds p (by rw [round]; exact nofun)
    rw [round] at reaches
    have moved := cleared.kept.finishSnapshot member resp save reaches.leader
    cases done
    exact x.turn (cleared.trans moved) rfl rfl fun busy => absurd rfl busy
  · cases done

end

end

theorem halt (stored : n.stored ≤ n.log.lastIndex) : (System.halt n).InRange :=
  ⟨stored, nofun, fun _ busy => absurd rfl busy, nofun⟩

theorem stopIn {c : System} (kept : s.node.Kept) {pkt : Packet} (count : Nat) (cut : Bool)
    (agrees : ∀ m, pkt.msg = .appendEntries m → s.node.AgreesWith m) :
    (System.halt (c.stopIn s.node pkt count cut)).InRange := by
  have reached := kept.stored.trans kept.committed
  refine halt ?_
  unfold System.stopIn
  split
  · next m shipped =>
    obtain ⟨log, _, stored⟩ := s.node.log_catchUp m.term .ok
    unfold Node.stopInAppendEntries
    dsimp only
    split_ifs with stale matched
    · exact reached
    · rw [log] at matched
      rw [log, stored]
      exact kept.stored.trans (le_lastIndex_stopInWindow count cut kept.committed
        (agrees m shipped (not_lt.mp stale) matched))
    · rw [log, stored]
      exact reached
  · next m requested =>
    obtain ⟨log, _, stored⟩ := s.node.log_catchUp m.term .ok
    split_ifs
    · exact reached
    · rw [log, stored]
      exact reached
  · exact reached

theorem rebuild (stored : n.stored ≤ n.log.lastIndex) (base : n.log.baseIndex ≤ n.stored)
    (peers : List NodeID) (save : Save) : InRange { node := n.rebuild peers save, threads := {} } := by
  have kept : (n.rebuild peers save).Kept := by
    unfold Node.rebuild Node.persist
    dsimp only
    split_ifs
    all_goals exact ⟨base, le_refl _, le_refl _, stored, fun _ _ => rfl, nofun, nofun⟩
  exact ⟨kept.stored.trans kept.committed, fun _ => kept, fun _ busy => absurd rfl busy, nofun⟩

end Server.InRange

theorem Node.Kept.fresh (id : NodeID) (peers : List NodeID) (boot : Members) : (Node.fresh id peers boot).Kept :=
  ⟨le_refl _, le_refl _, le_refl _, le_refl _, fun _ _ => rfl, nofun, nofun⟩

/-- A server about to read its log where there is nothing. -/
inductive Server.Panics (settings : Settings) (s : Server) : Prop where
  /-- A round starts behind the end of the log. -/
  | sendLoop (p : NodeID) (tag : Nat) (member : p ∈ s.node.peers) (idle : s.threads.rounds p = .idle)
      (out : s.node.startRound p tag = none)
  /-- A scanned snapshot ends behind the end of the log. -/
  | sendSnapshot (p : NodeID) (term lastIncludedIndex tag : Nat)
      (scanned : s.threads.rounds p = .scanned term lastIncludedIndex)
      (out : s.node.shipSnapshot p term lastIncludedIndex tag = none)
  /-- A success is tallied, or the log compacted, out of range. -/
  | onAppendSuccess (p : NodeID) (resp : Response) (term prevLogIndex count tag : Nat) (save : Save)
      (waiting : s.threads.rounds p = .append term prevLogIndex count tag) (success : resp.success = true)
      (out : s.node.finishRound settings p resp term prevLogIndex count save = none)
  | propose (e : Entry) (leads : s.node.role = .leader)
      (out : (Server.appendOwn s.node e).maybeAdvanceCommit = none)
  | finishApply (idx : Nat) (stored : s.threads.applying = some (.stored idx))
      (out : { s.node with lastApplied := idx }.maybeCompact settings = none)
  /-- An entry is applied that the log does not hold. -/
  | applyCommitted (due : s.node.lastApplied < s.node.commitIndex)
      (out : s.node.log.entryAt (s.node.lastApplied + 1) = none)

theorem Server.InRange.safe {s : Server} (x : s.InRange) (up : s.node.up = true) (settings : Settings) :
    ¬ s.Panics settings := by
  have kept := x.kept up
  -- One case for each place at which the log is read.
  rintro (⟨p, tag, member, _, out⟩ | ⟨p, term, idx, tag, scanned, out⟩ |
    ⟨p, resp, term, prev, count, tag, save, waiting, success, out⟩ | ⟨e, leads, out⟩ |
    ⟨idx, stored, out⟩ | ⟨due, out⟩)
  · obtain ⟨_, _, started, _⟩ := kept.startRound member tag
    rw [started] at out
    cases out
  · obtain ⟨_, reaches⟩ := x.rounds p (by rw [scanned]; exact nofun)
    rw [scanned] at reaches
    obtain ⟨_, _, shipped, _⟩ := Node.Kept.shipSnapshot (n := s.node) (p := p) tag reaches.leader
    rw [shipped] at out
    cases out
  · obtain ⟨member, reaches⟩ := x.rounds p (by rw [waiting]; exact nofun)
    rw [waiting] at reaches
    obtain ⟨_, finished, _⟩ := kept.finishRound settings member resp save reaches.leader fun _ _ _ rejected => absurd (success.symm.trans rejected) nofun
    rw [finished] at out
    cases out
  · obtain ⟨_, _, tallied, _⟩ := (kept.appendOwn e).kept.maybeAdvanceCommit leads
    rw [tallied] at out
    cases out
  · obtain ⟨_, compacted, _⟩ := (x.recorded up stored).maybeCompact settings
    rw [compacted] at out
    cases out
  · obtain ⟨_, found⟩ : ∃ e, s.node.log.entryAt (s.node.lastApplied + 1) = some e :=
      entryAt_known (Nat.lt_succ_of_le kept.base) (due.trans_le kept.committed)
    rw [found] at out
    cases out

namespace System

/-- A step that takes no index from outside the log. -/
def InBounds (c : System) : Action → Prop
  | .deliver i _ _ => ∀ pkt, c.net[i]? = some pkt →
      match pkt.msg with
      | .appendEntries m => (c.node pkt.dst).AgreesWith m
      | .requestVoteResponse _ term voteGranted => (c.node pkt.dst).ElectsWithin term voteGranted
      | _ => True
  | .stop i _ _ => ∀ pkt m, c.net[i]? = some pkt → pkt.msg = .appendEntries m →
      (c.node pkt.dst).AgreesWith m
  | .consume v p _ => ∀ pkt resp term prevLogIndex count tag, (c.node v).respCh p = some pkt →
      pkt.msg.response = some resp → (c.threads v).rounds p = .append term prevLogIndex count tag →
      (c.node v).BacksWithin term resp
  | _ => True

variable {c c' : System} {new : List Event}

theorem put_inRange (x : ∀ v, (c.server v).InRange) {v : NodeID} {o : Outcomes}
    (own : o.server.InRange) : ∀ w, ((c.put v o).server w).InRange := by
  intro w
  by_cases same : w = v
  · subst same
    simpa using own
  · simpa [update_of_ne same] using x w

theorem act_inRange (x : ∀ v, (c.server v).InRange) {v : NodeID} {f : Server → Option Outcomes}
    (keeps : (c.server v).InRange → (c.node v).up = true → ∀ o, f (c.server v) = some o →
      o.server.InRange) (moved : c.act v f = some (c', new)) : ∀ w, (c'.server w).InRange := by
  obtain ⟨up, o, done, rfl, _⟩ := act_cases moved
  exact put_inRange (c := c.bump) x (keeps (x v) up o done)

theorem handle_moves {n : Node} (kept : n.Kept) {pkt : Packet} {saveTerm saveVote : Save} {effect : Effect}
    (bounds : match pkt.msg with
      | .appendEntries m => n.AgreesWith m
      | .requestVoteResponse _ term voteGranted => n.ElectsWithin term voteGranted
      | _ => True)
    (handled : c.handle n pkt saveTerm saveVote = some effect) : n.Moves effect.node := by
  unfold System.handle at handled
  split at handled <;> rename_i isMessage <;> rw [isMessage] at bounds
  · cases handled
    exact kept.handleAppendEntries c.now pkt.tag saveTerm bounds
  · cases handled
    exact kept.handleRequestVote ..
  · cases handled
    exact kept.handleVoteResponse bounds
  · cases handled
    exact kept.handleTimeoutNow ..
  · cases handled
    exact kept.handleInstallSnapshot ..
  all_goals
    split_ifs at handled <;> cases handled
    · exact kept.aside rfl
    · exact .refl kept

theorem step_inRange (x : ∀ v, (c.server v).InRange) {a : Action} (bounds : c.InBounds a)
    (moved : c.step a = some (c', new)) : ∀ v, (c'.server v).InRange := by
  cases moves moved with
  | @deliver i pkt _ _ _ found up _ handled =>
    have server := x pkt.dst
    exact put_inRange (c := (c.take i).bump) x
      (server.move (handle_moves (server.kept up) (bounds pkt found) handled) rfl rfl)
  | drop | tick => exact x
  | @stop i count cut pkt found up =>
    exact put_inRange (c := c.take i) x (.stopIn ((x pkt.dst).kept up) count cut
      fun m shipped => bounds pkt m found shipped)
  | @timeout v save up =>
    exact put_inRange (c := c.bump) x ((x v).move (((x v).kept up).maybeStartElection ..) rfl rfl)
  | @install v m tag up busy idle =>
    obtain ⟨kept, later⟩ := ((x v).kept up).completeInstall busy
    refine put_inRange (c := c.bump) x
      ⟨kept.stored.trans kept.committed, fun _ => kept, fun p running => ?_, fun job found => ?_⟩
    · obtain ⟨member, reaches⟩ := (x v).rounds p running
      exact ⟨later.peers member, reaches.later later⟩
    · cases idle.symm.trans found
  | @crash v _ _ _ left =>
    rcases left with rfl | ⟨m, tag, -, rfl⟩
    · exact put_inRange x (.halt (x v).stored)
    · exact put_inRange x (.halt (le_refl _))
  | @restart v save _ _ base => exact put_inRange x (.rebuild (x v).stored base _ save)
  | spawn =>
    exact put_inRange (c := { c with size := c.size + 1 }) x
      ⟨le_refl _, fun _ => .fresh .., fun _ busy => absurd rfl busy, fun _ job => by cases job⟩
  | ordinary ordinary =>
    cases a <;> first | cases ordinary; done | simp only [System.step] at moved
    case replicate v p => exact act_inRange x (fun server up _ => server.replicate up) moved
    case consume v p save =>
      exact act_inRange x (fun server up _ => server.consume up bounds) moved
    case abandon v p => exact act_inRange x (fun server up _ => server.abandon up) moved
    case scan v p => exact act_inRange x (fun server up _ => server.scan up) moved
    case ship v p => exact act_inRange x (fun server up _ => server.ship up) moved
    -- Proposals and additions change only what their callers are doing.
    case beginCommit | prepare | cancel | beginRemove | pollAdd | expireAdd | promote | wake | pollTransfer =>
      refine act_inRange x (fun server _ o done => ?_) moved
      simp only [Server.beginCommit, Server.prepare, Server.cancel, Server.beginRemove, Server.pollAdd,
        Server.expireAdd, Server.promote, Server.wake, Server.pollTransfer] at done
      repeat' split at done
      all_goals cases done
      all_goals exact server.quiet rfl rfl
    case beginTransfer | abortTransfer =>
      refine act_inRange x (fun server up o done => ?_) moved
      simp only [Server.beginTransfer, Server.abortTransfer] at done
      repeat' split at done
      all_goals cases done
      all_goals exact server.move ((server.kept up).aside rfl) rfl rfl
    case beginAdd v id =>
      split_ifs at moved
      exact act_inRange x (fun server up _ => server.beginAdd up) moved
    case propose v => exact act_inRange x (fun server up _ => server.propose up) moved
    case relinquish v => exact act_inRange x (fun server up _ => server.relinquish up) moved
    case fetch v => exact act_inRange x (fun server _ _ => server.fetch) moved
    case store v => exact act_inRange x (fun server up _ => server.store up) moved
    case finishApply v => exact act_inRange x (fun server up _ => server.finishApply up) moved

theorem init_inRange (settings : Settings) (founders : Nat) :
    ∀ v, ((System.init settings founders).server v).InRange := by
  intro v
  have boots : ∀ (n : Node), n.Kept → n.log = {} → n.nextIndex = (fun _ => 1) → n.matchIndex = (fun _ => 0) →
      n.installing = none → n.bootstrap.Kept := by
    intro n kept log next held free
    -- The bootstrap leader is as good as elected.
    have stood : { n with votedFor := some n.id, disk := ⟨1, some n.id⟩, role := .candidate }.Kept :=
      ⟨kept.base, kept.reached, kept.stored, kept.committed, kept.foreign, (by simp), (by simp [free])⟩
    refine (stood.becomeLeader rfl fun p _ => .inr ?_).kept
    simp [Node.Within, log, next, held, RaftLog.lastIndex]
  have each : ((System.init settings founders).server v).node.Kept := by
    unfold System.init
    dsimp only
    split_ifs
    · exact boots _ (.fresh ..) rfl rfl rfl rfl
    · exact boots _ (.fresh ..) rfl rfl rfl rfl
    · exact ((Node.Kept.fresh v _ _).aside rfl).kept
    · exact ((Node.Kept.fresh v _ _).aside rfl).kept
  exact ⟨each.stored.trans each.committed, fun _ => each, fun _ busy => absurd rfl busy, fun _ job => by cases job⟩

/--
No log access is out of range, as long as no index is taken from outside the log.

No running node panics, and the indices a leader keeps for its peers lie in its log.
-/
theorem indices_in_range {settings : Settings} {founders : Nat} {c : System} {past : List System}
    {events : List Event}
    (run : Run.Reach System.step (fun c a => c.InBounds a) (System.init settings founders) c past events)
    {v : NodeID} (up : (c.node v).up = true) :
    ¬ (c.server v).Panics c.settings ∧ ((c.node v).role = .leader → ∀ p ∈ (c.node v).peers,
      1 ≤ (c.node v).nextIndex p ∧ (c.node v).nextIndex p ≤ (c.node v).log.lastIndex + 1 ∧
        (c.node v).matchIndex p ≤ (c.node v).log.lastIndex) := by
  have all := run.invariant (P := fun c _ _ => ∀ v, (c.server v).InRange)
    (init_inRange settings founders) fun _ _ _ _ _ _ _ bounds moved x => step_inRange x bounds moved
  exact ⟨(all v).safe up c.settings, ((all v).kept up).leading⟩

/-- The condition on a step, as a check that asks for a little more. -/
def boundsCheck (c : System) : Action → Bool
  | .deliver i _ _ => (c.net[i]?).all fun pkt =>
      let n := c.node pkt.dst
      match pkt.msg with
      | .appendEntries m => n.log.agreesUpTo n.commitIndex (m.prevLogIndex + 1) m.entries
      | .requestVoteResponse _ _ _ => n.peers.all fun p => decide (p ∈ n.votingPeers)
      | _ => true
  | .stop _ _ _ => false
  | .consume v p _ => (((c.node v).respCh p).bind fun pkt => pkt.msg.response).all fun resp =>
      decide (resp.conflictHint ≤ (c.node v).log.lastIndex + 1)
  | _ => true

theorem inBounds_of_check {a : Action} (passed : c.boundsCheck a = true) : c.InBounds a := by
  cases a with
  | deliver i saveTerm saveVote =>
    intro pkt found
    simp only [boundsCheck, found, all_some] at passed
    split
    · next m shipped =>
      rw [shipped] at passed
      exact fun _ _ => passed
    · next term voteGranted counted =>
      rw [counted] at passed
      intro _ p member
      exact .inl (of_decide_eq_true (List.all_eq_true.mp passed p member))
    · trivial
  | stop i count cut => cases passed
  | consume v p save =>
    intro pkt resp term prevLogIndex count tag waiting read _ _ _ _ _
    simpa [boundsCheck, waiting, read] using passed
  | _ => trivial

def replicateOnce : List Action :=
  [.beginCommit 0, .prepare 0 [1], .propose 0, .replicate 0 1, .deliver 0 .ok .ok, .deliver 0 .ok .ok,
    .consume 0 1 .ok, .replicate 0 1, .deliver 0 .ok .ok, .deliver 0 .ok .ok, .consume 0 1 .ok]

/-- After such a run nothing is out of range. -/
theorem indices_in_range_replicated : ∃ c past events,
    Run.Reach System.step (fun c a => c.InBounds a) (System.init ⟨0, 0⟩ 3) c past events ∧
    (c.node 0).role = .leader ∧ (c.node 0).matchIndex 1 = 1 ∧ ¬ (c.server 0).Panics c.settings := by
  obtain ⟨c, past, events, run, passed⟩ := Run.exec_exists System.step boundsCheck
    (System.init ⟨0, 0⟩ 3) replicateOnce
    (fun r => decide ((r.1.node 0).role = .leader) && decide ((r.1.node 0).matchIndex 1 = 1) &&
      (r.1.node 0).up) (by rfl)
  have bounds := run.weaken fun _ _ => inBounds_of_check
  simp only [Bool.and_eq_true, decide_eq_true_eq] at passed
  exact ⟨c, past, events, bounds, passed.1.1, passed.1.2, (indices_in_range bounds passed.2).1⟩

/-- The leader of the fourth term replicates to a longer, conflicting log. -/
def shorterLeader : List Action :=
  [.beginCommit 0, .prepare 0 [1], .propose 0,
    .timeout 1 .ok, .deliver 1 .ok .ok, .deliver 1 .ok .ok,
    .beginCommit 1, .prepare 1 [2], .propose 1,
    .deliver 0 .ok .ok, .wake 0,
    .timeout 0 .ok, .deliver 2 .ok .ok, .deliver 2 .ok .ok,
    .beginCommit 0, .prepare 0 [3], .propose 0,
    .deliver 1 .ok .ok, .timeout 1 .ok, .deliver 3 .ok .ok, .deliver 3 .ok .ok,
    .replicate 1 0, .deliver 3 .ok .ok, .deliver 3 .ok .ok, .consume 1 0 .ok]

/-- It follows the rejection to an index behind its own log, and panics. -/
theorem leader_panics : ∃ c past events,
    Run.Reach System.step (fun _ _ => True) (System.init ⟨0, 0⟩ 3) c past events ∧
    (c.node 1).up = true ∧ (c.node 1).role = .leader ∧
    (c.node 1).log.lastIndex + 1 < (c.node 1).nextIndex 0 ∧ (c.server 1).Panics c.settings := by
  obtain ⟨c, past, events, run, passed⟩ := Run.exec_exists System.step (fun _ _ => true)
    (System.init ⟨0, 0⟩ 3) shorterLeader
    (fun r => (r.1.node 1).up && decide ((r.1.node 1).role = .leader) &&
      decide ((r.1.node 1).log.lastIndex + 1 < (r.1.node 1).nextIndex 0) &&
      decide (0 ∈ (r.1.node 1).peers) && decide ((r.1.threads 1).rounds 0 = .idle) &&
      ((r.1.node 1).startRound 0 0).isNone) (by rfl)
  simp only [Bool.and_eq_true, decide_eq_true_eq, isNone_iff_eq_none] at passed
  obtain ⟨⟨⟨⟨⟨up, leads⟩, beyond⟩, member⟩, idle⟩, out⟩ := passed
  exact ⟨c, past, events, run.weaken fun _ _ _ => trivial, up, leads, beyond,
    .sendLoop 0 0 member idle out⟩

end System

end Cluster
