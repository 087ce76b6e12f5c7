import LittleDb.Cluster.Works

/-! The configuration as a function of base and log while the files of the log may fail. -/

namespace Cluster

open Function List Option Bool Members

variable {effect : Effect} {pkt : Packet} {v : NodeID}

def Entry.isConfig (e : Entry) : Bool := decide (e.kind = .config)

/--
Walks through shipped entries up to the first file operation that fails, behind some that succeed.

The flag tells whether a configuration entry was touched; none if no operation is left to fail.
-/
def RaftLog.failWindow (l : RaftLog) (idx ok : Nat) : List Entry → Option (RaftLog × Bool)
  | [] => none
  | e :: rest =>
    if idx ≤ l.baseIndex then l.failWindow (idx + 1) ok rest
    else if idx ≤ l.lastIndex ∧ l.term idx = some e.term then l.failWindow (idx + 1) ok rest
    else
      let conflict := decide (idx ≤ l.lastIndex)
      let kept := if conflict then l.truncateFrom idx else l
      let lost := conflict && (l.entries.drop (idx - l.baseIndex - 1)).any Entry.isConfig
      -- A conflict costs a truncation of the file in front of the append.
      let cost := if conflict then 2 else 1
      if ok < cost then some (if ok = 0 then (l, false) else (kept, lost))
      else ((kept.append e).failWindow (idx + 1) (ok - cost) rest).map fun left =>
        (left.1, lost || e.isConfig || left.2)

namespace Node

/-- What a file error leaves of the log in a replication call. -/
def faultIn (n : Node) (m : AppendEntries) (ok : Nat) : Option (RaftLog × Bool) :=
  if m.term < n.currentTerm ∨ n.log.matchesPrev m.prevLogIndex m.prevLogTerm = false then none
  else n.log.failWindow (m.prevLogIndex + 1) ok m.entries

/-- Replication up to a file error: no configuration is derived any more. -/
def failAppendEntries (n : Node) (now : Nat) (m : AppendEntries) (tag : Nat) (save : Save) (ok : Nat) :
    Option Effect :=
  match n.faultIn m ok with
  | none => none
  | some left =>
    let n := (n.catchUp m.term save).deferTo now
    some { node := { n with log := left.1 }
           sends := [{ dst := m.sender, tag := tag
                       msg := .appendResponse n.id n.currentTerm false 0 (m.prevLogIndex + 1) }] }

/-- A compaction that fails; the base configuration may have been written. -/
def failCompact (n : Node) (settings : Settings) (wrote : Bool) : Option Node :=
  if settings.snapshotThreshold = 0 ∨ n.log.entries.length < settings.snapshotThreshold ∨
      n.lastApplied ≤ n.log.baseIndex then none
  else match n.log.term n.lastApplied with
    | none => none
    | some _ => some (if wrote then { n with baseConfig := n.configAsOf n.lastApplied } else n)

/-- The follower side of a snapshot on a node that is parked. -/
def refuseSnapshot (n : Node) (now : Nat) (m : InstallSnapshot) (tag : Nat) (save : Save) : Effect :=
  let n := if m.term < n.currentTerm then n else (n.catchUp m.term save).deferTo now
  { node := n
    sends := [{ dst := m.sender, tag := tag
                msg := .installSnapshotResponse n.id n.currentTerm false 0 }] }

end Node

namespace Server

/-- The proposal when the file refuses the entry: the caller gets the error. -/
def failPropose (s : Server) : Option Outcomes :=
  match s.threads.proposer with
  | some { call := _, term, purpose := _, stage := .ready _ _ } =>
    if s.node.role ≠ .leader ∨ s.node.currentTerm ≠ term ∨ s.node.transferring then none
    else some { server := s.setProposer none }
  | _ => none

/-- The apply loop records an entry as applied and fails to compact the log. -/
def failApply (s : Server) (settings : Settings) (wrote : Bool) : Option Outcomes :=
  match s.threads.applying with
  | some (.stored idx) =>
    match { s.node with lastApplied := idx }.failCompact settings wrote with
    | none => none
    | some node => some { server := { node := node, threads := { s.threads with applying := none } } }
  | _ => none

/-- The replicator takes an acknowledgement and fails to compact the log. -/
def failConsume (s : Server) (settings : Settings) (p : NodeID) (wrote : Bool) : Option Outcomes := do
  let pkt ← s.node.respCh p
  let resp ← pkt.msg.response
  let n := { s.node with respCh := update s.node.respCh p none }
  match s.threads.rounds p with
  | .append term prevLogIndex count _ =>
    if resp.term ≤ n.currentTerm ∧ n.role = .leader ∧ n.currentTerm = term ∧ resp.success = true then do
      let (n, events) ← (n.onAppendSuccess p (prevLogIndex + count)).maybeAdvanceCommit
      let n ← n.failCompact settings wrote
      some { server := { node := n
                         threads := { s.threads with rounds := update s.threads.rounds p .idle } }
             events := events }
    else none
  | _ => none

end Server

inductive InstallFault where
  /-- The snapshot is staged or its marker written; the old state goes on. -/
  | staging
  /-- Behind the marker and before the log is reset: the node stays parked. -/
  | swapping
  /-- While the marker is removed; the install is complete in memory. -/
  | clearing
  deriving DecidableEq, Repr

structure Faulty where
  sys : System
  /-- The nodes whose install failed behind the point of no return. -/
  parked : NodeID → Bool

namespace Faulty

inductive Act where
  /-- A step in which no file operation of the log fails. -/
  | act (a : Action)
  /-- A replication call in which a file operation fails behind some others. -/
  | failAppend (i ok : Nat) (save : Save)
  /-- The leader cannot append the entry of a proposal. -/
  | failPropose (v : NodeID)
  | failApply (v : NodeID) (wrote : Bool)
  | failConsume (v p : NodeID) (wrote : Bool)
  | failInstall (v : NodeID) (fault : InstallFault)
  | deliverParked (i : Nat) (saveTerm saveVote : Save)
  /-- A stopped node's files hold something else than its memory did. -/
  | reload (v : NodeID) (log : RaftLog) (baseConfig : Members)

def init (settings : Settings) (founders : Nat) : Faulty := ⟨.init settings founders, fun _ => false⟩

/-- A parked node finishes its install at the next start only. -/
def allows (f : Faulty) : Action → Bool
  | .install v => !f.parked v
  | .crash v installed => !f.parked v || installed
  | _ => true

def parkedAfter (f : Faulty) : Action → NodeID → Bool
  | .crash v _ => update f.parked v false
  | _ => f.parked

def answer (f : Faulty) (i : Nat) (v : NodeID) (effect : Effect) : Faulty × List Event :=
  let done : Outcomes := { server := { f.sys.server v with node := effect.node }, sends := effect.sends }
  ({ f with sys := (f.sys.take i).bump.put v done }, effect.events)

/-- A replication call that meets a file error at a node. -/
def failAppend (f : Faulty) (i ok : Nat) (save : Save) : Option (Faulty × List Event) :=
  match f.sys.net[i]? with
  | some { dst, msg := .appendEntries m, tag } =>
    let n := f.sys.node dst
    if n.up ∧ (n.installing = none ∨ f.parked dst) then
      match n.failAppendEntries f.sys.now m tag save ok with
      | none => none
      | some effect => some (f.answer i dst effect)
    else none
  | _ => none

/-- A message on a parked node, whose inbox loop is free again. -/
def deliverParked (f : Faulty) (i : Nat) (saveTerm saveVote : Save) : Option (Faulty × List Event) :=
  match f.sys.net[i]? with
  | none => none
  | some pkt =>
    let n := f.sys.node pkt.dst
    if n.up ∧ f.parked pkt.dst then
      match pkt.msg with
      | .installSnapshot m => some (f.answer i pkt.dst (n.refuseSnapshot f.sys.now m pkt.tag saveTerm))
      | _ =>
        match f.sys.handle n pkt saveTerm saveVote with
        | none => none
        | some effect => some (f.answer i pkt.dst effect)
    else none

/-- An install that fails; the leader hears of it in any case. -/
def failInstall (f : Faulty) (v : NodeID) (fault : InstallFault) : Option (Faulty × List Event) :=
  let s := f.sys.server v
  match s.node.installing with
  | none => none
  | some (m, tag) =>
    let left : Node := match fault with
      | .staging => { s.node with installing := none }
      | .swapping => s.node
      | .clearing => (s.node.completeInstall m tag).node
    let reply : Packet := ⟨m.sender, .installSnapshotResponse s.node.id m.term false 0, tag⟩
    -- The swap waits for the apply loop to be outside an iteration.
    if s.node.up ∧ ¬ f.parked v ∧ (fault = .staging ∨ s.threads.applying = none) then
      some ({ sys := f.sys.bump.put v { server := { s with node := left }, sends := [reply] }
              parked := if fault = .swapping then update f.parked v true else f.parked }, [])
    else none

/-- Lets a goroutine of a running node take a step that meets a file error. -/
def act (f : Faulty) (v : NodeID) (step : Server → Option Outcomes) : Option (Faulty × List Event) :=
  match f.sys.act v step with
  | none => none
  | some (sys, events) => some ({ f with sys := sys }, events)

/-- One step of the cluster, or none when the action is not possible. -/
def step (f : Faulty) : Act → Option (Faulty × List Event)
  | .act a =>
    if f.allows a then
      match f.sys.step a with
      | none => none
      | some (sys, events) => some ({ sys := sys, parked := f.parkedAfter a }, events)
    else none
  | .failAppend i ok save => f.failAppend i ok save
  | .failPropose v => f.act v Server.failPropose
  | .failApply v wrote => f.act v fun s => s.failApply f.sys.settings wrote
  | .failConsume v p wrote => f.act v fun s => s.failConsume f.sys.settings p wrote
  | .failInstall v fault => f.failInstall v fault
  | .deliverParked i saveTerm saveVote => f.deliverParked i saveTerm saveVote
  | .reload v log baseConfig =>
    let found : Node := { f.sys.node v with log := log, baseConfig := baseConfig }
    if (f.sys.node v).up then none
    else some ({ f with sys := f.sys.put v { server := { f.sys.server v with node := found } } }, [])

/-- A file error finds no configuration dropped or appended. -/
def untouched (f : Faulty) : Act → Bool
  | .failAppend i ok _ =>
    match f.sys.net[i]? with
    | some { dst, msg := .appendEntries m, tag := _ } =>
      ((f.sys.node dst).faultIn m ok).all fun left : RaftLog × Bool => !left.2
    | _ => true
  | _ => true

end Faulty

/-! What keeps the configuration a function of base and log. -/

namespace RaftLog

theorem adoptAll_truncateFrom (l : RaftLog) (m : Members) {idx : Nat}
    (plain : ∀ e ∈ l.entries.drop (idx - l.baseIndex - 1), e.kind ≠ .config) :
    m.adoptAll (l.truncateFrom idx).entries = m.adoptAll l.entries := by
  unfold truncateFrom
  split_ifs
  · rfl
  · conv_rhs => rw [← take_append_drop (idx - l.baseIndex - 1) l.entries]
    rw [adoptAll_append, adoptAll_plain _ plain]
  · rfl

theorem adoptAll_push (l : RaftLog) (m : Members) {e : Entry} (plain : e.kind ≠ .config) :
    m.adoptAll (l.append e).entries = m.adoptAll l.entries := by
  show m.adoptAll (l.entries ++ [e]) = _
  rw [adoptAll_concat]
  exact if_neg plain

theorem adoptAll_failWindow (l : RaftLog) (m : Members) (idx ok : Nat) (es : List Entry) {left : RaftLog}
    (failed : l.failWindow idx ok es = some (left, false)) : m.adoptAll left.entries = m.adoptAll l.entries := by
  -- The log that the walk has reached is general, since every append changes it.
  induction es generalizing l idx ok with
  | nil => cases failed
  | cons e rest ih =>
    rw [failWindow] at failed
    by_cases compacted : idx ≤ l.baseIndex
    · rw [if_pos compacted] at failed
      exact ih l (idx + 1) ok failed
    by_cases known : idx ≤ l.lastIndex ∧ l.term idx = some e.term
    · rw [if_neg compacted, if_pos known] at failed
      exact ih l (idx + 1) ok failed
    rw [if_neg compacted, if_neg known] at failed
    dsimp only at failed
    -- What was cut off in front of the entry held no configuration.
    have cut : (decide (idx ≤ l.lastIndex) && (l.entries.drop (idx - l.baseIndex - 1)).any Entry.isConfig) =
        false → m.adoptAll (if decide (idx ≤ l.lastIndex) then l.truncateFrom idx else l).entries =
          m.adoptAll l.entries := by
      intro kept
      split_ifs with conflict
      · rw [conflict, Bool.true_and, List.any_eq_false] at kept
        exact adoptAll_truncateFrom l m fun e dropped config => kept e dropped (decide_eq_true config)
      · rfl
    generalize (if decide (idx ≤ l.lastIndex) = true then l.truncateFrom idx else l) = kept at failed cut
    generalize (decide (idx ≤ l.lastIndex) && (l.entries.drop (idx - l.baseIndex - 1)).any Entry.isConfig) =
      lost at failed cut
    generalize (if decide (idx ≤ l.lastIndex) = true then 2 else 1) = cost at failed
    split_ifs at failed with stops first
    · cases failed
      rfl
    · cases failed
      exact cut rfl
    · obtain ⟨⟨reached, later⟩, inner, equal⟩ := map_eq_some_iff.mp failed
      simp only [Prod.mk.injEq, or_eq_false_iff] at equal
      obtain ⟨rfl, ⟨nothing, plain⟩, rfl⟩ := equal
      calc m.adoptAll reached.entries
          _ = m.adoptAll (kept.append e).entries := ih _ _ _ inner
          _ = m.adoptAll kept.entries := adoptAll_push kept m (of_decide_eq_false plain)
          _ = m.adoptAll l.entries := cut nothing

end RaftLog

namespace Node

/-- A running node's configuration is derived, and its snapshot carries one. -/
structure Derived (n : Node) : Prop where
  config : n.up = true → n.config = n.deriveConfig
  installing : ∀ m tag, n.installing = some (m, tag) → m.config ≠ []

variable {n n' : Node}

theorem Derived.same (derived : n.Derived) (same : n.Same n') : n'.Derived where
  config running := by
    rw [deriveConfig_eq, same.config, same.baseConfig, same.log, ← deriveConfig_eq]
    exact derived.config (same.up ▸ running)
  installing m tag busy := derived.installing m tag (same.installing ▸ busy)

theorem Derived.appendOwn (derived : n.Derived) (e : Entry) : (Server.appendOwn n e).Derived where
  config running := by
    show (if e.kind = .config then decodeConfig e.data else n.config) = _
    rw [derived.config running, deriveConfig_eq, deriveConfig_eq]
    exact (adoptAll_concat ..).symm
  installing := derived.installing

theorem deriveConfig_rebase (n : Node) (idx : Nat) :
    { n with baseConfig := n.configAsOf idx }.deriveConfig = n.deriveConfig := by
  rw [deriveConfig_eq, deriveConfig_eq]
  show (n.configAsOf idx).adoptAll n.log.entries = n.baseConfig.adoptAll n.log.entries
  have parts := take_append_drop (idx - n.log.baseIndex) n.log.entries
  rw [configAsOf_eq]
  generalize n.log.entries.take (idx - n.log.baseIndex) = front at parts
  generalize n.log.entries.drop (idx - n.log.baseIndex) = back at parts
  -- The entries up to the index decide again what they decided before.
  rw [← parts, adoptAll_append, adoptAll_append, adoptAll_again]

section

variable (derived : n.Derived)

include derived

theorem Derived.maybeCompact {settings : Settings} (done : n.maybeCompact settings = some n') : n'.Derived := by
  unfold Node.maybeCompact at done
  split_ifs at done with idle
  · cases done
    exact derived
  · split at done
    · cases done
    · next known =>
      cases done
      refine ⟨fun running => ?_, derived.installing⟩
      -- The new base lies inside the log, which is why its term is known.
      have above : n.log.baseIndex < n.lastApplied := not_le.mp (not_or.mp (not_or.mp idle).2).2
      have inside : n.lastApplied ≤ n.log.lastIndex := by
        rw [RaftLog.term, if_neg (by omega), RaftLog.entryAt, if_neg (by omega), map_eq_some_iff] at known
        obtain ⟨e, found, -⟩ := known
        have bound := (List.getElem?_eq_some_iff.mp found).1
        unfold RaftLog.lastIndex
        omega
      show n.config = _
      rw [derived.config running, deriveConfig_eq, deriveConfig_eq, configAsOf_eq]
      dsimp only
      rw [RaftLog.compactTo, if_neg (by omega), ← adoptAll_append, take_append_drop]

theorem Derived.failCompact {settings : Settings} {wrote : Bool}
    (done : n.failCompact settings wrote = some n') : n'.Derived := by
  unfold Node.failCompact at done
  split_ifs at done <;> split at done
  all_goals cases done
  · refine ⟨fun running => ?_, derived.installing⟩
    rw [deriveConfig_rebase]
    exact derived.config running
  · exact derived

theorem Derived.works (works : n.Works n') : n'.Derived := by
  cases works with
  | aside same => exact derived.same same.toSame
  | learn id =>
    obtain ⟨_, _, _, _, equal, -⟩ := n.ensurePeer_eq id
    rw [equal]
    exact ⟨derived.config, derived.installing⟩
  | append e leads same => exact (derived.appendOwn e).same same.toSame
  | compact settings same done => exact (derived.same same.toSame).maybeCompact done

theorem Derived.deferTo (term now : Nat) (save : Save) : ((n.catchUp term save).deferTo now).Derived :=
  have caught := derived.same (Aside.catchUp n term save).toSame
  ⟨caught.config, caught.installing⟩

theorem Derived.handleAppendEntries (now : Nat) (m : AppendEntries) (tag : Nat)
    (save : Save) : (n.handleAppendEntries now m tag save).node.Derived := by
  have deferred := derived.deferTo m.term now save
  unfold Node.handleAppendEntries
  dsimp only
  split_ifs
  · exact derived
  · generalize (n.catchUp m.term save).deferTo now = follower at deferred
    refine ⟨fun running => ?_, deferred.installing⟩
    show (if (follower.log.appendWindow (m.prevLogIndex + 1) m.entries).2 then _ else _) = _
    split_ifs with touched
    · rfl
    · obtain ⟨extra, longer, data⟩ := appendWindow_untouched (eq_false_iff.mpr touched)
      rw [deferred.config running]
      exact (deriveConfig_append (n := follower) (follower.storeEntries m) rfl longer data).symm
  · exact deferred

theorem Derived.failAppendEntries {now : Nat} {m : AppendEntries} {tag : Nat} {save : Save} {ok : Nat}
    (untouched : ((n.faultIn m ok).all fun left : RaftLog × Bool => !left.2) = true)
    (failed : n.failAppendEntries now m tag save ok = some effect) : effect.node.Derived := by
  unfold Node.failAppendEntries at failed
  split at failed
  · cases failed
  · next left fault =>
    cases failed
    have deferred := derived.deferTo m.term now save
    have plain : left.2 = false := by
      rw [fault, all_some, not_eq_true'] at untouched
      exact untouched
    have walked : n.log.failWindow (m.prevLogIndex + 1) ok m.entries = some (left.1, false) := by
      unfold Node.faultIn at fault
      split_ifs at fault
      rw [fault, ← plain]
    -- Deferring to the leader has changed neither log nor configurations.
    have caught := Aside.catchUp n m.term save
    refine ⟨fun running => ?_, deferred.installing⟩
    have before := deferred.config running
    rw [deriveConfig_eq] at before ⊢
    show (n.catchUp m.term save).config = (n.catchUp m.term save).baseConfig.adoptAll left.1.entries
    rw [RaftLog.adoptAll_failWindow _ _ _ _ _ walked]
    exact before.trans (by rw [show ((n.catchUp m.term save).deferTo now).log = n.log from caught.log]; rfl)

theorem Derived.handleInstallSnapshot (now : Nat) {m : InstallSnapshot} (carries : m.config ≠ []) (tag : Nat)
    (save : Save) : (n.handleInstallSnapshot now m tag save).node.Derived := by
  have deferred := derived.deferTo m.term now save
  unfold Node.handleInstallSnapshot
  dsimp only
  split_ifs
  · exact derived
  · exact deferred
  · refine ⟨deferred.config, fun m' tag' busy => ?_⟩
    cases busy
    exact carries

end

theorem Derived.completeInstall {m : InstallSnapshot} (carries : m.config ≠ []) (tag : Nat) :
    (n.completeInstall m tag).node.Derived where
  config _ := by
    rw [deriveConfig_eq]
    show (if m.config = [] then n.config else if m.config = [] then n.baseConfig else decodeConfig m.config) =
      Members.adoptAll (if m.config = [] then n.baseConfig else decodeConfig m.config) []
    rw [if_neg carries, if_neg carries]
    rfl
  installing _ _ busy := by cases busy

theorem Derived.halt (busy : ∀ m tag, n.installing = some (m, tag) → m.config ≠ []) :
    (System.halt n).node.Derived := ⟨fun running => (by cases running), busy⟩

theorem Derived.fresh (id : NodeID) (peers : List NodeID) (boot : Members) : (Node.fresh id peers boot).Derived :=
  ⟨fun _ => rfl, fun _ _ busy => by cases busy⟩

theorem Derived.rebuild (n : Node) (peers : List NodeID) (save : Save) : (n.rebuild peers save).Derived := by
  unfold Node.rebuild
  refine Derived.same ?_ (Aside.persist _ save).toSame
  exact ⟨fun _ => rfl, fun _ _ busy => by cases busy⟩

end Node

/-- A snapshot message carries a configuration; other messages are free. -/
def Packet.Ships (pkt : Packet) : Prop := ∀ m, pkt.msg = .installSnapshot m → m.config ≠ []

theorem Packet.Ships.of_ne (other : ∀ m, pkt.msg ≠ .installSnapshot m) : pkt.Ships :=
  fun m snapshot => absurd snapshot (other m)

theorem encodeConfig_ne_nil (members : Members) : encodeConfig members ≠ [] := by
  simp [encodeConfig, Bytes.ofNat]

theorem Packet.From.ships {n : Node} (asks : pkt.From n) : pkt.Ships := by
  intro m snapshot
  simp only [Packet.From, snapshot] at asks
  obtain ⟨idx, config⟩ := asks
  rw [config]
  exact encodeConfig_ne_nil _

namespace System

/-- Configurations are derived, and every snapshot carries one. -/
structure Derived (c : System) : Prop where
  nodes : ∀ v, (c.node v).Derived
  net : ∀ pkt ∈ c.net, pkt.Ships

variable {c c' d : System} {new : List Event}

theorem Derived.put (derived : c.Derived) {o : Outcomes} (nodes : d.node = c.node) (net : ∀ pkt ∈ d.net, pkt ∈ c.net)
    (own : o.server.node.Derived) (ships : ∀ pkt ∈ o.sends, pkt.Ships) : (d.put v o).Derived where
  nodes w := by
    rw [node_put, nodes]
    by_cases here : w = v
    · subst here
      rw [update_self]
      exact own
    · rw [update_of_ne here]
      exact derived.nodes w
  net pkt sent := by
    rcases mem_append.mp sent with old | fresh
    · exact derived.net pkt (net pkt old)
    · exact ships pkt fresh

theorem Derived.handle (derived : c.Derived) (ships : pkt.Ships) {saveTerm saveVote : Save}
    (handled : c.handle (c.node v) pkt saveTerm saveVote = some effect) : effect.node.Derived := by
  rcases handle_cases handled with ⟨m, -, rfl⟩ | ⟨m, snapshot, rfl⟩ | same
  · exact (derived.nodes v).handleAppendEntries ..
  · exact (derived.nodes v).handleInstallSnapshot _ (ships m snapshot) ..
  · exact (derived.nodes v).same same

/-- A step without a file error keeps configurations derived. -/
theorem Derived.step (derived : c.Derived) {a : Action} (moved : c.step a = some (c', new)) : c'.Derived := by
  have taken : ∀ {i : Nat}, ∀ pkt ∈ (c.take i).net, pkt ∈ c.net := fun pkt kept => mem_of_mem_eraseIdx kept
  cases moves moved with
  | ordinary ordinary =>
    obtain ⟨v, o, -, turn, rfl⟩ := step_turn ordinary moved
    exact derived.put rfl (fun _ sent => sent) ((derived.nodes v).works turn.works)
      fun pkt sent => (turn.sends pkt sent).ships
  | @deliver _ pkt _ _ _ found _ _ handled =>
    have ships := derived.net pkt (mem_of_getElem? found)
    exact derived.put rfl taken (derived.handle ships handled) fun sent listed =>
      .of_ne (handle_sends handled sent listed).2
  | drop => exact ⟨derived.nodes, fun pkt sent => derived.net pkt (taken pkt sent)⟩
  -- A stopped node derives its configuration when it starts again.
  | @stop _ _ _ pkt =>
    refine derived.put rfl taken (.halt fun m tag busy => ?_) (by simp)
    rw [(stopIn_keeps ..).2] at busy
    exact (derived.nodes pkt.dst).installing m tag busy
  | @timeout v save =>
    exact derived.put rfl (fun _ sent => sent) ((derived.nodes v).same (Node.Aside.maybeStartElection ..).toSame)
      fun pkt sent => .of_ne ((c.node v).maybeStartElection_sends false c.nextTag save pkt sent).exchangeless.2
  | @install v m tag _ busy =>
    refine derived.put rfl (fun _ sent => sent) (.completeInstall ((derived.nodes v).installing m tag busy) tag) ?_
    simp [Packet.Ships, Node.completeInstall]
  | @crash v _ _ _ left =>
    rcases left with rfl | ⟨m, tag, -, rfl⟩
    · exact derived.put rfl (fun _ sent => sent) (.halt (derived.nodes v).installing) (by simp)
    · exact derived.put rfl (fun _ sent => sent) (.halt (derived.nodes v).installing) (by simp)
  | restart => exact derived.put rfl (fun _ sent => sent) (.rebuild ..) (by simp)
  | spawn => exact derived.put rfl (fun _ sent => sent) (.fresh ..) (by simp)
  | tick => exact ⟨derived.nodes, derived.net⟩

theorem Derived.init (settings : Settings) (founders : Nat) : (System.init settings founders).Derived where
  nodes v := by
    unfold System.init System.node
    dsimp only
    generalize (if v < founders then Members.fullConfig founders else .empty) = boot
    have fresh := Node.Derived.fresh v (List.range founders) boot
    split_ifs
    · refine Node.Derived.same ?_ (Node.Aside.bootstrap _).toSame
      exact ⟨fresh.config, fresh.installing⟩
    · exact ⟨fun _ => rfl, fresh.installing⟩
  net := nofun

end System

namespace Faulty

variable {f f' : Faulty} {new : List Event}

theorem act_derived (derived : f.sys.Derived) {step : Server → Option Outcomes}
    (moved : f.act v step = some (f', new))
    (own : ∀ o, step (f.sys.server v) = some o → o.server.node.Derived ∧ o.sends = []) : f'.sys.Derived := by
  unfold Faulty.act at moved
  split at moved
  · cases moved
  · next acted =>
    cases moved
    obtain ⟨-, o, done, rfl, -⟩ := System.act_cases acted
    exact derived.put rfl (fun _ sent => sent) (own o done).1 ((own o done).2 ▸ (by simp))

theorem answer_derived (derived : f.sys.Derived) {i : Nat} (own : effect.node.Derived)
    (ships : ∀ pkt ∈ effect.sends, pkt.Ships) : (f.answer i v effect).1.sys.Derived :=
  derived.put rfl (fun _ kept => mem_of_mem_eraseIdx kept) own ships

theorem step_derived (derived : f.sys.Derived) {a : Act} (untouched : f.untouched a = true)
    (moved : f.step a = some (f', new)) : f'.sys.Derived := by
  cases a <;> simp only [Faulty.step] at moved
  case act a =>
    split_ifs at moved
    split at moved
    · cases moved
    · next stepped =>
      cases moved
      exact derived.step stepped
  case failAppend i ok save =>
    unfold Faulty.failAppend at moved
    split at moved
    · next dst m tag found =>
      dsimp only at moved
      split_ifs at moved
      split at moved
      · cases moved
      · next effect failed =>
        cases moved
        -- The entries stored before the error hold no configuration.
        have plain : (((f.sys.node dst).faultIn m ok).all fun left : RaftLog × Bool => !left.2) = true := by
          simpa only [Faulty.untouched, found] using untouched
        refine answer_derived derived ((derived.nodes dst).failAppendEntries plain failed) ?_
        unfold Node.failAppendEntries at failed
        split at failed
        · cases failed
        · cases failed
          simp [Packet.Ships]
    · cases moved
  case failPropose v =>
    refine act_derived derived moved fun o done => ?_
    unfold Server.failPropose at done
    split at done
    · split_ifs at done
      cases done
      exact ⟨derived.nodes v, rfl⟩
    · cases done
  case failApply v wrote =>
    refine act_derived derived moved fun o done => ?_
    unfold Server.failApply at done
    split at done
    · split at done
      · cases done
      · next compacted =>
        cases done
        refine ⟨Node.Derived.failCompact ?_ compacted, rfl⟩
        exact ⟨(derived.nodes v).config, (derived.nodes v).installing⟩
    · cases done
  case failConsume v p wrote =>
    refine act_derived derived moved fun o done => ?_
    unfold Server.failConsume at done
    obtain ⟨pkt, -, rest⟩ := bind_eq_some_iff.mp done
    obtain ⟨resp, -, last⟩ := bind_eq_some_iff.mp rest
    dsimp only at last
    split at last
    · split_ifs at last
      obtain ⟨⟨advanced, events⟩, commit, more⟩ := bind_eq_some_iff.mp last
      obtain ⟨left, compacted, result⟩ := bind_eq_some_iff.mp more
      cases result
      refine ⟨Node.Derived.failCompact (Node.Derived.same ?_ (Node.Aside.maybeAdvanceCommit commit).toSame) compacted, rfl⟩
      exact ⟨(derived.nodes v).config, (derived.nodes v).installing⟩
    · cases last
  case failInstall v fault =>
    unfold Faulty.failInstall at moved
    dsimp only at moved
    split at moved
    · cases moved
    · next m tag busy =>
      have own := derived.nodes v
      have carries := own.installing m tag busy
      rw [ite_none_right_eq_some] at moved
      obtain ⟨-, result⟩ := moved
      cases result
      refine derived.put rfl (fun _ sent => sent) ?_ (by simp [Packet.Ships])
      -- Only an install that fails at its very end has changed the node.
      cases fault with
      | staging => exact ⟨own.config, fun _ _ installs => by cases installs⟩
      | swapping => exact own
      | clearing => exact .completeInstall carries tag
  case deliverParked i saveTerm saveVote =>
    unfold Faulty.deliverParked at moved
    split at moved
    · cases moved
    · next pkt found =>
      have ships := derived.net pkt (mem_of_getElem? found)
      dsimp only at moved
      split_ifs at moved
      split at moved
      · cases moved
        refine answer_derived derived ?_ ?_
        · unfold Node.refuseSnapshot
          dsimp only
          split_ifs
          · exact derived.nodes pkt.dst
          · exact (derived.nodes pkt.dst).deferTo ..
        · simp [Packet.Ships, Node.refuseSnapshot]
      · split at moved
        · cases moved
        · next handled =>
          cases moved
          exact answer_derived derived (derived.handle ships handled) fun sent listed => .of_ne (System.handle_sends handled sent listed).2
  case reload v log baseConfig =>
    split_ifs at moved with running
    cases moved
    refine derived.put rfl (fun _ sent => sent) ?_ (by simp)
    exact ⟨fun up => absurd up running, (derived.nodes v).installing⟩

/--
The configuration of a running node follows from its base configuration and its log, whatever files fail.

No file error hits a call that has already dropped or appended a configuration entry.
-/
theorem config_derived {settings : Settings} {founders : Nat} {f : Faulty} {past : List Faulty}
    {events : List Event}
    (run : Run.Reach Faulty.step (fun f a => f.untouched a = true) (.init settings founders) f past events)
    (v : NodeID) (running : (f.sys.node v).up = true) :
    (f.sys.node v).config = (f.sys.node v).deriveConfig := by
  have derived : f.sys.Derived := by
    refine run.invariant (P := fun f _ _ => f.sys.Derived) (.init settings founders) ?_
    intro f a f' past events new _ untouched moved derived
    exact step_derived derived untouched moved
  exact (derived.nodes v).config running

/-- Of two nodes the leader removes the other, then commits an own entry. -/
def removing : List Act :=
  [.act (.beginRemove 0 1), .act (.propose 0), .act (.fetch 0), .act (.store 0), .act (.finishApply 0),
    .act (.wake 0), .act (.beginCommit 0), .act (.prepare 0 []), .act (.propose 0), .act (.replicate 0 1)]

/-- An error of the first append leaves what the log implies. -/
theorem config_derived_refused : ∃ f past events,
    Run.Reach Faulty.step (fun f a => f.untouched a = true) (.init ⟨10, 0⟩ 2) f past events ∧
    (f.sys.node 1).log.entries = [] ∧ (f.sys.node 1).config = (f.sys.node 1).deriveConfig := by
  obtain ⟨f, past, events, run, tested⟩ := Run.exec_exists Faulty.step Faulty.untouched (.init ⟨10, 0⟩ 2)
    (removing ++ [.failAppend 0 0 .ok])
    (fun r => decide ((r.1.sys.node 1).up = true ∧ (r.1.sys.node 1).log.entries = [])) (by rfl)
  obtain ⟨running, empty⟩ := of_decide_eq_true tested
  exact ⟨f, past, events, run, empty, config_derived run 1 running⟩

/-- The second append fails, and the node keeps its old configuration. -/
theorem config_forgotten : ∃ f past events,
    Run.Reach Faulty.step (fun _ _ => True) (.init ⟨10, 0⟩ 2) f past events ∧
    (f.sys.node 1).up = true ∧ (f.sys.node 1).log = (f.sys.node 0).log ∧
    (f.sys.node 1).deriveConfig.ids = [0] ∧ (f.sys.node 1).config.ids = [0, 1] := by
  obtain ⟨f, past, events, run, tested⟩ := Run.exec_exists Faulty.step (fun _ _ => true) (.init ⟨10, 0⟩ 2)
    (removing ++ [.failAppend 0 1 .ok, .act (.deliver 0 .ok .ok), .act (.consume 0 1 .ok),
      .act (.replicate 0 1), .act (.deliver 0 .ok .ok)])
    (fun r => decide ((r.1.sys.node 1).up = true ∧ (r.1.sys.node 1).log = (r.1.sys.node 0).log ∧
      (r.1.sys.node 1).log.entries.length = 2 ∧
      (r.1.sys.node 1).deriveConfig.ids = [0] ∧ (r.1.sys.node 1).config.ids = [0, 1])) (by rfl)
  obtain ⟨running, same, -, implied, kept⟩ := of_decide_eq_true tested
  exact ⟨f, past, events, run.weaken fun _ _ _ => trivial, running, same, implied, kept⟩

end Faulty

end Cluster
