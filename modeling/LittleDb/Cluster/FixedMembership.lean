import LittleDb.Cluster.Works

/-! Runs without membership changes: every node keeps the founding configuration. -/

namespace Cluster

open Function List RaftLog Cluster.System

variable {l : RaftLog} {m : AppendEntries} {n : Node} {pkt : Packet}

/-- A message that carries no other membership than the founding one. -/
def Packet.Plain (size : Nat) (pkt : Packet) : Prop :=
  match pkt.msg with
  | .appendEntries m => ∀ e ∈ m.entries, e.kind = .data
  | .installSnapshot m => m.config = encodeConfig (.fullConfig size)
  | _ => True

/-- A node of the founding configuration, also after any restart. -/
structure Node.Plain (size : Nat) (n : Node) : Prop where
  config : n.config = .fullConfig size
  base : n.baseConfig = .fullConfig size
  entries : ∀ e ∈ n.log.entries, e.kind = .data
  installing : ∀ m tag, n.installing = some (m, tag) →
    m.config = encodeConfig (.fullConfig size)
  peers : ∀ p ∈ n.peers, p < size ∧ p ≠ n.id

structure Server.Plain (size : Nat) (s : Server) : Prop where
  node : s.node.Plain size
  threads : s.threads.Plain

/-- A step whose server and messages keep the founding membership. -/
structure Outcomes.Plain (size : Nat) (o : Outcomes) : Prop where
  server : o.server.Plain size
  sends : ∀ pkt ∈ o.sends, pkt.Plain size

namespace RaftLog

theorem latestConfig_eq_none (plain : ∀ e ∈ l.entries, e.kind = .data) (idx : Nat) : l.latestConfig idx = none := by
  induction idx with
  | zero => rfl
  | succ idx ih =>
    unfold latestConfig
    split_ifs with compacted
    · rfl
    · cases found : l.entryAt (idx + 1) with
      | none => exact ih
      | some e =>
        rw [entryAt, if_neg compacted] at found
        have data := plain e (mem_of_getElem? found)
        simp only [data]
        exact ih

theorem entries_truncateFrom (l : RaftLog) (idx : Nat) : (l.truncateFrom idx).entries ⊆ l.entries := by
  unfold truncateFrom
  split_ifs
  · exact List.Subset.refl _
  · exact take_subset ..
  · exact List.Subset.refl _

theorem mem_appendWindow {idx : Nat} {shipped : List Entry} {e : Entry}
    (member : e ∈ (l.appendWindow idx shipped).1.entries) : e ∈ l.entries ∨ e ∈ shipped := by
  induction shipped generalizing l idx with
  | nil => exact .inl member
  | cons first rest ih =>
    -- Skipped entries leave the log alone, a stored one is added behind what is left.
    have later : ∀ {l' : RaftLog}, l'.entries ⊆ l.entries ++ [first] →
        e ∈ (l'.appendWindow (idx + 1) rest).1.entries → e ∈ l.entries ∨ e ∈ first :: rest := by
      intro l' inside found
      rcases ih found with old | new
      · rcases mem_append.mp (inside old) with older | stored
        · exact .inl older
        · exact .inr (by simp [mem_singleton.mp stored])
      · exact .inr (mem_cons_of_mem _ new)
    unfold appendWindow at member
    split_ifs at member with compacted held
    · exact later (subset_append_left ..) member
    · exact later (subset_append_left ..) member
    · refine later ?_ member
      refine append_subset.mpr ⟨?_, subset_append_right ..⟩
      refine List.Subset.trans ?_ (subset_append_left ..)
      split_ifs
      · exact entries_truncateFrom ..
      · exact List.Subset.refl _

theorem mem_stopInWindow {count : Nat} {cut : Bool} {e : Entry}
    (member : e ∈ (l.stopInWindow m count cut).entries) : e ∈ l.entries ∨ e ∈ m.entries := by
  have stored : ∀ {e}, e ∈ (l.appendWindow (m.prevLogIndex + 1)
      (m.entries.take count)).1.entries → e ∈ l.entries ∨ e ∈ m.entries := by
    intro e found
    rcases mem_appendWindow found with old | new
    · exact .inl old
    · exact .inr (mem_of_mem_take new)
  unfold stopInWindow at member
  dsimp only at member
  split at member
  · split_ifs at member
    · exact stored (entries_truncateFrom _ _ member)
    · exact stored member
  · exact stored member

end RaftLog

namespace Node.Plain

variable {size : Nat}

variable (x : n.Plain size)

include x

theorem configAsOf (idx : Nat) : n.configAsOf idx = .fullConfig size := by
  rw [Node.configAsOf, latestConfig_eq_none x.entries]
  exact x.base

theorem aside {n' : Node} (same : n.Same n') : n'.Plain size where
  config := same.config.trans x.config
  base := same.baseConfig.trans x.base
  entries := same.log ▸ x.entries
  installing := same.installing ▸ x.installing
  peers p listed := by
    rw [same.id]
    rcases same.peers p listed with old | ⟨voting, other⟩
    · exact x.peers p old
    · rw [x.config] at voting
      exact ⟨mem_range.mp voting, other⟩

theorem catchUp (term : Nat) (save : Save) : (n.catchUp term save).Plain size :=
  x.aside (Aside.catchUp n term save).toSame

theorem deferTo (now : Nat) : (n.deferTo now).Plain size :=
  ⟨x.config, x.base, x.entries, x.installing, x.peers⟩

theorem storeEntries (plain : ∀ e ∈ m.entries, e.kind = .data) : (n.storeEntries m).Plain size := by
  have entries : ∀ e ∈ (n.log.appendWindow (m.prevLogIndex + 1) m.entries).1.entries,
      e.kind = .data := by
    intro e member
    rcases mem_appendWindow member with old | new
    · exact x.entries e old
    · exact plain e new
  refine ⟨?_, x.base, entries, x.installing, x.peers⟩
  unfold Node.storeEntries
  dsimp only
  split_ifs
  · rw [Node.deriveConfig, latestConfig_eq_none entries]
    exact x.base
  · exact x.config

theorem handleAppendEntries (now : Nat) (tag : Nat) (save : Save)
    (plain : ∀ e ∈ m.entries, e.kind = .data) : (n.handleAppendEntries now m tag save).node.Plain size := by
  unfold Node.handleAppendEntries
  dsimp only
  split_ifs
  · exact x
  · exact ((x.catchUp m.term save).deferTo now).storeEntries plain
  · exact (x.catchUp m.term save).deferTo now

theorem stopInAppendEntries (count : Nat) (cut : Bool)
    (plain : ∀ e ∈ m.entries, e.kind = .data) : (n.stopInAppendEntries m count cut).Plain size := by
  have caught := x.catchUp m.term .ok
  unfold Node.stopInAppendEntries
  dsimp only
  split_ifs
  · exact x
  · refine ⟨caught.config, caught.base, ?_, caught.installing, caught.peers⟩
    intro e member
    rcases mem_stopInWindow member with old | new
    · exact caught.entries e old
    · exact plain e new
  · exact caught

theorem handleInstallSnapshot (now : Nat) {m : InstallSnapshot} (tag : Nat)
    (save : Save) (plain : m.config = encodeConfig (.fullConfig size)) :
    (n.handleInstallSnapshot now m tag save).node.Plain size := by
  have deferred := (x.catchUp m.term save).deferTo now
  unfold Node.handleInstallSnapshot
  dsimp only
  split_ifs
  · exact x
  · exact deferred
  · refine ⟨deferred.config, deferred.base, deferred.entries, ?_, deferred.peers⟩
    intro m' tag' same
    cases same
    exact plain

theorem maybeCompact {settings : Settings} {n' : Node} (done : n.maybeCompact settings = some n') : n'.Plain size := by
  unfold Node.maybeCompact at done
  split_ifs at done
  · cases done
    exact x
  · split at done
    · cases done
    · cases done
      refine ⟨x.config, x.configAsOf _, ?_, x.installing, x.peers⟩
      intro e member
      unfold RaftLog.compactTo at member
      split_ifs at member
      · exact x.entries e member
      · exact x.entries e (mem_of_mem_drop member)

theorem swapInSnapshot (small : size < 2 ^ 32) {m : InstallSnapshot}
    (plain : m.config = encodeConfig (.fullConfig size)) : (n.swapInSnapshot m).Plain size := by
  refine ⟨x.config, ?_, by simp [Node.swapInSnapshot, RaftLog.resetToBase], x.installing, x.peers⟩
  have fits : (Members.fullConfig size).Fits := by
    refine ⟨by simpa [Members.fullConfig] using small, ?_⟩
    intro id member
    have := mem_range.mp member
    omega
  unfold Node.swapInSnapshot
  dsimp only
  split_ifs
  · exact x.base
  · rw [plain]
    exact decodeConfig_encodeConfig fits

theorem completeInstall (small : size < 2 ^ 32) {m : InstallSnapshot} (tag : Nat)
    (plain : m.config = encodeConfig (.fullConfig size)) : (n.completeInstall m tag).node.Plain size := by
  have swapped := x.swapInSnapshot small plain
  refine ⟨?_, swapped.base, swapped.entries, by simp [Node.completeInstall], swapped.peers⟩
  unfold Node.completeInstall
  dsimp only
  split_ifs
  · exact x.config
  · exact swapped.base

theorem rebuild (save : Save) : (n.rebuild (List.range size) save).Plain size := by
  refine aside ?_ (Aside.persist _ save).toSame
  refine ⟨?_, x.base, x.entries, by simp [Node.fresh], ?_⟩
  · simp only [Node.deriveConfig, latestConfig_eq_none x.entries]
    exact x.base
  · intro p member
    simpa [Node.fresh] using member

end Node.Plain

theorem Packet.From.plain {size : Nat} (x : n.Plain size) (asks : pkt.From n) : pkt.Plain size := by
  unfold Packet.From at asks
  unfold Packet.Plain
  split at asks
  · next isMessage =>
    rw [isMessage]
    exact fun e listed => x.entries e (asks e listed)
  · next isMessage =>
    obtain ⟨idx, config⟩ := asks
    rw [isMessage]
    exact config.trans (congrArg encodeConfig (x.configAsOf idx))
  · next isMessage => rw [isMessage]; trivial
  · next isMessage => rw [isMessage]; trivial
  · exact asks.elim

theorem Server.Plain.turn {size : Nat} {s : Server} {o : Outcomes} {a : Action} (x : s.Plain size)
    (fixed : a.fixedMembership = true) (turn : s.Turn a o) : o.Plain size := by
  -- What is appended was proposed, and no configuration is.
  have entries : ∀ e ∈ o.server.node.log.entries, e.kind = .data := by
    intro e listed
    rcases turn.origin e listed with old | ⟨call, holder, ready⟩
    · exact x.node.entries e old
    · cases kind : e.kind with
      | data => rfl
      | config => exact absurd (kind ▸ ready) (x.threads.proposer call e.data holder)
  have configs : o.server.node.config = .fullConfig size ∧ o.server.node.baseConfig = .fullConfig size := by
    have works := turn.works
    generalize o.server.node = n' at entries works
    cases works with
    | aside same => exact ⟨same.config.trans x.node.config, same.baseConfig.trans x.node.base⟩
    | learn id =>
      obtain ⟨-, config, base, -⟩ := s.node.ensurePeer_keeps id
      exact ⟨config.trans x.node.config, base.trans x.node.base⟩
    | append e leads same =>
      have data : e.kind = .data := entries e (by rw [same.log]; simp [Server.appendOwn, RaftLog.append])
      refine ⟨same.config.trans ?_, same.baseConfig.trans x.node.base⟩
      simp [Server.appendOwn, data, x.node.config]
    | compact settings same done =>
      have compacted := (x.node.aside same.toSame).maybeCompact done
      exact ⟨compacted.config, compacted.base⟩
  obtain ⟨-, -, installing, id, -⟩ := turn.works.keeps
  refine ⟨⟨⟨configs.1, configs.2, entries, installing ▸ x.node.installing, fun p listed => ?_⟩,
    turn.plain fixed x.threads⟩, fun pkt sent => (turn.sends pkt sent).plain x.node⟩
  rw [id]
  rcases turn.peers fixed p listed with old | ⟨voting, other⟩
  · exact x.node.peers p old
  · rw [x.node.config] at voting
    exact ⟨mem_range.mp voting, other⟩

/-- The cluster has its founders and their membership, in messages too. -/
structure Fixed (founders : Nat) (c : System) : Prop where
  size : c.size = founders
  servers : ∀ v, v < founders → (c.server v).Plain founders
  net : ∀ pkt ∈ c.net, pkt.Plain founders

namespace Fixed

variable {size : Nat} {c c' : System} {new : List Event}

theorem put (x : Fixed size c) {v : NodeID} {o : Outcomes} (plain : o.Plain size) : Fixed size (c.put v o) := by
  refine ⟨x.size, ?_, ?_⟩
  · intro w inside
    by_cases same : w = v
    · subst same
      rw [server_put, update_self]
      exact plain.server
    · rw [server_put, update_of_ne same]
      exact x.servers w inside
  · intro pkt member
    rcases mem_append.mp member with old | sent
    · exact x.net pkt old
    · exact plain.sends pkt sent

theorem take (x : Fixed size c) (i : Nat) : Fixed size (c.take i) :=
  ⟨x.size, x.servers, fun pkt member => x.net pkt (eraseIdx_subset member)⟩

theorem bump (x : Fixed size c) : Fixed size c.bump := ⟨x.size, x.servers, x.net⟩

theorem handle (x : n.Plain size) (plain : pkt.Plain size) {saveTerm saveVote : Save}
    {effect : Effect} (handled : c.handle n pkt saveTerm saveVote = some effect) : effect.node.Plain size := by
  unfold Packet.Plain at plain
  rcases handle_cases handled with ⟨m, call, rfl⟩ | ⟨m, call, rfl⟩ | same
  · rw [call] at plain
    exact x.handleAppendEntries c.now pkt.tag saveTerm plain
  · rw [call] at plain
    exact x.handleInstallSnapshot c.now pkt.tag saveTerm plain
  · exact x.aside same

theorem answers (other : (∀ m, pkt.msg ≠ .appendEntries m) ∧ ∀ m, pkt.msg ≠ .installSnapshot m) : pkt.Plain size := by
  unfold Packet.Plain
  split
  · next m call => exact absurd call (other.1 m)
  · next m call => exact absurd call (other.2 m)
  · trivial

theorem halt (x : n.Plain size) : Outcomes.Plain size { server := System.halt n } :=
  ⟨⟨⟨x.config, x.base, x.entries, x.installing, x.peers⟩, ⟨by simp [System.halt], rfl⟩⟩, by simp⟩

/-- A step that changes no membership keeps it fixed. -/
theorem step (x : Fixed size c) (small : ∀ v m, (c.node v).installing = some m → size < 2 ^ 32) {events : List Event}
    (polls : Polls c events) {a : Action} (fixed : a.fixedMembership = true) (moved : c.step a = some (c', new)) :
    Fixed size c' := by
  have inside : ∀ {v}, (c.node v).up = true → v < size := by
    intro v running
    have := polls.started running
    rwa [x.size] at this
  cases System.moves moved with
  | ordinary ordinary =>
    obtain ⟨v, o, running, turn, rfl⟩ := step_turn ordinary moved
    exact x.bump.put ((x.servers v (inside running)).turn fixed turn)
  | @deliver i pkt _ _ _ found running _ handled =>
    have server := x.servers pkt.dst (inside running)
    have plain := handle server.node (x.net pkt (mem_of_getElem? found)) handled
    exact (x.take i).bump.put ⟨⟨plain, server.threads⟩, fun sent listed => answers (handle_sends handled sent listed)⟩
  | @drop i => exact x.take i
  | @stop i count cut pkt found running =>
    have node := (x.servers pkt.dst (inside running)).node
    have plain := x.net pkt (mem_of_getElem? found)
    refine (x.take i).put (halt ?_)
    unfold System.stopIn
    unfold Packet.Plain at plain
    split <;> rename_i isMessage <;> try rw [isMessage] at plain
    · exact node.stopInAppendEntries count cut plain
    · split_ifs
      · exact node
      · exact node.catchUp ..
    · exact node
  | @timeout v save running =>
    have server := x.servers v (inside running)
    exact x.bump.put ⟨⟨server.node.aside (Node.Aside.maybeStartElection ..).toSame, server.threads⟩,
      fun sent listed => answers ((c.node v).maybeStartElection_sends false c.nextTag save sent listed).exchangeless⟩
  -- The shipped configuration is the founding one, so it fits.
  | @install v m tag running busy =>
    have server := x.servers v (inside running)
    exact x.bump.put ⟨⟨server.node.completeInstall (small v _ busy) tag (server.node.installing m tag busy),
      server.threads⟩, by simp [Node.completeInstall, Packet.Plain]⟩
  | @crash v _ _ running left =>
    have node := (x.servers v (inside running)).node
    rcases left with rfl | ⟨m, tag, busy, rfl⟩
    · exact x.put (halt node)
    · exact x.put (halt (node.swapInSnapshot (small v _ busy) (node.installing m tag busy)))
  | @restart v save started =>
    rw [x.size] at started ⊢
    exact x.put ⟨⟨(x.servers v started).node.rebuild save, ⟨by simp, rfl⟩⟩, by simp⟩
  | spawn => cases fixed
  | tick => exact ⟨x.size, x.servers, x.net⟩

end Fixed

end Cluster
