import LittleDb.Cluster.Works
import Mathlib.Data.List.Perm.Basic

/-! The inbox loop: a reply waits for its one-slot channel, which only a second outstanding reply can make it do. -/

namespace Cluster

open Function List Option Node Cluster.System

variable {pkt : Packet} {o : Outcomes}

/-- The exchange of a message: the node that asked and the peer asked. -/
def Packet.exchange (pkt : Packet) : Option (NodeID × NodeID) :=
  match pkt.msg with
  | .appendEntries m => some (m.sender, pkt.dst)
  | .installSnapshot m => some (m.sender, pkt.dst)
  | .appendResponse sender _ _ _ _ => some (pkt.dst, sender)
  | .installSnapshotResponse sender _ _ _ => some (pkt.dst, sender)
  | _ => none

def flying (net : List Packet) (v p : NodeID) : Nat :=
  net.countP fun pkt => decide (pkt.exchange = some (v, p))

/-- The number of replies a node owes for the snapshot it is installing. -/
def Node.answering (n : Node) (v : NodeID) : Nat :=
  if n.up && n.installing.any (fun job => decide (job.1.sender = v)) then 1 else 0

/-- The replies of a peer in its channel, which a stopped node does not have. -/
def Node.received (n : Node) (p : NodeID) : Nat :=
  if n.up && (n.respCh p).isSome then 1 else 0

/-- The requests and replies of an exchange, up to the channel. -/
def System.load (c : System) (v p : NodeID) : Nat :=
  flying c.net v p + (c.node p).answering v + (c.node v).received p

/-- A cluster with the reply each loop holds until the full channel is empty. -/
structure Looped where
  sys : System
  /-- The reply the inbox loop of a node is blocked on. -/
  held : NodeID → Option Packet

namespace Looped

/-- What can happen to the cluster and its inbox loops. -/
inductive Act where
  | act (a : Action)
  /-- An inbox loop takes a reply for a full channel. -/
  | block (i : Nat)
  | unblock (v : NodeID)
  deriving DecidableEq, Repr

def init (settings : Settings) (founders : Nat) : Looped where
  sys := System.init settings founders
  held _ := none

/-- The inbox loop that has to take a message for the action is not blocked. -/
def free (l : Looped) : Action → Bool
  | .deliver i _ _ | .stop i _ _ => (l.sys.net[i]?).all fun pkt => (l.held pkt.dst).isNone
  | _ => true

/-- What the loops hold after a step: a crash ends the loop of its node. -/
def release (held : NodeID → Option Packet) : Action → NodeID → Option Packet
  | .crash v _ => update held v none
  | _ => held

/-- A loop takes a reply whose channel is full. -/
def block (l : Looped) (i : Nat) : Option Looped :=
  match l.sys.net[i]? with
  | none => none
  | some pkt =>
    let n := l.sys.node pkt.dst
    match pkt.msg.replier with
    | none => none
    | some p =>
      if n.up ∧ n.installing = none ∧ l.held pkt.dst = none ∧ p ∈ n.peers ∧ (n.respCh p).isSome then
        some { sys := l.sys.take i, held := update l.held pkt.dst (some pkt) }
      else none

/-- A blocked loop puts its reply into the channel that has become empty. -/
def unblock (l : Looped) (v : NodeID) : Option Looped :=
  match l.held v with
  | none => none
  | some pkt =>
    match pkt.msg.replier with
    | none => none
    | some p =>
      let s := l.sys.server v
      if s.node.up ∧ (s.node.respCh p).isNone then
        some { sys := l.sys.put v { server := { s with node := { s.node with
                 respCh := update s.node.respCh p (some pkt) } } }
               held := update l.held v none }
      else none

def step (l : Looped) : Act → Option (Looped × List Event)
  | .act a =>
    if l.free a then
      (l.sys.step a).map fun (c, events) => ({ sys := c, held := release l.held a }, events)
    else none
  | .block i => (l.block i).map fun l => (l, [])
  | .unblock v => (l.unblock v).map fun l => (l, [])

/-- A follower whose loop is blocked sending into a full channel. -/
def Wedged (l : Looped) (v : NodeID) : Prop :=
  (l.sys.node v).up = true ∧ (l.sys.node v).role ≠ .leader ∧ ∃ pkt p, l.held v = some pkt ∧
    pkt.msg.replier = some p ∧ ((l.sys.node v).respCh p).isSome

/-- A leader ships to a peer only when nothing of the exchange is left. -/
def Prompt (l : Looped) : Act → Prop
  | .act (.replicate v p) => (l.sys.node v).role = .leader →
      (l.sys.node v).log.baseIndex < (l.sys.node v).nextIndex p → l.sys.load v p = 0
  | .act (.ship v p) => (l.sys.node v).role = .leader → l.sys.load v p = 0
  | _ => True

instance (l : Looped) : DecidablePred l.Prompt := fun a => by
  unfold Prompt
  split <;> infer_instance

end Looped

/-! ### Counting the messages of an exchange -/

@[simp] theorem flying_append (xs ys : List Packet) (v p : NodeID) :
    flying (xs ++ ys) v p = flying xs v p + flying ys v p :=
  countP_append

@[simp] theorem flying_nil (v p : NodeID) : flying [] v p = 0 := rfl

theorem flying_singleton (pkt : Packet) (v p : NodeID) :
    flying [pkt] v p = if pkt.exchange = some (v, p) then 1 else 0 := by
  simp [flying, countP_cons]

theorem flying_silent {sends : List Packet} (silent : ∀ pkt ∈ sends, pkt.exchange = none) (v p : NodeID) :
    flying sends v p = 0 := by
  refine countP_eq_zero.mpr fun pkt member => ?_
  simp [silent pkt member]

theorem flying_take {net : List Packet} {i : Nat} (found : net[i]? = some pkt)
    (v p : NodeID) : flying net v p = flying (net.eraseIdx i) v p + flying [pkt] v p := by
  obtain ⟨inside, rfl⟩ := List.getElem?_eq_some_iff.mp found
  have moved := (getElem_cons_eraseIdx_perm inside).countP_eq fun pkt => decide (pkt.exchange = some (v, p))
  rw [flying, ← moved, ← singleton_append, countP_append, add_comm]
  rfl

theorem Packet.exchange_reply {p : NodeID} (reply : pkt.msg.replier = some p) : pkt.exchange = some (pkt.dst, p) := by
  unfold Message.replier at reply
  unfold Packet.exchange
  split at reply <;> simp_all

/-! ### What one server adds to the exchanges -/

/-- What a server holds of an exchange: a reply it owes, one in its channel. -/
def Server.share (v : NodeID) (s : Server) (w p : NodeID) : Nat :=
  (if p = v then s.node.answering w else 0) + if w = v then s.node.received p else 0

/-- A step takes messages and leaves, of each exchange, no more than it took. -/
structure Server.Balanced (v : NodeID) (s : Server) (taken : List Packet) (o : Outcomes) : Prop where
  id : o.server.node.id = s.node.id
  balance : ∀ w p, flying o.sends w p + o.server.share v w p ≤ flying taken w p + s.share v w p

theorem Packet.Election.exchange (election : pkt.Election) : pkt.exchange = none := by
  unfold Packet.Election at election
  unfold Packet.exchange
  split at election <;> simp_all

/-- A step of a node that changes none of its exchanges. -/
structure Node.Quiet (n n' : Node) : Prop where
  id : n'.id = n.id
  up : n'.up = n.up
  installing : n'.installing = n.installing
  replies : ∀ p, n'.respCh p = n.respCh p ∨ n'.respCh p = none

namespace Node

variable {n n' : Node}

theorem Works.quiet (works : n.Works n') : n.Quiet n' :=
  have ⟨up, _, installing, id, replies⟩ := works.keeps
  ⟨id, up, installing, replies⟩

theorem Aside.quiet (aside : n.Aside n') : n.Quiet n' := (Works.aside aside).quiet

theorem Quiet.deferTo (n : Node) (term now : Nat) (save : Save) : n.Quiet ((n.catchUp term save).deferTo now) :=
  have caught := (Aside.catchUp n term save).quiet
  ⟨caught.id, caught.up, caught.installing, caught.replies⟩

theorem Quiet.answering (quiet : n.Quiet n') (v : NodeID) : n'.answering v = n.answering v := by
  rw [Node.answering, quiet.up, quiet.installing, Node.answering]

theorem Quiet.received (quiet : n.Quiet n') (p : NodeID) : n'.received p ≤ n.received p := by
  unfold Node.received
  rw [quiet.up]
  rcases quiet.replies p with same | empty
  · rw [same]
  · simp [empty]

theorem Quiet.balanced {s : Server} {v : NodeID} {taken : List Packet}
    (quiet : s.node.Quiet o.server.node) (silent : ∀ pkt ∈ o.sends, pkt.Election) : s.Balanced v taken o := by
  refine ⟨quiet.id, fun w p => ?_⟩
  have fewer := quiet.received p
  simp only [Server.share, flying_silent fun pkt sent => (silent pkt sent).exchange, quiet.answering]
  split_ifs <;> omega

end Node

structure Node.Blank (n : Node) (v : NodeID) : Prop where
  id : n.id = v
  installing : n.installing = none
  respCh : n.respCh = fun _ => none

namespace Node.Blank

variable {n : Node} {v : NodeID}

theorem answering (blank : n.Blank v) (w : NodeID) : n.answering w = 0 := by
  simp [Node.answering, blank.installing]

theorem received (blank : n.Blank v) (p : NodeID) : n.received p = 0 := by
  simp [Node.received, blank.respCh]

theorem fresh (id : NodeID) (peers : List NodeID) (boot : Members) : (Node.fresh id peers boot).Blank id :=
  ⟨rfl, rfl, rfl⟩

theorem rebuild (n : Node) (peers : List NodeID) (save : Save) : (n.rebuild peers save).Blank n.id := by
  unfold Node.rebuild Node.persist
  dsimp only
  split_ifs <;> exact ⟨rfl, rfl, rfl⟩

theorem bootstrap (blank : n.Blank v) : n.bootstrap.Blank v := by
  have led := Node.Aside.bootstrap n
  refine ⟨led.id.trans blank.id, led.installing.trans blank.installing, funext fun p => ?_⟩
  rcases led.replies p with same | empty
  · exact same.trans (congrFun blank.respCh p)
  · exact empty

end Node.Blank

/-! ### The steps of a server -/

namespace Server.Balanced

variable {s : Server} {v : NodeID}

variable {p : NodeID} {sends : List Packet} {events : List Event} {tag : Nat} {n' : Node} {m : InstallSnapshot}

theorem taken {threads : Threads}
    (quiet : { s.node with respCh := update s.node.respCh p none }.Quiet n') (silent : sends = []) :
    s.Balanced v [] { server := { node := n', threads := threads }, sends := sends, events := events } := by
  refine Node.Quiet.balanced ⟨quiet.id, quiet.up, quiet.installing, fun q => ?_⟩ (by simp [silent])
  rcases quiet.replies q with same | empty
  · rw [same]
    by_cases here : q = p <;> simp [here]
  · exact .inr empty

theorem consume {settings : Settings} {save : Save} (done : s.consume settings p save = some o) : s.Balanced v [] o := by
  unfold Server.consume at done
  simp only [bind_eq_bind, bind_eq_some_iff] at done
  obtain ⟨pkt, _, resp, _, done⟩ := done
  split at done
  · obtain ⟨effect, finished, done⟩ := bind_eq_some_iff.mp done
    cases done
    obtain ⟨silent, aside | ⟨m, aside, compact⟩⟩ := Node.Aside.finishRound (.refl _) finished
    · exact taken aside.quiet silent
    · exact taken (Node.Works.compact settings aside compact).quiet silent
  · cases done
    refine taken (Node.Aside.finishSnapshot ..).quiet ?_
    unfold Node.finishSnapshot
    split_ifs <;> rfl
  · cases done

theorem install (own : s.node.id = v) (up : s.node.up = true) (busy : s.node.installing = some (m, tag)) :
    s.Balanced v [] { server := { s with node := (s.node.completeInstall m tag).node }
                      sends := (s.node.completeInstall m tag).sends, events := events } := by
  refine ⟨rfl, fun w p => ?_⟩
  have sent : flying (s.node.completeInstall m tag).sends w p = if m.sender = w ∧ v = p then 1 else 0 := by
    simp [Node.completeInstall, flying_singleton, Packet.exchange, own]
  have owed : s.node.answering w = if m.sender = w then 1 else 0 := by
    simp [Node.answering, busy, up]
  have paid : (s.node.completeInstall m tag).node.answering w = 0 := by
    simp [Node.answering, Node.completeInstall]
  have kept : (s.node.completeInstall m tag).node.received p = s.node.received p := rfl
  simp only [Server.share, flying_nil, sent, owed, paid, kept]
  by_cases here : p = v
  · simp only [here, and_true, if_true]
    split_ifs <;> omega
  · simp only [here, Ne.symm here, and_false, if_false]
    split_ifs <;> omega

theorem answer {reply : Packet} {u : NodeID}
    (quiet : s.node.Quiet n') (asked : pkt.exchange = some (u, v)) (replied : reply.exchange = some (u, v)) :
    s.Balanced v [pkt] { server := { s with node := n' }, sends := [reply], events := events } := by
  have silent : s.Balanced v [] ⟨⟨n', s.threads⟩, [], events⟩ := quiet.balanced (by simp)
  refine ⟨quiet.id, fun w p => ?_⟩
  have rest := silent.balance w p
  simp only [flying_singleton, asked, replied, flying_nil] at rest ⊢
  omega

theorem park (up : s.node.up = true) (free : s.node.installing = none) (asked : pkt.exchange = some (m.sender, v))
    (quiet : s.node.Quiet n') (tag : Nat) :
    s.Balanced v [pkt] { server := { s with node := { n' with installing := some (m, tag) } }
                         events := events } := by
  refine ⟨quiet.id, fun w p => ?_⟩
  have owed : Node.answering { n' with installing := some (m, tag) } w = if m.sender = w then 1 else 0 := by
    simp [Node.answering, quiet.up, up]
  have none : s.node.answering w = 0 := by simp [Node.answering, free]
  have fewer : Node.received { n' with installing := some (m, tag) } p ≤ s.node.received p := quiet.received p
  simp only [Server.share, flying_singleton, asked, flying_nil, owed, none, Option.some.injEq, Prod.mk.injEq]
  by_cases here : p = v
  · simp only [here, and_true, if_true] at fewer ⊢
    split_ifs <;> omega
  · simp only [here, if_false]
    split_ifs <;> omega

theorem deposit (asked : pkt.exchange = some (v, p)) :
    s.Balanced v [pkt] { server := { s with node := { s.node with
      respCh := update s.node.respCh p (some pkt) } }, events := events } := by
  refine ⟨rfl, fun w q => ?_⟩
  have same : Node.answering { s.node with respCh := update s.node.respCh p (some pkt) } w = s.node.answering w := rfl
  simp only [Server.share, flying_singleton, asked, flying_nil, same, Option.some.injEq, Prod.mk.injEq]
  by_cases here : q = p
  · subst here
    simp only [and_true, Node.received, update_self]
    by_cases own : w = v
    · simp only [own, if_true]
      split_ifs <;> omega
    · simp only [own, Ne.symm own, if_false]
      omega
  · simp only [Node.received, update_of_ne here]
    omega

theorem handleAppendEntries (own : s.node.id = v) {m : AppendEntries} (now : Nat) (save : Save)
    (asked : pkt.exchange = some (m.sender, v)) :
    let effect := s.node.handleAppendEntries now m pkt.tag save
    s.Balanced v [pkt] { server := { s with node := effect.node }, sends := effect.sends } := by
  have deferred := Node.Quiet.deferTo s.node m.term now save
  have id : (s.node.catchUp m.term save).id = v := deferred.id.trans own
  have stored : s.node.Quiet (((s.node.catchUp m.term save).deferTo now).storeEntries m) :=
    ⟨deferred.id, deferred.up, deferred.installing, deferred.replies⟩
  unfold Node.handleAppendEntries
  dsimp only
  split_ifs
  · exact answer (Node.Aside.refl _).quiet asked (by simp [Packet.exchange, own])
  · exact answer stored asked (by simp [Packet.exchange, Node.storeEntries, Node.deferTo, id])
  · exact answer deferred asked (by simp [Packet.exchange, Node.deferTo, id])

theorem handleInstallSnapshot (own : s.node.id = v) (up : s.node.up = true) (free : s.node.installing = none)
    (now : Nat) (save : Save) (asked : pkt.exchange = some (m.sender, v)) :
    let effect := s.node.handleInstallSnapshot now m pkt.tag save
    s.Balanced v [pkt] { server := { s with node := effect.node }, sends := effect.sends } := by
  have deferred := Node.Quiet.deferTo s.node m.term now save
  have id : (s.node.catchUp m.term save).id = v := deferred.id.trans own
  unfold Node.handleInstallSnapshot
  dsimp only
  split_ifs
  · exact answer (Node.Aside.refl _).quiet asked (by simp [Packet.exchange, own])
  · exact answer deferred asked (by simp [Packet.exchange, Node.deferTo, id])
  · exact park up free asked deferred pkt.tag

theorem handle {c : System} {saveTerm saveVote : Save} {effect : Effect} (own : s.node.id = v)
    (up : s.node.up = true) (free : s.node.installing = none) (here : pkt.dst = v)
    (handled : c.handle s.node pkt saveTerm saveVote = some effect) :
    s.Balanced v [pkt] { server := { s with node := effect.node }, sends := effect.sends } := by
  unfold System.handle at handled
  split at handled
  · next m isMessage =>
    cases handled
    exact handleAppendEntries own c.now saveTerm (by simp [Packet.exchange, isMessage, here])
  · cases handled
    exact (Node.Aside.handleRequestVote ..).quiet.balanced (handleRequestVote_sends _ _ _ _ _ _ _)
  · cases handled
    exact (Node.Aside.handleVoteResponse ..).quiet.balanced (by simp [handleVoteResponse_sends])
  · cases handled
    exact (Node.Aside.handleTimeoutNow ..).quiet.balanced (handleTimeoutNow_sends _ _ _ _)
  · next m isMessage =>
    cases handled
    exact handleInstallSnapshot own up free c.now saveTerm (by simp [Packet.exchange, isMessage, here])
  all_goals
    next isMessage =>
    split_ifs at handled <;> cases handled
    · exact deposit (by simp [Packet.exchange, isMessage, here])
    · exact Node.Quiet.balanced (Node.Aside.refl s.node).quiet (by simp)

end Server.Balanced

/-! ### The exchanges of the cluster -/

/-- No exchange has more than one message. -/
structure System.Tokens (c : System) : Prop where
  ids : ∀ v, (c.node v).id = v
  single : ∀ v p, c.load v p ≤ 1

namespace System.Tokens

variable {c c' : System} {new : List Event}

theorem load_put (c : System) (v : NodeID) (o : Outcomes) (w p : NodeID) :
    (c.put v o).load w p + (c.server v).share v w p = c.load w p + flying o.sends w p + o.server.share v w p := by
  simp only [System.load, node_put, net_put, flying_append, Server.share]
  by_cases here : p = v
  · by_cases own : w = v
    · subst here own
      simp only [update_self, if_true, System.node]
      omega
    · subst here
      simp only [update_self, update_of_ne own, own, if_true, if_false, System.node]
      omega
  · by_cases own : w = v
    · subst own
      simp only [update_self, update_of_ne here, here, if_true, if_false, System.node]
      omega
    · simp only [update_of_ne here, update_of_ne own, here, own, if_false]
      omega

theorem ids_put (ids : ∀ w, (c.node w).id = w) {v : NodeID} (own : o.server.node.id = v) (w : NodeID) :
    ((c.put v o).node w).id = w := by
  rw [node_put]
  by_cases same : w = v
  · subst same
    rw [update_self, own]
  · rw [update_of_ne same]
    exact ids w

variable {v p : NodeID}

section

variable (t : c.Tokens)

include t

theorem balanced {taken : List Packet} {rest : System} (balanced : (c.server v).Balanced v taken o)
    (servers : rest.server = c.server) (off : ∀ w p, flying c.net w p = flying rest.net w p + flying taken w p) :
    (rest.put v o).Tokens := by
  have nodes : rest.node = c.node := by
    funext w
    rw [System.node, System.node, servers]
  refine ⟨ids_put (nodes ▸ t.ids) (balanced.id.trans (t.ids v)), fun w p => ?_⟩
  have changed := load_put rest v o w p
  have kept := balanced.balance w p
  have before := t.single w p
  rw [servers] at changed
  simp only [System.load, nodes, off w p] at changed before ⊢
  omega

/-- A replicator may ask when nothing of its exchange is under way. -/
theorem ask {f : Server → Option Outcomes} (asks : ∀ o, f (c.server v) = some o → o.server.node = c.node v ∧
      (o.sends = [] ∨ c.load v p = 0 ∧ ∃ pkt, o.sends = [pkt] ∧ pkt.exchange = some (v, p)))
    (moved : c.act v f = some (c', new)) : c'.Tokens := by
  obtain ⟨_, o, done, rfl, _⟩ := act_cases moved
  obtain ⟨node, sent⟩ := asks o done
  refine ⟨ids_put t.ids (node ▸ t.ids v), fun w q => ?_⟩
  have changed : (c.bump.put v o).load w q + (c.server v).share v w q =
      c.load w q + flying o.sends w q + o.server.share v w q := load_put c.bump v o w q
  have before := t.single w q
  have same : o.server.share v w q = (c.server v).share v w q := by
    rw [Server.share, node]
    rfl
  rw [same, Nat.add_right_cancel_iff] at changed
  rw [changed]
  rcases sent with none | ⟨idle, pkt, one, exchange⟩
  · rw [none]
    exact before
  · rw [one, flying_singleton, exchange]
    split_ifs with here
    · cases here
      exact le_of_eq (congrArg (· + 1) idle)
    · exact before

theorem act {f : Server → Option Outcomes}
    (keeps : (c.server v).node.id = v → (c.server v).node.up = true → ∀ o, f (c.server v) = some o →
      (c.server v).Balanced v [] o)
    (moved : c.act v f = some (c', new)) : c'.Tokens := by
  obtain ⟨up, o, done, rfl, _⟩ := act_cases moved
  exact t.balanced (keeps (t.ids v) up o done) rfl fun _ _ => rfl

theorem replace {s : Server} (id : s.node.id = v) (free : ∀ w, s.node.answering w = 0)
    (empty : ∀ p, s.node.received p = 0) : (c.put v { server := s }).Tokens := by
  refine ⟨ids_put t.ids id, fun w p => ?_⟩
  have changed := load_put c v { server := s } w p
  have before := t.single w p
  have none : s.share v w p = 0 := by simp [Server.share, free, empty]
  simp only [flying_nil, none] at changed
  omega

theorem halt {n : Node} (id : n.id = v) : (c.put v { server := System.halt n }).Tokens :=
  t.replace id (fun _ => rfl) fun _ => rfl

theorem lose (i : Nat) : (c.take i).Tokens := by
  refine ⟨t.ids, fun w p => (?_ : _ ≤ c.load w p).trans (t.single w p)⟩
  have fewer : flying (c.take i).net w p ≤ flying c.net w p := (eraseIdx_sublist ..).countP_le
  exact Nat.add_le_add_right (Nat.add_le_add_right fewer _) _

theorem replicate (prompt : (c.node v).role = .leader → (c.node v).log.baseIndex < (c.node v).nextIndex p →
      c.load v p = 0) (moved : (c.act v fun s => s.replicate p c.nextTag) = some (c', new)) : c'.Tokens := by
  refine t.ask (p := p) (fun o done => ?_) moved
  unfold Server.replicate at done
  split_ifs at done
  split at done
  · cases done
  · next round sends started =>
    cases done
    refine ⟨rfl, ?_⟩
    rw [show (c.server v).node = c.node v from rfl] at started
    unfold Node.startRound at started
    split_ifs at started with follows first
    · cases started
      exact .inl rfl
    · dsimp only at started
      split_ifs at started with compacted
      · cases started
        exact .inl rfl
      · split at started
        · cases started
        · cases started
          exact .inr ⟨prompt (not_not.mp follows) (by omega), _, rfl, by simp [Packet.exchange, t.ids v]⟩

theorem ship (prompt : (c.node v).role = .leader → c.load v p = 0)
    (moved : (c.act v fun s => s.ship p c.nextTag) = some (c', new)) : c'.Tokens := by
  refine t.ask (p := p) (fun o done => ?_) moved
  unfold Server.ship at done
  split at done
  · split at done
    · cases done
    · next round sends shipped =>
      cases done
      refine ⟨rfl, ?_⟩
      rw [show (c.server v).node = c.node v from rfl] at shipped
      unfold Node.shipSnapshot at shipped
      split_ifs at shipped with other
      · cases shipped
        exact .inl rfl
      · cases shipped
        exact .inl rfl
      · split at shipped
        · cases shipped
        · cases shipped
          simp only [ne_eq, not_or, not_not] at other
          exact .inr ⟨prompt other.1, _, rfl, by simp [Packet.exchange, t.ids v]⟩
  · cases done

/-- A step of the cluster after which no reply can be late. -/
theorem step {a : Action} (held : NodeID → Option Packet)
    (prompt : Looped.Prompt ⟨c, held⟩ (.act a)) (moved : c.step a = some (c', new)) : c'.Tokens := by
  -- Outside the replicators a goroutine takes part in no exchange.
  by_cases apart : a.ordinary = true ∧ a.replicates = false
  · obtain ⟨v, o, _, turn, rfl⟩ := step_turn apart.1 moved
    exact t.balanced (turn.works.quiet.balanced (turn.rounds apart.2).2 : (c.server v).Balanced v [] o) rfl fun _ _ => rfl
  cases System.moves moved with
  | ordinary ordinary =>
    cases a <;> first | exact absurd ⟨rfl, rfl⟩ apart | simp only [System.step] at moved
    case deliver | drop | stop | timeout | install | crash | restart | spawn | tick => cases ordinary
    case replicate v p => exact t.replicate prompt moved
    case consume v p save => exact t.act (fun _ _ _ => .consume) moved
    case ship v p => exact t.ship prompt moved
    case abandon v p | scan v p =>
      refine t.ask (p := p) (fun o done => ?_) moved
      simp only [Server.abandon, Server.scan] at done
      split at done <;> cases done <;> exact ⟨rfl, .inl rfl⟩
  | deliver found up free handled =>
    exact t.balanced (.handle (t.ids _) up free rfl handled) rfl fun w p => flying_take found w p
  | @drop i => exact t.lose i
  | @stop i count cut pkt => exact (t.lose i).halt ((stopIn_keeps c _ pkt count cut).1.trans (t.ids _))
  | @timeout v _ _ =>
    refine t.balanced (?_ : (c.server v).Balanced v [] _) rfl fun _ _ => rfl
    exact (Node.Aside.maybeStartElection ..).quiet.balanced (maybeStartElection_sends _ _ _ _)
  | @install v m tag up busy => exact t.balanced (.install (t.ids v) up busy) rfl fun _ _ => rfl
  | @crash v _ _ _ left => rcases left with rfl | ⟨m, tag, -, rfl⟩ <;> exact t.halt (t.ids v)
  | @restart v save _ =>
    have blank := Node.Blank.rebuild (c.node v) (List.range c.size) save
    exact t.replace (blank.id.trans (t.ids v)) blank.answering blank.received
  | spawn =>
    have grown : System.Tokens { c with size := c.size + 1 } := ⟨t.ids, t.single⟩
    have blank := Node.Blank.fresh c.size (List.range (c.size + 1)) .empty
    exact grown.replace blank.id blank.answering blank.received
  | tick => exact ⟨t.ids, t.single⟩

end

theorem init (settings : Settings) (founders : Nat) : (System.init settings founders).Tokens := by
  have blank : ∀ v, ((System.init settings founders).node v).Blank v := by
    intro v
    unfold System.init System.node
    dsimp only
    split_ifs
    · exact (Node.Blank.fresh ..).bootstrap
    · exact (Node.Blank.fresh ..).bootstrap
    · exact ⟨rfl, rfl, rfl⟩
    · exact ⟨rfl, rfl, rfl⟩
  refine ⟨fun v => (blank v).id, fun v p => ?_⟩
  rw [System.load, (blank p).answering, (blank v).received]
  exact Nat.zero_le _

theorem vacant (t : c.Tokens) (flies : pkt ∈ c.net)
    (reply : pkt.msg.replier = some p) (up : (c.node pkt.dst).up = true) : (c.node pkt.dst).respCh p = none := by
  by_contra full
  have one : 0 < flying c.net pkt.dst p :=
    countP_pos_iff.mpr ⟨pkt, flies, by simp [Packet.exchange_reply reply]⟩
  have two : (c.node pkt.dst).received p = 1 :=
    if_pos (by rw [up, isSome_iff_ne_none.mpr full]; rfl)
  have bound := t.single pkt.dst p
  rw [System.load, two] at bound
  omega

theorem handles (t : c.Tokens) {i : Nat} (found : c.net[i]? = some pkt)
    (up : (c.node pkt.dst).up = true) (free : (c.node pkt.dst).installing = none) (saveTerm saveVote : Save) :
    (c.deliver i saveTerm saveVote).isSome := by
  have some : (c.handle (c.node pkt.dst) pkt saveTerm saveVote).isSome := by
    unfold System.handle
    split
    iterate 5 rfl
    all_goals
      next isMessage =>
      have vacant := t.vacant (mem_of_getElem? found) (by rw [isMessage]; rfl) up
      rw [vacant]
      split_ifs <;> first | rfl | contradiction
  obtain ⟨effect, handled⟩ := isSome_iff_exists.mp some
  have running : (c.server pkt.dst).node.up = true ∧ (c.server pkt.dst).node.installing = none := ⟨up, free⟩
  unfold System.deliver
  rw [found]
  dsimp only
  rw [if_pos running, show (c.server pkt.dst).node = c.node pkt.dst from rfl, handled]
  rfl

end System.Tokens

namespace Looped

variable {l l' : Looped} {new : List Event}

/-- No inbox loop is blocked, and none can become blocked. -/
structure Flowing (l : Looped) : Prop where
  tokens : l.sys.Tokens
  held : l.held = fun _ => none

/-- Such steps keep the loops running. -/
theorem Flowing.step (x : l.Flowing) {a : Act} (prompt : l.Prompt a) (moved : l.step a = some (l', new)) :
    l'.Flowing := by
  cases a with
  | act a =>
    simp only [Looped.step] at moved
    split_ifs at moved
    obtain ⟨⟨c, events⟩, done, equal⟩ := map_eq_some_iff.mp moved
    cases equal
    refine ⟨x.tokens.step l.held prompt done, ?_⟩
    dsimp only
    unfold release
    split
    · rw [x.held]
      exact update_eq_self _ _
    · exact x.held
  | block i =>
    obtain ⟨_, blocked, _⟩ := map_eq_some_iff.mp moved
    unfold Looped.block at blocked
    split at blocked
    · cases blocked
    · next pkt found =>
      dsimp only at blocked
      split at blocked
      · cases blocked
      · next p reply =>
        split_ifs at blocked with full
        -- A second message of the exchange would be needed to fill the channel.
        have vacant := x.tokens.vacant (mem_of_getElem? found) reply full.1
        simp [vacant] at full
  | unblock v =>
    obtain ⟨_, unblocked, _⟩ := map_eq_some_iff.mp moved
    simp [Looped.unblock, x.held] at unblocked

/--
The message loop is never wedged, as long as no peer owes a second reply.

No node that does not lead is blocked on a full channel, and a running node that is not installing a snapshot can
handle any message on its way to it.
-/
theorem loop_never_wedged {settings : Settings} {founders : Nat} {l : Looped}
    {past : List Looped} {events : List Event}
    (run : Run.Reach Looped.step (fun l a => l.Prompt a) (Looped.init settings founders) l past events)
    (v : NodeID) :
    ¬ l.Wedged v ∧ ∀ i pkt saveTerm saveVote, l.sys.net[i]? = some pkt → pkt.dst = v →
      (l.sys.node v).up = true → (l.sys.node v).installing = none →
      (l.step (.act (.deliver i saveTerm saveVote))).isSome := by
  have flowing := run.invariant (P := fun l _ _ => l.Flowing) ⟨.init settings founders, rfl⟩
    fun _ _ _ _ _ _ _ prompt moved x => x.step prompt moved
  constructor
  · rintro ⟨_, _, pkt, p, held, _⟩
    rw [flowing.held] at held
    cases held
  · rintro i pkt saveTerm saveVote found rfl up free
    have handled := flowing.tokens.handles found up free saveTerm saveVote
    have unblocked : l.free (.deliver i saveTerm saveVote) = true := by
      simp [Looped.free, found, flowing.held]
    rw [Looped.step, if_pos unblocked, isSome_map]
    exact handled

/-- The founder gives up a round and its lead, and still gets the reply. -/
def deposed : List Act :=
  [.act (.replicate 0 1), .act (.deliver 0 .ok .ok), .act (.abandon 0 1), .act (.timeout 2 .ok),
    .act (.deliver 1 .ok .ok), .act (.deliver 0 .ok .ok)]

/-- After such a run the deposed leader is not blocked. -/
theorem loop_never_wedged_deposed : ∃ l past events,
    Run.Reach Looped.step (fun l a => l.Prompt a) (Looped.init ⟨0, 0⟩ 3) l past events ∧
    (l.sys.node 0).role = .follower ∧ ((l.sys.node 0).respCh 1).isSome ∧ ¬ l.Wedged 0 := by
  obtain ⟨l, past, events, run, passed⟩ := Run.exec_exists Looped.step (fun l a => decide (l.Prompt a))
    (Looped.init ⟨0, 0⟩ 3) deposed
    (fun r => decide ((r.1.sys.node 0).role = .follower) && ((r.1.sys.node 0).respCh 1).isSome)
    (by rfl)
  have prompt := run.weaken fun _ _ => of_decide_eq_true
  simp only [Bool.and_eq_true, decide_eq_true_eq] at passed
  exact ⟨l, past, events, prompt, passed.1, passed.2, (loop_never_wedged prompt 0).1⟩

/-- The founder gives up two rounds and its leadership, and gets both replies. -/
def lateReplies : List Act :=
  [.act (.replicate 0 1), .act (.abandon 0 1), .act (.replicate 0 1), .act (.abandon 0 1),
    .act (.deliver 0 .ok .ok), .act (.deliver 0 .ok .ok), .act (.timeout 2 .ok), .act (.deliver 2 .ok .ok),
    .act (.deliver 0 .ok .ok), .block 0]

/-- The second one blocks a follower's loop while its replicator is idle. -/
theorem late_replies_wedge : ∃ l past events,
    Run.Reach Looped.step (fun _ _ => True) (Looped.init ⟨0, 0⟩ 3) l past events ∧
    l.Wedged 0 ∧ (l.sys.threads 0).rounds 1 = .idle := by
  obtain ⟨l, past, events, run, passed⟩ := Run.exec_exists Looped.step (fun _ _ => true)
    (Looped.init ⟨0, 0⟩ 3) lateReplies
    (fun r => (r.1.sys.node 0).up && decide ((r.1.sys.node 0).role ≠ .leader) &&
      ((r.1.held 0).bind fun pkt => pkt.msg.replier) == some 1 && ((r.1.sys.node 0).respCh 1).isSome &&
      decide ((r.1.sys.threads 0).rounds 1 = .idle)) (by rfl)
  simp only [Bool.and_eq_true, decide_eq_true_eq, beq_iff_eq, bind_eq_some_iff] at passed
  obtain ⟨⟨⟨⟨up, follows⟩, pkt, held, reply⟩, full⟩, idle⟩ := passed
  exact ⟨l, past, events, run.weaken fun _ _ _ => trivial, ⟨up, follows, pkt, 1, held, reply, full⟩, idle⟩

end Looped

end Cluster
