import LittleDb.Cluster.ConfigFaults

/-! Install markers that outlive their install: what a node acknowledges before a restart redoes the install. -/

namespace Cluster

open Function List Option Bool Cluster.System

variable {o : Outcomes} {w : NodeID} {a : Faulty.Act}

/-- The index up to which a reply acknowledges the log. -/
def Packet.acknowledged (pkt : Packet) : Option Nat :=
  match pkt.msg with
  | .appendResponse _ _ true idx _ => some idx
  | .installSnapshotResponse _ _ true idx => some idx
  | _ => none

/-- A cluster whose files may fail, with the markers that installs left. -/
structure Marked where
  faulty : Faulty
  /-- The snapshot whose marker a failed install left on a node's disk. -/
  marker : NodeID → Option InstallSnapshot
  /-- The indices a node has applied or acknowledged since its marker was left. -/
  done : NodeID → List Nat

namespace Marked

inductive Act where
  /-- A step of the cluster in which no install fails. -/
  | act (a : Faulty.Act)
  /-- An install fails, and its marker is or is not on disk afterwards. -/
  | fail (v : NodeID) (fault : InstallFault) (kept : Bool)

def init (settings : Settings) (founders : Nat) : Marked := ⟨.init settings founders, fun _ => none, fun _ => []⟩

/-- What a step applies or acknowledges, and on which node. -/
def deeds (f : Faulty) : Faulty.Act → Option (NodeID × List Nat)
  | .act (.deliver i saveTerm saveVote) =>
    match f.sys.net[i]? with
    | none => none
    | some pkt =>
      (f.sys.handle (f.sys.node pkt.dst) pkt saveTerm saveVote).map fun effect : Effect =>
        (pkt.dst, effect.sends.filterMap Packet.acknowledged)
  | .deliverParked i saveTerm saveVote =>
    match f.sys.net[i]? with
    | none => none
    | some pkt =>
      match pkt.msg with
      | .installSnapshot m =>
        some (pkt.dst, ((f.sys.node pkt.dst).refuseSnapshot f.sys.now m pkt.tag saveTerm).sends.filterMap
          Packet.acknowledged)
      | _ =>
        (f.sys.handle (f.sys.node pkt.dst) pkt saveTerm saveVote).map fun effect : Effect =>
          (pkt.dst, effect.sends.filterMap Packet.acknowledged)
  | .act (.store v) =>
    match (f.sys.threads v).applying with
    | some (.fetched idx _) => some (v, [idx])
    | _ => none
  | _ => none

/-- A node whose disk holds a marker begins another install. -/
def begins (s : Marked) : Faulty.Act → Bool
  | .act (.deliver i saveTerm saveVote) =>
    match s.faulty.sys.net[i]? with
    | none => false
    | some pkt =>
      (s.marker pkt.dst).isSome &&
        (s.faulty.sys.handle (s.faulty.sys.node pkt.dst) pkt saveTerm saveVote).any fun effect : Effect =>
          effect.node.installing.isSome
  | .failInstall _ _ => true
  | _ => false

def stopped (s : Marked) : Faulty.Act → Option NodeID
  | .act (.crash v _) => some v
  | .act (.stop i _ _) => (s.faulty.sys.net[i]?).map Packet.dst
  | _ => none

/-- The next start swaps the staged store in and resets the log to the marker. -/
def redo (f : Faulty) (v : NodeID) (m : InstallSnapshot) : Faulty :=
  let server : Server := { f.sys.server v with node := (f.sys.node v).swapInSnapshot m }
  { f with sys := f.sys.put v { server := server } }

def doneAfter (s : Marked) (a : Faulty.Act) : NodeID → List Nat :=
  match deeds s.faulty a with
  | none => s.done
  | some deed => update s.done deed.1 (deed.2 ++ s.done deed.1)

/-- A stopped node redoes the install whose marker it finds. -/
def after (s : Marked) (a : Faulty.Act) (f : Faulty) : Marked :=
  match (s.stopped a).bind fun v => (s.marker v).map fun m => (v, m) with
  | none => { s with faulty := f, done := s.doneAfter a }
  | some pending =>
    { faulty := redo f pending.1 pending.2
      marker := update s.marker pending.1 none
      done := s.doneAfter a }

/-- One step, or none when the action is not possible. -/
def step (s : Marked) : Act → Option (Marked × List Event)
  | .act a =>
    if s.begins a then none
    else
      match s.faulty.step a with
      | none => none
      | some (f, events) => some (s.after a f, events)
  | .fail v fault kept =>
    -- Behind the swap the marker is on disk until it is removed.
    if fault = .swapping ∧ kept = false then none
    else
      match (s.faulty.sys.node v).installing, s.faulty.failInstall v fault with
      | some (m, _), some (f, events) =>
        some (if kept then
          { faulty := f, marker := update s.marker v (some m), done := update s.done v [] }
        else { s with faulty := f }, events)
      | _, _ => none

/-- A failed install leaves its marker only on a node that stays parked, which is shipped no entry beyond the
snapshot. -/
def calm (s : Marked) : Act → Bool
  | .fail _ fault kept => !kept || decide (fault = .swapping)
  | .act (.deliverParked i _ _) =>
    match s.faulty.sys.net[i]? with
    | some { dst := v, msg := .appendEntries shipped, tag := _ } =>
      (s.marker v).all fun m : InstallSnapshot =>
        decide (shipped.prevLogIndex + shipped.entries.length ≤ m.lastIncludedIndex)
    | _ => true
  | _ => true

end Marked

/-- A running server that is still installing while its apply loop rests. -/
structure Server.Parks (s : Server) (m : InstallSnapshot) : Prop where
  up : s.node.up = true
  installing : ∃ tag, s.node.installing = some (m, tag)
  idle : s.threads.applying = none

namespace Server.Parks

variable {s : Server} {m : InstallSnapshot}

theorem busy (parks : s.Parks m) : s.node.installing ≠ none := by
  obtain ⟨tag, installing⟩ := parks.installing
  rw [installing]
  exact some_ne_none _

theorem keep (parks : s.Parks m) {s' : Server} (up : s'.node.up = s.node.up)
    (installing : s'.node.installing = s.node.installing) (idle : s'.threads.applying = none) : s'.Parks m :=
  ⟨up.trans parks.up, by rw [installing]; exact parks.installing, idle⟩

theorem turn (parks : s.Parks m) {a : Action} (turn : s.Turn a o) : o.server.Parks m :=
  parks.keep turn.works.keeps.1 turn.works.keeps.2.2.1 (turn.idle parks.busy parks.idle)

end Server.Parks

namespace System

variable {c c' d : System} {new : List Event} {v : NodeID} {m : InstallSnapshot}

def Inside (c : System) : Prop := ∀ v, (c.node v).up = true → v < c.size

theorem parks_put (servers : d.server = c.server) (parks : (c.server v).Parks m)
    (own : w = v → o.server.Parks m) : ((d.put w o).server v).Parks m := by
  show (update d.server w o.server v).Parks m
  rw [servers]
  by_cases here : w = v
  · subst here
    rw [update_self]
    exact own rfl
  · rw [update_of_ne (Ne.symm here)]
    exact parks

theorem inside_put (inside : c.Inside) (servers : d.server = c.server) (size : c.size ≤ d.size)
    (own : o.server.node.up = true → w < d.size) : (d.put w o).Inside := by
  intro u running
  have nodes : d.node = c.node := by
    funext x
    rw [System.node, System.node, servers]
  rw [node_put, nodes] at running
  by_cases here : u = w
  · subst here
    rw [update_self] at running
    exact own running
  · rw [update_of_ne here] at running
    exact (inside u running).trans_le size

theorem step_parks {a : Action} (parks : (c.server v).Parks m) (inside : c.Inside)
    (alive : ∀ installed, a ≠ .crash v installed) (waits : a ≠ .install v) (moved : c.step a = some (c', new)) :
    (c'.server v).Parks m := by
  cases moves moved with
  | ordinary ordinary =>
    obtain ⟨w, o, -, turn, rfl⟩ := step_turn ordinary moved
    exact parks_put rfl parks fun here => (here ▸ parks).turn turn
  | deliver _ _ free => exact parks_put rfl parks fun here => absurd free (here ▸ parks.busy)
  | drop => exact parks
  | stop _ _ free => exact parks_put rfl parks fun here => absurd free (here ▸ parks.busy)
  | @timeout w save =>
    refine parks_put rfl parks fun here => ?_
    subst here
    have same := Node.Aside.maybeStartElection (c.node w) false c.nextTag save
    exact parks.keep same.up same.installing parks.idle
  | install => exact parks_put rfl parks fun here => absurd (here ▸ rfl) waits
  | @crash w installed => exact parks_put rfl parks fun here => absurd (here ▸ rfl) (alive installed)
  | restart _ down =>
    refine parks_put rfl parks fun here => ?_
    subst here
    exact absurd (parks.up.symm.trans down) (by decide)
  | spawn => exact parks_put rfl parks fun here => absurd (inside v parks.up) (here ▸ lt_irrefl _)
  | tick => exact parks

theorem step_inside {a : Action} (inside : c.Inside) (moved : c.step a = some (c', new)) : c'.Inside := by
  cases moves moved with
  | ordinary ordinary =>
    obtain ⟨w, o, running, -, rfl⟩ := step_turn ordinary moved
    exact inside_put inside rfl le_rfl fun _ => inside w running
  | @deliver _ pkt _ _ _ _ running => exact inside_put inside rfl le_rfl fun _ => inside pkt.dst running
  | drop => exact inside
  | @stop _ _ _ pkt _ running => exact inside_put inside rfl le_rfl fun _ => inside pkt.dst running
  | @timeout w _ running => exact inside_put inside rfl le_rfl fun _ => inside w running
  | @install w _ _ running => exact inside_put inside rfl le_rfl fun _ => inside w running
  | @crash w _ _ running => exact inside_put inside rfl le_rfl fun _ => inside w running
  | restart started => exact inside_put inside rfl le_rfl fun _ => started
  | spawn =>
    exact inside_put (d := { c with size := c.size + 1 }) inside rfl (Nat.le_succ _) fun _ => Nat.lt_succ_self _
  | tick => exact inside

end System

namespace Faulty

variable {f f' : Faulty} {new : List Event} {v : NodeID} {m : InstallSnapshot}

theorem act_parks (parks : (f.sys.server v).Parks m) {step : Server → Option Outcomes}
    (moved : f.act w step = some (f', new)) (own : w = v → ∀ o, step (f.sys.server w) = some o → o.server.Parks m) :
    (f'.sys.server v).Parks m ∧ f'.parked = f.parked := by
  unfold Faulty.act at moved
  split at moved
  · cases moved
  · next acted =>
    cases moved
    obtain ⟨-, o, done, rfl, -⟩ := act_cases acted
    exact ⟨parks_put rfl parks fun here => own here o done, rfl⟩

theorem handleAppendEntries_keeps (n : Node) (now : Nat) (m : AppendEntries) (tag : Nat) (save : Save) :
    let done := (n.handleAppendEntries now m tag save).node
    done.up = n.up ∧ done.installing = n.installing := by
  have caught := Node.Aside.catchUp n m.term save
  unfold Node.handleAppendEntries
  dsimp only
  split_ifs
  · exact ⟨rfl, rfl⟩
  -- Neither the new leader's term nor its entries touch the install.
  · exact ⟨caught.up, caught.installing⟩
  · exact ⟨caught.up, caught.installing⟩

theorem handle_keeps {n : Node} {pkt : Packet} {saveTerm saveVote : Save} {effect : Effect}
    (snapshot : ∀ m, pkt.msg ≠ .installSnapshot m) (handled : f.sys.handle n pkt saveTerm saveVote = some effect) :
    effect.node.up = n.up ∧ effect.node.installing = n.installing := by
  rcases handle_cases handled with ⟨m, -, rfl⟩ | ⟨m, shipped, -⟩ | same
  · exact handleAppendEntries_keeps ..
  · exact absurd shipped (snapshot m)
  · exact ⟨same.up, same.installing⟩

/-- A parked node stays parked in every step but its own crash. -/
theorem step_parks {a : Act} (parked : f.parked v = true) (parks : (f.sys.server v).Parks m) (inside : f.sys.Inside)
    (alive : ∀ installed, a ≠ .act (.crash v installed)) (whole : ∀ w fault, a ≠ .failInstall w fault)
    (moved : f.step a = some (f', new)) : f'.parked v = true ∧ (f'.sys.server v).Parks m := by
  cases a <;> simp only [Faulty.step] at moved
  case act a =>
    split_ifs at moved with allowed
    split at moved
    · cases moved
    · next stepped =>
      cases moved
      have survives : ∀ installed, a ≠ .crash v installed := fun installed same => alive installed (same ▸ rfl)
      refine ⟨?_, step_parks parks inside survives ?_ stepped⟩
      · cases a <;> try exact parked
        case crash w installed =>
          have other : v ≠ w := fun here => survives installed (here ▸ rfl)
          show update f.parked w false v = true
          rw [update_of_ne other]
          exact parked
      · -- A parked node does not finish its install before it is started again.
        rintro rfl
        simp [Faulty.allows, parked] at allowed
  case failAppend i ok save =>
    unfold Faulty.failAppend at moved
    split at moved
    · next dst m' tag found =>
      dsimp only at moved
      split_ifs at moved
      split at moved
      · cases moved
      · next effect failed =>
        cases moved
        refine ⟨parked, parks_put rfl parks fun here => ?_⟩
        subst here
        unfold Node.failAppendEntries at failed
        split at failed
        · cases failed
        · cases failed
          have caught := Node.Aside.catchUp (f.sys.node dst) m'.term save
          exact parks.keep caught.up caught.installing parks.idle
    · cases moved
  case failPropose w =>
    obtain ⟨still, same⟩ := act_parks parks moved fun here o done => by
      subst here
      unfold Server.failPropose at done
      split at done
      · split_ifs at done
        cases done
        exact parks.keep rfl rfl parks.idle
      · cases done
    exact ⟨same ▸ parked, still⟩
  case failApply w wrote =>
    obtain ⟨still, same⟩ := act_parks parks moved fun here o done => by
      subst here
      unfold Server.failApply at done
      rw [parks.idle] at done
      cases done
    exact ⟨same ▸ parked, still⟩
  case failConsume w p wrote =>
    obtain ⟨still, same⟩ := act_parks parks moved fun here o done => by
      subst here
      unfold Server.failConsume at done
      obtain ⟨pkt, -, rest⟩ := bind_eq_some_iff.mp done
      obtain ⟨resp, -, last⟩ := bind_eq_some_iff.mp rest
      dsimp only at last
      split at last
      · split_ifs at last
        obtain ⟨⟨advanced, events⟩, commit, more⟩ := bind_eq_some_iff.mp last
        obtain ⟨left, compacted, result⟩ := bind_eq_some_iff.mp more
        cases result
        have same := Node.Aside.maybeAdvanceCommit commit
        have kept : left.up = advanced.up ∧ left.installing = advanced.installing := by
          unfold Node.failCompact at compacted
          split_ifs at compacted <;> split at compacted
          all_goals cases compacted
          all_goals exact ⟨rfl, rfl⟩
        exact parks.keep (kept.1.trans same.up) (kept.2.trans same.installing) parks.idle
      · cases last
    exact ⟨same ▸ parked, still⟩
  case failInstall w fault => exact absurd rfl (whole w fault)
  case deliverParked i saveTerm saveVote =>
    unfold Faulty.deliverParked at moved
    split at moved
    · cases moved
    · next pkt found =>
      dsimp only at moved
      split_ifs at moved
      split at moved
      · next m' snapshot =>
        cases moved
        refine ⟨parked, parks_put rfl parks fun here => ?_⟩
        subst here
        have caught := Node.Aside.catchUp (f.sys.node pkt.dst) m'.term saveTerm
        unfold Node.refuseSnapshot
        dsimp only
        split_ifs
        · exact parks
        · exact parks.keep caught.up caught.installing parks.idle
      · next other =>
        split at moved
        · cases moved
        · next handled =>
          cases moved
          refine ⟨parked, parks_put rfl parks fun here => ?_⟩
          subst here
          obtain ⟨up, installing⟩ := handle_keeps other handled
          exact parks.keep up installing parks.idle
  case reload w log baseConfig =>
    split_ifs at moved with running
    cases moved
    refine ⟨parked, parks_put rfl parks fun here => ?_⟩
    subst here
    exact absurd parks.up running

theorem step_inside {a : Act} (inside : f.sys.Inside) (moved : f.step a = some (f', new)) : f'.sys.Inside := by
  have acts : ∀ {w : NodeID} {step : Server → Option Outcomes}, f.act w step = some (f', new) →
      f'.sys.Inside := by
    intro w step acted
    unfold Faulty.act at acted
    split at acted
    · cases acted
    · next done =>
      cases acted
      obtain ⟨running, o, -, rfl, -⟩ := act_cases done
      exact inside_put inside rfl le_rfl fun _ => inside w running
  cases a <;> simp only [Faulty.step] at moved
  case act a =>
    split_ifs at moved
    split at moved
    · cases moved
    · next stepped =>
      cases moved
      exact step_inside inside stepped
  case failAppend i ok save =>
    unfold Faulty.failAppend at moved
    split at moved
    · dsimp only at moved
      split_ifs at moved with free
      split at moved
      · cases moved
      · cases moved
        exact inside_put inside rfl le_rfl fun _ => inside _ free.1
    · cases moved
  -- These three are steps of goroutines of a running node.
  case failPropose | failApply | failConsume => exact acts moved
  case failInstall w fault =>
    unfold Faulty.failInstall at moved
    dsimp only at moved
    split at moved
    · cases moved
    · rw [ite_none_right_eq_some] at moved
      obtain ⟨free, result⟩ := moved
      cases result
      exact inside_put inside rfl le_rfl fun _ => inside w free.1
  case deliverParked i saveTerm saveVote =>
    unfold Faulty.deliverParked at moved
    split at moved
    · cases moved
    · dsimp only at moved
      split_ifs at moved with free
      split at moved
      · cases moved
        exact inside_put inside rfl le_rfl fun _ => inside _ free.1
      · split at moved
        · cases moved
        · cases moved
          exact inside_put inside rfl le_rfl fun _ => inside _ free.1
  case reload w log baseConfig =>
    split_ifs at moved with running
    cases moved
    exact inside_put inside rfl le_rfl fun up => absurd up running

end Faulty

namespace Marked

variable {s s' : Marked} {f f' : Faulty} {new : List Event} {v : NodeID} {m : InstallSnapshot}

theorem acknowledged_maybeStartElection (n : Node) (leaderTransfer : Bool) (tag : Nat) (save : Save) :
    (n.maybeStartElection leaderTransfer tag save).sends.filterMap Packet.acknowledged = [] := by
  unfold Node.maybeStartElection
  dsimp only
  split_ifs
  · rfl
  · refine filterMap_eq_nil_iff.mpr fun pkt sent => ?_
    obtain ⟨p, -, rfl⟩ := mem_map.mp sent
    rfl
  · rfl

theorem acknowledged_handle {n : Node} {pkt : Packet} {saveTerm saveVote : Save} {effect : Effect}
    (snapshot : ∀ m, pkt.msg ≠ .installSnapshot m) (handled : f.sys.handle n pkt saveTerm saveVote = some effect)
    {idx : Nat} (acked : idx ∈ effect.sends.filterMap Packet.acknowledged) : ∃ m, pkt.msg = .appendEntries m ∧
    idx = m.prevLogIndex + m.entries.length := by
  -- Every other handler acknowledges nothing.
  refine by_contra fun other => ne_nil_of_mem acked ?_
  unfold System.handle at handled
  split at handled
  · next m shipped =>
    cases handled
    refine absurd ⟨m, shipped, ?_⟩ other
    unfold Node.handleAppendEntries at acked
    dsimp only at acked
    split_ifs at acked
    all_goals simp [Packet.acknowledged] at acked
    exact acked
  · cases handled
    unfold Node.handleRequestVote Node.considerVote
    dsimp only
    split_ifs <;> rfl
  · cases handled
    rw [Node.handleVoteResponse_sends]
    rfl
  · cases handled
    unfold Node.handleTimeoutNow
    split_ifs
    · rfl
    · exact acknowledged_maybeStartElection ..
  · next m shipped => exact absurd shipped (snapshot m)
  all_goals
    split_ifs at handled <;> cases handled
    all_goals rfl

/-- What a parked node is shipped ends at or below an index. -/
def ShippedBelow (f : Faulty) (v : NodeID) (bound : Nat) (a : Faulty.Act) : Prop :=
  ∀ i saveTerm saveVote pkt m, a = .deliverParked i saveTerm saveVote → f.sys.net[i]? = some pkt → pkt.dst = v →
    pkt.msg = .appendEntries m → m.prevLogIndex + m.entries.length ≤ bound

theorem shippedBelow_of_calm (calm : s.calm (.act a) = true) (pending : s.marker v = some m) :
    ShippedBelow s.faulty v m.lastIncludedIndex a := by
  rintro i saveTerm saveVote ⟨dst, msg, tag⟩ shipped rfl found rfl rfl
  simpa [Marked.calm, found, pending] using calm

theorem deeds_parked {deed : NodeID × List Nat} (parks : (f.sys.server v).Parks m)
    {bound : Nat} (below : ShippedBelow f v bound a) (moved : f.step a = some (f', new))
    (happened : deeds f a = some deed) (here : deed.1 = v) : ∀ idx ∈ deed.2, idx ≤ bound := by
  unfold Marked.deeds at happened
  split at happened
  · next i saveTerm saveVote =>
    split at happened
    · cases happened
    · next pkt found =>
      obtain ⟨effect, -, rfl⟩ := map_eq_some_iff.mp happened
      -- A message is delivered only to a node that is not installing.
      simp only [Faulty.step, Faulty.allows, if_true] at moved
      split at moved
      · cases moved
      · next delivered =>
        cases System.moves (a := .deliver i saveTerm saveVote) delivered with
        | ordinary no => cases no
        | deliver found' _ free =>
          obtain rfl := Option.some.inj (found.symm.trans found')
          dsimp only at here
          subst here
          exact absurd free parks.busy
  · next i saveTerm saveVote =>
    split at happened
    · cases happened
    · next pkt found =>
      split at happened
      · cases happened
        exact forall_mem_nil _
      · next other =>
        obtain ⟨effect, handled, rfl⟩ := map_eq_some_iff.mp happened
        intro idx acked
        obtain ⟨shipped, entries, rfl⟩ := acknowledged_handle other handled acked
        exact below i saveTerm saveVote pkt shipped rfl found here entries
  · next w =>
    split at happened
    · next fetched =>
      cases happened
      dsimp only at here
      subst here
      cases fetched.symm.trans parks.idle
    · cases happened
  · cases happened

/-- A node with a marker is parked, and acknowledged only the snapshot. -/
structure Parked (s : Marked) (v : NodeID) (m : InstallSnapshot) : Prop where
  parked : s.faulty.parked v = true
  parks : (s.faulty.sys.server v).Parks m
  done : ∀ idx ∈ s.done v, idx ≤ m.lastIncludedIndex

/-- Every marker is a parked node's, and running nodes were started. -/
structure Sound (s : Marked) : Prop where
  pending : ∀ v m, s.marker v = some m → s.Parked v m
  inside : s.faulty.sys.Inside

theorem doneAfter_parked (parked : s.Parked v m) (pending : s.marker v = some m) (calm : s.calm (.act a) = true)
    (moved : s.faulty.step a = some (f', new)) : ∀ idx ∈ s.doneAfter a v, idx ≤ m.lastIncludedIndex := by
  unfold Marked.doneAfter
  cases happened : deeds s.faulty a with
  | none => exact parked.done
  | some deed =>
    dsimp only
    by_cases here : deed.1 = v
    · have covered := deeds_parked parked.parks (shippedBelow_of_calm calm pending) moved happened here
      subst here
      rw [update_self]
      intro idx listed
      exact (mem_append.mp listed).elim (covered idx) (parked.done idx)
    · rw [update_of_ne (Ne.symm here)]
      exact parked.done

theorem Sound.act (sound : s.Sound) (calm : s.calm (.act a) = true) (first : s.begins a = false)
    (moved : s.faulty.step a = some (f', new)) : (s.after a f').Sound := by
  have inside := Faulty.step_inside sound.inside moved
  have whole : ∀ w fault, a ≠ .failInstall w fault := by
    rintro w fault rfl
    cases first
  have stays : ∀ u m, s.marker u = some m → (∀ installed, a ≠ .act (.crash u installed)) →
      f'.parked u = true ∧ (f'.sys.server u).Parks m := by
    intro u m pending alive
    have parked := sound.pending u m pending
    exact Faulty.step_parks parked.parked parked.parks sound.inside alive whole moved
  unfold Marked.after
  split
  · next none =>
    refine ⟨fun u m pending => ?_, inside⟩
    -- Had the node been stopped, its marker would have been found.
    have alive : ∀ installed, a ≠ .act (.crash u installed) := by
      rintro installed rfl
      simp [Marked.stopped, show s.marker u = some m from pending] at none
    obtain ⟨still, parks⟩ := stays u m pending alive
    exact ⟨still, parks, doneAfter_parked (sound.pending u m pending) pending calm moved⟩
  · next pair found =>
    obtain ⟨w, stopped, marked⟩ := bind_eq_some_iff.mp found
    obtain ⟨m', -, rfl⟩ := map_eq_some_iff.mp marked
    refine ⟨fun u m pending => ?_, ?_⟩
    · -- The marker of the stopped node is gone, and another node was not stopped.
      dsimp only at pending
      have other : u ≠ w := by
        rintro rfl
        rw [update_self] at pending
        cases pending
      rw [update_of_ne other] at pending
      have alive : ∀ installed, a ≠ .act (.crash u installed) := by
        rintro installed rfl
        exact other (Option.some.inj stopped)
      obtain ⟨still, parks⟩ := stays u m pending alive
      refine ⟨still, parks_put rfl parks fun here => absurd here.symm other, ?_⟩
      exact doneAfter_parked (sound.pending u m pending) pending calm moved
    · exact inside_put inside rfl le_rfl fun running => inside w running

/-- Every calm step keeps markers to parked nodes. -/
theorem Sound.step (sound : s.Sound) {a : Act} (calm : s.calm a = true) (moved : s.step a = some (s', new)) :
    s'.Sound := by
  cases a with
  | act a =>
    rw [Marked.step, ite_none_left_eq_some] at moved
    obtain ⟨first, moved⟩ := moved
    split at moved
    · cases moved
    · next stepped =>
      cases moved
      exact sound.act calm (eq_false_iff.mpr first) stepped
  | fail v fault kept =>
    rw [Marked.step, ite_none_left_eq_some] at moved
    obtain ⟨-, moved⟩ := moved
    split at moved
    · next m tag f' events busy failed =>
      cases moved
      have inside := Faulty.step_inside (a := .failInstall v fault) sound.inside failed
      unfold Faulty.failInstall at failed
      dsimp only at failed
      rw [show (s.faulty.sys.server v).node.installing = some (m, tag) from busy] at failed
      rw [ite_none_right_eq_some] at failed
      obtain ⟨⟨running, free, rests⟩, result⟩ := failed
      -- A node that is parked already does not fail again.
      have other : ∀ u m', s.marker u = some m' → u ≠ v := by
        rintro u m' pending rfl
        exact free (sound.pending u m' pending).parked
      cases result
      cases kept with
      | false =>
        refine ⟨fun u m' pending => ?_, inside⟩
        have apart := other u m' pending
        have parked := sound.pending u m' pending
        refine ⟨?_, parks_put rfl parked.parks fun here => absurd here.symm apart, parked.done⟩
        show (if fault = .swapping then update s.faulty.parked v true else s.faulty.parked) u = true
        split_ifs
        · rw [update_of_ne apart]
          exact parked.parked
        · exact parked.parked
      | true =>
        -- The marker stays on a node that parks.
        have swaps : fault = .swapping := by simpa [Marked.calm] using calm
        subst swaps
        have rested : (s.faulty.sys.server v).threads.applying = none := rests.resolve_left (by decide)
        refine ⟨fun u m' pending => ?_, inside⟩
        replace pending : update s.marker v (some m) u = some m' := pending
        by_cases here : u = v
        · subst here
          rw [update_self] at pending
          cases pending
          refine ⟨?_, ?_, ?_⟩
          · exact update_self ..
          · exact parks_put rfl ⟨running, ⟨tag, busy⟩, rested⟩ fun _ => ⟨running, ⟨tag, busy⟩, rested⟩
          · show ∀ idx ∈ update s.done u [] u, _
            rw [update_self]
            exact nofun
        · rw [update_of_ne here] at pending
          have parked := sound.pending u m' pending
          refine ⟨?_, parks_put rfl parked.parks fun same => absurd same.symm here, ?_⟩
          · show update s.faulty.parked v true u = true
            rw [update_of_ne here]
            exact parked.parked
          · show ∀ idx ∈ update s.done v [] u, _
            rw [update_of_ne here]
            exact parked.done
    · cases moved

theorem Sound.init (settings : Settings) {founders : Nat} (positive : 0 < founders) :
    (Marked.init settings founders).Sound where
  pending v m pending := by cases pending
  inside v running := by
    show v < founders
    have up : (if v = 0 then
        (Node.fresh v (List.range founders) (if v < founders then .fullConfig founders else .empty)).bootstrap
      else { Node.fresh v (List.range founders) (if v < founders then .fullConfig founders else .empty) with
        up := decide (v < founders) }).up = true := running
    by_cases first : v = 0
    · rw [first]
      exact positive
    · rw [if_neg first] at up
      exact of_decide_eq_true up

def plain (a : Action) : Act := .act (.act a)

end Marked

end Cluster
