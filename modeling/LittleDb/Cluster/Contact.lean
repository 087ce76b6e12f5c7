import LittleDb.Cluster.ElectionSafety

/-! Disruption prevention: which nodes a vote request cannot disturb while a leader is alive. -/

namespace Cluster

open Function Option Bool Node

namespace Node

/-- The node keeps running and remembers when it last heard from a leader. -/
structure Rests (n n' : Node) : Prop where
  up : n'.up = n.up
  contact : n'.lastLeaderContact = n.lastLeaderContact

/-- The node keeps running, with its contact to a leader old or now. -/
structure Hears (now : Nat) (n n' : Node) : Prop where
  up : n'.up = n.up
  contact : n'.lastLeaderContact = n.lastLeaderContact ∨ n'.lastLeaderContact = some now

variable {n n' n'' : Node} {now : Nat}

theorem Rests.refl (n : Node) : n.Rests n := ⟨rfl, rfl⟩

theorem Same.rests (same : n.Same n') : n.Rests n' := ⟨same.up, same.contact⟩

theorem Works.rests (works : n.Works n') : n.Rests n' := ⟨works.keeps.1, works.keeps.2.1⟩

theorem Rests.hears (rests : n.Rests n') : n.Hears now n' := ⟨rests.up, .inl rests.contact⟩

theorem currentTerm_catchUp {term : Nat} (higher : n.currentTerm < term) (save : Save) :
    (n.catchUp term save).currentTerm = term := by
  unfold Node.catchUp Node.stepDown Node.persist
  rw [if_pos higher]
  split_ifs <;> rfl

theorem Hears.deferTo (n : Node) (term now : Nat) (save : Save) : n.Hears now ((n.catchUp term save).deferTo now) :=
  ⟨(Aside.catchUp n term save).up, .inr rfl⟩

theorem contact_handleAppendEntries {m : AppendEntries} (current : n.currentTerm ≤ m.term) (tag : Nat)
    (save : Save) : (n.handleAppendEntries now m tag save).node.lastLeaderContact = some now := by
  unfold Node.handleAppendEntries
  dsimp only
  rw [if_neg (not_lt.mpr current)]
  split_ifs <;> rfl

theorem Hears.handleAppendEntries (n : Node) (now : Nat) (m : AppendEntries) (tag : Nat) (save : Save) :
    n.Hears now (n.handleAppendEntries now m tag save).node := by
  have deferred := Hears.deferTo n m.term now save
  unfold Node.handleAppendEntries
  dsimp only
  split_ifs
  · exact (Rests.refl n).hears
  · exact ⟨deferred.up, deferred.contact⟩
  · exact deferred

theorem Hears.handleInstallSnapshot (n : Node) (now : Nat) (m : InstallSnapshot) (tag : Nat) (save : Save) :
    n.Hears now (n.handleInstallSnapshot now m tag save).node := by
  have deferred := Hears.deferTo n m.term now save
  unfold Node.handleInstallSnapshot
  dsimp only
  split_ifs
  · exact (Rests.refl n).hears
  · exact deferred
  · exact ⟨deferred.up, deferred.contact⟩

end Node

namespace System

variable {c c' : System} {new : List Event}

variable {a : Action} {events : List Event} {q l : NodeID} {founders term : Nat} {settings : Settings}

theorem step_rests (ordinary : a.ordinary = true) (moved : c.step a = some (c', new)) :
    ∃ v o, (c.node v).Rests o.server.node ∧ c' = c.bump.put v o := by
  obtain ⟨v, o, -, turn, put⟩ := step_turn ordinary moved
  exact ⟨v, o, turn.works.rests, put⟩

theorem handle_hears {n : Node} {pkt : Packet} {saveTerm saveVote : Save} {effect : Effect}
    (handled : c.handle n pkt saveTerm saveVote = some effect) : n.Hears c.now effect.node := by
  rcases handle_cases handled with ⟨m, -, rfl⟩ | ⟨m, -, rfl⟩ | same
  · exact .handleAppendEntries ..
  · exact .handleInstallSnapshot ..
  · exact same.rests.hears

/-- The step stops a node, while it handles a message or at any other time. -/
def stops (c : System) (v : NodeID) : Action → Bool
  | .crash w _ => decide (w = v)
  | .stop i _ _ => (c.net[i]?).any fun pkt => decide (pkt.dst = v)
  | _ => false

theorem step_hears (polls : Polls c events) {v : NodeID}
    (running : (c.node v).up = true) (spared : c.stops v a = false) (moved : c.step a = some (c', new)) :
    (c.node v).Hears c.now (c'.node v) ∧ c.now ≤ c'.now := by
  -- A step of one node is no step of another.
  have put : ∀ {d : System} {w : NodeID} {o : Outcomes}, d.node = c.node → d.now = c.now →
      (w = v → (c.node v).Hears c.now o.server.node) →
      (c.node v).Hears c.now ((d.put w o).node v) ∧ c.now ≤ (d.put w o).now := by
    intro d w o same clock own
    refine ⟨?_, clock.ge⟩
    rw [node_put, same]
    by_cases here : w = v
    · subst here
      rw [update_self]
      exact own rfl
    · rw [update_of_ne (Ne.symm here)]
      exact (Node.Rests.refl _).hears
  cases moves moved with
  | ordinary ordinary =>
    obtain ⟨w, o, rests, rfl⟩ := step_rests ordinary moved
    exact put rfl rfl fun here => here ▸ rests.hears
  | deliver _ _ _ handled => exact put rfl rfl fun here => here ▸ handle_hears handled
  | drop => exact ⟨(Node.Rests.refl _).hears, le_refl _⟩
  | stop found =>
    refine put rfl rfl fun here => ?_
    simp [stops, found, here] at spared
  | timeout => exact put rfl rfl fun here => here ▸ (Node.Aside.maybeStartElection ..).toSame.rests.hears
  | install => exact put rfl rfl fun here => here ▸ ⟨rfl, .inl rfl⟩
  | crash =>
    refine put rfl rfl fun here => ?_
    simp [stops, here] at spared
  | restart _ down =>
    -- Only a node that does not run is rebuilt.
    refine put rfl rfl fun here => ?_
    rw [here, running] at down
    cases down
  | spawn =>
    -- The new server has an id that no running node has.
    refine put (d := { c with size := c.size + 1 }) rfl rfl fun here => ?_
    exact absurd here (ne_of_gt (polls.started running))
  | tick => exact ⟨(Node.Rests.refl _).hears, Nat.le_succ _⟩

/-- A vote request outside a transfer changes neither role nor term nor vote. -/
def Undisturbed (c : System) (q : NodeID) : Prop :=
  ∀ pkt m saveTerm saveVote effect, pkt.msg = .requestVote m → m.leaderTransfer = false →
    c.handle (c.node q) pkt saveTerm saveVote = some effect →
    effect.node.role = (c.node q).role ∧ effect.node.currentTerm = (c.node q).currentTerm ∧
      effect.node.votedFor = (c.node q).votedFor

theorem undisturbed_iff (c : System) (q : NodeID) :
    c.Undisturbed q ↔ (c.node q).withinLeaderStickiness c.settings c.now = true := by
  constructor
  · intro undisturbed
    by_contra lapsed
    -- A request of the next term makes every other node adopt that term.
    have disturbed := undisturbed ⟨q, .requestVote ⟨q, (c.node q).currentTerm + 1, q, 0, 0, false⟩, 0⟩ _ .ok .ok _
      rfl rfl rfl
    have adopted : ((c.node q).handleRequestVote c.settings c.now
        ⟨q, (c.node q).currentTerm + 1, q, 0, 0, false⟩ 0 .ok .ok).node.currentTerm =
        (c.node q).currentTerm + 1 := by
      unfold Node.handleRequestVote
      rw [if_neg fun both => lapsed both.2]
      rcases ((c.node q).catchUp ((c.node q).currentTerm + 1) .ok).considerVote_cases
        ⟨q, (c.node q).currentTerm + 1, q, 0, 0, false⟩ 0 .ok with ⟨-, -, -, granted⟩ | ⟨d, -, refused⟩
      · rw [granted]
        exact currentTerm_catchUp (Nat.lt_succ_self _) .ok
      · rw [refused]
        exact currentTerm_catchUp (Nat.lt_succ_self _) .ok
    exact absurd (adopted.symm.trans disturbed.2.1) (Nat.succ_ne_self _)
  · intro sticky pkt m saveTerm saveVote effect request plain handled
    unfold System.handle at handled
    rw [request] at handled
    cases handled
    unfold Node.handleRequestVote
    rw [if_pos ⟨by simp [plain], sticky⟩]
    exact ⟨rfl, rfl, rfl⟩

/-- A run through the delivery of a leader's call, less than an election timeout ago, with no stop of the node
since. -/
structure HeardFrom (settings : Settings) (founders : Nat) (l : NodeID) (term : Nat) (q : NodeID) (c : System) :
    Prop where
  /-- The run up to the call, the call itself, and the run from there on. -/
  call : ∃ before past events i pkt m saveTerm saveVote after new past' events',
    Run.Reach System.step (fun _ _ => True) (System.init settings founders) before past events ∧
    before.net[i]? = some pkt ∧ pkt.dst = q ∧ pkt.msg = .appendEntries m ∧ m.sender = l ∧ m.term = term ∧
    (before.node q).currentTerm ≤ term ∧
    before.step (.deliver i saveTerm saveVote) = some (after, new) ∧
    Run.Reach System.step (fun c a => c.stops q a = false) after c past' events' ∧
    c.now < before.now + settings.electionMin

theorem run_hears {start : System} {since : Nat} {past : List System} {events' : List Event}
    (polls : Polls start events) (running : (start.node q).up = true)
    (heard : (start.node q).lastLeaderContact = some since) (clock : since ≤ start.now)
    (run : Run.Reach System.step (fun c a => c.stops q a = false) start c past events') :
    c.settings = start.settings ∧ ∃ contact, (c.node q).lastLeaderContact = some contact ∧ since ≤ contact := by
  have kept := run.invariant (P := fun c _ new => Polls c (new ++ events) ∧ (c.node q).up = true ∧
    since ≤ c.now ∧ c.settings = start.settings ∧
    ∃ contact, (c.node q).lastLeaderContact = some contact ∧ since ≤ contact)
    ⟨polls, running, clock, rfl, since, heard, le_refl _⟩ ?_
  · exact kept.2.2.2
  intro c a c' _ before new _ spared moved ⟨polls, running, clock, same, contact, heard, late⟩
  obtain ⟨hears, forward⟩ := step_hears polls running spared moved
  refine ⟨List.append_assoc new before events ▸ polls.step moved, hears.up.trans running, clock.trans forward,
    (step_settings moved).trans same, ?_⟩
  -- The contact is the one the node had, or it is as late as the clock.
  rcases hears.contact with old | now
  · exact ⟨contact, old.trans heard, late⟩
  · exact ⟨c.now, now, clock⟩

theorem HeardFrom.undisturbed (heard : HeardFrom settings founders l term q c) (positive : 0 < founders)
    (armed : 0 < settings.electionMin) : c.Undisturbed q := by
  obtain ⟨before, past, events, i, pkt, m, saveTerm, saveVote, after, new, past', events', run, found, rfl, call,
    -, rfl, current, delivered, later, recent⟩ := heard.call
  have polls : Polls before events := Polls.of_reach positive run
  have settled := run_settings run
  have accepted : (after.node pkt.dst).up = true ∧ (after.node pkt.dst).lastLeaderContact = some before.now ∧
      before.now ≤ after.now := by
    cases moves delivered with
    | ordinary no => cases no
    | deliver found' running _ handled =>
      obtain rfl := Option.some.inj (found.symm.trans found')
      rw [node_put, update_self]
      unfold System.handle at handled
      rw [call] at handled
      cases handled
      exact ⟨(Node.Hears.handleAppendEntries ..).up.trans running, contact_handleAppendEntries current .., le_refl _⟩
  obtain ⟨same, contact, remembered, late⟩ :=
    run_hears (polls.step delivered) accepted.1 accepted.2.1 accepted.2.2 later
  refine (undisturbed_iff c pkt.dst).mpr ?_
  have timeout : c.settings.electionMin = settings.electionMin := by
    rw [same, step_settings delivered, settled]
  simp only [Node.withinLeaderStickiness, remembered, timeout, and_eq_true, decide_eq_true_eq]
  exact ⟨armed, by omega⟩

/--
A vote request disturbs no follower that has just heard from the leader, as long as it was not stopped since.

Any other node, the leader itself included, is protected only if it heard from a leader as recently.
-/
theorem disruption_prevented {settings : Settings} {founders : Nat} (positive : 0 < founders)
    (armed : 0 < settings.electionMin) (c : System) (l : NodeID) (term : Nat) (members : Set NodeID)
    (heard : ∀ q ∈ members, q ≠ l → HeardFrom settings founders l term q c) :
    (∀ q ∈ members, q ≠ l → c.Undisturbed q) ∧
      ∀ q ∈ members, c.Undisturbed q ↔ (c.node q).withinLeaderStickiness c.settings c.now = true :=
  ⟨fun q member other => (heard q member other).undisturbed positive armed, fun q _ => undisturbed_iff c q⟩

/-- The message is a call of a leader in a term. -/
def callOf (l : NodeID) (term : Nat) : Message → Bool
  | .appendEntries m => decide (m.sender = l ∧ m.term = term)
  | _ => false

theorem exists_of_callOf {msg : Message} (call : callOf l term msg = true) :
    ∃ m, msg = .appendEntries m ∧ m.sender = l ∧ m.term = term := by
  cases msg with
  | appendEntries m => exact ⟨m, rfl, of_decide_eq_true call⟩
  | _ => cases call

/-- Runs the cluster up to a call, delivers it, and tests the state. -/
def hearing (settings : Settings) (founders : Nat) (actions : List Action) (i : Nat) (l : NodeID) (term : Nat)
    (q : NodeID) (test : System → Bool) : Bool :=
  (Run.exec System.step (fun _ _ => true) (System.init settings founders) [] [] actions).any fun r =>
    (r.1.net[i]?.any fun pkt => decide (pkt.dst = q) && callOf l term pkt.msg) &&
      decide ((r.1.node q).currentTerm ≤ term) &&
      (r.1.step (.deliver i .ok .ok)).any fun moved =>
        decide (moved.1.now < r.1.now + settings.electionMin) && test moved.1

theorem exists_of_hearing {actions : List Action} {i : Nat} {test : System → Bool}
    (passed : hearing settings founders actions i l term q test = true) :
    ∃ c, HeardFrom settings founders l term q c ∧ test c = true := by
  obtain ⟨⟨before, past, events⟩, done, tested⟩ := (any_eq_true _ _).mp passed
  simp only [and_eq_true, decide_eq_true_eq] at tested
  obtain ⟨⟨shipped, current⟩, delivered⟩ := tested
  obtain ⟨pkt, found, addressed⟩ := (any_eq_true _ _).mp shipped
  obtain ⟨⟨after, new⟩, moved, last⟩ := (any_eq_true _ _).mp delivered
  simp only [and_eq_true, decide_eq_true_eq] at addressed last
  obtain ⟨m, call, sender, own⟩ := exists_of_callOf addressed.2
  have run := Run.exec_reach .start done
  exact ⟨after, ⟨before, past, events, i, pkt, m, .ok, .ok, after, new, [], [], run.weaken fun _ _ _ => trivial, found,
    addressed.1, call, sender, own, current, moved, .start, last.1⟩, last.2⟩

/-- One of three nodes stands while the leader still reaches the other one. -/
def intruding : List Action := [.timeout 2 .ok, .replicate 0 1]

/-- The node that the leader reaches keeps role, term and vote. -/
theorem disruption_prevented_follower : ∃ c, HeardFrom ⟨10, 0⟩ 3 0 1 1 c ∧ (c.node 0).role = .leader ∧
    c.Undisturbed 1 := by
  have passed : hearing ⟨10, 0⟩ 3 intruding 2 0 1 1 (fun c => decide ((c.node 0).role = .leader)) = true := by rfl
  obtain ⟨c, heard, leads⟩ := exists_of_hearing passed
  refine ⟨c, heard, of_decide_eq_true leads, ?_⟩
  have all : ∀ q ∈ ({1} : Set NodeID), q ≠ 0 → HeardFrom ⟨10, 0⟩ 3 0 1 q c := by
    rintro q rfl -
    exact heard
  exact (disruption_prevented (by decide) (by decide) c 0 1 {1} all).1 1 rfl (by decide)

/-- The leader itself steps down when the request reaches it. -/
theorem leader_disrupted : ∃ c m tag c' new, HeardFrom ⟨10, 0⟩ 3 0 1 1 c ∧
    (c.node 0).role = .leader ∧ (c.node 0).currentTerm = 1 ∧ (c.node 0).config.ids = [0, 1, 2] ∧
    c.net[0]? = some ⟨0, .requestVote m, tag⟩ ∧ m.leaderTransfer = false ∧
    c.step (.deliver 0 .ok .ok) = some (c', new) ∧
    (c'.node 0).role = .follower ∧ (c'.node 0).currentTerm = 2 := by
  have passed : hearing ⟨10, 0⟩ 3 intruding 2 0 1 1 (fun c =>
      decide ((c.node 0).role = .leader ∧ (c.node 0).currentTerm = 1 ∧ (c.node 0).config.ids = [0, 1, 2] ∧
        c.net[0]? = some ⟨0, .requestVote ⟨2, 2, 2, 0, 0, false⟩, 0⟩) &&
      (c.step (.deliver 0 .ok .ok)).any fun moved : System × List Event =>
        decide ((moved.1.node 0).role = .follower ∧ (moved.1.node 0).currentTerm = 2)) = true := by rfl
  obtain ⟨c, heard, tested⟩ := exists_of_hearing passed
  rw [and_eq_true] at tested
  obtain ⟨leads, own, config, request⟩ := of_decide_eq_true tested.1
  obtain ⟨⟨c', new⟩, moved, ends⟩ := (any_eq_true _ _).mp tested.2
  obtain ⟨follows, adopted⟩ := of_decide_eq_true ends
  exact ⟨c, _, _, c', new, heard, leads, own, config, request, rfl, moved, follows, adopted⟩

end System

end Cluster
