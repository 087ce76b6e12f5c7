import LittleDb.Cluster.System

/-! Votes: what every run keeps true of terms, votes on disk, votes in flight and vote counts. -/

namespace Cluster

open Function List

/-- The vote a packet asks for or grants: voter, candidate and term. -/
def Packet.ballot (pkt : Packet) : Option (NodeID × NodeID × Nat) :=
  match pkt.msg with
  | .requestVote m => some (pkt.dst, m.candidateID, m.term)
  | .requestVoteResponse sender term true => some (sender, pkt.dst, term)
  | _ => none

/-- The votes asked for or granted in the messages on their way. -/
def ballots (net : List Packet) : List (NodeID × NodeID × Nat) :=
  net.filterMap Packet.ballot

def Event.isVote : Event → Bool
  | .stood _ _ => true
  | .granted _ _ _ => true
  | _ => false

/-- A node has voted: it granted, stood, or is the bootstrap leader. -/
def Cast (events : List Event) (v k : NodeID) (term : Nat) : Prop :=
  .granted v k term ∈ events ∨ (v = k ∧ .stood k term ∈ events) ∨ (v = 0 ∧ k = 0 ∧ term = 1)

/-- A vote is kept: term and vote are newer, or it is the vote itself. -/
def Keeps (term : Nat) (vote : Option NodeID) (k : NodeID) (castTerm : Nat) : Prop :=
  castTerm ≤ term ∧ (castTerm = term → vote = some k)

/-- The votes a candidate counts: distinct members whose answers are gone. -/
def Counted (n : Node) (net : List Packet) (events : List Event) : Prop :=
  .stood n.id n.currentTerm ∈ events ∧ ∃ voters : Finset NodeID,
    voters.card = n.votesReceived ∧ voters ⊆ n.config.toFinset ∧
    (∀ v ∈ voters, Cast events v n.id n.currentTerm) ∧
    ∀ v, (v, n.id, n.currentTerm) ∈ ballots net → v ∉ voters ∧ v ∈ n.config.toFinset

/-- What one node knows about the votes it cast and the votes it counts. -/
structure Voter (v : NodeID) (n : Node) (net : List Packet) (events : List Event) : Prop where
  id : n.id = v
  positive : 1 ≤ n.currentTerm ∧ 1 ≤ n.disk.currentTerm
  memory : ∀ {k term}, Cast events v k term → Keeps n.currentTerm n.votedFor k term
  durable : ∀ {k term}, Cast events v k term → Keeps n.disk.currentTerm n.disk.votedFor k term
  candidate : n.role = .candidate → Counted n net events
  parked : n.installing.isSome → n.role = .follower

/-- The laws of votes, in every state of every run and under every failure. -/
structure Ballots (node : NodeID → Node) (net : List Packet) (events : List Event) : Prop where
  voter : ∀ v, Voter v (node v) net events
  stood_ge : ∀ {k term}, .stood k term ∈ events → 2 ≤ term
  granted_stood : ∀ {v k term}, .granted v k term ∈ events → .stood k term ∈ events
  unique : ∀ {v k k' term}, Cast events v k term → Cast events v k' term → k = k'
  nodup : (ballots net).Nodup
  pending : ∀ {v k term}, (v, k, term) ∈ ballots net → .stood k term ∈ events
  asked : ∀ {pkt m}, pkt ∈ net → pkt.msg = .requestVote m → m.sender = m.candidateID
  answered : ∀ {pkt sender term}, pkt ∈ net → pkt.msg = .requestVoteResponse sender term true →
    .granted sender pkt.dst term ∈ events

variable {events events' : List Event} {v k : NodeID} {term : Nat}

theorem Cast.mono (cast : Cast events v k term) (more : events ⊆ events') : Cast events' v k term := by
  rcases cast with granted | ⟨same, stood⟩ | first
  · exact .inl (more granted)
  · exact .inr (.inl ⟨same, more stood⟩)
  · exact .inr (.inr first)

theorem cast_append {new : List Event} (plain : ∀ e ∈ new, e.isVote = false)
    : Cast (new ++ events) v k term ↔ Cast events v k term := by
  have vote : ∀ e : Event, e.isVote = true → (e ∈ new ++ events ↔ e ∈ events) := by
    intro e isVote
    rw [mem_append]
    refine ⟨?_, .inr⟩
    rintro (member | member)
    · rw [plain e member] at isVote
      cases isVote
    · exact member
  simp only [Cast, vote (.granted v k term) rfl, vote (.stood k term) rfl]

theorem Keeps.newer {term' : Nat} {vote vote' : Option NodeID} {castTerm : Nat}
    (keeps : Keeps term vote k castTerm) (newer : term < term') : Keeps term' vote' k castTerm := by
  obtain ⟨below, _⟩ := keeps
  exact ⟨by omega, fun same => by omega⟩

@[simp] theorem ballots_append (net sends : List Packet) : ballots (net ++ sends) = ballots net ++ ballots sends := by
  simp [ballots]

theorem ballots_eraseIdx (net : List Packet) (i : Nat) : (ballots (net.eraseIdx i)).Sublist (ballots net) :=
  (eraseIdx_sublist net i).filterMap _

/-- What a step that concerns no votes may do to a node. -/
structure Quiet (n n' : Node) : Prop where
  id : n'.id = n.id
  term : n'.currentTerm = n.currentTerm
  vote : n'.votedFor = n.votedFor
  disk : n'.disk = n.disk
  role : n'.role = n.role ∨ n'.role = .follower
  votes : n'.role = .candidate → n'.votesReceived = n.votesReceived ∧ n'.config = n.config
  parked : n'.installing.isSome → n.installing.isSome ∨ n'.role = .follower

theorem Quiet.refl (n : Node) : Quiet n n :=
  ⟨rfl, rfl, rfl, rfl, .inl rfl, fun _ => ⟨rfl, rfl⟩, .inl⟩

theorem Counted.mono {n : Node} {net net' : List Packet} (counted : Counted n net events)
    (fewer : ballots net' ⊆ ballots net) (more : events ⊆ events') : Counted n net' events' := by
  obtain ⟨stood, voters, size, inside, cast, fresh⟩ := counted
  exact ⟨more stood, voters, size, inside, fun v member => (cast v member).mono more,
    fun v member => fresh v (fewer member)⟩

namespace Voter

variable {n n' : Node} {net net' : List Packet}

variable (x : Voter v n net events)

include x

theorem frame (cast : ∀ {k term}, Cast events' v k term → Cast events v k term)
    (count : n.role = .candidate → Counted n net events → Counted n net' events') : Voter v n net' events' := by
  exact { x with
    memory := fun vote => x.memory (cast vote)
    durable := fun vote => x.durable (cast vote)
    candidate := fun standing => count standing (x.candidate standing) }

theorem quiet (quiet : Quiet n n') : Voter v n' net events := by
  exact {
    id := quiet.id.trans x.id
    positive := by
      rw [quiet.term, quiet.disk]
      exact x.positive
    memory := by
      rw [quiet.term, quiet.vote]
      exact x.memory
    durable := by
      rw [quiet.disk]
      exact x.durable
    candidate := by
      intro standing
      -- A quiet step makes no candidate.
      have before : n.role = .candidate := by
        rcases quiet.role with same | lost
        · rw [← same, standing]
        · rw [lost] at standing
          cases standing
      obtain ⟨votes, config⟩ := quiet.votes standing
      have counted := x.candidate before
      unfold Counted at counted ⊢
      rw [quiet.id, quiet.term, votes, config]
      exact counted
    parked := by
      intro busy
      rcases quiet.parked busy with old | follower
      · rcases quiet.role with same | lost
        · rw [same]
          exact x.parked old
        · exact lost
      · exact follower }

theorem adopt (id : n'.id = n.id) (higher : n.currentTerm < n'.currentTerm) (role : n'.role = .follower)
    (disk : n'.disk = n.disk ∨ n'.disk = ⟨n'.currentTerm, n'.votedFor⟩) : Voter v n' net events := by
  exact {
    id := id.trans x.id
    positive := by
      have := x.positive
      rcases disk with same | saved
      · rw [same]
        omega
      · rw [saved]
        dsimp only
        omega
    memory := fun cast => (x.memory cast).newer higher
    durable := by
      intro k term cast
      rcases disk with same | saved
      · rw [same]
        exact x.durable cast
      · rw [saved]
        exact (x.memory cast).newer higher
    candidate := by
      rw [role]
      intro standing
      cases standing
    parked := fun _ => role }

theorem tried {d : HardState} (newer : n.currentTerm < d.currentTerm ∨
      (n.currentTerm = d.currentTerm ∧ (n.votedFor = none ∨ n.votedFor = d.votedFor))) :
    Voter v { n with disk := d } net events := by
  exact { x with
    positive := by
      have := x.positive
      dsimp only
      omega
    durable := by
      intro k term cast
      rcases newer with above | ⟨same, free⟩
      · exact (x.memory cast).newer above
      · obtain ⟨below, vote⟩ := x.memory cast
        dsimp only
        rw [← same]
        refine ⟨below, ?_⟩
        intro equal
        have kept := vote equal
        rcases free with empty | equal'
        · rw [empty] at kept
          cases kept
        · rw [← equal', kept] }

end Voter

namespace Ballots

variable {node : NodeID → Node} {net net' : List Packet}

variable {w : NodeID} {n' : Node} {term' i : Nat} {pkt : Packet}

section

variable (b : Ballots node net events)

include b

theorem set (voter : Voter v n' net events) : Ballots (update node v n') net events := by
  exact { b with
    voter := (forall_update_iff node fun w n => Voter w n net events).mpr ⟨voter, fun w _ => b.voter w⟩ }

theorem lose (i : Nat) : Ballots node (net.eraseIdx i) events := by
  have fewer := (ballots_eraseIdx net i).subset
  have inside : net.eraseIdx i ⊆ net := eraseIdx_subset
  exact { b with
    voter := fun v => (b.voter v).frame (fun cast => cast) fun _ counted =>
      counted.mono fewer fun _ => id
    nodup := b.nodup.sublist (ballots_eraseIdx net i)
    pending := fun member => b.pending (fewer member)
    asked := fun member => b.asked (inside member)
    answered := fun member => b.answered (inside member) }

theorem send {sends : List Packet}
    (silent : ∀ pkt ∈ sends, pkt.ballot = none) : Ballots node (net ++ sends) events := by
  have none : ballots sends = [] := filterMap_eq_nil_iff.mpr silent
  have same : ballots (net ++ sends) = ballots net := by simp [none]
  exact { b with
    voter := fun v => (b.voter v).frame (fun cast => cast) fun _ counted =>
      counted.mono (by rw [same]; exact fun _ => id) fun _ => id
    nodup := by
      rw [same]
      exact b.nodup
    pending := by
      rw [same]
      exact b.pending
    asked := by
      intro pkt m member isRequest
      rcases mem_append.mp member with old | new
      · exact b.asked old isRequest
      · have := silent pkt new
        simp [Packet.ballot, isRequest] at this
    answered := by
      intro pkt sender term member isGrant
      rcases mem_append.mp member with old | new
      · exact b.answered old isGrant
      · have := silent pkt new
        simp [Packet.ballot, isGrant] at this }

theorem record {new : List Event} (plain : ∀ e ∈ new, e.isVote = false) : Ballots node net (new ++ events) := by
  have more : events ⊆ new ++ events := fun _ => mem_append_right new
  have old : ∀ e : Event, e.isVote = true → e ∈ new ++ events → e ∈ events := by
    intro e isVote member
    rcases mem_append.mp member with fresh | old
    · rw [plain e fresh] at isVote
      cases isVote
    · exact old
  exact { b with
    voter := fun v => (b.voter v).frame (cast_append plain).mp fun _ counted =>
      counted.mono (fun _ => id) more
    stood_ge := fun member => b.stood_ge (old _ rfl member)
    granted_stood := fun member => more (b.granted_stood (old _ rfl member))
    unique := fun cast cast' =>
      b.unique ((cast_append plain).mp cast) ((cast_append plain).mp cast')
    pending := fun member => more (b.pending member)
    answered := fun member isGrant => more (b.answered member isGrant) }

end

theorem cast_cons_stood (cast : Cast (.stood v term :: events) w k term') :
    Cast events w k term' ∨ (w = v ∧ k = v ∧ term' = term) := by
  rcases cast with granted | ⟨rfl, stood⟩ | first
  · exact .inl (.inl (by simpa using granted))
  · rcases mem_cons.mp stood with new | old
    · injection new with candidate term
      exact .inr ⟨candidate, candidate, term⟩
    · exact .inl (.inr (.inl ⟨rfl, old⟩))
  · exact .inl (.inr (.inr first))

theorem cast_cons_granted {k' : NodeID} (cast : Cast (.granted v k term :: events) w k' term') :
    Cast events w k' term' ∨ (w = v ∧ k' = k ∧ term' = term) := by
  rcases cast with granted | ⟨rfl, stood⟩ | first
  · rcases mem_cons.mp granted with new | old
    · injection new with voter candidate term
      exact .inr ⟨voter, candidate, term⟩
    · exact .inl (.inl old)
  · exact .inl (.inr (.inl ⟨rfl, by simpa using stood⟩))
  · exact .inl (.inr (.inr first))

theorem ballots_requests (peers : List NodeID) (tag : Nat) (m : RequestVote) :
    ballots (peers.map fun p => { dst := p, tag := tag, msg := .requestVote m }) =
      peers.map fun p => (p, m.candidateID, m.term) := by
  induction peers with
  | nil => rfl
  | cons p peers ih =>
    unfold ballots at ih ⊢
    simpa [Packet.ballot] using ih

theorem stand (b : Ballots node net events) (tag : Nat) {m : RequestVote}
    (member : (node v).id ∈ (node v).config.ids) (quiet : (node v).installing = none)
    (same : n' = { node v with currentTerm := (node v).currentTerm + 1, role := .candidate
                               votedFor := some (node v).id, votesReceived := 1
                               disk := ⟨(node v).currentTerm + 1, some (node v).id⟩ })
    (sender : m.sender = (node v).id) (candidate : m.candidateID = (node v).id)
    (term : m.term = (node v).currentTerm + 1) : Ballots (update node v n')
      (net ++ (n'.votingPeers.map fun p => { dst := p, tag := tag, msg := .requestVote m }))
      (.stood (node v).id ((node v).currentTerm + 1) :: events) := by
  have x := b.voter v
  rw [x.id] at member same sender candidate ⊢
  have more : events ⊆ .stood v ((node v).currentTerm + 1) :: events := subset_cons_self _ _
  -- Nobody has voted for this node in its new term, so nothing of that term is on its way.
  have fresh : ∀ k, ¬ Cast events v k ((node v).currentTerm + 1) := by
    intro k cast
    have := (x.memory cast).1
    omega
  have clear : ∀ w, (w, v, (node v).currentTerm + 1) ∉ ballots net := fun w pending =>
    fresh v (.inr (.inl ⟨rfl, b.pending pending⟩))
  have requests := ballots_requests n'.votingPeers tag m
  rw [candidate, term] at requests
  have self : v ∉ n'.votingPeers := by simp [Node.votingPeers, same, x.id]
  have ids : n'.votingPeers.Nodup := (n'.config.sorted.imp ne_of_lt).filter _
  have counted : Counted n' (net ++ (n'.votingPeers.map fun p =>
      { dst := p, tag := tag, msg := .requestVote m }))
      (.stood v ((node v).currentTerm + 1) :: events) := by
    have id : n'.id = v := by rw [same]; exact x.id
    have now : n'.currentTerm = (node v).currentTerm + 1 := by rw [same]
    refine ⟨by rw [id, now]; exact mem_cons_self, {v}, by simp [same], ?_, ?_, ?_⟩
    · rw [same]
      simpa using member
    · intro w isSelf
      rw [Finset.mem_singleton] at isSelf
      rw [isSelf, id, now]
      exact .inr (.inl ⟨rfl, mem_cons_self⟩)
    · intro w pending
      rw [ballots_append, requests, mem_append, id, now] at pending
      rcases pending with old | new
      · exact absurd old (clear w)
      · obtain ⟨p, peer, equal⟩ := mem_map.mp new
        obtain rfl : p = w := (Prod.mk.injEq .. ▸ equal).1
        refine ⟨?_, (mem_filter.mp peer).1⟩
        rw [Finset.mem_singleton]
        rintro rfl
        exact self peer
  exact {
    voter := by
      refine (forall_update_iff node fun w n => Voter w n _ _).mpr ⟨?_, ?_⟩
      · exact {
          id := by rw [same]; exact x.id
          positive := by
            rw [same]
            exact ⟨Nat.succ_pos _, Nat.succ_pos _⟩
          memory := by
            intro k castTerm cast
            rw [same]
            rcases cast_cons_stood cast with old | ⟨_, rfl, rfl⟩
            · exact (x.memory old).newer (Nat.lt_succ_self _)
            · exact ⟨le_refl _, fun _ => rfl⟩
          durable := by
            intro k castTerm cast
            rw [same]
            rcases cast_cons_stood cast with old | ⟨_, rfl, rfl⟩
            · exact (x.memory old).newer (Nat.lt_succ_self _)
            · exact ⟨le_refl _, fun _ => rfl⟩
          candidate := fun _ => counted
          parked := by
            rw [same]
            dsimp only
            rw [quiet]
            intro busy
            cases busy }
      · intro w other
        refine (b.voter w).frame ?_ ?_
        · intro k castTerm cast
          rcases cast_cons_stood cast with old | ⟨equal, _⟩
          · exact old
          · exact absurd equal other
        · rintro - ⟨stood, voters, size, inside, cast, away⟩
          refine ⟨more stood, voters, size, inside, fun u h => (cast u h).mono more, ?_⟩
          intro u pending
          rw [ballots_append, requests, mem_append] at pending
          rcases pending with old | new
          · exact away u old
          · -- The new requests are for this candidate, not for another one.
            obtain ⟨p, _, equal⟩ := mem_map.mp new
            simp only [Prod.mk.injEq] at equal
            exact absurd (equal.2.1.trans (b.voter w).id).symm other
    stood_ge := by
      intro k castTerm stood
      rcases mem_cons.mp stood with new | old
      · injection new with _ equal
        have := x.positive.1
        omega
      · exact b.stood_ge old
    granted_stood := fun granted => more (b.granted_stood (by simpa using granted))
    unique := by
      intro w k k' castTerm cast cast'
      rcases cast_cons_stood cast with old | ⟨rfl, rfl, rfl⟩
      · rcases cast_cons_stood cast' with old' | ⟨rfl, rfl, rfl⟩
        · exact b.unique old old'
        · exact absurd old (fresh k)
      · rcases cast_cons_stood cast' with old' | ⟨_, rfl, _⟩
        · exact absurd old' (fresh k')
        · rfl
    nodup := by
      rw [ballots_append, requests]
      refine nodup_append.mpr ⟨b.nodup, ?_, ?_⟩
      · exact ids.map fun p p' equal => (Prod.mk.injEq .. ▸ equal).1
      · rintro x old y new rfl
        obtain ⟨p, _, rfl⟩ := mem_map.mp new
        exact clear p old
    pending := by
      intro w k castTerm pending
      rw [ballots_append, requests, mem_append] at pending
      rcases pending with old | new
      · exact more (b.pending old)
      · obtain ⟨p, _, equal⟩ := mem_map.mp new
        simp only [Prod.mk.injEq] at equal
        obtain ⟨_, rfl, rfl⟩ := equal
        exact mem_cons_self
    asked := by
      intro pkt m' member isRequest
      rcases mem_append.mp member with old | new
      · exact b.asked old isRequest
      · obtain ⟨p, _, rfl⟩ := mem_map.mp new
        injection isRequest with equal
        rw [← equal, sender, candidate]
    answered := by
      intro pkt w castTerm member isGrant
      rcases mem_append.mp member with old | new
      · exact more (b.answered old isGrant)
      · obtain ⟨p, _, rfl⟩ := mem_map.mp new
        cases isGrant }

theorem ballots_perm {vote : NodeID × NodeID × Nat} (found : net[i]? = some pkt) (carries : pkt.ballot = some vote) :
    (vote :: ballots (net.eraseIdx i)).Perm (ballots net) := by
  induction net generalizing i with
  | nil => simp at found
  | cons first rest ih =>
    unfold ballots at ih ⊢
    cases i with
    | zero =>
      simp only [getElem?_cons_zero, Option.some.injEq] at found
      subst found
      simp [carries]
    | succ i =>
      rw [getElem?_cons_succ] at found
      have later := ih found
      cases own : first.ballot with
      | none => simpa [own] using later
      | some x =>
        simp only [eraseIdx_cons_succ, filterMap_cons, own]
        exact (List.Perm.swap x vote _).trans (later.cons x)

theorem grant (b : Ballots node net events) (tag : Nat) (found : net[i]? = some pkt)
    (carries : pkt.ballot = some (v, k, (node v).currentTerm))
    (free : (node v).votedFor = none ∨ (node v).votedFor = some k)
    (same : n' = { node v with votedFor := some k, disk := ⟨(node v).currentTerm, some k⟩ }) :
    Ballots (update node v n')
      (net.eraseIdx i ++
        [{ dst := k, tag := tag
           msg := .requestVoteResponse (node v).id (node v).currentTerm true }])
      (.granted (node v).id k (node v).currentTerm :: events) := by
  have x := b.voter v
  rw [x.id]
  have more : events ⊆ .granted v k (node v).currentTerm :: events := subset_cons_self _ _
  -- The answer takes the place of the request.
  have moved : (ballots (net.eraseIdx i ++ [{
      dst := k, tag := tag, msg := .requestVoteResponse v (node v).currentTerm true }])).Perm
      (ballots net) := by
    rw [ballots_append]
    exact perm_append_comm.trans (ballots_perm found carries)
  have stood := b.pending ((ballots_perm found carries).subset mem_cons_self)
  have only : ∀ k', Cast events v k' (node v).currentTerm → k' = k := by
    intro k' cast
    have vote := (x.memory cast).2 rfl
    rcases free with empty | equal
    · rw [empty] at vote
      cases vote
    · rw [equal] at vote
      exact (Option.some.inj vote).symm
  exact {
    voter := by
      refine (forall_update_iff node fun w n => Voter w n _ _).mpr ⟨?_, ?_⟩
      · exact {
          id := by rw [same]; exact x.id
          positive := by
            rw [same]
            exact ⟨x.positive.1, x.positive.1⟩
          memory := by
            intro k' castTerm cast
            rw [same]
            rcases cast_cons_granted cast with old | ⟨_, rfl, rfl⟩
            · refine ⟨(x.memory old).1, ?_⟩
              rintro rfl
              rw [only k' old]
            · exact ⟨le_refl _, fun _ => rfl⟩
          durable := by
            intro k' castTerm cast
            rw [same]
            rcases cast_cons_granted cast with old | ⟨_, rfl, rfl⟩
            · refine ⟨(x.memory old).1, ?_⟩
              rintro rfl
              rw [only k' old]
            · exact ⟨le_refl _, fun _ => rfl⟩
          candidate := by
            rw [same]
            exact fun standing => (x.candidate standing).mono moved.subset more
          parked := by
            rw [same]
            exact x.parked }
      · intro w other
        refine (b.voter w).frame ?_ fun _ counted => counted.mono moved.subset more
        intro k' castTerm cast
        rcases cast_cons_granted cast with old | ⟨equal, _⟩
        · exact old
        · exact absurd equal other
    stood_ge := fun member => b.stood_ge (by simpa using member)
    granted_stood := by
      intro w k' castTerm granted
      rcases mem_cons.mp granted with new | old
      · injection new with _ candidate term
        rw [candidate, term]
        exact more stood
      · exact more (b.granted_stood old)
    unique := by
      intro w k₁ k₂ castTerm cast cast'
      rcases cast_cons_granted cast with old | ⟨rfl, rfl, rfl⟩
      · rcases cast_cons_granted cast' with old' | ⟨rfl, rfl, rfl⟩
        · exact b.unique old old'
        · exact only k₁ old
      · rcases cast_cons_granted cast' with old' | ⟨_, rfl, _⟩
        · exact (only k₂ old').symm
        · rfl
    nodup := moved.nodup_iff.mpr b.nodup
    pending := fun member => more (b.pending (moved.subset member))
    asked := by
      intro pkt' m member isRequest
      rcases mem_append.mp member with old | new
      · exact b.asked (eraseIdx_subset old) isRequest
      · rw [mem_singleton.mp new] at isRequest
        cases isRequest
    answered := by
      intro pkt' w castTerm member isGrant
      rcases mem_append.mp member with old | new
      · exact more (b.answered (eraseIdx_subset old) isGrant)
      · rw [mem_singleton.mp new] at isGrant ⊢
        injection isGrant with voter term
        rw [← voter, ← term]
        exact mem_cons_self }

theorem count (b : Ballots node net events) {sender : NodeID} (found : net[i]? = some pkt) (to_ : pkt.dst = k)
    (isGrant : pkt.msg = .requestVoteResponse sender (node k).currentTerm true)
    (standing : (node k).role = .candidate) :
    Counted { node k with votesReceived := (node k).votesReceived + 1 } (net.eraseIdx i)
      events := by
  have id := (b.voter k).id
  have carries : pkt.ballot = some (sender, k, (node k).currentTerm) := by
    simp [Packet.ballot, isGrant, to_]
  have granted := b.answered (mem_of_getElem? found) isGrant
  rw [to_] at granted
  have perm := ballots_perm found carries
  obtain ⟨stood, voters, size, inside, cast, fresh⟩ := (b.voter k).candidate standing
  rw [id] at stood cast fresh
  obtain ⟨new, member⟩ := fresh sender (perm.subset mem_cons_self)
  refine ⟨by rw [id]; exact stood, insert sender voters, ?_, ?_, ?_, ?_⟩
  · rw [Finset.card_insert_of_notMem new, size]
  · exact Finset.insert_subset member inside
  · intro w voter
    dsimp only
    rw [id]
    rcases Finset.mem_insert.mp voter with rfl | old
    · exact .inl granted
    · exact cast w old
  · intro w pending
    dsimp only at pending ⊢
    rw [id] at pending
    obtain ⟨away, inConfig⟩ := fresh w (perm.subset (mem_cons_of_mem _ pending))
    refine ⟨?_, inConfig⟩
    -- The arrived vote was on its way only once.
    rw [Finset.mem_insert]
    rintro (rfl | old)
    · exact (nodup_cons.mp (perm.nodup_iff.mpr b.nodup)).1 pending
    · exact away old

end Ballots

end Cluster
