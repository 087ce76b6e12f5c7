import LittleDb.Cluster.Discipline
import LittleDb.Cluster.Protocol
import LittleDb.Cluster.VotingRun

/-! The log indices of a node: the order that every handler keeps them in. -/

namespace Cluster

open Function List Option

variable {term : Nat}

namespace RaftLog

variable {l : RaftLog}

variable {idx bound : Nat} {shipped : List Entry}

theorem term_known (above : l.baseIndex ≤ idx) (inside : idx ≤ l.lastIndex) : ∃ t, l.term idx = some t := by
  unfold term entryAt
  split_ifs with base low
  · exact ⟨_, rfl⟩
  · omega
  · have bound : idx - l.baseIndex - 1 < l.entries.length := by
      unfold lastIndex at inside
      omega
    exact ⟨_, by rw [getElem?_eq_getElem bound]; rfl⟩

theorem entryAt_known (above : l.baseIndex < idx) (inside : idx ≤ l.lastIndex) : ∃ e, l.entryAt idx = some e := by
  unfold entryAt
  rw [if_neg (by omega)]
  have bound : idx - l.baseIndex - 1 < l.entries.length := by
    unfold lastIndex at inside
    omega
  exact ⟨_, getElem?_eq_getElem bound⟩

theorem term_inside {t : Nat} (known : l.term idx = some t) : idx ≤ l.lastIndex := by
  unfold term entryAt at known
  unfold lastIndex
  split_ifs at known with base low
  · omega
  · cases known
  · obtain ⟨e, found, _⟩ := map_eq_some_iff.mp known
    have := (List.getElem?_eq_some_iff.mp found).1
    omega

theorem baseIndex_compactTo_le (l : RaftLog) (newBaseIndex newBaseTerm : Nat)
    (above : l.baseIndex ≤ newBaseIndex) : (l.compactTo newBaseIndex newBaseTerm).baseIndex ≤ newBaseIndex := by
  unfold compactTo
  split_ifs
  · exact above
  · exact le_refl _

theorem le_lastIndex_truncateFrom (held : bound ≤ l.lastIndex) (behind : bound < idx) :
    bound ≤ (l.truncateFrom idx).lastIndex := by
  unfold truncateFrom
  split_ifs with compacted inside
  · exact held
  · simp only [lastIndex, length_take] at held inside ⊢
    omega
  · exact held

/-- Shipped entries from an index on agree with the log up to a bound. -/
def agreesUpTo (l : RaftLog) (bound idx : Nat) : List Entry → Bool
  | [] => true
  | e :: rest =>
    (decide (idx ≤ l.baseIndex) || decide (bound < idx) || decide (l.term idx = some e.term)) &&
      l.agreesUpTo bound (idx + 1) rest

theorem agreesUpTo_cons (bound idx : Nat) (e : Entry) (rest : List Entry) :
    l.agreesUpTo bound idx (e :: rest) =
      ((decide (idx ≤ l.baseIndex) || decide (bound < idx) || decide (l.term idx = some e.term)) &&
        l.agreesUpTo bound (idx + 1) rest) := rfl

theorem agreesUpTo_behind (behind : bound < idx) (shipped : List Entry) : l.agreesUpTo bound idx shipped = true := by
  induction shipped generalizing idx with
  | nil => rfl
  | cons e rest ih => simp [agreesUpTo_cons, behind, ih (Nat.lt_succ_of_lt behind)]

theorem agreesUpTo_take (count : Nat) (agrees : l.agreesUpTo bound idx shipped = true) :
    l.agreesUpTo bound idx (shipped.take count) = true := by
  induction shipped generalizing idx count with
  | nil => simpa using agrees
  | cons e rest ih =>
    cases count with
    | zero => rfl
    | succ count =>
      simp only [agreesUpTo_cons, Bool.and_eq_true, take_succ_cons] at agrees ⊢
      exact ⟨agrees.1, ih count agrees.2⟩

theorem agreesUpTo_at {k : Nat} {e : Entry}
    (agrees : l.agreesUpTo bound idx shipped = true) (found : shipped[k]? = some e)
    (above : l.baseIndex < idx + k) (inside : idx + k ≤ bound) : l.term (idx + k) = some e.term := by
  induction shipped generalizing idx k with
  | nil => cases found
  | cons first rest ih =>
    simp only [agreesUpTo_cons, Bool.and_eq_true, Bool.or_eq_true, decide_eq_true_eq] at agrees
    cases k with
    | zero =>
      obtain rfl : first = e := by simpa using found
      rcases agrees.1 with (low | behind) | same
      · omega
      · omega
      · exact same
    | succ k =>
      have next := ih agrees.2 (by simpa using found) (by omega) (by omega)
      rwa [Nat.add_right_comm] at next

theorem appendWindow_agreeing (agrees : l.agreesUpTo bound idx shipped = true)
    (short : idx + shipped.length ≤ bound + 1) : (l.appendWindow idx shipped).1 = l := by
  induction shipped generalizing idx with
  | nil => rfl
  | cons e rest ih =>
    simp only [agreesUpTo_cons, Bool.and_eq_true, Bool.or_eq_true, decide_eq_true_eq] at agrees
    rw [length_cons] at short
    unfold appendWindow
    split_ifs with compacted known
    · exact ih agrees.2 (by omega)
    · exact ih agrees.2 (by omega)
    · rcases agrees.1 with (low | behind) | same
      · exact absurd low compacted
      · omega
      · exact absurd ⟨term_inside same, same⟩ known

@[simp] theorem baseIndex_appendWindow (l : RaftLog) (idx : Nat) (shipped : List Entry) :
    (l.appendWindow idx shipped).1.baseIndex = l.baseIndex := by
  induction shipped generalizing l idx with
  | nil => rfl
  | cons e rest ih =>
    unfold appendWindow
    split_ifs
    · exact ih ..
    · exact ih ..
    · rw [ih]
      split_ifs <;> simp

theorem le_lastIndex_appendWindow (held : bound ≤ l.lastIndex) (agrees : l.agreesUpTo bound idx shipped = true) :
    bound ≤ (l.appendWindow idx shipped).1.lastIndex := by
  induction shipped generalizing l idx with
  | nil => exact held
  | cons e rest ih =>
    simp only [agreesUpTo_cons, Bool.and_eq_true, Bool.or_eq_true, decide_eq_true_eq] at agrees
    unfold appendWindow
    split_ifs with compacted known
    · exact ih held agrees.2
    · exact ih held agrees.2
    · -- Something is dropped or appended here, so this index lies behind the bound.
      have behind : bound < idx := by
        rcases agrees.1 with (low | behind) | same
        · exact absurd low compacted
        · exact behind
        · exact absurd ⟨term_inside same, same⟩ known
      refine ih ?_ (agreesUpTo_behind (Nat.lt_succ_of_lt behind) rest)
      rw [lastIndex_append]
      split_ifs
      · exact (le_lastIndex_truncateFrom held behind).trans (Nat.le_succ _)
      · exact held.trans (Nat.le_succ _)

theorem le_lastIndex_stopInWindow {m : AppendEntries} (count : Nat) (cut : Bool) (held : bound ≤ l.lastIndex)
    (agrees : l.agreesUpTo bound (m.prevLogIndex + 1) m.entries = true) :
    bound ≤ (l.stopInWindow m count cut).lastIndex := by
  have stored := le_lastIndex_appendWindow held (agreesUpTo_take count agrees)
  unfold stopInWindow
  dsimp only
  split
  · next e found =>
    split_ifs with conflict
    · refine le_lastIndex_truncateFrom stored ?_
      -- Up to the bound nothing was stored, so the entry at the cut agrees.
      by_contra low
      obtain ⟨_, above, _, differs⟩ := conflict
      have same := appendWindow_agreeing (agreesUpTo_take count agrees) (by rw [length_take]; omega)
      rw [same] at above differs
      exact differs (agreesUpTo_at agrees found above (by omega))
    · exact stored
  · exact stored

end RaftLog

namespace Node

/-- The indices kept for a peer lie in the log. -/
def Within (n : Node) (p : NodeID) : Prop :=
  1 ≤ n.nextIndex p ∧ n.nextIndex p ≤ n.log.lastIndex + 1 ∧ n.matchIndex p ≤ n.log.lastIndex

structure Kept (n : Node) : Prop where
  base : n.log.baseIndex ≤ n.lastApplied
  reached : n.lastApplied ≤ n.stored
  stored : n.stored ≤ n.commitIndex
  committed : n.commitIndex ≤ n.log.lastIndex
  foreign : ∀ p, p ∉ n.peers → n.matchIndex p = 0
  leading : n.role = .leader → ∀ p ∈ n.peers, n.Within p
  installing : n.installing.isSome = true → n.role = .follower

/-- Beside its replicators a node gets a new term, or loses no entries. -/
structure Later (n n' : Node) : Prop where
  peers : n.peers ⊆ n'.peers
  term : n.currentTerm ≤ n'.currentTerm
  candidate : n'.role = .candidate →
    (n.role = .candidate ∧ n'.currentTerm = n.currentTerm) ∨ n.currentTerm < n'.currentTerm
  leader : n'.role = .leader → n.role = .leader ∧ n.log.lastIndex ≤ n'.log.lastIndex ∨
    n.role = .candidate ∨ n.currentTerm < n'.currentTerm

/-- How a node can change while its apply loop is at work. -/
structure Steady (n n' : Node) : Prop where
  applied : n'.lastApplied = n.lastApplied
  stored : n'.stored = n.stored
  committed : n.commitIndex ≤ n'.commitIndex

structure Moves (n n' : Node) : Prop where
  kept : n'.Kept
  later : n.Later n'
  steady : n.Steady n'

variable {n n' n'' : Node}

theorem Later.refl (n : Node) : n.Later n :=
  ⟨fun _ member => member, le_refl _, fun role => .inl ⟨role, rfl⟩, fun role => .inl ⟨role, le_refl _⟩⟩

theorem Later.trans (first : n.Later n') (second : n'.Later n'') : n.Later n'' := by
  refine ⟨fun _ member => second.peers (first.peers member), first.term.trans second.term,
    fun role => ?_, fun role => ?_⟩
  · rcases second.candidate role with ⟨before, same⟩ | higher
    · rcases first.candidate before with ⟨before', same'⟩ | higher
      · exact .inl ⟨before', same.trans same'⟩
      · exact .inr (same ▸ higher)
    · exact .inr (first.term.trans_lt higher)
  · rcases second.leader role with ⟨before, grown⟩ | before | higher
    · rcases first.leader before with ⟨before', grown'⟩ | before' | higher
      · exact .inl ⟨before', grown'.trans grown⟩
      · exact .inr (.inl before')
      · exact .inr (.inr (higher.trans_le second.term))
    · rcases first.candidate before with ⟨before', _⟩ | higher
      · exact .inr (.inl before')
      · exact .inr (.inr (higher.trans_le second.term))
    · exact .inr (.inr (first.term.trans_lt higher))

theorem Moves.refl (kept : n.Kept) : n.Moves n := ⟨kept, .refl n, ⟨rfl, rfl, le_refl _⟩⟩

theorem Moves.trans (first : n.Moves n') (second : n'.Moves n'') : n.Moves n'' :=
  ⟨second.kept, first.later.trans second.later, ⟨second.steady.applied.trans first.steady.applied,
    second.steady.stored.trans first.steady.stored,
    first.steady.committed.trans second.steady.committed⟩⟩

theorem Kept.aside (kept : n.Kept) (same : n' = { n with
    up := n'.up, votedFor := n'.votedFor, config := n'.config, baseConfig := n'.baseConfig
    transferring := n'.transferring, lastLeaderContact := n'.lastLeaderContact
    votesReceived := n'.votesReceived, respCh := n'.respCh, disk := n'.disk }) : n.Moves n' := by
  rw [same]
  exact ⟨⟨kept.base, kept.reached, kept.stored, kept.committed, kept.foreign, kept.leading,
    kept.installing⟩, ⟨fun _ member => member, le_refl _, fun role => .inl ⟨role, rfl⟩,
      fun role => .inl ⟨role, le_refl _⟩⟩, ⟨rfl, rfl, le_refl _⟩⟩

namespace Kept

variable (kept : n.Kept)

include kept

theorem applied : n.lastApplied ≤ n.commitIndex := kept.reached.trans kept.stored

theorem persist (save : Save) : n.Moves (n.persist save) := by
  unfold Node.persist
  split_ifs
  · exact kept.aside rfl
  · exact .refl kept

theorem follow (higher : n.currentTerm ≤ term) : n.Moves { n with role := .follower, currentTerm := term } :=
  ⟨⟨kept.base, kept.reached, kept.stored, kept.committed, kept.foreign, nofun, fun _ => rfl⟩,
    ⟨fun _ member => member, higher, nofun, nofun⟩, ⟨rfl, rfl, le_refl _⟩⟩

theorem stepDown (higher : n.currentTerm ≤ term) (save : Save) : n.Moves (n.stepDown term save) := by
  have followed := kept.follow higher
  have reset : Moves _ { n with
      currentTerm := term, role := .follower, votedFor := none, transferring := false } :=
    followed.kept.aside rfl
  exact (followed.trans reset).trans (reset.kept.persist save)

theorem catchUp (term : Nat) (save : Save) : n.Moves (n.catchUp term save) := by
  unfold Node.catchUp
  split_ifs with higher
  · exact kept.stepDown higher.le save
  · exact .refl kept

theorem deferTo (now : Nat) : n.Moves (n.deferTo now) :=
  (kept.follow (le_refl _)).trans ((kept.follow (le_refl _)).kept.aside rfl)

theorem maybeStartElection (leaderTransfer : Bool) (tag : Nat) (save : Save) :
    n.Moves (n.maybeStartElection leaderTransfer tag save).node := by
  rcases n.maybeStartElection_cases leaderTransfer tag save with
    same | ⟨_, free, _, stood | ⟨-, saved⟩⟩
  · rw [same]
    exact .refl kept
  · rw [stood]
    refine ⟨⟨kept.base, kept.reached, kept.stored, kept.committed, kept.foreign, nofun,
      fun busy => ?_⟩, ⟨fun _ member => member, Nat.le_succ _, fun _ => .inr (Nat.lt_succ_self _), nofun⟩,
      ⟨rfl, rfl, le_refl _⟩⟩
    rw [free] at busy
    cases busy
  · rw [saved]
    exact kept.aside rfl

theorem handleTimeoutNow (term tag : Nat) (save : Save) : n.Moves (n.handleTimeoutNow term tag save).node := by
  unfold Node.handleTimeoutNow
  split_ifs
  · exact .refl kept
  · exact kept.maybeStartElection ..

theorem handleRequestVote (settings : Settings) (now : Nat) (m : RequestVote) (tag : Nat) (saveTerm saveVote : Save) :
    n.Moves (n.handleRequestVote settings now m tag saveTerm saveVote).node := by
  unfold Node.handleRequestVote
  split_ifs
  · exact .refl kept
  · have adopted := kept.catchUp m.term saveTerm
    refine adopted.trans ?_
    rcases (n.catchUp m.term saveTerm).considerVote_cases m tag saveVote with
      ⟨_, _, _, granted⟩ | ⟨d, _, refused⟩
    · rw [granted]
      exact adopted.kept.aside rfl
    · rw [refused]
      exact adopted.kept.aside rfl

theorem ensurePeer (id : NodeID) : n.Moves (n.ensurePeer id) := by
  unfold Node.ensurePeer
  split_ifs with known
  · exact .refl kept
  · refine ⟨⟨kept.base, kept.reached, kept.stored, kept.committed, fun p absent => ?_, fun role p member => ?_,
      kept.installing⟩, ⟨fun p member => by simp [member], le_refl _, fun role => .inl ⟨role, rfl⟩,
        fun role => .inl ⟨role, le_refl _⟩⟩, ⟨rfl, rfl, le_refl _⟩⟩
    · have other : p ≠ id := by
        rintro rfl
        simp at absent
      have absent' : p ∉ n.peers := fun member => absent (by simp [member])
      simpa [update_of_ne other] using kept.foreign p absent'
    · by_cases same : p = id
      · subst same
        simp [Within]
      · have inside : p ∈ n.peers := by simpa [same] using member
        simpa [Within, update_of_ne same] using kept.leading role p inside

end Kept

theorem nextIndex_reconcilePeers (n : Node) {p : NodeID} (member : p ∈ n.peers) :
    n.reconcilePeers.nextIndex p = n.nextIndex p := by
  have all : ∀ (ids : List NodeID) (n : Node), p ∈ n.peers →
      (ids.foldl Node.ensurePeer n).nextIndex p = n.nextIndex p := by
    intro ids
    induction ids with
    | nil => exact fun n _ => rfl
    | cons id ids ih =>
      intro n inside
      obtain ⟨peers, next, known, replies, equal, _, _, more, _⟩ := n.ensurePeer_eq id
      have still : p ∈ (n.ensurePeer id).peers := by
        rw [equal]
        exact more inside
      rw [foldl_cons, ih _ still]
      unfold Node.ensurePeer
      split_ifs with known
      · rfl
      · have other : p ≠ id := fun same => known (.inr (same ▸ inside))
        simp [update_of_ne other]
  exact all _ n member

theorem nextIndex_becomeLeader (n : Node) (p : NodeID) :
    (p ∈ n.votingPeers → n.becomeLeader.nextIndex p = n.log.lastIndex + 1) ∧
      (p ∈ n.peers → p ∉ n.votingPeers → n.becomeLeader.nextIndex p = n.nextIndex p) := by
  have kept := fun member : p ∈ n.peers =>
    nextIndex_reconcilePeers { n with role := .leader, transferring := false } member
  obtain ⟨peers, next, known, replies, equal, _⟩ :=
    { n with role := .leader, transferring := false }.reconcilePeers_eq
  unfold becomeLeader
  rw [equal] at kept ⊢
  exact ⟨fun voter => if_pos voter, fun member other => (if_neg other).trans (kept member)⟩

/-- Entries that the node would store agree with what it has committed. -/
def AgreesWith (n : Node) (m : AppendEntries) : Prop :=
  n.currentTerm ≤ m.term → n.log.matchesPrev m.prevLogIndex m.prevLogTerm = true →
    n.log.agreesUpTo n.commitIndex (m.prevLogIndex + 1) m.entries = true

/-- A vote that elects finds no outside peers beyond its log. -/
def ElectsWithin (n : Node) (term : Nat) (voteGranted : Bool) : Prop :=
  n.elects term voteGranted = true → ∀ p ∈ n.peers, p ∈ n.votingPeers ∨ n.Within p

/-- A rejection that a leader follows asks for no index beyond its log. -/
def BacksWithin (n : Node) (term : Nat) (resp : Response) : Prop :=
  n.role = .leader → term = n.currentTerm → resp.term ≤ n.currentTerm → resp.success = false →
    resp.conflictHint ≤ n.log.lastIndex + 1

theorem log_catchUp (n : Node) (term : Nat) (save : Save) : (n.catchUp term save).log = n.log ∧
    (n.catchUp term save).commitIndex = n.commitIndex ∧ (n.catchUp term save).stored = n.stored := by
  unfold catchUp stepDown persist
  split_ifs <;> exact ⟨rfl, rfl, rfl⟩

namespace Kept

theorem becomeLeader (kept : n.Kept) (stood : n.role = .candidate)
    (outside : ∀ p ∈ n.peers, p ∈ n.votingPeers ∨ n.Within p) : n.Moves n.becomeLeader := by
  have starts := n.nextIndex_becomeLeader
  obtain ⟨peers, next, known, replies, equal, forgets, reset, _, more, source⟩ := n.becomeLeader_eq
  rw [equal] at starts ⊢
  refine ⟨⟨kept.base, kept.reached, kept.stored, kept.committed, fun p absent => ?_,
    fun _ p member => ?_, fun busy => ?_⟩, ⟨more, le_refl _, nofun, fun _ => .inr (.inl stood)⟩,
    ⟨rfl, rfl, le_refl _⟩⟩
  · rcases forgets p with same | zero
    · exact same.trans (kept.foreign p fun member => absent (more member))
    · exact zero
  · by_cases voter : p ∈ n.votingPeers
    · have first := (starts p).1 voter
      have none := reset p voter
      simp only at first
      simp only [Within, first, none]
      omega
    · -- A peer outside the configuration had a replicator before.
      have old : p ∈ n.peers := by
        rcases source p member with old | ⟨inside, other⟩
        · exact old
        · exact absurd (mem_filter.mpr ⟨inside, by simpa using other⟩) voter
      obtain ⟨low, high, held⟩ := (outside p old).resolve_left voter
      have same := (starts p).2 old voter
      simp only at same
      refine ⟨by simpa only [same] using low, by simpa only [same] using high, ?_⟩
      rcases forgets p with unchanged | zero
      · exact unchanged.trans_le held
      · exact zero.trans_le (Nat.zero_le _)
  · have follows := kept.installing busy
    rw [stood] at follows
    cases follows

variable {idx : Nat} {m : AppendEntries} {p : NodeID}

section

variable (kept : n.Kept)

include kept

theorem handleVoteResponse {voteGranted : Bool} {save : Save} (outside : n.ElectsWithin term voteGranted) :
    n.Moves (n.handleVoteResponse term voteGranted save).node := by
  unfold Node.handleVoteResponse
  dsimp only
  split_ifs with higher other granted won
  · exact kept.stepDown higher.le save
  · exact .refl kept
  · simp only [ne_eq, not_or, not_not] at other
    obtain ⟨stood, current⟩ := other
    subst granted
    have counted : n.Moves { n with votesReceived := n.votesReceived + 1 } := kept.aside rfl
    exact counted.trans (counted.kept.becomeLeader stood (outside (decide_eq_true ⟨stood, current, won⟩)))
  · exact kept.aside rfl
  · exact .refl kept

theorem storeEntries (follows : n.role = .follower)
    (agrees : n.log.agreesUpTo n.commitIndex (m.prevLogIndex + 1) m.entries = true) : n.Moves (n.storeEntries m) := by
  have held := RaftLog.le_lastIndex_appendWindow kept.committed agrees
  have base := RaftLog.baseIndex_appendWindow n.log (m.prevLogIndex + 1) m.entries
  refine ⟨⟨?_, kept.reached, ?_, ?_, kept.foreign, fun leads => ?_, kept.installing⟩,
    ⟨fun _ member => member, le_refl _, fun stood => ?_, fun leads => ?_⟩,
    ⟨rfl, rfl, le_max_left ..⟩⟩
  · exact base.trans_le kept.base
  · exact kept.stored.trans (le_max_left ..)
  · exact max_le held (min_le_right ..)
  · exact absurd (follows.symm.trans leads) (by decide)
  · exact absurd (follows.symm.trans stood) (by decide)
  · exact absurd (follows.symm.trans leads) (by decide)

theorem handleAppendEntries (now : Nat) (tag : Nat) (save : Save) (agrees : n.AgreesWith m) :
    n.Moves (n.handleAppendEntries now m tag save).node := by
  have adopted := kept.catchUp m.term save
  have deferred := adopted.trans (adopted.kept.deferTo now)
  obtain ⟨log, commit, _⟩ := n.log_catchUp m.term save
  unfold Node.handleAppendEntries
  dsimp only
  split_ifs with stale matched
  · exact .refl kept
  · simp only [Node.deferTo, log] at matched
    refine deferred.trans (deferred.kept.storeEntries rfl ?_)
    simpa only [Node.deferTo, log, commit] using agrees (not_lt.mp stale) matched
  · exact deferred

theorem handleInstallSnapshot (now : Nat) (m : InstallSnapshot) (tag : Nat) (save : Save) :
    n.Moves (n.handleInstallSnapshot now m tag save).node := by
  have adopted := kept.catchUp m.term save
  have deferred := adopted.trans (adopted.kept.deferTo now)
  unfold Node.handleInstallSnapshot
  dsimp only
  split_ifs
  · exact .refl kept
  · exact deferred
  · have now := deferred.kept
    exact deferred.trans ⟨⟨now.base, now.reached, now.stored, now.committed, now.foreign, nofun,
      fun _ => rfl⟩, ⟨fun _ member => member, le_refl _, nofun, nofun⟩, ⟨rfl, rfl, le_refl _⟩⟩

theorem completeInstall {m : InstallSnapshot} {tag : Nat} (busy : n.installing = some (m, tag)) :
    (n.completeInstall m tag).node.Kept ∧ n.Later (n.completeInstall m tag).node := by
  have follows : n.role = .follower := kept.installing (by rw [busy]; rfl)
  refine ⟨⟨le_refl _, le_refl _, le_refl _, le_refl _, kept.foreign, fun leads => ?_, nofun⟩,
    ⟨fun _ member => member, le_refl _, fun stood => ?_, fun leads => ?_⟩⟩
  · exact absurd (follows.symm.trans leads) (by decide)
  · exact absurd (follows.symm.trans stood) (by decide)
  · exact absurd (follows.symm.trans leads) (by decide)

theorem matchIndex_le (leads : n.role = .leader) (p : NodeID) : n.matchIndex p ≤ n.log.lastIndex := by
  by_cases member : p ∈ n.peers
  · exact (kept.leading leads p member).2.2
  · rw [kept.foreign p member]
    exact Nat.zero_le _

theorem maybeAdvanceCommit (leads : n.role = .leader) :
    ∃ n' events, n.maybeAdvanceCommit = some (n', events) ∧ n.Moves n' := by
  cases result : n.maybeAdvanceCommit with
  | none =>
    exfalso
    unfold Node.maybeAdvanceCommit at result
    dsimp only at result
    split at result
    · cases result
    · next cand median =>
      -- The median is a match index or the own last index.
      have inside : cand ≤ n.log.lastIndex := by
        have listed := (mem_insertionSort _).mp (mem_of_getElem? median)
        rcases mem_append.mp listed with own | other
        · split_ifs at own
          · exact (mem_singleton.mp own).le
          · cases own
        · obtain ⟨p, _, rfl⟩ := mem_map.mp other
          exact kept.matchIndex_le leads p
      split_ifs at result with above
      have low : n.log.baseIndex ≤ cand := (kept.base.trans kept.applied).trans above.le
      obtain ⟨t, known⟩ := RaftLog.term_known low inside
      simp only [known] at result
      split_ifs at result
  | some done =>
    obtain ⟨n', events⟩ := done
    refine ⟨n', events, rfl, ?_⟩
    rcases n.maybeAdvanceCommit_cases result with ⟨rfl, _⟩ | ⟨cand, above, known, rfl, _⟩
    · exact .refl kept
    · exact ⟨⟨kept.base, kept.reached, kept.stored.trans above.le, RaftLog.term_inside known,
        kept.foreign, kept.leading, kept.installing⟩, ⟨fun _ member => member, le_refl _,
          fun role => .inl ⟨role, rfl⟩, fun role => .inl ⟨role, le_refl _⟩⟩, ⟨rfl, rfl, above.le⟩⟩

theorem maybeCompact (settings : Settings) : ∃ n', n.maybeCompact settings = some n' ∧ n.Moves n' := by
  unfold Node.maybeCompact
  split_ifs
  · exact ⟨n, rfl, .refl kept⟩
  · obtain ⟨t, known⟩ := RaftLog.term_known kept.base (kept.applied.trans kept.committed)
    rw [known]
    refine ⟨_, rfl, ⟨⟨?_, kept.reached, kept.stored, ?_, kept.foreign, fun leads p member => ?_,
      kept.installing⟩, ⟨fun _ member => member, le_refl _, fun role => .inl ⟨role, rfl⟩,
        fun role => .inl ⟨role, ?_⟩⟩, ⟨rfl, rfl, le_refl _⟩⟩⟩
    · exact RaftLog.baseIndex_compactTo_le _ _ _ kept.base
    · simpa using kept.committed
    · simpa [Within] using kept.leading leads p member
    · simp

theorem startRound (member : p ∈ n.peers) (tag : Nat) : ∃ round sends, n.startRound p tag = some (round, sends) ∧
      (round = .idle ∨ round = .scanning n.currentTerm ∨
        ∃ prevLogIndex count, round = .append n.currentTerm prevLogIndex count tag ∧
          prevLogIndex + count = n.log.lastIndex) := by
  unfold Node.startRound
  dsimp only
  split_ifs with idle zero low
  · exact ⟨_, _, rfl, .inl rfl⟩
  · have leads : n.role = .leader := not_not.mp idle
    have positive := (kept.leading leads p member).1
    omega
  · exact ⟨_, _, rfl, .inr (.inl rfl)⟩
  · have leads : n.role = .leader := not_not.mp idle
    obtain ⟨_, high, _⟩ := kept.leading leads p member
    obtain ⟨t, known⟩ : ∃ t, n.log.term (n.nextIndex p - 1) = some t :=
      RaftLog.term_known (by omega) (by omega)
    simp only [known]
    refine ⟨_, _, rfl, .inr (.inr ⟨_, _, rfl, ?_⟩)⟩
    simp only [RaftLog.entriesAfter, length_drop, RaftLog.lastIndex] at high ⊢
    omega

end

theorem shipSnapshot (tag : Nat) (reach : n.role = .leader → term = n.currentTerm → idx ≤ n.log.lastIndex) :
    ∃ round sends, n.shipSnapshot p term idx tag = some (round, sends) ∧
      (round = .idle ∨ round = .snapshot term idx tag) := by
  unfold Node.shipSnapshot
  split_ifs with idle low
  · exact ⟨_, _, rfl, .inl rfl⟩
  · exact ⟨_, _, rfl, .inl rfl⟩
  · simp only [not_or, not_not] at idle
    obtain ⟨t, known⟩ : ∃ t, n.log.term idx = some t :=
      RaftLog.term_known (by omega) (reach idle.1 idle.2.symm)
    simp only [known]
    exact ⟨_, _, rfl, .inr rfl⟩

theorem update (kept : n.Kept) (member : p ∈ n.peers) (next held : Nat)
    (bounds : n.role = .leader → 1 ≤ next ∧ next ≤ n.log.lastIndex + 1 ∧ held ≤ n.log.lastIndex) :
    n.Moves { n with
      nextIndex := update n.nextIndex p next
      matchIndex := update n.matchIndex p held } := by
  refine ⟨⟨kept.base, kept.reached, kept.stored, kept.committed, fun q absent => ?_,
    fun leads q inside => ?_, kept.installing⟩, ⟨fun _ member => member, le_refl _,
      fun role => .inl ⟨role, rfl⟩, fun role => .inl ⟨role, le_refl _⟩⟩, ⟨rfl, rfl, le_refl _⟩⟩
  · have other : q ≠ p := by
      rintro rfl
      exact absent member
    simpa [update_of_ne other] using kept.foreign q absent
  · by_cases same : q = p
    · subst same
      simpa [Within] using bounds leads
    · simpa [Within, update_of_ne same] using kept.leading leads q inside

/-- What a reply does, if a rejection asks for no index beyond the log. -/
theorem finishRound (kept : n.Kept) (settings : Settings) (member : p ∈ n.peers) (resp : Response)
    {prevLogIndex count : Nat} (save : Save)
    (reach : n.role = .leader → term = n.currentTerm → prevLogIndex + count ≤ n.log.lastIndex)
    (hint : n.BacksWithin term resp) :
    ∃ effect, n.finishRound settings p resp term prevLogIndex count save = some effect ∧ n.Moves effect.node := by
  unfold Node.finishRound
  split_ifs with higher other success
  · exact ⟨_, rfl, kept.stepDown higher.le save⟩
  · exact ⟨_, rfl, .refl kept⟩
  · simp only [not_or, not_not] at other
    have leads := other.1
    have bound := max_le (reach leads other.2.symm) (kept.matchIndex_le leads p)
    have recorded := kept.update member (max (prevLogIndex + count) (n.matchIndex p) + 1)
      (max (prevLogIndex + count) (n.matchIndex p))
      fun _ => ⟨Nat.succ_pos _, Nat.succ_le_succ bound, bound⟩
    obtain ⟨n₁, events, tallied, moved⟩ := recorded.kept.maybeAdvanceCommit leads
    obtain ⟨n₂, compacted, moved'⟩ := moved.kept.maybeCompact settings
    refine ⟨{ node := n₂, events := events }, ?_, (recorded.trans moved).trans moved'⟩
    simp only [Node.onAppendSuccess, tallied, bind_eq_bind, bind_some, compacted]
    rfl
  · simp only [not_or, not_not] at other
    refine ⟨_, rfl, ?_⟩
    have low := hint other.1 other.2.symm (not_lt.mp higher) (by simpa using success)
    have moved := kept.update member (max resp.conflictHint 1) (n.matchIndex p)
      fun leads => ⟨le_max_right .., max_le low (Nat.succ_pos _), kept.matchIndex_le leads p⟩
    rw [update_eq_self] at moved
    exact moved

theorem finishSnapshot (kept : n.Kept) (member : p ∈ n.peers) (resp : Response) (save : Save)
    (reach : n.role = .leader → term = n.currentTerm → idx ≤ n.log.lastIndex) :
    n.Moves (n.finishSnapshot p resp term idx save).node := by
  unfold Node.finishSnapshot
  split_ifs with higher other success
  · exact kept.stepDown higher.le save
  · exact .refl kept
  · simp only [not_or, not_not] at other
    have bound := reach other.1 other.2.symm
    exact kept.update member _ _ fun leads =>
      ⟨Nat.succ_pos _, Nat.succ_le_succ bound, max_le bound (kept.matchIndex_le leads p)⟩
  · exact .refl kept

theorem appendOwn (kept : n.Kept) (e : Entry) : n.Moves (Server.appendOwn n e) := by
  have longer : n.log.lastIndex ≤ (n.log.append e).lastIndex := by
    rw [RaftLog.lastIndex_append]
    exact Nat.le_succ _
  refine ⟨⟨kept.base, kept.reached, kept.stored, kept.committed.trans longer, kept.foreign,
    fun leads p member => ?_, kept.installing⟩, ⟨fun _ member => member, le_refl _,
      fun role => .inl ⟨role, rfl⟩, fun role => .inl ⟨role, longer⟩⟩, ⟨rfl, rfl, le_refl _⟩⟩
  obtain ⟨low, high, held⟩ := kept.leading leads p member
  exact ⟨low, high.trans (Nat.succ_le_succ longer), held.trans longer⟩

end Kept

/-- A round of a term that reaches up to an index is none that could go wrong. -/
structure Owns (n : Node) (term idx : Nat) : Prop where
  past : term ≤ n.currentTerm
  candidate : n.role = .candidate → term < n.currentTerm
  leader : n.role = .leader → term = n.currentTerm → idx ≤ n.log.lastIndex

theorem Owns.later {idx : Nat} (owns : n.Owns term idx) (later : n.Later n') : n'.Owns term idx := by
  refine ⟨owns.past.trans later.term, fun role => ?_, fun role same => ?_⟩
  · rcases later.candidate role with ⟨before, same⟩ | higher
    · exact same ▸ owns.candidate before
    · exact owns.past.trans_lt higher
  · have past := owns.past
    have grows := later.term
    rcases later.leader role with ⟨before, grown⟩ | before | higher
    · exact (owns.leader before (by omega)).trans grown
    · have older := owns.candidate before
      omega
    · omega

end Node

end Cluster
