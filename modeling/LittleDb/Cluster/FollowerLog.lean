import LittleDb.Cluster.Compaction

/-! A follower under one leader: what its log has in common with the leader's never shrinks. -/

namespace Cluster

open Function List RaftLog

theorem Node.handleAppendEntries_log (n : Node) (now : Nat) (m : AppendEntries) (tag : Nat) (save : Save) :
    let done := n.handleAppendEntries now m tag save
    (done.node.log = n.log ∧ done.node.commitIndex = n.commitIndex ∧
      ∀ pkt ∈ done.sends, ∀ id term held hint, pkt.msg ≠ .appendResponse id term true held hint) ∨
    (n.log.matchesPrev m.prevLogIndex m.prevLogTerm = true ∧
      done.node.log = (n.log.appendWindow (m.prevLogIndex + 1) m.entries).1 ∧
      done.node.commitIndex = max n.commitIndex (min m.leaderCommit done.node.log.lastIndex) ∧
      ∀ pkt ∈ done.sends, ∀ id term held hint, pkt.msg = .appendResponse id term true held hint →
        held = m.prevLogIndex + m.entries.length) := by
  obtain ⟨log, commit, -⟩ := n.log_catchUp m.term save
  have deferred : ((n.catchUp m.term save).deferTo now).log = n.log := log
  have kept : ((n.catchUp m.term save).deferTo now).commitIndex = n.commitIndex := commit
  simp only [Node.handleAppendEntries, deferred]
  split_ifs with stale matched
  · exact .inl ⟨rfl, rfl, by simp⟩
  · refine .inr ⟨matched, ?_, ?_, ?_⟩
    · simp only [Node.storeEntries, deferred]
    · simp only [Node.storeEntries, kept]
    · simp +contextual [eq_comm]
  · exact .inl ⟨deferred, kept, by simp⟩

/-- A leader of one term, a follower, and the messages between them. -/
structure Following where
  leader : Node
  /-- The follower, and beside it the follower had it never compacted its log. -/
  follower : Twins
  net : List Packet

namespace Following

inductive Act where
  /-- The leader goes on to another state of its term. -/
  | lead (n : Node)
  /-- It builds a message, whatever next index it keeps for the follower. -/
  | send (p : NodeID) (next tag : Nat)
  /-- A message arrives: any sent, at any time, any number of times. -/
  | deliver (i now : Nat) (save : Save)

def step (f : Following) : Act → Option (Following × List Packet)
  | .lead n => some ({ f with leader := n }, [])
  | .send p next tag =>
    let n := { f.leader with nextIndex := update f.leader.nextIndex p next }
    (n.startRound p tag).map fun round => ({ f with net := round.2 ++ f.net }, [])
  | .deliver i now save =>
    match f.net[i]? with
    | some { dst := _, msg := .appendEntries m, tag } =>
      let full := f.follower.full.handleAppendEntries now m tag save
      let short := f.follower.short.handleAppendEntries now m tag save
      some ({ f with follower := ⟨full.node, short.node⟩ }, short.sends)
    | _ => none

/-- The leader's log, compacted or not, is a front of its last one. -/
structure Leads (source : List Entry) (n : Node) : Prop where
  inside : n.log.lastIndex ≤ source.length
  log : n.log.Shortens { entries := source.take n.log.lastIndex }
  commit : n.commitIndex ≤ n.log.lastIndex

def Meets (source : List Entry) (f : Following) : Act → Prop
  | .lead n => Leads source n ∧ f.leader.log.lastIndex ≤ n.log.lastIndex
  | _ => True

/-- Leader and follower agree on the entries up to an index. -/
def Agrees (source : List Entry) (f : Following) (idx : Nat) : Prop :=
  idx ≤ f.leader.log.lastIndex ∧ source.take idx <+: f.follower.full.log.entries

instance agreesDecidable (source : List Entry) (f : Following) (idx : Nat) : Decidable (Agrees source f idx) :=
  inferInstanceAs (Decidable (_ ∧ _))

/-- The length of the agreed front of both logs. -/
def agreed (source : List Entry) (f : Following) : Nat :=
  Nat.findGreatest (Agrees source f) f.leader.log.lastIndex

/-- A leader and a follower with matching logs before the first message. -/
structure Starts (source : List Entry) (f : Following) : Prop where
  leads : Leads source f.leader
  related : f.follower.Related
  matching : Matching f.follower.full.log.entries source
  compacted : f.follower.short.log.baseIndex ≤ source.length ∧
    source.take f.follower.short.log.baseIndex <+: f.follower.full.log.entries
  silent : f.net = []

/-- A message that ships the rest of the leader's log at some length. -/
def Ships (source : List Entry) (m : AppendEntries) (reach : Nat) : Prop :=
  m.prevLogIndex ≤ reach ∧ reach ≤ source.length ∧ m.entries = (source.take reach).drop m.prevLogIndex ∧
    RaftLog.term { entries := source } m.prevLogIndex = some m.prevLogTerm ∧ m.leaderCommit ≤ reach

variable {source : List Entry} {f f' : Following} {new : List Packet}

theorem agrees_of_le {i j : Nat} (agrees : Agrees source f j) (less : i ≤ j) : Agrees source f i :=
  ⟨less.trans agrees.1, (List.take_prefix_take_left less).trans agrees.2⟩

theorem le_agreed {idx : Nat} : idx ≤ f.agreed source ↔ Agrees source f idx := by
  constructor
  · refine agrees_of_le (Nat.findGreatest_spec (m := 0) (Nat.zero_le _) ?_)
    exact ⟨Nat.zero_le _, List.nil_prefix⟩
  · exact fun agrees => Nat.le_findGreatest agrees.1 agrees

theorem agreed_mono (inside : f.leader.log.lastIndex ≤ source.length)
    (grows : f.leader.log.lastIndex ≤ f'.leader.log.lastIndex)
    (keeps : ∀ idx ≤ source.length, source.take idx <+: f.follower.full.log.entries →
      source.take idx <+: f'.follower.full.log.entries) : f.agreed source ≤ f'.agreed source := by
  have agrees := le_agreed.mp (le_refl (f.agreed source))
  exact le_agreed.mpr ⟨agrees.1.trans grows, keeps _ (agrees.1.trans inside) agrees.2⟩

theorem Leads.ships {n : Node} (leads : Leads source n) {p : NodeID} {tag : Nat} {round : Round} {sends : List Packet}
    (sent : n.startRound p tag = some (round, sends)) :
    ∀ pkt ∈ sends, ∀ m, pkt.msg = .appendEntries m → Ships source m n.log.lastIndex := by
  unfold Node.startRound at sent
  dsimp only at sent
  split_ifs at sent with idle zero low
  · cases sent
    exact nofun
  · cases sent
    exact nofun
  · split at sent
    · cases sent
    · next prevLogTerm known =>
      cases sent
      intro pkt listed m ships
      rw [mem_singleton.mp listed] at ships
      cases ships
      have reach := term_inside known
      rw [leads.log.term_eq (not_lt.mp low)] at known
      refine ⟨reach, leads.inside, ?_, ?_, leads.commit⟩
      · simp only [RaftLog.entriesAfter, leads.log.entries, drop_drop, Nat.sub_zero]
        congr 1
        omega
      · -- The leader's own log and the one it ends with have the same term there.
        rw [← known]
        cases prev : n.nextIndex p - 1 with
        | zero => rfl
        | succ i =>
          rw [RaftLog.Whole.term ⟨rfl, rfl⟩, RaftLog.Whole.term ⟨rfl, rfl⟩, getElem?_take_of_lt (by omega)]

theorem Ships.stored {l : RaftLog} {m : AppendEntries} {reach : Nat} (ships : Ships source m reach) (whole : l.Whole)
    (matching : Matching l.entries source) (matched : l.matchesPrev m.prevLogIndex m.prevLogTerm = true) :
    (l.appendWindow (m.prevLogIndex + 1) m.entries).1.entries =
      if source.take reach <+: l.entries then l.entries else source.take reach := by
  obtain ⟨before, inside, shipped, prev, -⟩ := ships
  have own := whole.matchesPrev matched
  have agree : l.entries.take m.prevLogIndex = source.take m.prevLogIndex := by
    refine matching.prev whole (by omega) own fun i y same found => ?_
    rw [same, RaftLog.Whole.term ⟨rfl, rfl⟩, found] at prev
    exact Option.some.inj prev
  have count : m.prevLogIndex + m.entries.length = reach := by
    rw [shipped, length_drop, List.length_take]
    omega
  have part : m.entries <+: source.drop m.prevLogIndex := by
    rw [shipped, drop_take]
    exact List.take_prefix ..
  rw [← count]
  exact (appendWindow_entries whole agree (whole.term_inside own) m.entries part matching).2

structure Kept (source : List Entry) (first : Nat) (f : Following) : Prop where
  leads : Leads source f.leader
  related : f.follower.Related
  matching : Matching f.follower.full.log.entries source
  compacted : f.follower.short.log.baseIndex ≤ source.length ∧
    source.take f.follower.short.log.baseIndex <+: f.follower.full.log.entries
  net : ∀ pkt ∈ f.net, ∀ m, pkt.msg = .appendEntries m → ∃ reach ≤ f.leader.log.lastIndex, Ships source m reach
  commit : f.follower.short.commitIndex ≤ max first (f.agreed source)

theorem Starts.kept (starts : Starts source f) : Kept source f.follower.short.commitIndex f :=
  ⟨starts.leads, starts.related, starts.matching, starts.compacted, by simp [starts.silent], le_max_left ..⟩

theorem matching_take (reach : Nat) : Matching (source.take reach) source := by
  intro i x y found _ _
  have inside := (List.getElem?_eq_some_iff.mp found).1
  rw [List.length_take] at inside
  rw [List.take_take, min_eq_left (by omega)]

theorem Kept.deliver {first : Nat} (kept : Kept source first f) {i now : Nat} {save : Save}
    (moved : f.step (.deliver i now save) = some (f', new)) :
    Kept source first f' ∧ f.agreed source ≤ f'.agreed source ∧
    ∀ reply ∈ new, ∀ id term held hint, reply.msg = .appendResponse id term true held hint → Agrees source f' held := by
  simp only [Following.step] at moved
  split at moved
  case h_2 => cases moved
  next dst m tag found =>
  cases moved
  obtain ⟨reach, below, ships⟩ := kept.net _ (mem_of_getElem? found) m rfl
  obtain ⟨base, held⟩ := kept.compacted
  -- The whole log and the compacted one take the same message.
  have sent : f.follower.Sent m := by
    refine ⟨{ entries := source }, ⟨rfl, rfl⟩, ?_, ships.2.2.2.1, ?_⟩
    · rw [List.prefix_iff_eq_take, List.length_take, min_eq_left base] at held
      exact held
    · rw [ships.2.2.1, drop_take]
      exact List.take_prefix ..
  obtain ⟨related, same⟩ := kept.related.receive now tag save sent
  have whole := f.follower.full.handleAppendEntries_log now m tag save
  have base' : (f.follower.short.handleAppendEntries now m tag save).node.log.baseIndex =
      f.follower.short.log.baseIndex := by
    rcases f.follower.short.handleAppendEntries_log now m tag save with ⟨log, -⟩ | ⟨-, log, -⟩
    · rw [log]
    · rw [log, baseIndex_appendWindow]
  rw [← same]
  generalize f.follower.full.handleAppendEntries now m tag save = full at related whole ⊢
  generalize f.follower.short.handleAppendEntries now m tag save = short at related base' ⊢
  rcases whole with ⟨log, commit, refused⟩ | ⟨matched, log, commit, accepted⟩
  · -- Nothing is stored, so nothing changes.
    have grown : f.agreed source ≤ agreed source { f with follower := ⟨full.node, short.node⟩ } :=
      agreed_mono kept.leads.inside (le_refl _) fun idx _ agrees => log.symm ▸ agrees
    refine ⟨⟨kept.leads, related, by rw [log]; exact kept.matching, ?_, kept.net, ?_⟩, grown, ?_⟩
    · rw [base', log]
      exact kept.compacted
    · rw [related.commit, commit, ← kept.related.commit]
      exact kept.commit.trans (max_le_max_left _ grown)
    · exact fun reply listed id term held hint success => absurd success (refused reply listed id term held hint)
  · have stored := ships.stored kept.related.whole kept.matching matched
    rw [← log] at stored
    -- A log without the shipped entries had no more than those in common with the leader's.
    have keeps : ∀ idx ≤ source.length, source.take idx <+: f.follower.full.log.entries →
        source.take idx <+: full.node.log.entries := by
      intro idx inside agrees
      rw [stored]
      split_ifs with had
      · exact agrees
      · rcases le_total idx reach with short | long
        · exact List.take_prefix_take_left short
        · exact absurd ((List.take_prefix_take_left long).trans agrees) had
    have grown : f.agreed source ≤ agreed source { f with follower := ⟨full.node, short.node⟩ } :=
      agreed_mono kept.leads.inside (le_refl _) keeps
    have reached : Agrees source { f with follower := ⟨full.node, short.node⟩ } reach := by
      refine ⟨below, ?_⟩
      rw [stored]
      split_ifs with had
      · exact had
      · exact List.prefix_rfl
    refine ⟨⟨kept.leads, related, ?_, ?_, kept.net, ?_⟩, grown, ?_⟩
    · rw [stored]
      split_ifs
      · exact kept.matching
      · exact matching_take reach
    · rw [base']
      exact ⟨base, keeps _ base held⟩
    · rw [related.commit, commit, ← kept.related.commit]
      refine max_le (kept.commit.trans (max_le_max_left _ grown)) ?_
      exact (min_le_left ..).trans (ships.2.2.2.2.trans ((le_agreed.mpr reached).trans (le_max_right ..)))
    · intro reply listed id term held hint success
      rw [accepted reply listed id term held hint success, ships.2.2.1, length_drop, List.length_take,
        min_eq_left ships.2.1, Nat.add_sub_cancel' ships.1]
      exact reached

/-- Every step loses nothing that was agreed on. -/
theorem Kept.step {first : Nat} (kept : Kept source first f) {a : Act} (meets : f.Meets source a)
    (moved : f.step a = some (f', new)) :
    Kept source first f' ∧ f.agreed source ≤ f'.agreed source ∧
    ∀ reply ∈ new, ∀ id term held hint, reply.msg = .appendResponse id term true held hint → Agrees source f' held := by
  cases a with
  | lead n =>
    cases moved
    obtain ⟨leads, grows⟩ := meets
    have grown : f.agreed source ≤ agreed source { f with leader := n } :=
      agreed_mono kept.leads.inside grows fun _ _ agrees => agrees
    refine ⟨⟨leads, kept.related, kept.matching, kept.compacted, fun pkt listed m ships => ?_, ?_⟩, grown, nofun⟩
    · obtain ⟨reach, below, sent⟩ := kept.net pkt listed m ships
      exact ⟨reach, below.trans grows, sent⟩
    · exact kept.commit.trans (max_le_max_left _ grown)
  | send p next tag =>
    obtain ⟨⟨round, sends⟩, started, result⟩ := Option.map_eq_some_iff.mp moved
    cases result
    have leads : Leads source { f.leader with nextIndex := update f.leader.nextIndex p next } :=
      ⟨kept.leads.inside, kept.leads.log, kept.leads.commit⟩
    refine ⟨⟨kept.leads, kept.related, kept.matching, kept.compacted, fun pkt listed m ships => ?_, kept.commit⟩,
      le_refl _, nofun⟩
    rcases mem_append.mp listed with fresh | old
    · exact ⟨_, le_refl _, leads.ships started pkt fresh m ships⟩
    · exact kept.net pkt old m ships
  | deliver i now save => exact kept.deliver moved

/--
A follower's log is monotone towards the leader, however its messages are lost, repeated and reordered.

A success is replied only for entries that the logs agree on, the agreed front never gets shorter, and the commit
index never exceeds the larger of its first value and that front.
-/
theorem follower_log_monotone {first : Following} {past : List Following} {replies : List Packet}
    (starts : Starts source first) (run : Run.Reach Following.step (Meets source) first f past replies) {a : Act}
    (meets : f.Meets source a) (moved : f.step a = some (f', new)) :
    (∀ reply ∈ new, ∀ id term held hint, reply.msg = .appendResponse id term true held hint →
      Agrees source f' held) ∧
    f.agreed source ≤ f'.agreed source ∧
    f'.follower.short.commitIndex ≤ max first.follower.short.commitIndex (f'.agreed source) ∧
    f'.follower.short.log.Shortens f'.follower.full.log := by
  have kept : Kept source first.follower.short.commitIndex f := by
    refine run.invariant (P := fun f _ _ => Kept source first.follower.short.commitIndex f) starts.kept ?_
    exact fun f a f' past replies new _ meets moved kept => (kept.step meets moved).1
  obtain ⟨after, grown, replied⟩ := kept.step meets moved
  exact ⟨replied, grown, after.commit, after.related.log⟩

/-- The log of a leader at the end of its term. -/
def twoTerms : List Entry := [⟨1, .data, [1]⟩, ⟨2, .data, [2]⟩]

/-- The leader when it holds a number of these entries. -/
def leaderHolding (count : Nat) : Node :=
  { Node.fresh 0 [0, 1] (.fullConfig 2) with
    currentTerm := 2, role := .leader, log := { entries := twoTerms.take count } }

/-- A follower with an entry that no leader of the second term has. -/
def divergent : Node :=
  { Node.fresh 1 [0, 1] (.fullConfig 2) with log := { entries := [⟨1, .data, [1]⟩, ⟨1, .data, [9]⟩] } }

def divergentStart : Following := ⟨leaderHolding 1, ⟨divergent, divergent⟩, []⟩

theorem leads_holding {count : Nat} (inside : count ≤ 2) : Leads twoTerms (leaderHolding count) := by
  have length : (leaderHolding count).log.lastIndex = count := by
    simp [leaderHolding, RaftLog.lastIndex, twoTerms, inside]
  refine ⟨length.trans_le inside, ?_, Nat.zero_le _⟩
  rw [length]
  exact .refl _

theorem divergentStart_starts : Starts twoTerms divergentStart := by
  refine ⟨leads_holding (by decide), ⟨rfl, rfl, rfl, .refl _, rfl, rfl⟩, ?_, ⟨Nat.zero_le _, List.nil_prefix⟩, rfl⟩
  intro i x y found found' same
  rcases i with _ | _ | i
  · rfl
  · cases found
    cases found'
    cases same
  · cases found

/-- The entry is replaced, and a late older message takes nothing back. -/
theorem follower_log_monotone_late : ∃ f f' past replies new,
    Run.Reach Following.step (Meets twoTerms) divergentStart f past replies ∧
    f.step (.deliver 1 0 .ok) = some (f', new) ∧ f.agreed twoTerms = 2 ∧ f.agreed twoTerms ≤ f'.agreed twoTerms := by
  have first : Run.Reach Following.step (Meets twoTerms) divergentStart _ [] [] := .start
  have early := Run.Reach.step (Act.send 1 2 7) first trivial rfl
  have grown := Run.Reach.step (Act.lead (leaderHolding 2)) early ⟨leads_holding (by decide), by decide⟩ rfl
  have sent := Run.Reach.step (Act.send 1 2 8) grown trivial rfl
  have run := Run.Reach.step (Act.deliver 0 0 .ok) sent trivial rfl
  refine ⟨_, _, _, _, _, run, rfl, by decide +kernel, ?_⟩
  exact (follower_log_monotone divergentStart_starts run (a := .deliver 1 0 .ok) trivial rfl).2.1

end Following

end Cluster
