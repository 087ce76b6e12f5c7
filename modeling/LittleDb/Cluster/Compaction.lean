import LittleDb.Cluster.IndexOrder
import LittleDb.Cluster.Works

/-! Log compaction: a follower that compacted its log behaves like one that never did. -/

namespace Cluster

open List Bool

variable {idx : Nat}

namespace RaftLog

/-- The log is the other one without the entries up to its own base. -/
structure Shortens (short full : RaftLog) : Prop where
  above : full.baseIndex ≤ short.baseIndex
  entries : short.entries = full.entries.drop (short.baseIndex - full.baseIndex)
  term : full.term short.baseIndex = some short.baseTerm

theorem term_lastIndex (l : RaftLog) : l.term l.lastIndex = some l.lastTerm := by
  cases empty : l.entries.getLast? with
  | none => simp_all [term, lastIndex, lastTerm]
  | some e =>
    have filled : l.entries ≠ [] := fun none => by simp [none] at empty
    have long : 0 < l.entries.length := length_pos_iff.mpr filled
    rw [getLast?_eq_getElem?] at empty
    have place : l.baseIndex + l.entries.length - l.baseIndex - 1 = l.entries.length - 1 := by omega
    rw [term, lastIndex, if_neg (by omega), entryAt, if_neg (by omega), place, empty, lastTerm,
      getLast?_eq_getElem?, empty]
    rfl

namespace Shortens

variable {short full : RaftLog}

theorem refl (l : RaftLog) : l.Shortens l := ⟨le_refl _, by simp, by simp [RaftLog.term]⟩

variable (shortens : short.Shortens full)

include shortens

theorem inside : short.baseIndex ≤ full.lastIndex := term_inside shortens.term

theorem lastIndex : short.lastIndex = full.lastIndex := by
  have inside := shortens.inside
  have above := shortens.above
  simp only [RaftLog.lastIndex, shortens.entries, length_drop] at inside ⊢
  omega

theorem entryAt (behind : short.baseIndex < idx) : short.entryAt idx = full.entryAt idx := by
  have above := shortens.above
  rw [RaftLog.entryAt, RaftLog.entryAt, if_neg (by omega), if_neg (by omega), shortens.entries, getElem?_drop]
  congr 1
  omega

theorem term_eq (above : short.baseIndex ≤ idx) : short.term idx = full.term idx := by
  rcases Nat.lt_or_eq_of_le above with behind | rfl
  · have later := shortens.above
    rw [RaftLog.term, RaftLog.term, if_neg (by omega), if_neg (by omega), shortens.entryAt behind]
  · rw [shortens.term, RaftLog.term, if_pos rfl]

theorem lastTerm : short.lastTerm = full.lastTerm := by
  have same := shortens.term_eq shortens.inside
  rw [full.term_lastIndex, ← shortens.lastIndex, short.term_lastIndex] at same
  exact Option.some.inj same

theorem change {less more : List Entry} (entries : less = more.drop (short.baseIndex - full.baseIndex))
    (kept : full.baseIndex < short.baseIndex →
      more[short.baseIndex - full.baseIndex - 1]? = full.entries[short.baseIndex - full.baseIndex - 1]?) :
    Shortens { short with entries := less } { full with entries := more } := by
  refine ⟨shortens.above, entries, ?_⟩
  rw [← shortens.term]
  rcases Nat.lt_or_eq_of_le shortens.above with later | base
  · simp only [RaftLog.term, RaftLog.entryAt, kept later]
  · simp [RaftLog.term, base]

theorem append (e : Entry) : (short.append e).Shortens (full.append e) := by
  have inside := shortens.inside
  have above := shortens.above
  unfold RaftLog.lastIndex at inside
  refine shortens.change ?_ fun later => ?_
  · rw [shortens.entries, drop_append_of_le_length (by omega)]
  · rw [getElem?_append_left (by omega)]

theorem truncateFrom (behind : short.baseIndex < idx) :
    (short.truncateFrom idx).Shortens (full.truncateFrom idx) := by
  have above := shortens.above
  have low : ¬ idx ≤ short.baseIndex := by omega
  have lower : ¬ idx ≤ full.baseIndex := by omega
  simp only [RaftLog.truncateFrom, if_neg low, if_neg lower, shortens.lastIndex]
  split_ifs with held
  · refine shortens.change ?_ fun later => ?_
    · rw [shortens.entries, drop_take]
      congr 1
      omega
    · rw [getElem?_take_of_lt (by omega)]
  · exact shortens

theorem compactTo {t : Nat} (known : short.term idx = some t) : (short.compactTo idx t).Shortens full := by
  unfold RaftLog.compactTo
  split_ifs with outside
  · exact shortens
  · push Not at outside
    have above := shortens.above
    refine ⟨?_, ?_, ?_⟩
    · exact above.trans outside.1.le
    · simp only [shortens.entries, drop_drop]
      congr 1
      omega
    · rw [← shortens.term_eq outside.1.le, known]

/-- Both logs store the same, if the full one reaches the other's base. -/
theorem appendWindow {shipped : List Entry} (agrees : full.agreesUpTo short.baseIndex idx shipped = true) :
    (short.appendWindow idx shipped).1.Shortens (full.appendWindow idx shipped).1 := by
  induction shipped generalizing short full idx with
  | nil => exact shortens
  | cons e rest ih =>
    have above := shortens.above
    simp only [agreesUpTo_cons, and_eq_true, or_eq_true, decide_eq_true_eq] at agrees
    unfold RaftLog.appendWindow
    by_cases compacted : idx ≤ short.baseIndex
    · -- The short log skips what it compacted, and the full one holds it.
      rw [if_pos compacted]
      split_ifs with low held
      · exact ih shortens agrees.2
      · exact ih shortens agrees.2
      · rcases agrees.1 with (below | behind) | same
        · exact absurd below low
        · omega
        · exact absurd ⟨term_inside same, same⟩ held
    · rw [if_neg compacted, if_neg (show ¬ idx ≤ full.baseIndex by omega), shortens.lastIndex,
        shortens.term_eq (show short.baseIndex ≤ idx by omega)]
      have behind : short.baseIndex < idx + 1 := by omega
      split_ifs with held
      · exact ih shortens agrees.2
      · have stored : (((if decide (idx ≤ full.lastIndex) = true then short.truncateFrom idx else short)).append e).Shortens
            ((if decide (idx ≤ full.lastIndex) = true then full.truncateFrom idx else full).append e) := by
          split_ifs
          · exact (shortens.truncateFrom (by omega)).append e
          · exact shortens.append e
        refine ih stored (agreesUpTo_behind ?_ rest)
        split_ifs
        · simpa using behind
        · exact behind

theorem matchesPrev {prev t : Nat}
    (agrees : prev < short.baseIndex → full.baseIndex ≤ prev → full.term prev = some t) :
    short.matchesPrev prev t = full.matchesPrev prev t := by
  have above := shortens.above
  have known : full.baseIndex < prev → (full.matchesPrev prev t = true ↔ full.term prev = some t) := by
    intro behind
    rw [RaftLog.matchesPrev, if_neg (by omega), if_neg (by omega)]
    simp only [and_eq_true, decide_eq_true_eq, and_iff_right_iff_imp]
    exact term_inside
  have first : full.matchesPrev full.baseIndex t = true ↔ full.term full.baseIndex = some t := by
    simp [RaftLog.matchesPrev, RaftLog.term, eq_comm]
  have full_iff : full.baseIndex ≤ prev → (full.matchesPrev prev t = true ↔ full.term prev = some t) := by
    intro low
    rcases Nat.lt_or_eq_of_le low with behind | rfl
    · exact known behind
    · exact first
  rcases Nat.lt_trichotomy prev short.baseIndex with low | rfl | high
  · -- Below its base the short log takes agreement for granted.
    rw [RaftLog.matchesPrev, if_pos low]
    by_cases lower : prev < full.baseIndex
    · rw [RaftLog.matchesPrev, if_pos lower]
    · exact ((full_iff (by omega)).mpr (agrees low (by omega))).symm
  · rw [Bool.eq_iff_iff, full_iff above, shortens.term]
    simp [RaftLog.matchesPrev, eq_comm]
  · rw [Bool.eq_iff_iff, full_iff (by omega), ← shortens.term_eq high.le, RaftLog.matchesPrev, if_neg (by omega),
      if_neg (by omega)]
    simp only [and_eq_true, decide_eq_true_eq, and_iff_right_iff_imp]
    exact term_inside

end Shortens

end RaftLog

theorem Node.currentTerm_deferTo (n : Node) (term now : Nat) (save : Save) :
    ((n.catchUp term save).deferTo now).currentTerm = max n.currentTerm term := by
  unfold Node.catchUp Node.stepDown Node.persist Node.deferTo
  split_ifs <;> simp only <;> omega

/-- Two followers that take the same steps, one of which compacts. -/
structure Twins where
  full : Node
  short : Node

namespace Twins

inductive Act where
  | receive (now : Nat) (m : AppendEntries) (tag : Nat) (save : Save)
  | append (e : Entry)
  | apply (idx : Nat)
  /-- The log may be compacted up to the applied index. -/
  | compact (settings : Settings)

/-- A step of both followers, with what each of them sends. -/
def step (t : Twins) : Act → Option (Twins × List (List Packet × List Packet))
  | .receive now m tag save =>
    let full := t.full.handleAppendEntries now m tag save
    let short := t.short.handleAppendEntries now m tag save
    some (⟨full.node, short.node⟩, [(full.sends, short.sends)])
  | .append e => some (⟨Server.appendOwn t.full e, Server.appendOwn t.short e⟩, [])
  | .apply idx =>
    if idx ≤ t.full.commitIndex then
      some (⟨{ t.full with lastApplied := idx }, { t.short with lastApplied := idx }⟩, [])
    else none
  | .compact settings => (t.short.maybeCompact settings).map fun short => (⟨t.full, short⟩, [])

/-- A call whose sender agrees with the full log up to the short one's base. -/
def Sent (t : Twins) (m : AppendEntries) : Prop :=
  ∃ sender : RaftLog, sender.Whole ∧
    sender.entries.take t.short.log.baseIndex = t.full.log.entries.take t.short.log.baseIndex ∧
    sender.term m.prevLogIndex = some m.prevLogTerm ∧ m.entries <+: sender.entriesAfter m.prevLogIndex

def Meets (t : Twins) : Act → Prop
  | .receive _ m _ _ => t.Sent m
  | _ => True

/-- The one node is the other up to its log, which is shorter. -/
structure Related (t : Twins) : Prop where
  id : t.short.id = t.full.id
  term : t.short.currentTerm = t.full.currentTerm
  commit : t.short.commitIndex = t.full.commitIndex
  log : t.short.log.Shortens t.full.log
  whole : t.full.log.Whole

variable {t t' : Twins} {new : List (List Packet × List Packet)}

theorem Sent.held {sender : RaftLog} (related : t.Related) (whole : sender.Whole)
    (agree : sender.entries.take t.short.log.baseIndex = t.full.log.entries.take t.short.log.baseIndex)
    (low : idx ≤ t.short.log.baseIndex) : t.full.log.term idx = sender.term idx := by
  cases idx with
  | zero => rw [related.whole.term_zero, whole.term_zero]
  | succ i =>
    rw [related.whole.term, whole.term, ← getElem?_take_of_lt (l := t.full.log.entries) low, ← agree,
      getElem?_take_of_lt low]

theorem Sent.agrees {sender : RaftLog} (related : t.Related) (whole : sender.Whole)
    (agree : sender.entries.take t.short.log.baseIndex = t.full.log.entries.take t.short.log.baseIndex) {i : Nat}
    {shipped : List Entry} (part : shipped <+: sender.entries.drop i) :
    t.full.log.agreesUpTo t.short.log.baseIndex (i + 1) shipped = true := by
  induction shipped generalizing i with
  | nil => rfl
  | cons e rest ih =>
    obtain ⟨behind, split_⟩ := part
    have first : sender.entries[i]? = some e := by
      have front := congrArg (fun l : List Entry => l[0]?) split_
      simpa using front.symm
    have later : rest <+: sender.entries.drop (i + 1) :=
      ⟨behind, by simpa [tail_drop] using congrArg List.tail split_⟩
    simp only [RaftLog.agreesUpTo_cons, and_eq_true, or_eq_true, decide_eq_true_eq]
    refine ⟨?_, ih later⟩
    by_cases low : i + 1 ≤ t.short.log.baseIndex
    · exact .inr (by rw [Sent.held related whole agree low, whole.term, first]; rfl)
    · exact .inl (.inr (by omega))

theorem whole_appendWindow {l : RaftLog} (whole : l.Whole) (idx : Nat) (shipped : List Entry) :
    (l.appendWindow idx shipped).1.Whole := by
  induction shipped generalizing l idx with
  | nil => exact whole
  | cons e rest ih =>
    unfold RaftLog.appendWindow
    split_ifs
    · exact ih whole _
    · exact ih whole _
    · refine ih (RaftLog.Whole.append ?_ e) _
      split_ifs
      · exact whole.truncateFrom _
      · exact whole

theorem Related.receive (related : t.Related) (now tag : Nat) (save : Save) {m : AppendEntries} (sent : t.Sent m) :
    let full := t.full.handleAppendEntries now m tag save
    let short := t.short.handleAppendEntries now m tag save
    (⟨full.node, short.node⟩ : Twins).Related ∧ full.sends = short.sends := by
  obtain ⟨sender, whole, agree, prev, part⟩ := sent
  -- Deferring to the leader leaves the logs alone.
  obtain ⟨log, commit, -⟩ := t.full.log_catchUp m.term save
  obtain ⟨log', commit', -⟩ := t.short.log_catchUp m.term save
  have id : (t.short.catchUp m.term save).id = (t.full.catchUp m.term save).id :=
    (Node.Aside.catchUp ..).id.trans (related.id.trans (Node.Aside.catchUp ..).id.symm)
  have term : ((t.short.catchUp m.term save).deferTo now).currentTerm =
      ((t.full.catchUp m.term save).deferTo now).currentTerm := by
    rw [Node.currentTerm_deferTo, Node.currentTerm_deferTo, related.term]
  have matched : t.short.log.matchesPrev m.prevLogIndex m.prevLogTerm =
      t.full.log.matchesPrev m.prevLogIndex m.prevLogTerm := by
    refine related.log.matchesPrev fun low _ => ?_
    rw [Sent.held related whole agree low.le, prev]
  have stored : (t.short.log.appendWindow (m.prevLogIndex + 1) m.entries).1.Shortens
      (t.full.log.appendWindow (m.prevLogIndex + 1) m.entries).1 := by
    refine related.log.appendWindow (Sent.agrees related whole agree ?_)
    rwa [RaftLog.entriesAfter, whole.1] at part
  have shortLog : ((t.short.catchUp m.term save).deferTo now).log = t.short.log := log'
  have fullLog : ((t.full.catchUp m.term save).deferTo now).log = t.full.log := log
  simp only [Node.handleAppendEntries, related.term, shortLog, fullLog, matched]
  split_ifs
  · exact ⟨related, by simp only [related.id]⟩
  · refine ⟨⟨id, term, ?_, ?_, ?_⟩, ?_⟩
    · simp only [Node.storeEntries, shortLog, fullLog, stored.lastIndex]
      rw [show ((t.short.catchUp m.term save).deferTo now).commitIndex = t.short.commitIndex from commit',
        show ((t.full.catchUp m.term save).deferTo now).commitIndex = t.full.commitIndex from commit, related.commit]
    · simp only [Node.storeEntries, shortLog, fullLog]
      exact stored
    · simp only [Node.storeEntries, fullLog]
      exact whole_appendWindow related.whole ..
    · simp only [Node.storeEntries, Node.deferTo, id] at term ⊢
      rw [term]
  · refine ⟨⟨id, term, commit'.trans (related.commit.trans commit.symm), ?_, ?_⟩, ?_⟩
    · simp only [shortLog, fullLog]
      exact related.log
    · simp only [fullLog]
      exact related.whole
    · simp only [Node.deferTo, id, related.log.lastIndex] at term ⊢
      rw [term]

/-- Every step keeps the followers related, and they send the same. -/
theorem Related.step (related : t.Related) {a : Act} (meets : t.Meets a) (moved : t.step a = some (t', new)) :
    t'.Related ∧ ∀ pair ∈ new, pair.1 = pair.2 := by
  cases a with
  | receive now m tag save =>
    cases moved
    obtain ⟨after, same⟩ := related.receive now tag save meets
    exact ⟨after, by simpa using same⟩
  | append e =>
    cases moved
    exact ⟨⟨related.id, related.term, related.commit, related.log.append e, related.whole⟩, by simp⟩
  | apply idx =>
    simp only [Twins.step] at moved
    split_ifs at moved
    cases moved
    exact ⟨⟨related.id, related.term, related.commit, related.log, related.whole⟩, by simp⟩
  | compact settings =>
    obtain ⟨short, compacted, result⟩ := Option.map_eq_some_iff.mp moved
    cases result
    unfold Node.maybeCompact at compacted
    split_ifs at compacted
    · cases compacted
      exact ⟨related, by simp⟩
    · split at compacted
      · cases compacted
      · next known =>
        cases compacted
        exact ⟨⟨related.id, related.term, related.commit, related.log.compactTo known, related.whole⟩, by simp⟩

/--
Log compaction is transparent.

Whatever calls arrive, taken from logs that agree up to the base, a follower that compacts committed entries replies
like one that does not, and has the same entries above its base, last index and term, and commit index.
-/
theorem compaction_transparent {n : Node} (whole : n.log.Whole) {past : List Twins}
    {events : List (List Packet × List Packet)} (run : Run.Reach Twins.step Twins.Meets ⟨n, n⟩ t past events) :
    (∀ pair ∈ events, pair.1 = pair.2) ∧
    t.short.log.entries = t.full.log.entries.drop t.short.log.baseIndex ∧
    t.short.log.lastIndex = t.full.log.lastIndex ∧ t.short.log.lastTerm = t.full.log.lastTerm ∧
    t.short.commitIndex = t.full.commitIndex ∧ t.full.log.Whole := by
  have kept := run.invariant (P := fun t _ events => t.Related ∧ ∀ pair ∈ events, pair.1 = pair.2)
    ⟨⟨rfl, rfl, rfl, .refl _, whole⟩, by simp⟩ fun t a t' past events new _ meets moved before => by
      obtain ⟨after, same⟩ := before.1.step meets moved
      refine ⟨after, fun pair listed => ?_⟩
      rcases mem_append.mp listed with now | earlier
      · exact same pair now
      · exact before.2 pair earlier
  have entries := kept.1.log.entries
  rw [kept.1.whole.1, Nat.sub_zero] at entries
  exact ⟨kept.2, entries, kept.1.log.lastIndex, kept.1.log.lastTerm, kept.1.commit, kept.1.whole⟩

/-- A follower of node zero with three entries, two of them committed. -/
def threeEntries : Node :=
  { Node.fresh 1 [0, 1] (.fullConfig 2) with
    log := { entries := [⟨1, .data, [1]⟩, ⟨1, .data, [2]⟩, ⟨1, .data, [3]⟩] }, commitIndex := 2 }

/-- A second leader's call starts below the base and replaces the third entry. -/
def straddling : AppendEntries :=
  ⟨0, 2, 1, 1, [⟨1, .data, [2]⟩, ⟨2, .data, [4]⟩], 3⟩

/-- After compacting two entries the call is accepted, the third replaced. -/
theorem compaction_transparent_straddling : ∃ t past events,
    Run.Reach Twins.step Twins.Meets ⟨threeEntries, threeEntries⟩ t past events ∧ t.short.log.baseIndex = 2 ∧
    t.short.log.entries = [⟨2, .data, [4]⟩] ∧ t.short.log.lastTerm = t.full.log.lastTerm := by
  have first : Run.Reach Twins.step Twins.Meets ⟨threeEntries, threeEntries⟩ _ [] [] := .start
  have applied := Run.Reach.step (Act.apply 2) first trivial rfl
  have compacted := Run.Reach.step (Act.compact ⟨0, 1⟩) applied trivial rfl
  have run := Run.Reach.step (Act.receive 0 straddling 0 .ok) compacted
    ⟨{ entries := [⟨1, .data, [1]⟩, ⟨1, .data, [2]⟩, ⟨2, .data, [4]⟩] }, ⟨rfl, rfl⟩, rfl, rfl, List.prefix_rfl⟩ rfl
  exact ⟨_, _, _, run, rfl, rfl, (compaction_transparent ⟨rfl, rfl⟩ run).2.2.2.1⟩

end Twins

end Cluster
