import LittleDb.Cluster.Proposal
import LittleDb.Lib.Consensus.Turn

/-! The code's log operations read as operations of the abstract replicated log. -/

namespace Cluster

open Consensus Quorum List Option Bool Members

/-- The protocol's rules for founders: node zero leads the first term. -/
def rules (founders : Nat) : Rules NodeID Entry where
  term := Entry.term
  reconf e := if e.kind = .config then some (decodeConfig e.data).toFinset else none
  founders := (Members.fullConfig founders).toFinset
  first := 0
  firstTerm := 1

namespace RaftLog

def Whole (l : RaftLog) : Prop := l.baseIndex = 0 ∧ l.baseTerm = 0

variable {l : RaftLog}

variable (whole : l.Whole)

include whole

theorem Whole.lastIndex : l.lastIndex = l.entries.length := by
  simp [RaftLog.lastIndex, whole.1]

theorem Whole.entryAt (i : Nat) : l.entryAt (i + 1) = l.entries[i]? := by
  simp [RaftLog.entryAt, whole.1]

theorem Whole.term (i : Nat) : l.term (i + 1) = l.entries[i]?.map Entry.term := by
  simp [RaftLog.term, whole.1, whole.entryAt]

theorem Whole.term_zero : l.term 0 = some 0 := by
  simp [RaftLog.term, whole.1, whole.2]

theorem Whole.term_inside {idx t : Nat} (known : l.term idx = some t) : idx ≤ l.entries.length := by
  cases idx with
  | zero => exact Nat.zero_le _
  | succ i =>
    rw [whole.term, map_eq_some_iff] at known
    obtain ⟨e, found, _⟩ := known
    exact (List.getElem?_eq_some_iff.mp found).1

theorem Whole.lastTerm (founders : Nat) : l.lastTerm = (rules founders).lastTerm l.entries := by
  simp [RaftLog.lastTerm, Rules.lastTerm, whole.2, rules]

theorem Whole.append (e : Entry) : (l.append e).Whole := whole

theorem Whole.truncateFrom (idx : Nat) : (l.truncateFrom idx).Whole := by
  unfold RaftLog.truncateFrom
  split_ifs <;> exact whole

theorem Whole.entries_truncateFrom (i : Nat) : (l.truncateFrom (i + 1)).entries = l.entries.take i := by
  unfold RaftLog.truncateFrom
  rw [if_neg (by simp [whole.1]), whole.lastIndex]
  split_ifs with inside
  · simp [whole.1]
  · rw [take_of_length_le (by omega)]

theorem Whole.matchesPrev {prevLogIndex prevLogTerm : Nat}
    (matched : l.matchesPrev prevLogIndex prevLogTerm = true) : l.term prevLogIndex = some prevLogTerm := by
  unfold RaftLog.matchesPrev at matched
  rw [whole.1, if_neg (Nat.not_lt_zero _)] at matched
  split_ifs at matched with zero
  · rw [zero, whole.term_zero, of_decide_eq_true matched, whole.2]
  · rw [and_eq_true] at matched
    exact of_decide_eq_true matched.2

end RaftLog

/-- Two logs with entries of one term at a position agree up to there. -/
def Matching (log source : List Entry) : Prop :=
  ∀ i x y, log[i]? = some x → source[i]? = some y → x.term = y.term →
    log.take (i + 1) = source.take (i + 1)

variable {l : RaftLog} {source : List Entry} {founders : Nat} {n : Node}

theorem Matching.prev (whole : l.Whole) (agree : Matching l.entries source) {prev t : Nat}
    (inside : prev ≤ source.length) (own : l.term prev = some t)
    (theirs : ∀ i y, prev = i + 1 → source[i]? = some y → y.term = t) : l.entries.take prev = source.take prev := by
  cases prev with
  | zero => rfl
  | succ i =>
    rw [whole.term, map_eq_some_iff] at own
    obtain ⟨x, found, term⟩ := own
    have at_ := getElem?_eq_getElem (l := source) (i := i) (by omega)
    exact agree i x _ found at_ (term.trans (theirs i _ rfl at_).symm)

theorem appendWindow_entries (whole : l.Whole) {i : Nat}
    (agree : l.entries.take i = source.take i) (held : i ≤ l.entries.length) (shipped : List Entry)
    (part : shipped <+: source.drop i) (aligned : Matching l.entries source) :
    (l.appendWindow (i + 1) shipped).1.Whole ∧ (l.appendWindow (i + 1) shipped).1.entries =
      if source.take (i + shipped.length) <+: l.entries then l.entries
      else source.take (i + shipped.length) := by
  -- Induction over the shipped entries; what is behind the walker agrees with the leader's log.
  induction shipped generalizing l i with
  | nil =>
    refine ⟨whole, ?_⟩
    have kept : source.take i <+: l.entries := by
      rw [← agree]
      exact List.take_prefix ..
    simp only [RaftLog.appendWindow, length_nil, add_zero, if_pos kept]
  | cons e rest ih =>
    obtain ⟨behind, split⟩ := part
    have atI : source[i]? = some e := by
      have := congrArg (·[0]?) split
      simpa using this.symm
    have later : rest <+: source.drop (i + 1) := by
      refine ⟨behind, ?_⟩
      have := congrArg List.tail split
      simpa [tail_drop] using this
    have inside : i < source.length := (List.getElem?_eq_some_iff.mp atI).1
    have step : source.take (i + 1) = source.take i ++ [e] := by
      rw [take_add_one, atI, toList_some]
    have count : i + (e :: rest).length = i + 1 + rest.length := by
      rw [length_cons]
      omega
    unfold RaftLog.appendWindow
    rw [if_neg (by simp [whole.1]), whole.lastIndex, count]
    split_ifs with known keeps keeps
    · -- The log already has this entry.
      rw [whole.term, map_eq_some_iff] at known
      obtain ⟨_, x, found, term⟩ := known
      have next := aligned i x e found atI term
      have result := ih whole next (by omega) later aligned
      rwa [if_pos keeps] at result
    · rw [whole.term, map_eq_some_iff] at known
      obtain ⟨_, x, found, term⟩ := known
      have next := aligned i x e found atI term
      have result := ih whole next (by omega) later aligned
      rwa [if_neg keeps] at result
    · -- A log that held the leader's entries would have had this one.
      exfalso
      apply known
      have present : l.entries[i]? = some e := by
        rw [← getElem?_of_pre keeps (by rw [length_take]; omega), getElem?_take_of_lt (by omega), atI]
      have short := (List.getElem?_eq_some_iff.mp present).1
      refine ⟨by omega, ?_⟩
      rw [whole.term, present, map_some]
    · -- The entry is stored behind the agreeing part.
      have cut : ((if decide (i + 1 ≤ l.entries.length) = true then l.truncateFrom (i + 1)
          else l).append e).entries = source.take (i + 1) := by
        rw [step, ← agree]
        split_ifs with conflict
        · simp only [RaftLog.append, whole.entries_truncateFrom]
        · have short : ¬ i + 1 ≤ l.entries.length := by simpa using conflict
          simp only [RaftLog.append]
          rw [take_of_length_le (by omega)]
      have whole' : ((if decide (i + 1 ≤ l.entries.length) = true then l.truncateFrom (i + 1)
          else l).append e).Whole := by
        refine RaftLog.Whole.append ?_ e
        split_ifs
        · exact whole.truncateFrom _
        · exact whole
      have length : (source.take (i + 1)).length = i + 1 := by
        rw [length_take]
        omega
      have self : Matching (source.take (i + 1)) source := by
        intro j x y found _ _
        have inner := (List.getElem?_eq_some_iff.mp found).1
        rw [length] at inner
        rw [take_take, min_eq_left (by omega)]
      have result := ih whole' (i := i + 1) (by rw [cut, take_take, Nat.min_self])
        (by rw [cut, length]) later (by rw [cut]; exact self)
      refine ⟨result.1, ?_⟩
      rw [result.2, cut]
      split_ifs with short
      · -- Nothing was shipped behind this entry.
        have longer : source.take (i + 1) <+: source.take (i + 1 + rest.length) :=
          List.take_prefix_take_left (by omega)
        exact List.IsPrefix.eq_of_length longer (le_antisymm longer.length_le short.length_le)
      · rfl

theorem appendWindow_untouched {idx : Nat} {shipped : List Entry} (quiet : (l.appendWindow idx shipped).2 = false) :
    ∃ extra, (l.appendWindow idx shipped).1.entries = l.entries ++ extra ∧ ∀ e ∈ extra, e.kind = .data := by
  induction shipped generalizing l idx with
  | nil => exact ⟨[], by simp [RaftLog.appendWindow], by simp⟩
  | cons e rest ih =>
    unfold RaftLog.appendWindow at quiet ⊢
    split_ifs at quiet ⊢ with compacted known
    · exact ih quiet
    · exact ih quiet
    · simp only [or_eq_false_iff, decide_eq_false_iff_not] at quiet
      obtain ⟨⟨fits, plain⟩, rest⟩ := quiet
      simp only [fits, decide_false, false_eq_true, if_false] at rest ⊢
      obtain ⟨extra, equal, data⟩ := ih rest
      refine ⟨e :: extra, ?_, ?_⟩
      · rw [equal]
        simp [RaftLog.append]
      · intro x member
        rcases mem_cons.mp member with rfl | later
        · cases kind : x.kind with
          | data => rfl
          | config => exact absurd kind plain
        · exact data x later

theorem stopInWindow_entries (whole : l.Whole) {m : AppendEntries} (count : Nat) (cut : Bool)
    (agree : l.entries.take m.prevLogIndex = source.take m.prevLogIndex)
    (held : m.prevLogIndex ≤ l.entries.length) (part : m.entries = source.drop m.prevLogIndex)
    (aligned : Matching l.entries source) : (l.stopInWindow m count cut).Whole ∧
    ((l.stopInWindow m count cut).entries = l.entries ∨
      (¬ source <+: l.entries ∧ (l.stopInWindow m count cut).entries <+: source ∧
        ∀ x, x <+: l.entries → x <+: source → x <+: (l.stopInWindow m count cut).entries)) := by
  obtain ⟨whole', stored⟩ := appendWindow_entries whole agree held
    (m.entries.take count) (by rw [part]; exact List.take_prefix ..) aligned
  -- What was stored is the old log or the leader's up to the stopping point.
  have reached : source.take (m.prevLogIndex + (m.entries.take count).length) =
      source.take (m.prevLogIndex + count) := by
    rw [part, length_take, length_drop]
    rcases le_total count (source.length - m.prevLogIndex) with less | more
    · rw [min_eq_left less]
    · rw [min_eq_right more, take_of_length_le (by omega), take_of_length_le (by omega)]
  rw [reached] at stored
  -- A log without those entries shares no more with the leader's.
  have apart : ∀ {x : List Entry}, ¬ source.take (m.prevLogIndex + count) <+: l.entries →
      x <+: l.entries → x <+: source → x <+: source.take (m.prevLogIndex + count) := by
    intro x lacking left right
    rcases List.prefix_or_prefix_of_prefix right ( List.take_prefix _ source) with inner | outer
    · exact inner
    · exact absurd (outer.trans left) lacking
  have plain : (l.appendWindow (m.prevLogIndex + 1) (m.entries.take count)).1.entries = l.entries ∨
      (¬ source <+: l.entries ∧ (l.appendWindow (m.prevLogIndex + 1) (m.entries.take count)).1.entries <+: source ∧
        ∀ x, x <+: l.entries → x <+: source →
          x <+: (l.appendWindow (m.prevLogIndex + 1) (m.entries.take count)).1.entries) := by
    rw [stored]
    split_ifs with keeps
    · exact .inl rfl
    · exact .inr ⟨fun whole_ => keeps (( List.take_prefix _ source).trans whole_),
        List.take_prefix _ source, fun x left right => apart keeps left right⟩
  unfold RaftLog.stopInWindow
  dsimp only
  cases next : m.entries[count]? with
  | none => exact ⟨whole', plain⟩
  | some e =>
    dsimp only
    split_ifs with conflict
    · -- The next entry conflicts, so everything behind the stored part goes.
      obtain ⟨_, _, short, differs⟩ := conflict
      refine ⟨whole'.truncateFrom _, .inr ?_⟩
      have nextIndex : m.prevLogIndex + 1 + count = m.prevLogIndex + count + 1 := by omega
      rw [nextIndex] at differs short ⊢
      rw [whole'.term] at differs
      rw [whole'.lastIndex] at short
      rw [whole'.entries_truncateFrom]
      rw [part, getElem?_drop] at next
      have cutAt : (l.appendWindow (m.prevLogIndex + 1) (m.entries.take count)).1.entries.take
          (m.prevLogIndex + count) = source.take (m.prevLogIndex + count) := by
        rw [stored]
        split_ifs with keeps
        · have inside : m.prevLogIndex + count ≤ source.length :=
            le_of_lt (List.getElem?_eq_some_iff.mp next).1
          have := take_length_of_pre keeps
          rwa [length_take, min_eq_left inside] at this
        · rw [take_take, Nat.min_self]
      rw [cutAt]
      have conflicting : ∀ {x : List Entry}, x <+: l.entries → x <+: source →
          x.length ≤ m.prevLogIndex + count := by
        intro x left right
        refine length_le_of_fork ?_ left right
        intro y found same
        rw [next] at same
        cases same
        by_cases keeps : source.take (m.prevLogIndex + count) <+: l.entries
        · rw [stored, if_pos keeps, found] at differs
          exact differs rfl
        · -- A log without the stored part was cut there already.
          rw [stored, if_neg keeps, length_take] at short
          omega
      refine ⟨?_, List.take_prefix _ source, ?_⟩
      · intro whole_
        have := conflicting whole_ (List.prefix_refl source)
        have inside := (List.getElem?_eq_some_iff.mp next).1
        omega
      · intro x left right
        exact List.prefix_take_iff.mpr ⟨right, conflicting left right⟩
    · exact ⟨whole', plain⟩

theorem reconfAt_iff {log : List Entry} {pos : Nat} :
    (rules founders).ReconfAt log pos ↔ ∃ e, log[pos]? = some e ∧ e.kind = .config := by
  constructor
  · rintro ⟨e, set, found, reconf⟩
    refine ⟨e, found, ?_⟩
    by_contra other
    simp [rules, other] at reconf
  · rintro ⟨e, found, kind⟩
    exact ⟨e, (decodeConfig e.data).toFinset, found, by simp [rules, kind]⟩

theorem latestConfig_cases (whole : l.Whole) (founders idx : Nat) :
    (l.latestConfig idx = none ∧ ∀ pos, pos < idx → ¬ (rules founders).ReconfAt l.entries pos) ∨
    ∃ pos e, l.latestConfig idx = some (pos + 1, e) ∧ pos < idx ∧ l.entries[pos]? = some e ∧ e.kind = .config ∧
    ∀ p, pos < p → p < idx → ¬ (rules founders).ReconfAt l.entries p := by
  induction idx with
  | zero => exact .inl ⟨rfl, by simp⟩
  | succ idx ih =>
    unfold RaftLog.latestConfig
    rw [if_neg (by simp [whole.1]), whole.entryAt]
    -- An entry of another kind, or none, leaves the search to the entries below.
    have skip : ¬ (rules founders).ReconfAt l.entries idx →
        (l.latestConfig idx = none ∧ ∀ pos, pos < idx + 1 → ¬ (rules founders).ReconfAt l.entries pos) ∨
        ∃ pos e, l.latestConfig idx = some (pos + 1, e) ∧ pos < idx + 1 ∧ l.entries[pos]? = some e ∧ e.kind = .config ∧
          ∀ p, pos < p → p < idx + 1 → ¬ (rules founders).ReconfAt l.entries p := by
      intro plain
      rcases ih with ⟨none, below⟩ | ⟨pos, e, some, inside, found, kind, below⟩
      · refine .inl ⟨none, fun pos under => ?_⟩
        rcases Nat.lt_or_eq_of_le (Nat.le_of_lt_succ under) with lower | rfl
        · exact below pos lower
        · exact plain
      · refine .inr ⟨pos, e, some, by omega, found, kind, fun p above under => ?_⟩
        rcases Nat.lt_or_eq_of_le (Nat.le_of_lt_succ under) with lower | rfl
        · exact below p above lower
        · exact plain
    cases found : l.entries[idx]? with
    | none =>
      refine skip ?_
      rw [reconfAt_iff, found]
      simp
    | some e =>
      dsimp only
      split_ifs with kind
      · exact .inr ⟨idx, e, rfl, by omega, found, kind, fun p above under => by omega⟩
      · refine skip ?_
        rw [reconfAt_iff, found]
        rintro ⟨e', same, config⟩
        cases same
        exact kind config

theorem Node.deriveConfig_members (whole : n.log.Whole)
    (base : n.baseConfig = .fullConfig founders ∨ n.baseConfig = .empty)
    (some_ : n.baseConfig = .fullConfig founders ∨ n.deriveConfig.ids ≠ []) :
    n.deriveConfig.toFinset = (rules founders).members n.log.entries := by
  have all : n.log.entries.take n.log.lastIndex = n.log.entries := by
    rw [whole.lastIndex, take_length]
  unfold Node.deriveConfig at some_ ⊢
  -- The last configuration entry decides, or the base if there is none.
  rcases latestConfig_cases whole founders n.log.lastIndex with
    ⟨none, below⟩ | ⟨pos, e, found, inside, present, kind, below⟩
  · rw [none] at some_ ⊢
    dsimp only at some_ ⊢
    have founding : n.baseConfig = .fullConfig founders := by
      rcases base with full | empty
      · exact full
      · rcases some_ with full | nonempty
        · exact full
        · rw [empty] at nonempty
          exact absurd rfl nonempty
    have members := (rules founders).members_take_eq (Nat.zero_le n.log.lastIndex) fun p _ under => below p under
    rw [all] at members
    rw [founding, members]
    rfl
  · rw [found]
    have reconf : (rules founders).reconf e = some (decodeConfig e.data).toFinset := by
      simp [rules, kind]
    have members := (rules founders).members_take_reconf present reconf inside below
    rw [all] at members
    exact members.symm

theorem Node.plain_above_commit (whole : n.log.Whole) (founders : Nat) (done : n.latestConfigEntryCommitted = true) :
    ∀ pos, n.commitIndex ≤ pos → ¬ (rules founders).ReconfAt n.log.entries pos := by
  intro pos above at_
  have inside : pos < n.log.lastIndex := by
    rw [whole.lastIndex]
    exact at_.inside
  unfold Node.latestConfigEntryCommitted at done
  rcases latestConfig_cases whole founders n.log.lastIndex with
    ⟨_, below⟩ | ⟨last, e, found, _, present, kind, below⟩
  · exact below pos inside at_
  · rw [found] at done
    have committed : last + 1 ≤ n.commitIndex := of_decide_eq_true done
    exact below pos (by omega) inside at_

theorem Node.deriveConfig_append (n' : Node) {extra : List Entry}
    (base : n'.baseConfig = n.baseConfig) (longer : n'.log.entries = n.log.entries ++ extra)
    (data : ∀ e ∈ extra, e.kind = .data) : n'.deriveConfig = n.deriveConfig := by
  rw [deriveConfig_eq, deriveConfig_eq, base, longer, adoptAll_append]
  refine adoptAll_plain _ fun e added config => ?_
  rw [data e added] at config
  cases config

/-- The vote check is the protocol's comparison of logs. -/
theorem Node.candidateUpToDate_spec (whole : n.log.Whole) {candidate : List Entry}
    (fresh : n.candidateUpToDate candidate.length ((rules founders).lastTerm candidate) = true) :
    (rules founders).UpToDate candidate n.log.entries := by
  unfold Node.candidateUpToDate at fresh
  rw [whole.lastTerm founders, whole.lastIndex] at fresh
  split_ifs at fresh with differs
  · exact .inl (of_decide_eq_true fresh)
  · simp only [ne_eq, Decidable.not_not] at differs
    exact .inr ⟨differs.symm, of_decide_eq_true fresh⟩

theorem lt_countP_of_descending {vals : List Nat} (sorted : vals.Pairwise (· ≥ ·)) {k cand : Nat}
    (found : vals[k]? = some cand) : k < vals.countP fun x => decide (cand ≤ x) := by
  obtain ⟨inside, value⟩ := List.getElem?_eq_some_iff.mp found
  have all : ∀ x ∈ vals.take (k + 1), decide (cand ≤ x) = true := by
    intro x member
    obtain ⟨i, bound, rfl⟩ := getElem_of_mem member
    rw [length_take] at bound
    rw [getElem_take, ← value, decide_eq_true_eq]
    rcases Nat.lt_or_eq_of_le (show i ≤ k by omega) with before | same
    · exact pairwise_iff_getElem.mp sorted i k (by omega) inside before
    · simp [same]
  have taken : (vals.take (k + 1)).countP (fun x => decide (cand ≤ x)) = k + 1 := by
    rw [countP_eq_length.mpr all, length_take]
    omega
  have whole := List.Sublist.countP_le (p := fun x => decide (cand ≤ x)) (take_sublist (k + 1) vals)
  omega

/-- The index a member is known to hold, the leader's its last one. -/
def Node.heldIndex (n : Node) (p : NodeID) : Nat :=
  if p = n.id then n.log.lastIndex else n.matchIndex p

theorem Node.matchValues_perm (n : Node) : n.matchValues.Perm (n.config.ids.map n.heldIndex) := by
  have others : n.votingPeers.map n.matchIndex = n.votingPeers.map n.heldIndex := by
    refine map_congr_left ?_
    intro p member
    have other : p ≠ n.id := by simpa using (mem_filter.mp member).2
    simp [heldIndex, other]
  have distinct : n.config.ids.Nodup := n.config.sorted.imp ne_of_lt
  unfold matchValues inConfig
  rw [others]
  split_ifs with member
  · have member : n.id ∈ n.config.ids := of_decide_eq_true member
    have perm : n.config.ids.Perm (n.id :: n.votingPeers) := by
      refine (perm_cons_erase member).trans (List.Perm.cons _ ?_)
      rw [distinct.erase_eq_filter, votingPeers]
      refine List.Perm.of_eq (filter_congr fun p _ => ?_)
      by_cases same : p = n.id <;> simp [same]
    have mapped := perm.map n.heldIndex
    simp only [map_cons] at mapped
    refine List.Perm.trans ?_ mapped.symm
    simp [heldIndex]
  · have absent : n.id ∉ n.config.ids := by simpa using member
    have all : n.votingPeers = n.config.ids := by
      refine filter_eq_self.mpr fun p inside => ?_
      simpa using fun same : p = n.id => absent (same ▸ inside)
    rw [all, nil_append]

/-- Nothing happens, or a majority holds the new index, of the leader's term. -/
theorem Node.maybeAdvanceCommit_cases {n' : Node} {events : List Event}
    (done : n.maybeAdvanceCommit = some (n', events)) : (n' = n ∧ events = []) ∨
    ∃ cand, n.commitIndex < cand ∧ n.log.term cand = some n.currentTerm ∧ n' = { n with commitIndex := cand } ∧
      events = [.advanced n.id n.currentTerm cand
        (n.votingPeers.filter fun p => decide (cand ≤ n.matchIndex p)) n.log] ∧
      ∃ q, Majority n.config.toFinset q ∧ ∀ p ∈ q, cand ≤ n.heldIndex p := by
  unfold maybeAdvanceCommit at done
  dsimp only at done
  split at done
  · cases done
    exact .inl ⟨rfl, rfl⟩
  · rename_i cand median
    split_ifs at done with above
    · split at done
      · cases done
      · rename_i term known
        split_ifs at done with own
        · cases done
          subst own
          refine .inr ⟨cand, above, known, rfl, rfl, ?_⟩
          refine ⟨n.config.toFinset.filter fun p => cand ≤ n.heldIndex p,
            ⟨Finset.filter_subset _ _, ?_⟩, fun p member => (Finset.mem_filter.mp member).2⟩
          -- More than half of the tally is at least the median.
          have sorted := pairwise_insertionSort (r := fun a b : Nat => a ≥ b) n.matchValues
          have most := lt_countP_of_descending sorted median
          have perm := (perm_insertionSort (fun a b : Nat => a ≥ b) n.matchValues).trans n.matchValues_perm
          rw [perm.countP_eq, countP_map, perm.length_eq, length_map] at most
          have size : (n.config.toFinset.filter fun p => cand ≤ n.heldIndex p).card =
              n.config.ids.countP fun p => decide (cand ≤ n.heldIndex p) := by
            rw [countP_eq_length_filter]
            rfl
          rw [size, Members.card_toFinset]
          have same : (n.config.ids.countP fun p => decide (cand ≤ n.heldIndex p)) =
              n.config.ids.countP ((fun x => decide (cand ≤ x)) ∘ n.heldIndex) := rfl
          omega
        · cases done
          exact .inl ⟨rfl, rfl⟩
    · cases done
      exact .inl ⟨rfl, rfl⟩

end Cluster
