import LittleDb.Cluster.IndexOrder
import Mathlib.Order.Bounds.Basic

/-! The commit rule: the tally picks the greatest index that a majority holds and the leader may commit. -/

namespace Cluster

open List Option RaftLog

theorem le_of_lt_countP {vals : List Nat} (sorted : vals.Pairwise (· ≥ ·)) {k cand bound : Nat}
    (found : vals[k]? = some cand) (many : k < vals.countP fun x => decide (bound ≤ x)) : bound ≤ cand := by
  obtain ⟨inside, value⟩ := List.getElem?_eq_some_iff.mp found
  by_contra low
  -- From the position on everything is at most the candidate, so nothing there is counted.
  have none : (vals.drop k).countP (fun x => decide (bound ≤ x)) = 0 := by
    refine countP_eq_zero.mpr fun x member => ?_
    obtain ⟨i, short, rfl⟩ := getElem_of_mem member
    rw [length_drop] at short
    have descends : vals[k + i] ≤ vals[k] := by
      rcases Nat.eq_zero_or_pos i with rfl | later
      · exact le_refl _
      · exact pairwise_iff_getElem.mp sorted k (k + i) inside (by omega) (by omega)
    rw [getElem_drop, decide_eq_true_eq]
    omega
  -- Before it there are only as many entries as the position says.
  have few : (vals.take k).countP (fun x => decide (bound ≤ x)) ≤ k :=
    countP_le_length.trans (length_take_le k vals)
  have split : (vals.take k ++ vals.drop k).countP (fun x => decide (bound ≤ x)) =
      (vals.take k).countP (fun x => decide (bound ≤ x)) + (vals.drop k).countP fun x => decide (bound ≤ x) :=
    countP_append
  rw [take_append_drop] at split
  omega

namespace RaftLog

variable {l : RaftLog}

def TermsAscend (l : RaftLog) : Prop := l.entries.Pairwise fun e e' => e.term ≤ e'.term

theorem TermsAscend.term_le (ascend : l.TermsAscend) {i j t u : Nat} (above : l.baseIndex < i) (order : i ≤ j)
    (known : l.term i = some t) (known' : l.term j = some u) : t ≤ u := by
  unfold term at known known'
  rw [if_neg (by omega)] at known known'
  obtain ⟨e, held, rfl⟩ := map_eq_some_iff.mp known
  obtain ⟨e', held', rfl⟩ := map_eq_some_iff.mp known'
  unfold entryAt at held held'
  rw [if_neg (by omega)] at held held'
  obtain ⟨inside, rfl⟩ := List.getElem?_eq_some_iff.mp held
  obtain ⟨inside', rfl⟩ := List.getElem?_eq_some_iff.mp held'
  -- The two positions are in the order of the two indices.
  rcases Nat.lt_or_eq_of_le order with before | rfl
  · exact pairwise_iff_getElem.mp ascend _ _ inside inside' (by omega)
  · exact le_refl _

theorem exists_of_term {i t : Nat} (above : l.baseIndex < i) (known : l.term i = some t) :
    ∃ e ∈ l.entries, e.term = t := by
  unfold term at known
  rw [if_neg (by omega)] at known
  obtain ⟨e, held, rfl⟩ := map_eq_some_iff.mp known
  unfold entryAt at held
  rw [if_neg (by omega)] at held
  exact ⟨e, mem_of_getElem? held, rfl⟩

end RaftLog

namespace Node

/-- More than half of the members hold an index, the leader its last. -/
def QuorumHolds (n : Node) (idx : Nat) : Prop :=
  n.config.ids.length < 2 * n.config.ids.countP fun p => decide (idx ≤ n.heldIndex p)

/-- The indices the leader may commit: held by a quorum, of its own term. -/
def committable (n : Node) : Set Nat :=
  {idx | n.commitIndex < idx ∧ n.QuorumHolds idx ∧ n.log.term idx = some n.currentTerm}

variable {n : Node} {cand idx : Nat}

theorem tally_perm (n : Node) : (n.matchValues.insertionSort (· ≥ ·)).Perm (n.config.ids.map n.heldIndex) :=
  (perm_insertionSort (fun a b : Nat => a ≥ b) n.matchValues).trans n.matchValues_perm

theorem countP_tally (n : Node) (idx : Nat) :
    (n.matchValues.insertionSort (· ≥ ·)).countP (fun x => decide (idx ≤ x)) =
      n.config.ids.countP fun p => decide (idx ≤ n.heldIndex p) := by
  rw [n.tally_perm.countP_eq, countP_map]
  rfl

theorem length_tally (n : Node) : (n.matchValues.insertionSort (· ≥ ·)).length = n.config.ids.length := by
  rw [n.tally_perm.length_eq, length_map]

theorem quorumHolds_iff
    (median : (n.matchValues.insertionSort (· ≥ ·))[(n.matchValues.insertionSort (· ≥ ·)).length / 2]? =
      some cand) : n.QuorumHolds idx ↔ idx ≤ cand := by
  have sorted := pairwise_insertionSort (r := fun a b : Nat => a ≥ b) n.matchValues
  unfold QuorumHolds
  rw [← n.countP_tally, ← n.length_tally]
  constructor
  · intro quorum
    exact le_of_lt_countP sorted median (by omega)
  · intro low
    -- Everything up to the middle reaches the candidate, hence the lower index.
    have most := lt_countP_of_descending sorted median
    have more : (n.matchValues.insertionSort (· ≥ ·)).countP (fun x => decide (cand ≤ x)) ≤
        (n.matchValues.insertionSort (· ≥ ·)).countP fun x => decide (idx ≤ x) :=
      countP_mono_left fun x _ reached => by
        rw [decide_eq_true_eq] at reached ⊢
        omega
    omega

theorem heldIndex_le (held : ∀ p ∈ n.votingPeers, n.matchIndex p ≤ n.log.lastIndex) {p : NodeID}
    (member : p ∈ n.config.ids) : n.heldIndex p ≤ n.log.lastIndex := by
  unfold heldIndex
  split_ifs with own
  · exact le_refl _
  · exact held p (mem_filter.mpr ⟨member, by simpa using own⟩)

theorem median_le (held : ∀ p ∈ n.votingPeers, n.matchIndex p ≤ n.log.lastIndex) {k : Nat}
    (median : (n.matchValues.insertionSort (· ≥ ·))[k]? = some cand) : cand ≤ n.log.lastIndex := by
  have listed := n.tally_perm.mem_iff.mp (mem_of_getElem? median)
  obtain ⟨p, member, rfl⟩ := mem_map.mp listed
  exact heldIndex_le held member

theorem committable_eq_empty
    (none : (n.matchValues.insertionSort (· ≥ ·))[(n.matchValues.insertionSort (· ≥ ·)).length / 2]? = none) :
    n.committable = ∅ := by
  have short := getElem?_eq_none_iff.mp none
  have nobody : n.config.ids.length = 0 := by
    rw [← n.length_tally]
    omega
  refine Set.eq_empty_iff_forall_notMem.mpr fun idx member => ?_
  have quorum := member.2.1
  have few := countP_le_length (p := fun p => decide (idx ≤ n.heldIndex p)) (l := n.config.ids)
  unfold QuorumHolds at quorum
  omega

theorem median_committable (ascend : n.log.TermsAscend) (recent : ∀ e ∈ n.log.entries, e.term ≤ n.currentTerm)
    (base : n.log.baseIndex ≤ n.commitIndex) (held : ∀ p ∈ n.votingPeers, n.matchIndex p ≤ n.log.lastIndex)
    (median : (n.matchValues.insertionSort (· ≥ ·))[(n.matchValues.insertionSort (· ≥ ·)).length / 2]? = some cand)
    (member : idx ∈ n.committable) : IsGreatest n.committable cand := by
  obtain ⟨above, quorum, own⟩ := member
  have low : idx ≤ cand := (quorumHolds_iff median).mp quorum
  have inside : n.log.baseIndex ≤ cand := by omega
  obtain ⟨t, known⟩ := term_known inside (median_le held median)
  obtain ⟨e, listed, same⟩ := exists_of_term (by omega) known
  -- The term at the middle lies between the leader's own, reached below it, and the leader's own.
  have atLeast : n.currentTerm ≤ t := ascend.term_le (by omega) low own known
  have atMost : t ≤ n.currentTerm := same ▸ recent e listed
  refine ⟨⟨by omega, (quorumHolds_iff median).mpr (le_refl _), ?_⟩, fun idx' member' => ?_⟩
  · rw [known, le_antisymm atMost atLeast]
  · exact (quorumHolds_iff median).mp member'.2.1

/-- The leader commits the greatest own-term index that a quorum holds. -/
theorem commit_rule (n : Node) (ascend : n.log.TermsAscend)
    (recent : ∀ e ∈ n.log.entries, e.term ≤ n.currentTerm) (base : n.log.baseIndex ≤ n.commitIndex)
    (held : ∀ p ∈ n.votingPeers, n.matchIndex p ≤ n.log.lastIndex) :
    ∃ n' events, n.maybeAdvanceCommit = some (n', events) ∧
      ((∃ idx, IsGreatest n.committable idx ∧ n' = { n with commitIndex := idx }) ∨
        (n.committable = ∅ ∧ n' = n)) := by
  unfold maybeAdvanceCommit
  dsimp only
  split
  · -- The configuration is empty.
    next none => exact ⟨n, [], rfl, .inr ⟨committable_eq_empty none, rfl⟩⟩
  · next cand median =>
    have nothing : cand ∉ n.committable → n.committable = ∅ := by
      intro refused
      refine Set.eq_empty_iff_forall_notMem.mpr fun idx member => refused ?_
      exact (median_committable ascend recent base held median member).1
    split_ifs with above
    · have inside : n.log.baseIndex ≤ cand := by omega
      obtain ⟨t, known⟩ := term_known inside (median_le held median)
      simp only [known]
      split_ifs with own
      · -- The middle of the tally is of the leader's term, so it is committed.
        refine ⟨_, _, rfl, .inl ⟨cand, ?_, rfl⟩⟩
        exact median_committable ascend recent base held median
          ⟨above, (quorumHolds_iff median).mpr (le_refl _), own ▸ known⟩
      · refine ⟨n, [], rfl, .inr ⟨nothing fun member => own ?_, rfl⟩⟩
        exact Option.some.inj (known.symm.trans member.2.2)
    · exact ⟨n, [], rfl, .inr ⟨nothing fun member => above member.1, rfl⟩⟩

/-- A leader with an older entry and an own one, which one follower holds. -/
def tallied : Node :=
  { (System.init ⟨0, 0⟩ 3).node 0 with
    currentTerm := 2
    log := ⟨0, 0, [⟨1, .data, []⟩, ⟨2, .data, []⟩]⟩
    matchIndex := fun p => if p = 1 then 2 else 0 }

/-- Such a leader commits both entries at once. -/
theorem commit_rule_tallied : IsGreatest tallied.committable 2 ∧
    ∃ events, tallied.maybeAdvanceCommit = some ({ tallied with commitIndex := 2 }, events) := by
  obtain ⟨n', events, done, outcome⟩ := commit_rule tallied
    (by simp [RaftLog.TermsAscend, tallied]) (by simp [tallied]) (by decide) (by decide)
  obtain ⟨rfl, rfl⟩ : n' = { tallied with commitIndex := 2 } ∧
      events = [.advanced 0 2 2 [1] tallied.log] := Prod.mk.inj (Option.some.inj done).symm
  refine ⟨?_, _, done⟩
  rcases outcome with ⟨idx, greatest, same⟩ | ⟨-, same⟩
  · obtain rfl : 2 = idx := congrArg Node.commitIndex same
    exact greatest
  · exact absurd (congrArg Node.commitIndex same) (by decide)

end Node

end Cluster
