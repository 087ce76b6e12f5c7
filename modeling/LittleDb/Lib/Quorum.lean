import Mathlib.Data.Finset.Card

/-! Majorities of finite member sets, and when two of them must share a member. -/

namespace Quorum

open Finset

variable {N : Type} [DecidableEq N]

/-- The voters are members, and more than half of the members are among them. -/
def Majority (members voters : Finset N) : Prop :=
  voters ⊆ members ∧ members.card < 2 * voters.card

/-- The two member sets differ in at most one member. -/
def Near (old new : Finset N) : Prop :=
  (old \ new).card + (new \ old).card ≤ 1

@[simp] theorem Near.refl (members : Finset N) : Near members members := by
  simp [Near]

theorem Near.symm {old new : Finset N} (near : Near old new) : Near new old := by
  unfold Near at near ⊢
  omega

theorem near_insert (members : Finset N) (x : N) : Near members (insert x members) := by
  -- Nothing is lost, and at most the inserted member is gained.
  have lost : members \ insert x members = ∅ := by
    rw [sdiff_eq_empty_iff_subset]
    exact subset_insert x members
  have gained : insert x members \ members ⊆ {x} := by
    intro y member
    simp only [mem_sdiff, mem_insert] at member
    rcases member with ⟨same | old, fresh⟩
    · simp [same]
    · exact absurd old fresh
  have bound := card_le_card gained
  simp only [card_singleton] at bound
  simp only [Near, lost, card_empty]
  omega

theorem near_erase (members : Finset N) (x : N) : Near members (members.erase x) := by
  -- Nothing is gained, and at most the erased member is lost.
  have gained : members.erase x \ members = ∅ := by
    rw [sdiff_eq_empty_iff_subset]
    exact erase_subset x members
  have lost : members \ members.erase x ⊆ {x} := by
    intro y member
    simp only [mem_sdiff, mem_erase, not_and, ne_eq] at member
    by_contra other
    exact member.2 (by simpa using other) member.1
  have bound := card_le_card lost
  simp only [card_singleton] at bound
  simp only [Near, gained, card_empty]
  omega

theorem Majority.meet {old new voters acks : Finset N} (near : Near old new) (elected : Majority old voters)
    (stored : Majority new acks) : ∃ x, x ∈ voters ∧ x ∈ acks := by
  by_contra apart
  have disjoint : Disjoint voters acks := by
    rw [disjoint_left]
    intro x left right
    exact apart ⟨x, left, right⟩
  -- Disjoint majorities would fill more places than the two member sets have together.
  have places : (voters ∪ acks).card ≤ (old ∪ new).card :=
    card_le_card (union_subset_union elected.1 stored.1)
  rw [card_union_of_disjoint disjoint] at places
  have grown := card_sdiff_add_card old new
  have shrunk := card_sdiff_add_card new old
  rw [union_comm new old] at shrunk
  have half := elected.2
  have other := stored.2
  unfold Near at near
  omega

end Quorum
