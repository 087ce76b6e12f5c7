import LittleDb.Lincheck.Search
import Mathlib.Algebra.Ring.Nat
import Mathlib.Tactic.Ring

/-! What the search knows at every turn: exact undo, refuted choices, and the work still owed. -/

namespace Lincheck

open Linearize List

/-- Every operation returns after its call, at no other one's call tick. -/
structure Timed (ops : List Op) : Prop where
  window : ∀ a ∈ ops, a.call < a.ret
  apart : ∀ a ∈ ops, ∀ b ∈ ops, a.ret ≠ b.call

/-- The register after the operation with an id, if its observation is legal. -/
def stepAt (ops : List Op) (s : RegState) (i : Nat) : Option RegState :=
  ops[i]?.bind (stepRegister s)

section Events

variable {ops : List Op}

@[simp] theorem mem_events {e : Event Nat} : e ∈ events ops ↔ e.id < ops.length := by
  simp only [events, mem_insertionSort, mem_flatMap, mem_range, mem_cons, not_mem_nil, or_false]
  cases e <;> simp

theorem nodup_events (ops : List Op) : (events ops).Nodup := by
  refine (perm_insertionSort _ _).nodup_iff.mpr ?_
  rw [nodup_flatMap]
  refine ⟨fun i _ => by simp, ?_⟩
  -- The events of two operations carry different ids.
  refine nodup_range.imp fun {i j} apart e left right => ?_
  have first : e.id = i := by
    rcases mem_pair.mp left with rfl | rfl <;> rfl
  have second : e.id = j := by
    rcases mem_pair.mp right with rfl | rfl <;> rfl
  exact apart (first.symm.trans second)

theorem sorted_events (ops : List Op) : (events ops).Pairwise fun a b =>
    a.tick (opened ops) (closed ops) ≤ b.tick (opened ops) (closed ops) := by
  let order : Event Nat → Event Nat → Prop := fun a b =>
    a.tick (opened ops) (closed ops) ≤ b.tick (opened ops) (closed ops)
  have : Std.Total order := ⟨fun a b => le_total _ _⟩
  have : IsTrans (Event Nat) order := ⟨fun a b c => le_trans⟩
  exact pairwise_insertionSort order _

theorem Timed.timeline (timed : Timed ops) : Timeline (opened ops) (closed ops) (events ops) where
  sorted := sorted_events ops
  distinct := nodup_events ops
  paired i := by simp
  window i within := by
    have inside : i < ops.length := by simpa using within
    simpa [opened, closed, inside] using timed.window _ (getElem_mem inside)
  apart i j opens closes := by
    have first : i < ops.length := by simpa using opens
    have second : j < ops.length := by simpa using closes
    simpa [opened, closed, first, second] using timed.apart _ (getElem_mem second) _ (getElem_mem first)

/-- The events of the operations that are not linearized. -/
def remaining (ops : List Op) (ids : List Nat) : List (Event Nat) :=
  (events ops).filter fun e => e.id ∉ ids

@[simp] theorem mem_remaining {ids : List Nat} {e : Event Nat} :
    e ∈ remaining ops ids ↔ e.id < ops.length ∧ e.id ∉ ids := by
  simp only [remaining, mem_filter, mem_events, decide_eq_true_eq]

@[simp] theorem remaining_nil (ops : List Op) : remaining ops [] = events ops := by
  simp [remaining]

theorem remaining_cons (ops : List Op) (i : Nat) (ids : List Nat) :
    remaining ops (i :: ids) = without i (remaining ops ids) := by
  rw [remaining, remaining, without, filter_filter]
  refine filter_congr fun e _ => ?_
  simp [not_or]

theorem remaining_congr (ops : List Op) {ids ids' : List Nat} (same : ∀ i, i ∈ ids ↔ i ∈ ids') :
    remaining ops ids = remaining ops ids' := by
  refine filter_congr fun e _ => ?_
  simp [same]

theorem length_remaining (ops : List Op) (ids : List Nat) : (remaining ops ids).length ≤ 2 * ops.length := by
  have all : (events ops).length = 2 * ops.length := by
    simp [events, length_flatMap, mul_comm]
  exact all ▸ length_filter_le _ _

theorem nodup_remaining (ops : List Op) (ids : List Nat) : (remaining ops ids).Nodup :=
  (nodup_events ops).filter _

end Events

section Lifting

theorem threads_buildEventList (ops : List Op) :
    (buildEventList ops).Threads .head ((remaining ops []).map .event) := by
  rw [remaining_nil]
  refine Links.threads_thread (nodup_cons.mpr ⟨by simp, ?_⟩) fun _ => rfl
  exact (nodup_events ops).map fun a b same => by simpa using same

/-- A lift takes both events out, and undoing restores every link. -/
theorem lift_spec {k : Links Node} {i : Nat} {before after : List (Event Nat)}
    (threads : k.Threads .head ((before ++ .call i :: after).map .event))
    (distinct : (before ++ .call i :: after).Nodup) (closes : .ret i ∈ after) :
    ∃ k', lift k (.event (.call i)) = some k' ∧
      k'.Threads .head ((without i (before ++ .call i :: after)).map .event) ∧
      unlift k' (.event (.call i)) = some k := by
  obtain ⟨mid, tail, rfl⟩ := append_of_mem closes
  have nodes : (Node.head :: (before ++ .call i :: (mid ++ .ret i :: tail)).map .event).Nodup := by
    refine nodup_cons.mpr ⟨by simp, distinct.map fun a b same => ?_⟩
    simpa using same
  -- First the call goes, then the return, which is still in the list that is left.
  have whole : k.Threads .head
      (before.map Node.event ++ Node.event (.call i) :: (mid ++ .ret i :: tail).map Node.event) := by
    simpa using threads
  have onward : ∃ q, k.next (.event (.call i)) = some q := by
    rw [whole.next_mid]
    cases mid <;> simp
  obtain ⟨q, onward⟩ := onward
  obtain ⟨k₁, gone, threads₁, back⟩ := whole.unlink (by simpa using nodes)
  have half : k₁.Threads .head
      ((before ++ mid).map Node.event ++ Node.event (.ret i) :: tail.map Node.event) := by
    simpa using threads₁
  obtain ⟨k₂, gone₂, threads₂, back₂⟩ := half.unlink (by
    refine List.Sublist.nodup ?_ nodes
    simp)
  refine ⟨k₂, by simp [lift, onward, gone, Node.match?, gone₂], ?_, ?_⟩
  · -- No other event belongs to the operation, so exactly these two are missing.
    have rest : without i (before ++ .call i :: (mid ++ .ret i :: tail)) = before ++ mid ++ tail := by
      simp only [nodup_append, nodup_cons, mem_append, mem_cons] at distinct
      have outside : ∀ l, l = before ∨ l = mid ∨ l = tail → without i l = l := by
        rintro l (rfl | rfl | rfl) <;> refine without_eq_self ?_ ?_ <;> intro within <;> grind
      simp [outside]
    rw [rest]
    simpa using threads₂
  · have kept := (Links.unlink_next gone).trans onward
    simp [unlift, Node.match?, back₂, kept, back]

end Lifting

section Choices

variable {ops : List Op}

/-- The register after a list of operations, the newest first. -/
def stateAfter (ops : List Op) : List Nat → Option RegState
  | [] => some .absent
  | i :: ids => (stateAfter ops ids).bind fun s => stepAt ops s i

/-- Calls passed over: illegal here, or with nothing completable behind them. -/
def Dead (ops : List Op) (ids : List Nat) (s : RegState) (before : List (Event Nat)) : Prop :=
  ∀ e ∈ before, ∃ j, e = .call j ∧
    ∀ s', stepAt ops s j = some s' → ¬ Places (stepAt ops) (remaining ops (j :: ids)) s'

/-- The most turns the search can owe for one position at a depth. -/
def weight (ops : List Op) (depth : Nat) : Nat := (2 * ops.length + 1) ^ (ops.length - depth)

/-- The choices on the stack, each legal behind dead ones, and the list left. -/
inductive Chosen (ops : List Op) :
    List Frame → List Nat → RegState → Links Node → Nat → Prop where
  | start : Chosen ops [] [] .absent (buildEventList ops) 0
  | push {frames : List Frame} {ids : List Nat} {s s' : RegState} {k k' : Links Node} {owed i : Nat}
      {before after : List (Event Nat)} (below : Chosen ops frames ids s k owed)
      (split : remaining ops ids = before ++ .call i :: after) (dead : Dead ops ids s before)
      (moved : stepAt ops s i = some s') (lifted : lift k (.event (.call i)) = some k') :
      Chosen ops (⟨.event (.call i), s⟩ :: frames) (i :: ids) s' k'
        (owed + after.length * weight ops ids.length)

variable {ids : List Nat} {before after : List (Event Nat)} {i : Nat} {s : RegState}

theorem fresh_of_split (split : remaining ops ids = before ++ .call i :: after) : i < ops.length ∧ i ∉ ids := by
  have within : .call i ∈ remaining ops ids := by simp [split]
  simpa using within

theorem Dead.ret_mem (dead : Dead ops ids s before) (split : remaining ops ids = before ++ .call i :: after) :
    .ret i ∈ after := by
  have within : .ret i ∈ remaining ops ids := by simpa using fresh_of_split split
  rw [split] at within
  simp only [mem_append, mem_cons, reduceCtorEq, false_or] at within
  rcases within with ahead | behind
  · obtain ⟨j, same, _⟩ := dead _ ahead
    cases same
  · exact behind

theorem Dead.not_places {j : Nat} (dead : Dead ops ids s before)
    (split : remaining ops ids = before ++ .ret j :: after) : ¬ Places (stepAt ops) (remaining ops ids) s := by
  intro placed
  generalize shape : remaining ops ids = left at placed
  cases placed with
  | done => simp [split] at shape
  | @place front back i _ s' pending moved rest =>
    -- The call placed next stands in front of the first return, so it is one of the dead ones.
    have ahead : .call i ∈ before := by
      rw [split] at shape
      rcases append_eq_append_iff.mp shape with ⟨mid, first, second⟩ | ⟨mid, first, second⟩
      · cases mid with
        | nil => simp at second
        | cons e mid =>
          obtain ⟨rfl, -⟩ := List.cons.inj second
          obtain ⟨k, same⟩ := pending (.ret j) (by simp [first])
          cases same
      · cases mid with
        | nil => simp at second
        | cons e mid =>
          obtain ⟨rfl, -⟩ := List.cons.inj second
          simp [first]
    obtain ⟨k, same, refuted⟩ := dead _ ahead
    cases same
    refine refuted s' moved ?_
    rwa [remaining_cons, shape]

namespace Chosen

variable {frames : List Frame} {k : Links Node} {owed : Nat}

variable (chosen : Chosen ops frames ids s k owed)

include chosen

/-- The chosen operations are distinct ones of the history. -/
theorem ids_spec : ids.Nodup ∧ ∀ i ∈ ids, i < ops.length := by
  induction chosen with
  | start => simp
  | push below split dead moved lifted ih =>
    obtain ⟨inside, fresh⟩ := fresh_of_split split
    refine ⟨nodup_cons.mpr ⟨fresh, ih.1⟩, fun j within => ?_⟩
    rcases mem_cons.mp within with rfl | within
    · exact inside
    · exact ih.2 j within

theorem state_eq : stateAfter ops ids = some s := by
  induction chosen with
  | start => rfl
  | push below split dead moved lifted ih => simp [stateAfter, ih, moved]

theorem threads : k.Threads .head ((remaining ops ids).map .event) := by
  induction chosen with
  | start => exact threads_buildEventList ops
  | @push frames ids s s' k k' owed i before after below split dead moved lifted ih =>
    obtain ⟨k₁, lifted₁, threads₁, _⟩ := lift_spec (split ▸ ih) (split ▸ nodup_remaining ops ids) (dead.ret_mem split)
    obtain rfl : k₁ = k' := by simpa [lifted₁] using lifted
    rwa [remaining_cons, split]

theorem places (rest : Places (stepAt ops) (remaining ops ids) s) : Places (stepAt ops) (events ops) .absent := by
  induction chosen with
  | start => rwa [remaining_nil] at rest
  | @push frames ids s s' k k' owed i before after below split dead moved lifted ih =>
    refine ih ?_
    rw [split]
    refine .place (fun e within => ?_) moved ?_
    · obtain ⟨j, same, _⟩ := dead e within
      exact ⟨j, same⟩
    · rwa [remaining_cons, split] at rest

end Chosen

end Choices

end Lincheck
