import LittleDb.Lib.Run
import LittleDb.Lincheck.Frontier

/-! Lifting and unlifting calls in last-in-first-out order: every link comes back, at any depth of nesting. -/

namespace Lincheck

open Linearize List

/-- The event list with the calls lifted from it, the last one first. -/
structure Lifted where
  links : Links Node
  calls : List Nat

namespace Lifted

inductive Act where
  /-- The call of an operation is lifted, with its return. -/
  | lift (i : Nat)
  | unlift

def start (ops : List Op) : Lifted := ⟨buildEventList ops, []⟩

def step (s : Lifted) : Act → Option (Lifted × List Unit)
  | .lift i => (lift s.links (.event (.call i))).map fun k => (⟨k, i :: s.calls⟩, [])
  | .unlift =>
    match s.calls with
    | [] => none
    | i :: calls => (unlift s.links (.event (.call i))).map fun k => (⟨k, calls⟩, [])

/-- A call in the list is lifted, or one is put back. -/
def Legal (ops : List Op) (s : Lifted) : Act → Prop
  | .lift i => i < ops.length ∧ i ∉ s.calls
  | .unlift => s.calls ≠ []

instance decidableLegal (ops : List Op) (s : Lifted) (a : Act) : Decidable (Legal ops s a) :=
  match a with
  | .lift i => inferInstanceAs (Decidable (i < ops.length ∧ i ∉ s.calls))
  | .unlift => inferInstanceAs (Decidable (s.calls ≠ []))

/-- The links that some calls leave which were lifted one after the other. -/
inductive Stacked (ops : List Op) : Links Node → List Nat → Prop where
  | start : Stacked ops (buildEventList ops) []
  | lift {k k' : Links Node} {calls : List Nat} {i : Nat} (below : Stacked ops k calls) (inside : i < ops.length)
      (fresh : i ∉ calls) (lifted : lift k (.event (.call i)) = some k') : Stacked ops k' (i :: calls)

variable {ops : List Op}

theorem exists_split (window : ∀ a ∈ ops, a.call < a.ret) {calls : List Nat} {i : Nat} (inside : i < ops.length)
    (fresh : i ∉ calls) : ∃ before after, remaining ops calls = before ++ .call i :: after ∧ .ret i ∈ after := by
  have opens : .call i ∈ remaining ops calls := by simp [inside, fresh]
  have closes : .ret i ∈ remaining ops calls := by simp [inside, fresh]
  obtain ⟨before, after, split⟩ := append_of_mem opens
  refine ⟨before, after, split, ?_⟩
  have sorted := (sorted_events ops).filter fun e => e.id ∉ calls
  change (remaining ops calls).Pairwise _ at sorted
  rw [split] at sorted closes
  rcases mem_append.mp closes with early | late
  · -- A return in front of the call would have a tick that is not larger.
    have less := (pairwise_append.mp sorted).2.2 _ early (.call i) (by simp)
    have more := window _ (getElem_mem inside)
    simp only [Event.tick, opened, closed, getElem?_eq_getElem inside, Option.map_some, Option.getD_some] at less
    omega
  · exact (mem_cons.mp late).resolve_left fun same => by cases same

theorem lift_inverse (window : ∀ a ∈ ops, a.call < a.ret) {k : Links Node} {calls : List Nat} {i : Nat}
    (threads : k.Threads .head ((remaining ops calls).map .event)) (inside : i < ops.length) (fresh : i ∉ calls) :
    ∃ k', lift k (.event (.call i)) = some k' ∧ k'.Threads .head ((remaining ops (i :: calls)).map .event) ∧
      unlift k' (.event (.call i)) = some k := by
  obtain ⟨before, after, split, closes⟩ := exists_split window inside fresh
  rw [remaining_cons, split]
  exact lift_spec (split ▸ threads) (split ▸ nodup_remaining ops calls) closes

namespace Stacked

variable {k k' : Links Node} {calls : List Nat}

theorem threads (window : ∀ a ∈ ops, a.call < a.ret) (stacked : Stacked ops k calls) :
    k.Threads .head ((remaining ops calls).map .event) := by
  induction stacked with
  | start => exact threads_buildEventList ops
  | lift below inside fresh lifted ih =>
    obtain ⟨k₁, lifted₁, threads, -⟩ := lift_inverse window ih inside fresh
    obtain rfl := Option.some.inj (lifted₁.symm.trans lifted)
    exact threads

theorem unique (stacked : Stacked ops k calls) (other : Stacked ops k' calls) : k = k' := by
  induction stacked generalizing k' with
  | start =>
    cases other
    rfl
  | lift below inside fresh lifted ih =>
    cases other with
    | lift below' inside' fresh' lifted' =>
      obtain rfl := ih below'
      exact Option.some.inj (lifted.symm.trans lifted')

theorem moves (window : ∀ a ∈ ops, a.call < a.ret) {s : Lifted} (stacked : Stacked ops s.links s.calls) {a : Act}
    (legal : Legal ops s a) : ∃ s', s.step a = some (s', []) ∧ Stacked ops s'.links s'.calls := by
  obtain ⟨k, calls⟩ := s
  cases a with
  | lift i =>
    obtain ⟨k', lifted, -⟩ := lift_inverse window (stacked.threads window) legal.1 legal.2
    exact ⟨⟨k', i :: calls⟩, by simp [Lifted.step, lifted], .lift stacked legal.1 legal.2 lifted⟩
  | unlift =>
    cases stacked with
    | start => exact absurd rfl legal
    | @lift k₀ _ calls i below inside fresh lifted =>
      -- The call comes back into the list that it was lifted from.
      obtain ⟨k₁, lifted₁, -, inverse⟩ := lift_inverse window (below.threads window) inside fresh
      obtain rfl := Option.some.inj (lifted₁.symm.trans lifted)
      exact ⟨⟨k₀, calls⟩, by simp [Lifted.step, inverse], below⟩

end Stacked

/-- Along every run the list is what the stack says. -/
theorem stacked_run (window : ∀ a ∈ ops, a.call < a.ret) {s : Lifted} {past : List Lifted} {undone : List Unit}
    (run : Run.Reach step (Legal ops) (start ops) s past undone) :
    ∀ st ∈ s :: past, Stacked ops st.links st.calls := by
  refine run.invariant (P := fun s past _ => ∀ st ∈ s :: past, Stacked ops st.links st.calls) ?_ ?_
  · intro st only
    rw [mem_singleton.mp only]
    exact .start
  · intro s a s' past _ new _ legal moved stacked st listed
    obtain ⟨s₁, moved₁, next⟩ := (stacked s mem_cons_self).moves window legal
    cases moved₁.symm.trans moved
    rcases mem_cons.mp listed with rfl | earlier
    · exact next
    · exact stacked st earlier

/--
Lift and unlift are exact inverses under nesting.

No step follows a missing link; going forward meets the events not lifted, in order; and whenever the lifted calls
are those of an earlier moment, every link is what it was then.
-/
theorem lift_unlift_exact (window : ∀ a ∈ ops, a.call < a.ret) {s : Lifted} {past : List Lifted} {undone : List Unit}
    (run : Run.Reach step (Legal ops) (start ops) s past undone) :
    (∀ a, Legal ops s a → (s.step a).isSome) ∧
      (∀ n, 2 * ops.length ≤ n →
        Trail.walk s.links.next n .head = ((events ops).filter fun e => e.id ∉ s.calls).map Node.event) ∧
      ∀ earlier ∈ past, earlier.calls = s.calls → s.links = earlier.links := by
  have stacked := stacked_run window run
  have here := stacked s mem_cons_self
  refine ⟨fun a legal => ?_, fun n enough => ?_, fun earlier listed same => ?_⟩
  · obtain ⟨s', moved, -⟩ := here.moves window legal
    simp [moved]
  · refine (here.threads window).trail.walk_eq ?_
    rw [length_map]
    exact (length_remaining ops s.calls).trans enough
  · have there := stacked earlier (mem_cons_of_mem _ listed)
    rw [same] at there
    exact here.unique there

/-- Two operations one after the other, and a third that returns last. -/
def nested : List Op :=
  [⟨0, .put, [], [1], false, 1, 2⟩, ⟨0, .get, [], [1], true, 3, 4⟩, ⟨1, .delete, [], [], false, 0, 5⟩]

/-- First and last nodes lifted around two pairs, and two calls put back. -/
theorem lift_unlift_exact_nested : ∃ s past undone,
    Run.Reach step (Legal nested) (start nested) s past undone ∧ s.calls = [2] ∧
    Trail.walk s.links.next 6 .head = [.event (.call 0), .event (.ret 0), .event (.call 1), .event (.ret 1)] ∧
    ∃ earlier ∈ past, earlier.calls = [2] ∧ s.links = earlier.links := by
  obtain ⟨s, past, undone, run, passed⟩ := Run.exec_exists step (fun s a => decide (Legal nested s a))
    (start nested) [.lift 2, .lift 0, .lift 1, .unlift, .unlift]
    (fun r => decide (r.1.calls = [2]) && r.2.1.any fun earlier => decide (earlier.calls = [2])) (by decide +kernel)
  have legal : Run.Reach step (Legal nested) (start nested) s past undone := run.weaken fun _ _ => of_decide_eq_true
  simp only [Bool.and_eq_true, decide_eq_true_eq, any_eq_true] at passed
  obtain ⟨now, earlier, listed, same⟩ := passed
  obtain ⟨-, walk, back⟩ := lift_unlift_exact (by decide) legal
  refine ⟨s, past, undone, legal, now, ?_, earlier, listed, same, back earlier listed (same.trans now.symm)⟩
  rw [walk 6 (by decide), now]
  decide +kernel

end Lifted

end Lincheck
