import Mathlib.Data.List.Basic
import Mathlib.Data.List.Nodup

/-! Singly linked lists in a heap: what hangs off a node, and what a node put in or taken out does to it. -/

variable {α : Type}

/-- The nodes met going forward from a node until a link is missing. -/
def Trail (next : α → Option α) : α → List α → Prop
  | p, [] => next p = none
  | p, x :: rest => next p = some x ∧ Trail next x rest

namespace Trail

open List

variable {next next' : α → Option α} {p x : α} {l front back : List α}

/-- The nodes met going forward from a node, as far as some number of links. -/
def walk (next : α → Option α) : Nat → α → List α
  | 0, _ => []
  | n + 1, x =>
    match next x with
    | none => []
    | some y => y :: walk next n y

theorem walk_eq (trail : Trail next p l) {n : Nat} (enough : l.length ≤ n) : walk next n p = l := by
  induction l generalizing p n with
  | nil =>
    have last : next p = none := trail
    cases n <;> simp [walk, last]
  | cons x rest ih =>
    obtain ⟨forward, tail⟩ := trail
    cases n with
    | zero => simp at enough
    | succ n => simp [walk, forward, ih tail (by simpa using enough)]

theorem next_eq (trail : Trail next p l) : next p = l.head? := by
  cases l with
  | nil => exact trail
  | cons x rest => exact trail.1

theorem congr (trail : Trail next p l) (same : ∀ x ∈ p :: l, next' x = next x) : Trail next' p l := by
  induction l generalizing p with
  | nil => exact (same p (by simp)).trans trail
  | cons x rest ih =>
    obtain ⟨forward, tail⟩ := trail
    exact ⟨(same p (by simp)).trans forward, ih tail fun y listed => same y (mem_cons_of_mem _ listed)⟩

theorem last_mem (p : α) (front : List α) : front.getLast?.getD p ∈ p :: front := by
  cases last : front.getLast? with
  | none => simp
  | some y => exact mem_cons_of_mem _ (mem_of_getLast? last)

theorem behind (trail : Trail next p (front ++ back)) : Trail next (front.getLast?.getD p) back := by
  induction front generalizing p with
  | nil => exact trail
  | cons x front ih =>
    rw [getLast?_cons]
    exact ih trail.2

theorem insert (trail : Trail next p (front ++ back)) (distinct : (p :: (front ++ back)).Nodup)
    (fresh : x ∉ p :: (front ++ back)) (at_ : next' (front.getLast?.getD p) = some x)
    (new : next' x = next (front.getLast?.getD p))
    (rest : ∀ y, y ≠ x → y ≠ front.getLast?.getD p → next' y = next y) : Trail next' p (front ++ x :: back) := by
  induction front generalizing p with
  | nil =>
    refine ⟨at_, ?_⟩
    -- The new node takes over what hung off its predecessor.
    cases back with
    | nil => exact new.trans trail
    | cons z back =>
      obtain ⟨forward, tail⟩ := trail
      refine ⟨new.trans forward, tail.congr fun y listed => rest y ?_ ?_⟩
      · rintro rfl
        exact fresh (mem_cons_of_mem _ listed)
      · rintro rfl
        exact (nodup_cons.mp distinct).1 listed
  | cons z front ih =>
    obtain ⟨forward, tail⟩ := trail
    rw [getLast?_cons] at at_ new rest
    obtain ⟨apart, distinct⟩ := nodup_cons.mp distinct
    refine ⟨(rest p ?_ ?_).trans forward, ih tail distinct ?_ at_ new rest⟩
    · rintro rfl
      exact fresh (by simp)
    · intro same
      exact apart (mem_append_left back (same ▸ last_mem z front))
    · exact fun listed => fresh (mem_cons_of_mem _ listed)

theorem remove (trail : Trail next p (front ++ x :: back)) (distinct : (p :: (front ++ x :: back)).Nodup)
    (at_ : next' (front.getLast?.getD p) = next x)
    (rest : ∀ y, y ≠ front.getLast?.getD p → next' y = next y) : Trail next' p (front ++ back) := by
  induction front generalizing p with
  | nil =>
    obtain ⟨-, tail⟩ := trail
    obtain ⟨apart, distinct⟩ := nodup_cons.mp distinct
    cases back with
    | nil => exact at_.trans tail
    | cons z back =>
      refine ⟨at_.trans tail.1, tail.2.congr fun y listed => rest y ?_⟩
      rintro rfl
      exact apart (mem_cons_of_mem _ listed)
  | cons z front ih =>
    obtain ⟨forward, tail⟩ := trail
    rw [getLast?_cons] at at_ rest
    obtain ⟨apart, distinct⟩ := nodup_cons.mp distinct
    refine ⟨(rest p ?_).trans forward, ih tail distinct at_ rest⟩
    intro same
    exact apart (mem_append_left (x :: back) (same ▸ last_mem z front))

end Trail
