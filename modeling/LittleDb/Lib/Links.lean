import LittleDb.Lib.Trail
import Mathlib.Logic.Function.Basic

/-! Doubly linked lists in a heap: threading a list, splicing a node out and putting it back. -/

/-- The two links of every node of a heap. -/
@[ext] structure Links (α : Type) where
  prev : α → Option α
  next : α → Option α

namespace Links

open Function List Option

variable {α : Type} {k : Links α} {p : α} {l : List α} {k' : Links α} {x : α}

/-- The heap in which no node is linked to any other. -/
def empty : Links α := ⟨fun _ => none, fun _ => none⟩

/-- The list that hangs off a node, linked both ways and ended by no link. -/
def Threads (k : Links α) : α → List α → Prop
  | p, [] => k.next p = none
  | p, x :: rest => k.next p = some x ∧ k.prev x = some p ∧ Threads k x rest

theorem Threads.trail (threads : k.Threads p l) : Trail k.next p l := by
  induction l generalizing p with
  | nil => exact threads
  | cons x rest ih => exact ⟨threads.1, ih threads.2.2⟩

theorem Threads.congr (threads : k.Threads p l)
    (next : ∀ x ∈ p :: l, k'.next x = k.next x) (prev : ∀ x ∈ l, k'.prev x = k.prev x) : k'.Threads p l := by
  induction l generalizing p with
  | nil =>
    -- Only the missing link at the end is left to compare.
    exact (next p (by simp)).trans threads
  | cons x rest ih =>
    obtain ⟨forward, backward, tail⟩ := threads
    refine ⟨(next p (by simp)).trans forward, (prev x (by simp)).trans backward, ih tail ?_ ?_⟩
    · intro y within
      exact next y (mem_cons_of_mem _ within)
    · intro y within
      exact prev y (mem_cons_of_mem _ within)

theorem Threads.next_eq (threads : k.Threads p l) : k.next p = l.head? := by
  cases l with
  | nil => exact threads
  | cons x rest => exact threads.1

theorem Threads.next_mid {before after : List α}
    (threads : k.Threads p (before ++ x :: after)) : k.next x = after.head? := by
  induction before generalizing p with
  | nil => exact threads.2.2.next_eq
  | cons y before ih => exact ih threads.2.2

theorem Threads.around {before after : List α}
    (threads : k.Threads p (before ++ x :: after)) : (∃ u ∈ p :: before, k.prev x = some u ∧ k.next u = some x) ∧
    ∀ q, k.next x = some q → q ∈ after ∧ k.prev q = some x := by
  induction before generalizing p with
  | nil =>
    obtain ⟨forward, backward, tail⟩ := threads
    refine ⟨⟨p, by simp, backward, forward⟩, ?_⟩
    -- The successor is the next element of the list, which points back at the node.
    intro q behind
    cases after with
    | nil => simp [tail.next_eq] at behind
    | cons y after =>
      obtain rfl : y = q := by simpa [tail.next_eq] using behind
      exact ⟨by simp, tail.2.1⟩
  | cons y before ih =>
    obtain ⟨⟨u, within, back, forth⟩, behind⟩ := ih threads.2.2
    exact ⟨⟨u, mem_cons_of_mem _ within, back, forth⟩, behind⟩

variable [DecidableEq α]

def setNext (k : Links α) (x : α) (target : Option α) : Links α :=
  { k with next := update k.next x target }

def setPrev (k : Links α) (x : α) (target : Option α) : Links α :=
  { k with prev := update k.prev x target }

@[simp] theorem setNext_next (k : Links α) (x y : α) (target : Option α) :
    (k.setNext x target).next y = if y = x then target else k.next y := by
  simp [setNext, update_apply]

@[simp] theorem setNext_prev (k : Links α) (x : α) (target : Option α) :
    (k.setNext x target).prev = k.prev := rfl

@[simp] theorem setPrev_prev (k : Links α) (x y : α) (target : Option α) :
    (k.setPrev x target).prev y = if y = x then target else k.prev y := by
  simp [setPrev, update_apply]

@[simp] theorem setPrev_next (k : Links α) (x : α) (target : Option α) :
    (k.setPrev x target).next = k.next := rfl

/-- Threads a list of nodes behind a node, one after the other. -/
def thread (k : Links α) (p : α) : List α → Links α
  | [] => k
  | x :: rest => thread ((k.setNext p (some x)).setPrev x (some p)) x rest

/-- Splices a node out: its neighbours come to point at each other. -/
def unlink (k : Links α) (x : α) : Option (Links α) := do
  let p ← k.prev x
  let k := k.setNext p (k.next x)
  match k.next x with
  | some q => some (k.setPrev q (k.prev x))
  | none => some k

/-- Puts a spliced-out node back between the neighbours it still points at. -/
def relink (k : Links α) (x : α) : Option (Links α) := do
  let p ← k.prev x
  let k := k.setNext p (some x)
  match k.next x with
  | some q => some (k.setPrev q (some x))
  | none => some k

theorem thread_frame (k : Links α) (p : α) (l : List α) : (∀ x ∉ p :: l, (k.thread p l).next x = k.next x) ∧
    ∀ x ∉ l, (k.thread p l).prev x = k.prev x := by
  induction l generalizing k p with
  | nil => exact ⟨fun _ _ => rfl, fun _ _ => rfl⟩
  | cons y rest ih =>
    obtain ⟨next, prev⟩ := ih ((k.setNext p (some y)).setPrev y (some p)) y
    constructor
    · intro x outside
      simp only [mem_cons, not_or] at outside
      simp [thread, next x (by simp [outside]), outside]
    · intro x outside
      simp only [mem_cons, not_or] at outside
      simp [thread, prev x outside.2, outside]

theorem threads_thread (distinct : (p :: l).Nodup) (fresh : ∀ x, k.next x = none) : (k.thread p l).Threads p l := by
  -- The links already written are never touched again, so only the last one must be missing.
  have general : ∀ (l : List α) (k : Links α) (p : α), (p :: l).Nodup →
      (∀ x ∈ p :: l, k.next x = none) → (k.thread p l).Threads p l := by
    intro l
    induction l with
    | nil =>
      intro k p _ fresh
      exact fresh p (by simp)
    | cons y rest ih =>
      intro k p distinct fresh
      obtain ⟨next, prev⟩ := thread_frame ((k.setNext p (some y)).setPrev y (some p)) y rest
      obtain ⟨headFresh, tailDistinct⟩ := nodup_cons.mp distinct
      refine ⟨?_, ?_, ih _ y tailDistinct ?_⟩
      · simp [thread, next p headFresh]
      · simp [thread, prev y (nodup_cons.mp tailDistinct).1]
      · intro x within
        have apart : x ≠ p := fun same => headFresh (same ▸ within)
        simp [apart, fresh x (mem_cons_of_mem _ within)]
  exact general l k p distinct fun x _ => fresh x

theorem unlink_next (gone : k.unlink x = some k') : k'.next x = k.next x := by
  unfold unlink at gone
  cases back : k.prev x with
  | none => simp [back] at gone
  | some p =>
    simp only [back, bind_eq_bind, bind_some] at gone
    split at gone <;> cases gone <;> simp

theorem Threads.splice {u : α} {before after : List α}
    (threads : k.Threads p (before ++ x :: after)) (distinct : (p :: before ++ x :: after).Nodup)
    (back : k.prev x = some u) (next : ∀ y, k'.next y = if y = u then k.next x else k.next y)
    (prev : ∀ y, k'.prev y = if k.next x = some y then some u else k.prev y) : k'.Threads p (before ++ after) := by
  induction before generalizing p with
  | nil =>
    -- The head itself is the predecessor, and its list becomes the node's own list.
    obtain ⟨forward, backward, tail⟩ := threads
    obtain rfl : p = u := by simpa [backward] using back
    cases after with
    | nil => simpa [Threads, next] using tail
    | cons q after =>
      obtain ⟨forward', backward', tail'⟩ := tail
      simp only [cons_append, nil_append, nodup_cons, mem_cons, not_or] at distinct
      refine ⟨by simp [next, forward'], by simp [prev, forward'], tail'.congr ?_ ?_⟩
      · intro y within
        have apart : y ≠ p := by
          rintro rfl
          rcases mem_cons.mp within with same | deep
          · exact distinct.1.2.1 same
          · exact distinct.1.2.2 deep
        rw [next, if_neg apart]
      · intro y within
        have apart : q ≠ y := fun same => distinct.2.2.1 (same ▸ within)
        simp [prev, forward', apart]
  | cons y before ih =>
    obtain ⟨forward, backward, tail⟩ := threads
    obtain ⟨⟨v, above, back', _⟩, behind⟩ := tail.around
    obtain rfl : v = u := by simpa [back'] using back
    -- Neither of the rewritten links is the one this step of the walk uses.
    rw [cons_append, cons_append, nodup_cons] at distinct
    have source : p ≠ v := by
      rintro rfl
      exact distinct.1 (mem_append_left _ above)
    have target : k.next x ≠ some y := by
      intro same
      have low := (behind y same).1
      rw [nodup_cons] at distinct
      exact distinct.2.1 (by simp [low])
    refine ⟨?_, ?_, ih tail distinct.2⟩
    · rw [next, if_neg source, forward]
    · rw [prev, if_neg target, backward]

theorem Threads.unlink {before after : List α}
    (threads : k.Threads p (before ++ x :: after)) (distinct : (p :: before ++ x :: after).Nodup) :
    ∃ k', k.unlink x = some k' ∧ k'.Threads p (before ++ after) ∧ k'.relink x = some k := by
  obtain ⟨⟨u, above, back, forth⟩, behind⟩ := threads.around
  have split := nodup_append.mp distinct
  have front : x ≠ u := fun same => split.2.2 u above u (by simp [same]) rfl
  cases last : k.next x with
  | none =>
    -- The last node of the list: a single forward link is rewritten and written back.
    refine ⟨k.setNext u none, ?_, threads.splice distinct back ?_ ?_, ?_⟩
    · simp [Links.unlink, back, last]
    · simp [last]
    · simp [last]
    · simp only [Links.relink, setNext_prev, back, bind_eq_bind, bind_some,
        setNext_next, front, if_false, last, Option.some.injEq]
      ext y : 2
      · simp
      · by_cases same : y = u <;> simp [same, forth]
  | some q =>
    obtain ⟨below, home⟩ := behind q last
    have rear : x ≠ q := fun same => (nodup_cons.mp split.2.1).1 (same ▸ below)
    refine ⟨(k.setNext u (some q)).setPrev q (some u), ?_, threads.splice distinct back ?_ ?_, ?_⟩
    · simp [Links.unlink, back, last]
    · simp [last]
    · simp [last, eq_comm]
    · -- Both links rewritten are written back to what they were.
      simp only [Links.relink, setPrev_prev, rear, if_false, setNext_prev, back,
        bind_eq_bind, bind_some, setNext_next, setPrev_next, front, last,
        Option.some.injEq]
      ext y : 2
      · by_cases same : y = q <;> simp [same, home]
      · by_cases same : y = u <;> simp [same, forth]

end Links
