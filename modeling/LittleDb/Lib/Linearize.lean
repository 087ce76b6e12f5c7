import Mathlib.Data.List.Perm.Basic
import Mathlib.Data.List.MinMax
import Mathlib.Order.Lattice

/-! Overlapping operations: orders that respect real time, locality, and the search along events. -/

namespace Linearize

open Function List

section Orders

variable {α κ σ τ : Type} [LinearOrder τ]

/-- No operation stands before one that had already closed when it opened. -/
def RealTime (opened closed : α → τ) (order : List α) : Prop :=
  order.Pairwise fun a b => ¬ closed b < opened a

/-- A sequential specification accepts the operations one after the other. -/
def Accepts (step : σ → α → Option σ) (s : σ) (order : List α) : Prop :=
  (order.foldlM step s).isSome

@[simp] theorem accepts_nil (step : σ → α → Option σ) (s : σ) : Accepts step s [] := rfl

@[simp] theorem accepts_cons (step : σ → α → Option σ) (s : σ) (a : α) (order : List α) :
    Accepts step s (a :: order) ↔ ∃ s', step s a = some s' ∧ Accepts step s' order := by
  unfold Accepts
  cases first : step s a with
  | none => simp [first]
  | some s' => simp [first]

/-- Orders of the operations of each object merge into one order of all. -/
theorem merge [DecidableEq κ] (key : α → κ) (opened closed : α → τ) (orders : κ → List α) (history : List α)
    (window : ∀ a ∈ history, opened a ≤ closed a) (parts : ∀ k, (orders k).Perm (history.filter fun a => key a = k))
    (timed : ∀ k, RealTime opened closed (orders k)) : ∃ order : List α, order.Perm history ∧
    RealTime opened closed order ∧ ∀ k, (order.filter fun a => key a = k) = orders k := by
  induction size : history.length generalizing history orders with
  | zero =>
    -- Nothing is left, so every object's order is empty.
    obtain rfl := length_eq_zero_iff.mp size
    refine ⟨[], .refl _, .nil, fun k => ?_⟩
    exact (perm_nil.mp (parts k)).symm
  | succ n ih =>
    have filled : history ≠ [] := by
      rintro rfl
      simp at size
    -- The remaining operation that closes first, and the order of its object.
    obtain ⟨y, here, least⟩ : ∃ y ∈ history, ∀ z ∈ history, closed y ≤ closed z := by
      cases found : history.argmin closed with
      | none => exact absurd (argmin_eq_none.mp found) filled
      | some y => exact ⟨y, argmin_mem found, fun z within => le_of_mem_argmin within found⟩
    have own : y ∈ orders (key y) := (parts (key y)).mem_iff.mpr (by simp [here])
    obtain ⟨a, rest, first⟩ := exists_cons_of_ne_nil (ne_nil_of_mem own)
    -- The first operation of that object opened before anything remaining closes.
    have early : opened a ≤ closed y := by
      rcases mem_cons.mp (first ▸ own) with rfl | later
      · exact window y here
      · exact not_lt.mp ((pairwise_cons.mp (first ▸ timed (key y))).1 y later)
    have member : a ∈ history ∧ key a = key y := by
      have within : a ∈ orders (key y) := by simp [first]
      simpa using (parts (key y)).mem_iff.mp within
    obtain ⟨front, back, rfl⟩ := append_of_mem member.1
    have shape : (front ++ a :: back).Perm (a :: (front ++ back)) := perm_middle
    obtain ⟨order, all, respects, split⟩ := ih (update orders (key y) rest) (front ++ back)
      (fun b within => window b (shape.mem_iff.mpr (mem_cons_of_mem _ within)))
      (fun k => by
        have whole := (parts k).trans (shape.filter _)
        by_cases same : k = key y
        · subst same
          simpa [first, member.2] using whole
        · simpa [same, member.2, Ne.symm same] using whole)
      (fun k => by
        by_cases same : k = key y
        · subst same
          rw [update_self]
          exact (pairwise_cons.mp (first ▸ timed (key y))).2
        · simpa [same] using timed k)
      (by simp only [length_append, length_cons] at size ⊢; omega)
    refine ⟨a :: order, (List.Perm.cons a all).trans shape.symm, ?_, fun k => ?_⟩
    · refine pairwise_cons.mpr ⟨fun z within => not_lt.mpr (early.trans (least z ?_)), respects⟩
      exact shape.mem_iff.mpr (mem_cons_of_mem _ (all.mem_iff.mp within))
    · by_cases same : k = key y
      · subst same
        rw [filter_cons_of_pos (by simp [member.2]), split, update_self, first]
      · rw [filter_cons_of_neg (by simp [member.2, Ne.symm same]), split, update_of_ne same]

/-- A history has an accepted order exactly when that of each object has one. -/
theorem locality [DecidableEq κ] (key : α → κ) (opened closed : α → τ) (step : σ → α → Option σ)
    (start : σ) (history : List α) (window : ∀ a ∈ history, opened a ≤ closed a) :
    (∃ order : List α, order.Perm history ∧ RealTime opened closed order ∧
        ∀ k, Accepts step start (order.filter fun a => key a = k)) ↔
      ∀ k, ∃ order : List α, order.Perm (history.filter fun a => key a = k) ∧
        RealTime opened closed order ∧ Accepts step start order := by
  constructor
  · -- Restricting the order to one object keeps real time.
    rintro ⟨order, all, timed, accepted⟩ k
    exact ⟨_, all.filter _, timed.filter _, accepted k⟩
  · intro each
    choose orders parts timed accepted using each
    obtain ⟨order, all, respects, split⟩ :=
      merge key opened closed orders history window parts timed
    exact ⟨order, all, respects, fun k => split k ▸ accepted k⟩

end Orders

section Events

variable {ι σ τ : Type}

inductive Event (ι : Type) where
  | call (i : ι)
  | ret (i : ι)
  deriving DecidableEq, Repr

def Event.id : Event ι → ι
  | .call i => i
  | .ret i => i

@[simp] theorem Event.id_call (i : ι) : (Event.call i).id = i := rfl

@[simp] theorem Event.id_ret (i : ι) : (Event.ret i).id = i := rfl

def Event.tick (opened closed : ι → τ) : Event ι → τ
  | .call i => opened i
  | .ret i => closed i

def without [DecidableEq ι] (i : ι) (events : List (Event ι)) : List (Event ι) :=
  events.filter fun e => e.id ≠ i

@[simp] theorem mem_without [DecidableEq ι] {i : ι} {events : List (Event ι)} {e : Event ι} :
    e ∈ without i events ↔ e ∈ events ∧ e.id ≠ i := by
  simp only [without, mem_filter, decide_eq_true_eq]

@[simp] theorem without_append [DecidableEq ι] (i : ι) (front back : List (Event ι)) :
    without i (front ++ back) = without i front ++ without i back := filter_append ..

@[simp] theorem without_cons_call [DecidableEq ι] (i : ι) (events : List (Event ι)) :
    without i (.call i :: events) = without i events := by
  simp [without]

@[simp] theorem without_cons_ret [DecidableEq ι] (i : ι) (events : List (Event ι)) :
    without i (.ret i :: events) = without i events := by
  simp [without]

theorem without_eq_self [DecidableEq ι] {i : ι} {events : List (Event ι)}
    (opens : .call i ∉ events) (closes : .ret i ∉ events) : without i events = events := by
  refine filter_eq_self.mpr fun e within => ?_
  cases e with
  | call j => exact decide_eq_true fun same : j = i => opens (same ▸ within)
  | ret j => exact decide_eq_true fun same : j = i => closes (same ▸ within)

/-- The operations can be placed in turn, each before a remaining one closed. -/
inductive Places [DecidableEq ι] (step : σ → ι → Option σ) : List (Event ι) → σ → Prop where
  | done (s : σ) : Places step [] s
  /-- One of the operations open at the front is placed next. -/
  | place {before after : List (Event ι)} {i : ι} {s s' : σ}
      (pending : ∀ e ∈ before, ∃ j, e = .call j) (moved : step s i = some s')
      (rest : Places step (without i (before ++ .call i :: after)) s') :
      Places step (before ++ .call i :: after) s

/-- The events of a set of operations, in the order of their times. -/
structure Timeline [LinearOrder τ] (opened closed : ι → τ) (events : List (Event ι)) : Prop where
  sorted : events.Pairwise fun a b => a.tick opened closed ≤ b.tick opened closed
  distinct : events.Nodup
  paired : ∀ i, .call i ∈ events ↔ .ret i ∈ events
  window : ∀ i, .call i ∈ events → opened i < closed i
  apart : ∀ i j, .call i ∈ events → .call j ∈ events → closed j ≠ opened i

variable [DecidableEq ι] [LinearOrder τ] {opened closed : ι → τ} {step : σ → ι → Option σ}
  {events : List (Event ι)}

variable (line : Timeline opened closed events)

include line

theorem Timeline.without (i : ι) : Timeline opened closed (without i events) where
  sorted := line.sorted.filter _
  distinct := line.distinct.filter _
  paired j := by simp [line.paired j]
  window j within := line.window j (mem_without.mp within).1
  apart j k opens closes := line.apart j k (mem_without.mp opens).1 (mem_without.mp closes).1

theorem Places.order {s : σ} (placed : Places step events s) : ∃ order : List ι, order.Nodup ∧
    (∀ i, i ∈ order ↔ .call i ∈ events) ∧ RealTime opened closed order ∧ Accepts step s order := by
  induction placed with
  | done s => exact ⟨[], by simp, by simp, .nil, by simp⟩
  | @place before after i s s' pending moved rest ih =>
    obtain ⟨order, distinct, listed, timed, accepted⟩ := ih (line.without i)
    have fresh : i ∉ order := fun within => by simp [listed] at within
    refine ⟨i :: order, nodup_cons.mpr ⟨fresh, distinct⟩, fun j => ?_,
      pairwise_cons.mpr ⟨fun j within => not_lt.mpr ?_, timed⟩, by simp [moved, accepted]⟩
    · by_cases same : j = i <;> simp [same, listed]
    · -- The events in front are calls, so the other operation's return stands behind this call.
      obtain ⟨opens, _⟩ := mem_without.mp ((listed j).mp within)
      have behind : .ret j ∈ after := by
        have closes := (line.paired j).mp opens
        simp only [mem_append, mem_cons, reduceCtorEq, false_or] at closes
        rcases closes with ahead | behind
        · obtain ⟨k, same⟩ := pending _ ahead
          cases same
        · exact behind
      exact (pairwise_cons.mp (pairwise_append.mp line.sorted).2.1).1 _ behind

theorem Places.of_order {order : List ι} {s : σ} (distinct : order.Nodup) (listed : ∀ i, i ∈ order ↔ .call i ∈ events)
    (timed : RealTime opened closed order) (accepted : Accepts step s order) : Places step events s := by
  induction order generalizing events s with
  | nil =>
    -- No call is left, hence no return either.
    obtain rfl : events = [] := by
      refine eq_nil_iff_forall_not_mem.mpr fun e within => ?_
      cases e with
      | call i => simpa using (listed i).mpr within
      | ret i => simpa using (listed i).mpr ((line.paired i).mpr within)
    exact .done s
  | cons i order ih =>
    obtain ⟨fresh, distinct'⟩ := nodup_cons.mp distinct
    obtain ⟨first, timed'⟩ := pairwise_cons.mp timed
    obtain ⟨s', moved, accepted'⟩ := (accepts_cons step s i order).mp accepted
    obtain ⟨before, after, rfl⟩ := append_of_mem ((listed i).mp (by simp))
    refine .place (fun e within => ?_) moved (ih (line.without i) distinct' (fun j => ?_) timed' accepted')
    · -- A return in front of the call would close its operation before this one opens.
      cases e with
      | call j => exact ⟨j, rfl⟩
      | ret j =>
        have opens : .call j ∈ before ++ .call i :: after :=
          (line.paired j).mpr (mem_append_left _ within)
        have below : closed j ≤ opened i :=
          (pairwise_append.mp line.sorted).2.2 _ within (.call i) (by simp)
        have strict : closed j < opened i :=
          lt_of_le_of_ne below (line.apart i j (by simp) opens)
        rcases mem_cons.mp ((listed j).mpr opens) with rfl | later
        · exact absurd (line.window j opens) (not_lt.mpr below)
        · exact absurd strict (first j later)
    · have all := listed j
      rw [mem_without, ← all, mem_cons, Event.id_call]
      constructor
      · intro within
        exact ⟨.inr within, fun same => fresh (same ▸ within)⟩
      · rintro ⟨rfl | within, apart⟩
        · exact absurd rfl apart
        · exact within

end Events

end Linearize
