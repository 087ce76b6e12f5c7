import Mathlib.Order.Lattice
import Mathlib.Data.List.Basic

/-! Sorted maps as association lists: insertion, lookup, and seeking the first key from a bound on. -/

namespace SortedMap

open List

variable {κ β : Type} [LinearOrder κ] {γ : Type} {k : κ} {v : β} {m : List (κ × β)} {e : κ × β}

def Sorted (m : List (κ × β)) : Prop := m.Pairwise fun a b => a.1 < b.1

/-- Writes a value at a key, replacing the one there. -/
def put (k : κ) (v : β) : List (κ × β) → List (κ × β)
  | [] => [(k, v)]
  | (k', v') :: m =>
    if k' < k then (k', v') :: put k v m
    else if k' = k then (k, v) :: m
    else (k, v) :: (k', v') :: m

@[simp] theorem put_nil (k : κ) (v : β) : put k v [] = [(k, v)] := rfl

theorem put_cons (k k' : κ) (v v' : β) (m : List (κ × β)) : put k v ((k', v') :: m) =
    if k' < k then (k', v') :: put k v m
    else if k' = k then (k, v) :: m
    else (k, v) :: (k', v') :: m := rfl

/-- What is left of the map from the first key at or above a bound on. -/
def seek (k : κ) (m : List (κ × β)) : List (κ × β) := m.dropWhile fun e => e.1 < k

def get (k : κ) (m : List (κ × β)) : Option β :=
  match seek k m with
  | [] => none
  | (k', v) :: _ => if k' = k then some v else none

def erase (k : κ) (m : List (κ × β)) : List (κ × β) := m.filter fun e => e.1 ≠ k

theorem put_map (f : β → γ) (k : κ) (v : β) (m : List (κ × β)) :
    put k (f v) (m.map (Prod.map id f)) = (put k v m).map (Prod.map id f) := by
  induction m with
  | nil => rfl
  | cons e m ih =>
    simp only [map_cons, Prod.map, id, put]
    split_ifs
    · exact congrArg _ ih
    all_goals rfl

theorem seek_map (f : β → γ) (k : κ) (m : List (κ × β)) :
    seek k (m.map (Prod.map id f)) = (seek k m).map (Prod.map id f) := dropWhile_map

theorem get_map (f : β → γ) (k : κ) (m : List (κ × β)) : get k (m.map (Prod.map id f)) = (get k m).map f := by
  rw [get, get, seek_map]
  cases seek k m with
  | nil => rfl
  | cons e rest =>
    simp only [map_cons, Prod.map, id]
    split_ifs <;> rfl

theorem put_append {front : List (κ × β)} (below : ∀ e ∈ front, e.1 < k) :
    put k v (front ++ m) = front ++ put k v m := by
  induction front with
  | nil => rfl
  | cons e front ih =>
    rw [cons_append, put_cons, if_pos (below e (by simp)), ih fun e' listed => below e' (by simp [listed])]
    rfl

theorem of_mem_put (listed : e ∈ put k v m) : e = (k, v) ∨ e ∈ m := by
  fun_induction put k v m <;> grind

theorem mem_put_self (k : κ) (v : β) (m : List (κ × β)) : (k, v) ∈ put k v m := by
  induction m with
  | nil => exact mem_singleton_self _
  | cons e m ih =>
    unfold put
    split_ifs <;> simp [ih]

theorem mem_put (sorted : Sorted m) : e ∈ put k v m ↔ e = (k, v) ∨ (e ∈ m ∧ e.1 ≠ k) := by
  induction m with
  | nil => simp
  | cons head m ih =>
    obtain ⟨k', v'⟩ := head
    obtain ⟨first, rest⟩ := pairwise_cons.mp sorted
    -- The pairs behind the head have larger keys than it.
    have above : ∀ e ∈ m, ¬ k' < k → e.1 ≠ k := by
      intro e within notBelow same
      exact notBelow (same ▸ first e within)
    rw [put_cons]
    split_ifs with below here
    · rw [mem_cons, ih rest, mem_cons]
      constructor
      · rintro (rfl | rfl | ⟨within, other⟩)
        · exact .inr ⟨.inl rfl, below.ne⟩
        · exact .inl rfl
        · exact .inr ⟨.inr within, other⟩
      · rintro (rfl | ⟨rfl | within, other⟩)
        · exact .inr (.inl rfl)
        · exact .inl rfl
        · exact .inr (.inr ⟨within, other⟩)
    · rw [mem_cons, mem_cons]
      constructor
      · rintro (rfl | within)
        · exact .inl rfl
        · exact .inr ⟨.inr within, above e within below⟩
      · rintro (rfl | ⟨rfl | within, other⟩)
        · exact .inl rfl
        · exact absurd here other
        · exact .inr within
    · rw [mem_cons, mem_cons]
      constructor
      · rintro (rfl | rfl | within)
        · exact .inl rfl
        · exact .inr ⟨.inl rfl, here⟩
        · exact .inr ⟨.inr within, above e within below⟩
      · rintro (rfl | ⟨within, _⟩)
        · exact .inl rfl
        · exact .inr within

theorem sorted_put (sorted : Sorted m) : Sorted (put k v m) := by
  induction m with
  | nil => exact pairwise_singleton ..
  | cons head m ih =>
    obtain ⟨k', v'⟩ := head
    obtain ⟨first, rest⟩ := pairwise_cons.mp sorted
    rw [put_cons]
    split_ifs with below here
    · refine pairwise_cons.mpr ⟨fun e within => ?_, ih rest⟩
      rcases (mem_put rest).mp within with rfl | ⟨old, _⟩
      · exact below
      · exact first e old
    · subst here
      exact pairwise_cons.mpr ⟨first, rest⟩
    · -- The new key is below the head, hence below everything.
      have lower : k < k' := lt_of_le_of_ne (not_lt.mp below) (Ne.symm here)
      refine pairwise_cons.mpr ⟨fun e within => ?_, sorted⟩
      rcases mem_cons.mp within with rfl | old
      · exact lower
      · exact lower.trans (first e old)

theorem seek_append_of_lt {front back : List (κ × β)} (below : ∀ e ∈ front, e.1 < k) :
    seek k (front ++ back) = seek k back :=
  dropWhile_append_of_pos fun e listed => decide_eq_true (below e listed)

theorem seek_of_head (above : ∀ e ∈ m.head?, ¬ e.1 < k) : seek k m = m := by
  cases m with
  | nil => rfl
  | cons e m => exact dropWhile_cons_of_neg (by simpa using above e rfl)

section

variable (sorted : Sorted m)
include sorted

theorem seek_eq_filter : seek k m = m.filter fun e => k ≤ e.1 := by
  induction m with
  | nil => rfl
  | cons head m ih =>
    obtain ⟨first, rest⟩ := pairwise_cons.mp sorted
    by_cases below : head.1 < k
    · have out : ¬ k ≤ head.1 := not_le.mpr below
      rw [filter_cons_of_neg (by simpa using out), ← ih rest]
      simp [seek, below]
    · -- From the head on every key is at or above the bound.
      have all : ∀ e ∈ head :: m, k ≤ e.1 := by
        intro e within
        rcases mem_cons.mp within with rfl | later
        · exact not_lt.mp below
        · exact (not_lt.mp below).trans (first e later).le
      rw [filter_eq_self.mpr fun e within => by simpa using all e within]
      simp [seek, below]

theorem head_seek : (seek k m).head? = some e ↔ e ∈ m ∧ k ≤ e.1 ∧ ∀ e' ∈ m, k ≤ e'.1 → e.1 ≤ e'.1 := by
  rw [seek_eq_filter sorted]
  have order : Sorted (m.filter fun e => k ≤ e.1) := sorted.filter _
  constructor
  · intro first
    obtain ⟨tail, shape⟩ := head?_eq_some_iff.mp first
    have here : e ∈ m.filter fun e => k ≤ e.1 := by simp [shape]
    obtain ⟨within, above⟩ := mem_filter.mp here
    refine ⟨within, by simpa using above, fun e' within' above' => ?_⟩
    have there : e' ∈ m.filter fun e => k ≤ e.1 :=
      mem_filter.mpr ⟨within', by simpa using above'⟩
    rw [shape] at there order
    rcases mem_cons.mp there with rfl | later
    · exact le_refl _
    · exact ((pairwise_cons.mp order).1 e' later).le
  · rintro ⟨within, above, least⟩
    have here : e ∈ m.filter fun e => k ≤ e.1 :=
      mem_filter.mpr ⟨within, by simpa using above⟩
    cases shape : m.filter fun e => k ≤ e.1 with
    | nil => simp [shape] at here
    | cons first tail =>
      -- The first pair is no larger than this one, and larger pairs come later.
      rw [shape] at here order
      rcases mem_cons.mp here with rfl | later
      · rfl
      · have smaller := (pairwise_cons.mp order).1 e later
        have member : first ∈ m.filter fun e => k ≤ e.1 := by simp [shape]
        obtain ⟨within', above'⟩ := mem_filter.mp member
        exact absurd smaller (not_lt.mpr (least first within' (by simpa using above')))

theorem head_seek_none : (seek k m).head? = none ↔ ∀ e ∈ m, e.1 < k := by
  rw [seek_eq_filter sorted, head?_eq_none_iff, filter_eq_nil_iff]
  simp

theorem get_eq_some : get k m = some v ↔ (k, v) ∈ m := by
  unfold get
  cases shape : seek k m with
  | nil =>
    have below := (head_seek_none (k := k) sorted).mp (by simp [shape])
    simpa using fun within => absurd (below (k, v) within) (lt_irrefl _)
  | cons first tail =>
    obtain ⟨k', v'⟩ := first
    obtain ⟨within, above, least⟩ :=
      (head_seek (k := k) (e := (k', v')) sorted).mp (by simp [shape])
    simp only
    split_ifs with same
    · subst same
      constructor
      · rintro ⟨rfl⟩
        exact within
      · intro other
        -- Keys in order hold one value each.
        have unique := (head_seek (k := k') (e := (k', v)) sorted).mpr ⟨other, le_refl _, fun e' _ above' => above'⟩
        simpa [shape] using congrArg (Option.map Prod.snd) unique
    · refine ⟨fun none => by simp at none, fun other => ?_⟩
      exact absurd (le_antisymm (least _ other (le_refl _)) above) same

theorem get_put {k' : κ} : get k' (put k v m) = if k' = k then some v else get k' m := by
  ext w
  rw [get_eq_some (sorted_put sorted), mem_put sorted]
  split_ifs with same
  · simp [same, eq_comm]
  · simp [same, get_eq_some sorted]

end

theorem mem_erase : e ∈ erase k m ↔ e ∈ m ∧ e.1 ≠ k := by
  simp [erase]

theorem erase_eq_self (other : ∀ e ∈ m, e.1 ≠ k) : erase k m = m :=
  filter_eq_self.mpr fun e listed => decide_eq_true (other e listed)

theorem foldl_erase (ks : List κ) (m : List (κ × β)) :
    ks.foldl (fun m k => erase k m) m = m.filter fun e => e.1 ∉ ks := by
  induction ks generalizing m with
  | nil => simp
  | cons k ks ih =>
    rw [foldl_cons, ih, erase, filter_filter]
    refine filter_congr fun e _ => ?_
    simp [Bool.and_comm]

end SortedMap
