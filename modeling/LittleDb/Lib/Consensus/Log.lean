import Mathlib.Data.Nat.Find
import LittleDb.Lib.Consensus.State

/-! Laws of logs under prefixes: last terms, implied member sets and where two logs part. -/

namespace Consensus

open List

variable {N E : Type}

theorem exists_fork (a b : List E) : ∃ d, d ≤ a.length ∧ d ≤ b.length ∧ a.take d = b.take d ∧ ∀ x, a[d]? = some x →
    b[d]? ≠ some x := by
  induction a generalizing b with
  | nil => exact ⟨0, by simp⟩
  | cons x a ih =>
    cases b with
    | nil => exact ⟨0, by simp⟩
    | cons y b =>
      by_cases same : x = y
      · -- An equal head moves the fork one position further.
        subst same
        obtain ⟨d, shortA, shortB, agree, part⟩ := ih b
        exact ⟨d + 1, by simpa using shortA, by simpa using shortB, by simpa using agree, by simpa using part⟩
      · refine ⟨0, by simp, by simp, by simp, ?_⟩
        intro z atA atB
        simp only [getElem?_cons_zero, Option.some.injEq] at atA atB
        exact same (atA.trans atB.symm)

theorem getElem?_of_pre {a b : List E} (pre : a <+: b) {pos : Nat} (inside : pos < a.length) : a[pos]? = b[pos]? := by
  obtain ⟨rest, rfl⟩ := pre
  rw [getElem?_append_left inside]

theorem take_length_of_pre {a b : List E} (pre : a <+: b) : b.take a.length = a := by
  rw [List.prefix_iff_eq_take] at pre
  exact pre.symm

theorem take_eq_of_pre {a b : List E} (pre : a <+: b) {k : Nat} (inside : k ≤ a.length) : a.take k = b.take k := by
  obtain ⟨rest, rfl⟩ := pre
  rw [take_append_of_le_length inside]

theorem take_pre_of_le {a b c : List E} (left : a <+: c) (right : b <+: c) {k : Nat}
    (inside : k ≤ a.length) (short : k ≤ b.length) : a.take k <+: b := by
  rw [take_eq_of_pre left inside, ← take_eq_of_pre right short]
  exact List.take_prefix k b

theorem length_le_of_fork {a b x : List E} {d : Nat} (part : ∀ y, a[d]? = some y → b[d]? ≠ some y) (left : x <+: a)
    (right : x <+: b) : x.length ≤ d := by
  by_contra long
  have inside : d < x.length := by omega
  have atA := getElem?_of_pre left inside
  have atB := getElem?_of_pre right inside
  rw [getElem?_eq_getElem inside] at atA atB
  exact part _ atA.symm atB.symm

namespace Rules

variable (R : Rules N E)

@[simp] theorem lastTerm_nil : R.lastTerm [] = 0 := rfl

@[simp] theorem lastTerm_append (log : List E) (x : E) : R.lastTerm (log ++ [x]) = R.term x := by
  simp [lastTerm]

variable {log a b : List E} {pos high i : Nat} {x y : E}

theorem lastTerm_of_getElem? (last : pos + 1 = log.length) (found : log[pos]? = some x) : R.lastTerm log = R.term x := by
  have position : log.length - 1 = pos := by omega
  simp [lastTerm, getLast?_eq_getElem?, position, found]

theorem exists_getElem? (log : List E) (pos : Nat) (inside : pos < log.length) : ∃ x, log[pos]? = some x :=
  ⟨log[pos], getElem?_eq_getElem inside⟩

theorem members_append (log : List E) (x : E) : R.members (log ++ [x]) = (R.reconf x).getD (R.members log) := by
  -- Searching from the back meets the appended entry first.
  simp only [members, reverse_append, reverse_singleton, singleton_append, findSome?_cons]
  cases R.reconf x <;> rfl

theorem ReconfAt.inside {R : Rules N E} (at_ : R.ReconfAt log pos) : pos < log.length := by
  obtain ⟨x, _, found, _⟩ := at_
  exact (List.getElem?_eq_some_iff.mp found).1

theorem reconfAt_pre (pre : a <+: b) (inside : pos < a.length) : R.ReconfAt a pos ↔ R.ReconfAt b pos := by
  simp only [ReconfAt, getElem?_of_pre pre inside]

theorem members_take_eq {low : Nat} (order : low ≤ high)
    (plain : ∀ pos, low ≤ pos → pos < high → ¬ R.ReconfAt log pos) :
    R.members (log.take high) = R.members (log.take low) := by
  induction high, order using Nat.le_induction with
  | base => rfl
  | succ high order ih =>
    have before := ih fun pos above below => plain pos above (by omega)
    cases found : log[high]? with
    | none =>
      -- Past the end both cuts take the whole log.
      rw [← before, take_add_one, found]
      simp
    | some x =>
      rw [take_add_one, found, Option.toList_some, members_append, ← before]
      cases set : R.reconf x with
      | none => rfl
      | some c => exact absurd ⟨x, c, found, set⟩ (plain high order (by omega))

theorem members_take_reconf {set : Finset N} (found : log[pos]? = some x) (reconf : R.reconf x = some set)
    (below : pos < high) (plain : ∀ p, pos < p → p < high → ¬ R.ReconfAt log p) : R.members (log.take high) = set := by
  rw [R.members_take_eq (show pos + 1 ≤ high by omega) fun p above under =>
    plain p (by omega) under]
  rw [take_add_one, found, Option.toList_some, members_append, reconf]
  rfl

theorem reconf_from (log : List E) (start : Nat) : (∀ pos, start ≤ pos → ¬ R.ReconfAt log pos) ∨ ∃ pos, start ≤ pos ∧
    R.ReconfAt log pos ∧ ∀ p, start ≤ p → p < pos → ¬ R.ReconfAt log p := by
  classical
  by_cases any : ∃ pos, start ≤ pos ∧ R.ReconfAt log pos
  · -- The least such position is the first configuration entry.
    refine .inr ⟨Nat.find any, (Nat.find_spec any).1, (Nat.find_spec any).2, ?_⟩
    intro p above below at_
    exact Nat.find_min any below ⟨above, at_⟩
  · exact .inl fun pos above at_ => any ⟨pos, above, at_⟩

theorem Ascending.of_pre {R : Rules N E} (up : R.Ascending b) (pre : a <+: b) : R.Ascending a :=
  List.Pairwise.sublist pre.sublist up

theorem Ascending.le {R : Rules N E} (up : R.Ascending log) {j : Nat}
    (order : i ≤ j) (atI : log[i]? = some x) (atJ : log[j]? = some y) : R.term x ≤ R.term y := by
  obtain ⟨insideI, rfl⟩ := List.getElem?_eq_some_iff.mp atI
  obtain ⟨insideJ, rfl⟩ := List.getElem?_eq_some_iff.mp atJ
  rcases lt_or_ge i j with before | after
  · exact pairwise_iff_getElem.mp up i j insideI insideJ before
  · have same : i = j := by omega
    subst same
    exact le_refl _

theorem Ascending.le_lastTerm {R : Rules N E} (up : R.Ascending log)
    (found : log[i]? = some x) : R.term x ≤ R.lastTerm log := by
  have inside : i < log.length := (List.getElem?_eq_some_iff.mp found).1
  obtain ⟨y, last⟩ := exists_getElem? log (log.length - 1) (by omega)
  rw [R.lastTerm_of_getElem? (by omega) last]
  exact up.le (by omega) found last

theorem Ascending.append {R : Rules N E} (up : R.Ascending log)
    (top : ∀ y ∈ log, R.term y ≤ R.term x) : R.Ascending (log ++ [x]) := by
  refine pairwise_append.mpr ⟨up, by simp, ?_⟩
  intro y member z last
  rw [mem_singleton] at last
  subst last
  exact top y member

end Rules

end Consensus
