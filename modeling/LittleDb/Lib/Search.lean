import Mathlib.Data.List.Basic

/-! Binary search for the first index at which a monotone test succeeds. -/

namespace Search

open List Option

/-- Halves an interval until empty: before it the test fails, then passes. -/
def searchFrom (test : Nat → Bool) : Nat → Nat → Nat → Nat
  | 0, i, _ => i
  | fuel + 1, i, j =>
    if i < j then
      let h := (i + j) / 2
      if test h then searchFrom test fuel i h else searchFrom test fuel (h + 1) j
    else i

/-- The first index below a bound at which a test succeeds, or the bound. -/
def search (n : Nat) (test : Nat → Bool) : Nat := searchFrom test n 0 n

variable {α : Type} {test : Nat → Bool} {n : Nat}

/-- The interval closes in on the first index that passes. -/
theorem searchFrom_spec {fuel i j : Nat} (mono : ∀ a b, a ≤ b → b < n → test a = true → test b = true) (order : i ≤ j)
    (bound : j ≤ n) (enough : j - i ≤ fuel) (below : ∀ a < i, test a = false) (above : j < n → test j = true) :
    searchFrom test fuel i j ≤ n ∧ (∀ a < searchFrom test fuel i j, test a = false) ∧
    (searchFrom test fuel i j < n → test (searchFrom test fuel i j) = true) := by
  induction fuel generalizing i j with
  | zero =>
    obtain rfl : i = j := by omega
    exact ⟨bound, below, above⟩
  | succ fuel ih =>
    rw [searchFrom]
    by_cases open_ : i < j
    · rw [if_pos open_]
      by_cases passed : test ((i + j) / 2) = true
      · dsimp only
        rw [if_pos passed]
        exact ih (by omega) (by omega) (by omega) below fun _ => passed
      · -- Were an earlier index to pass, the middle one would too.
        have lower : ∀ a < (i + j) / 2 + 1, test a = false := by
          intro a low
          by_contra hit
          exact passed (mono a ((i + j) / 2) (by omega) (by omega) (by simpa using hit))
        dsimp only
        rw [if_neg passed]
        exact ih (by omega) bound (by omega) lower above
    · rw [if_neg open_]
      obtain rfl : i = j := by omega
      exact ⟨bound, below, above⟩

theorem searchFrom_le {fuel i j : Nat} (order : i ≤ j) : searchFrom test fuel i j ≤ j := by
  induction fuel generalizing i j with
  | zero => exact order
  | succ fuel ih =>
    rw [searchFrom]
    split_ifs
    · dsimp only
      split_ifs
      · exact Nat.le_trans (ih (by omega)) (by omega)
      · exact ih (by omega)
    · exact order

theorem search_le : search n test ≤ n := searchFrom_le (Nat.zero_le n)

theorem search_eq_findIdx {l : List α} {p : α → Bool} (mono : l.Pairwise fun a b => p a = true → p b = true) :
    search l.length (fun i => (l[i]?).any p) = l.findIdx p := by
  have monotone : ∀ a b, a ≤ b → b < l.length → (l[a]?).any p = true → (l[b]?).any p = true := by
    intro a b order low hit
    rcases Nat.lt_or_eq_of_le order with less | rfl
    · have first : a < l.length := by omega
      rw [getElem?_eq_getElem first, any_some] at hit
      rw [getElem?_eq_getElem low, any_some]
      exact pairwise_iff_getElem.mp mono a b first low less hit
    · exact hit
  obtain ⟨bound, below, hit⟩ := searchFrom_spec monotone (Nat.zero_le l.length) (Nat.le_refl _)
    (show l.length - 0 ≤ l.length by omega) (by simp) (by simp)
  have misses : ∀ j, (short : j < l.length) → j < search l.length (fun i => (l[i]?).any p) →
      p l[j] = false := by
    intro j short before
    have missed := below j before
    rwa [getElem?_eq_getElem short, any_some] at missed
  rcases Nat.lt_or_eq_of_le bound with short | full
  · refine ((findIdx_eq short).mpr ⟨?_, fun j before => misses j (by omega) before⟩).symm
    have found := hit short
    rwa [getElem?_eq_getElem short, any_some] at found
  · rw [search, full]
    refine (findIdx_eq_length.mpr fun x listed => ?_).symm
    obtain ⟨j, short, rfl⟩ := getElem_of_mem listed
    exact misses j short (by rw [search, full]; exact short)

end Search
