import LittleDb.Lib.SortedMap
import Mathlib.Algebra.Ring.Nat

/-! Merging sorted sources: the smallest head is taken first, and the first source wins a tie. -/

namespace Merge

open List Option SortedMap

variable {κ β : Type} [LinearOrder κ] {k : κ} {m : List (κ × β)} {e : κ × β} {sources : List (List (κ × β))}

/-- Takes the smallest head of the sources, of equal ones the first. -/
def pop : List (List (κ × β)) → Option ((κ × β) × List (List (κ × β)))
  | [] => none
  | source :: rest =>
    match source, pop rest with
    | [], none => none
    | [], some (e, rest') => some (e, [] :: rest')
    | e :: source', none => some (e, source' :: rest)
    | e :: source', some (e', rest') =>
      if e'.1 < e.1 then some (e', (e :: source') :: rest') else some (e, source' :: rest)

/-- Takes heads until the sources are empty, without a key just taken. -/
def merge : Nat → Option κ → List (List (κ × β)) → List (κ × β)
  | 0, _, _ => []
  | fuel + 1, last, sources =>
    match pop sources with
    | none => []
    | some (e, sources') =>
      if last = some e.1 then merge fuel last sources' else e :: merge fuel (some e.1) sources'

def total (sources : List (List (κ × β))) : Nat := (sources.map List.length).sum

def all (sources : List (List (κ × β))) : List (κ × β) := merge (total sources) none sources

/-- The value of a key in the first source that has it. -/
def lookup (k : κ) (sources : List (List (κ × β))) : Option β :=
  sources.findSome? (SortedMap.get k)

structure Popped (sources : List (List (κ × β))) (e : κ × β) (rest : List (List (κ × β))) : Prop where
  sorted : ∀ source ∈ rest, SortedMap.Sorted source
  count : total rest + 1 = total sources
  least : ∀ source ∈ rest, ∀ e' ∈ source, e.1 ≤ e'.1
  first : lookup e.1 sources = some e.2
  other : ∀ k, k ≠ e.1 → lookup k rest = lookup k sources

theorem get_none_of_lt (sorted : SortedMap.Sorted m) (above : ∀ e ∈ m, k < e.1) : SortedMap.get k m = none := by
  cases found : SortedMap.get k m with
  | none => rfl
  | some v => exact absurd (above _ ((get_eq_some sorted).mp found)) (lt_irrefl _)

theorem get_head : SortedMap.get e.1 (e :: m) = some e.2 := by
  simp [SortedMap.get, SortedMap.seek]

theorem get_cons_of_ne (sorted : SortedMap.Sorted (e :: m))
    (other : k ≠ e.1) : SortedMap.get k (e :: m) = SortedMap.get k m := by
  obtain ⟨first, rest⟩ := pairwise_cons.mp sorted
  by_cases below : e.1 < k
  · simp [SortedMap.get, SortedMap.seek, below]
  · -- The key lies below the head, hence below everything.
    have lower : k < e.1 := lt_of_le_of_ne (not_lt.mp below) other
    rw [get_none_of_lt rest fun e' within => lower.trans (first e' within)]
    exact get_none_of_lt sorted fun e' within => by
      rcases mem_cons.mp within with rfl | later
      · exact lower
      · exact lower.trans (first e' later)

@[simp] theorem lookup_nil_cons (k : κ) (sources : List (List (κ × β))) :
    lookup k ([] :: sources) = lookup k sources := by
  rfl

theorem lookup_cons (k : κ) (source : List (κ × β)) (sources : List (List (κ × β))) :
    lookup k (source :: sources) = (SortedMap.get k source).or (lookup k sources) := by
  rw [lookup, findSome?_cons]
  cases SortedMap.get k source <;> rfl

theorem pop_none (done : pop sources = none) : ∀ source ∈ sources, source = [] := by
  induction sources with
  | nil => simp
  | cons source rest ih =>
    cases source with
    | nil =>
      cases tail : pop rest with
      | none => simpa using ih tail
      | some result => simp [pop, tail] at done
    | cons e source =>
      cases tail : pop rest with
      | none => simp [pop, tail] at done
      | some result =>
        simp only [pop, tail] at done
        split_ifs at done

theorem head_of_pop {rest : List (List (κ × β))} (taken : pop sources = some (e, rest)) :
    ∃ (i : Nat) (tail : List (κ × β)), sources[i]? = some (e :: tail) := by
  induction sources generalizing e rest with
  | nil => cases taken
  | cons source sources ih =>
    cases later : pop sources with
    | none =>
      cases source with
      | nil => simp [pop, later] at taken
      | cons head source =>
        simp only [pop, later, Option.some.injEq, Prod.mk.injEq] at taken
        exact ⟨0, source, by rw [← taken.1]; rfl⟩
    | some result =>
      obtain ⟨i, tail, there⟩ := ih later
      cases source with
      | nil =>
        simp only [pop, later, Option.some.injEq, Prod.mk.injEq] at taken
        exact ⟨i + 1, tail, by rw [← taken.1]; exact there⟩
      | cons head source =>
        simp only [pop, later] at taken
        split_ifs at taken
        · simp only [Option.some.injEq, Prod.mk.injEq] at taken
          exact ⟨i + 1, tail, by rw [← taken.1]; exact there⟩
        · simp only [Option.some.injEq, Prod.mk.injEq] at taken
          exact ⟨0, source, by rw [← taken.1]; rfl⟩

theorem pop_of_least {i : Nat} {tail : List (κ × β)} (here : sources[i]? = some (e :: tail))
    (least : ∀ (j : Nat) (e' : κ × β) (tail' : List (κ × β)), sources[j]? = some (e' :: tail') →
      e.1 < e'.1 ∨ (e.1 = e'.1 ∧ i ≤ j)) : pop sources = some (e, sources.set i tail) := by
  induction sources generalizing i with
  | nil => cases here
  | cons source sources ih =>
    cases i with
    | zero =>
      obtain rfl : source = e :: tail := Option.some.inj here
      cases later : pop sources with
      | none => simp [pop, later]
      | some result =>
        -- The head that the others offer is not below this one.
        obtain ⟨j, tail', there⟩ := head_of_pop later
        have above : ¬ result.1.1 < e.1 := by
          rcases least (j + 1) result.1 tail' there with below | ⟨same, -⟩
          · exact below.not_gt
          · exact same.not_gt
        simp [pop, later, above]
    | succ i =>
      have later := ih here fun j e' tail' there =>
        (least (j + 1) e' tail' there).imp_right fun tie => ⟨tie.1, Nat.le_of_succ_le_succ tie.2⟩
      cases source with
      | nil => simp [pop, later]
      | cons head source =>
        have below : e.1 < head.1 :=
          (least 0 head source rfl).resolve_right fun tie => absurd tie.2 (Nat.not_succ_le_zero i)
        simp [pop, later, below]

section

variable (sorted : ∀ source ∈ sources, SortedMap.Sorted source)
include sorted

theorem le_of_lookup {bound : κ} {v : β}
    (least : ∀ source ∈ sources, ∀ e ∈ source, bound ≤ e.1) (shown : lookup k sources = some v) : bound ≤ k := by
  obtain ⟨source, listed, found⟩ := exists_of_findSome?_eq_some shown
  exact least source listed _ ((get_eq_some (sorted source listed)).mp found)

theorem lookup_none_of_lt (above : ∀ source ∈ sources, ∀ e ∈ source, k < e.1) : lookup k sources = none := by
  rw [lookup, findSome?_eq_none_iff]
  exact fun source listed => get_none_of_lt (sorted source listed) (above source listed)

theorem pop_some {rest : List (List (κ × β))} (taken : pop sources = some (e, rest)) : Popped sources e rest ∧
    ∀ source ∈ sources, ∀ e' ∈ source, e.1 ≤ e'.1 := by
  induction sources generalizing e rest with
  | nil => simp [pop] at taken
  | cons source sources ih =>
    have here := sorted source (by simp)
    have there : ∀ source ∈ sources, SortedMap.Sorted source :=
      fun source listed => sorted source (mem_cons_of_mem _ listed)
    -- Taking the head of the first source, which no other head undercuts.
    have take_first : ∀ (head : κ × β) (tail : List (κ × β)), source = head :: tail →
        (∀ source ∈ sources, ∀ e' ∈ source, head.1 ≤ e'.1) →
        Popped (source :: sources) head (tail :: sources) ∧
          ∀ source' ∈ source :: sources, ∀ e' ∈ source', head.1 ≤ e'.1 := by
      rintro head tail rfl least
      obtain ⟨first, later⟩ := pairwise_cons.mp here
      refine ⟨⟨?_, ?_, ?_, ?_, ?_⟩, ?_⟩
      · simpa using ⟨later, there⟩
      · simp only [total, map_cons, sum_cons, length_cons]
        omega
      · intro source' listed e' within
        rcases mem_cons.mp listed with rfl | listed'
        · exact (first e' within).le
        · exact least source' listed' e' within
      · rw [lookup_cons, get_head, some_or]
      · intro k other
        rw [lookup_cons, lookup_cons, get_cons_of_ne here other]
      · intro source' listed e' within
        rcases mem_cons.mp listed with rfl | listed'
        · rcases mem_cons.mp within with rfl | within'
          · exact le_refl _
          · exact (first e' within').le
        · exact least source' listed' e' within
    cases source with
    | nil =>
      cases tail : pop sources with
      | none => simp [pop, tail] at taken
      | some result =>
        obtain ⟨e₁, rest₁⟩ := result
        simp only [pop, tail, Option.some.injEq, Prod.mk.injEq] at taken
        obtain ⟨rfl, rfl⟩ := taken
        obtain ⟨popped, least⟩ := ih there tail
        refine ⟨⟨?_, ?_, ?_, ?_, ?_⟩, by simpa using least⟩
        · simpa using ⟨here, popped.sorted⟩
        · simpa [total] using popped.count
        · simpa using popped.least
        · simpa using popped.first
        · simpa using popped.other
    | cons head source =>
      cases tail : pop sources with
      | none =>
        simp only [pop, tail, Option.some.injEq, Prod.mk.injEq] at taken
        obtain ⟨rfl, rfl⟩ := taken
        refine take_first head source rfl fun source' listed e' within => ?_
        rw [pop_none tail source' listed] at within
        simp at within
      | some result =>
        obtain ⟨e₁, rest₁⟩ := result
        obtain ⟨popped, least⟩ := ih there tail
        simp only [pop, tail] at taken
        split_ifs at taken with below
        · -- A later source has a smaller head.
          simp only [Option.some.injEq, Prod.mk.injEq] at taken
          obtain ⟨rfl, rfl⟩ := taken
          obtain ⟨first, _⟩ := pairwise_cons.mp here
          have above : ∀ e' ∈ head :: source, e₁.1 < e'.1 := by
            intro e' within
            rcases mem_cons.mp within with rfl | later
            · exact below
            · exact below.trans (first e' later)
          refine ⟨⟨?_, ?_, ?_, ?_, ?_⟩, ?_⟩
          · simpa using ⟨here, popped.sorted⟩
          · have count := popped.count
            simp only [total, map_cons, sum_cons] at count ⊢
            omega
          · intro source' listed e' within
            rcases mem_cons.mp listed with rfl | listed'
            · exact (above e' within).le
            · exact popped.least source' listed' e' within
          · rw [lookup_cons, get_none_of_lt here above, none_or, popped.first]
          · intro k other
            rw [lookup_cons, lookup_cons, popped.other k other]
          · intro source' listed e' within
            rcases mem_cons.mp listed with rfl | listed'
            · exact (above e' within).le
            · exact least source' listed' e' within
        · simp only [Option.some.injEq, Prod.mk.injEq] at taken
          obtain ⟨rfl, rfl⟩ := taken
          refine take_first head source rfl fun source' listed e' within => ?_
          exact (not_lt.mp below).trans (least source' listed e' within)

/-- A merge is sorted and shows what the first sources show. -/
theorem merge_spec {fuel : Nat} {last : Option κ} (enough : total sources ≤ fuel)
    (bound : ∀ l ∈ last, ∀ source ∈ sources, ∀ e ∈ source, l ≤ e.1) : SortedMap.Sorted (merge fuel last sources) ∧
    ∀ e, e ∈ merge fuel last sources ↔ lookup e.1 sources = some e.2 ∧ last ≠ some e.1 := by
  induction fuel generalizing last sources with
  | zero =>
    -- Without fuel there is nothing left to take.
    have empty : ∀ source ∈ sources, source = [] := by
      rw [total, ← length_flatten, Nat.le_zero, length_eq_zero_iff] at enough
      exact flatten_eq_nil_iff.mp enough
    refine ⟨.nil, fun e => ?_⟩
    have nothing : lookup e.1 sources = none :=
      lookup_none_of_lt sorted fun source listed e' within => by simp [empty source listed] at within
    simp [merge, nothing]
  | succ fuel ih =>
    rw [merge]
    cases taken : pop sources with
    | none =>
      refine ⟨.nil, fun e => ?_⟩
      have nothing : lookup e.1 sources = none :=
        lookup_none_of_lt sorted fun source listed e' within => by
          simp [pop_none taken source listed] at within
      simp [nothing]
    | some result =>
      obtain ⟨head, rest⟩ := result
      obtain ⟨popped, least⟩ := pop_some sorted taken
      have fewer : total rest ≤ fuel := by
        have count := popped.count
        omega
      -- What is still to come lies at or above the head just taken.
      have later : ∀ k v, lookup k rest = some v → head.1 ≤ k := fun k v shown =>
        le_of_lookup popped.sorted popped.least shown
      simp only
      split_ifs with again
      · have above : ∀ l ∈ last, ∀ source ∈ rest, ∀ e ∈ source, l ≤ e.1 := fun l known source listed e within => by
          rw [again, mem_some_iff] at known
          exact known ▸ popped.least source listed e within
        obtain ⟨order, members⟩ := ih popped.sorted fewer above
        refine ⟨order, fun e => ?_⟩
        rw [members e, again]
        refine and_congr_left fun other => ?_
        rw [popped.other e.1 fun same => other (congrArg some same.symm)]
      · have above : ∀ l ∈ some head.1, ∀ source ∈ rest, ∀ e ∈ source, l ≤ e.1 :=
          fun l known source listed e within => by
            rw [mem_some_iff] at known
            exact known ▸ popped.least source listed e within
        obtain ⟨order, members⟩ := ih popped.sorted fewer above
        refine ⟨pairwise_cons.mpr ⟨fun e within => ?_, order⟩, fun e => ?_⟩
        · obtain ⟨shown, other⟩ := (members e).mp within
          exact lt_of_le_of_ne (later e.1 e.2 shown) fun same => other (congrArg some same)
        · rw [mem_cons, members e]
          constructor
          · rintro (rfl | ⟨shown, other⟩)
            · exact ⟨popped.first, again⟩
            · have away : e.1 ≠ head.1 := fun same => other (congrArg some same.symm)
              have present := (popped.other e.1 away).symm.trans shown
              refine ⟨present, fun known => away (le_antisymm ?_ (later e.1 e.2 shown))⟩
              exact le_of_lookup sorted (bound e.1 known) popped.first
          · rintro ⟨shown, other⟩
            by_cases same : e.1 = head.1
            · left
              rw [same, popped.first, Option.some.injEq] at shown
              exact Prod.ext same shown.symm
            · right
              refine ⟨(popped.other e.1 same).trans shown, fun known => same ?_⟩
              exact (Option.some.inj known).symm

theorem sorted_all : SortedMap.Sorted (all sources) :=
  (merge_spec sorted (le_refl _) (by simp)).1

theorem mem_all : e ∈ all sources ↔ lookup e.1 sources = some e.2 := by
  rw [all, (merge_spec sorted (le_refl _) (by simp)).2 e]
  simp

end

theorem all_singleton {source : List (κ × β)} (sorted : SortedMap.Sorted source) : all [source] = source := by
  have run : ∀ (l : List (κ × β)) (last : Option κ), SortedMap.Sorted l →
      (∀ e ∈ l, ∀ k ∈ last, k < e.1) → merge l.length last [l] = l := by
    intro l
    induction l with
    | nil => intro _ _ _; rfl
    | cons e l ih =>
      intro last order above
      obtain ⟨first, order'⟩ := pairwise_cons.mp order
      have new : last ≠ some e.1 := fun same => lt_irrefl _ (above e (by simp) e.1 same)
      rw [length_cons, merge]
      simp only [pop, if_neg new]
      rw [ih (some e.1) order' fun e' listed k known => Option.some.inj known ▸ first e' listed]
  have size : total [source] = source.length := by simp [total]
  rw [all, size]
  exact run source none sorted (by simp)

end Merge
