import Mathlib.Data.List.Basic

/-! The set of linearized operation ids, kept as a row of 64-bit words. -/

namespace Lincheck

open List

@[ext] structure Bitset where
  /-- The words, ids 0 to 63 in the first. -/
  words : List (BitVec 64)
  deriving DecidableEq, Repr

def newBitset (n : Nat) : Bitset := ⟨List.replicate ((n + 63) / 64) 0#64⟩

namespace Bitset

def set (b : Bitset) (i : Nat) : Bitset :=
  ⟨b.words.modify (i >>> 6) fun w => w ||| 1#64 <<< (i &&& 63)⟩

def clear (b : Bitset) (i : Nat) : Bitset :=
  ⟨b.words.modify (i >>> 6) fun w => w &&& ~~~(1#64 <<< (i &&& 63))⟩

def hash (b : Bitset) : BitVec 64 :=
  b.words.foldl (fun h w => (h ^^^ w) * 1099511628211#64) 1469598103934665603#64

def equal (b o : Bitset) : Bool :=
  b.words.length == o.words.length &&
    (List.range b.words.length).all fun i => b.words[i]? == o.words[i]?

def has (b : Bitset) (i : Nat) : Bool := (b.words[i / 64]?.getD 0#64).getLsbD (i % 64)

theorem equal_iff (b o : Bitset) : b.equal o = true ↔ b = o := by
  constructor
  · intro same
    simp only [equal, Bool.and_eq_true, beq_iff_eq, List.all_eq_true, List.mem_range] at same
    refine Bitset.ext (List.ext_getElem? fun i => ?_)
    rcases Nat.lt_or_ge i b.words.length with inside | outside
    · exact same.2 i inside
    · -- Past the end neither row has a word.
      rw [List.getElem?_eq_none outside, List.getElem?_eq_none (by omega)]
  · rintro rfl
    simp [equal]

theorem word_index (i : Nat) : i >>> 6 = i / 64 := by
  rw [Nat.shiftRight_eq_div_pow]

theorem bit_index (i : Nat) : i &&& 63 = i % 64 := Nat.and_two_pow_sub_one_eq_mod i 6

@[simp] theorem has_newBitset (n i : Nat) : (newBitset n).has i = false := by
  simp only [has, newBitset, getElem?_replicate]
  split <;> simp

variable {b : Bitset} {i n : Nat} {ids : List Nat}

theorem has_set (inside : i / 64 < b.words.length) (j : Nat) : (b.set i).has j = (decide (j = i) || b.has j) := by
  simp only [has, set, word_index, bit_index, getElem?_modify]
  by_cases word : i / 64 = j / 64
  · -- Within the same word, the bits agree exactly when the places do.
    have place : (j = i) ↔ j % 64 = i % 64 := by omega
    rw [word] at inside ⊢
    simp only [if_true, List.getElem?_eq_getElem inside, Option.map_eq_map, Option.map_some,
      Option.getD_some, BitVec.getLsbD_or, BitVec.getLsbD_shiftLeft, place]
    by_cases same : j % 64 = i % 64
    · simp [same, Nat.mod_lt]
    · have other : (j % 64 < i % 64) ∨ j % 64 - i % 64 ≠ 0 := by omega
      rcases other with low | high
      · simp [same, low]
      · simp [same, high]
  · have apart : j ≠ i := fun same => word (by rw [same])
    simp [word, apart]

theorem has_clear (b : Bitset) (i j : Nat) : (b.clear i).has j = (!decide (j = i) && b.has j) := by
  simp only [has, clear, word_index, bit_index, getElem?_modify]
  by_cases word : i / 64 = j / 64
  · have place : (j = i) ↔ j % 64 = i % 64 := by omega
    have low : j % 64 < 64 := Nat.mod_lt _ (by decide)
    simp only [word, if_true, place]
    cases b.words[j / 64]? with
    | none => simp
    | some w =>
      simp only [Option.map_eq_map, Option.map_some, Option.getD_some, BitVec.getLsbD_and,
        BitVec.getLsbD_not, BitVec.getLsbD_shiftLeft]
      by_cases same : j % 64 = i % 64
      · simp [same, Nat.mod_lt]
      · have other : (j % 64 < i % 64) ∨ j % 64 - i % 64 ≠ 0 := by omega
        rcases other with low' | high
        · simp [same, low, low']
        · simp [same, low, high]
  · have apart : j ≠ i := fun same => word (by rw [same])
    simp [word, apart]

/-- A set over the ids below a number holds exactly the listed ones. -/
structure Holds (n : Nat) (b : Bitset) (ids : List Nat) : Prop where
  size : b.words.length = (n + 63) / 64
  bits : ∀ i, b.has i = decide (i ∈ ids)

theorem holds_newBitset (n : Nat) : (newBitset n).Holds n [] :=
  ⟨by simp [newBitset], by simp⟩

theorem Holds.set (holds : b.Holds n ids) (inside : i < n) : (b.set i).Holds n (i :: ids) := by
  refine ⟨by simp [Bitset.set, holds.size], fun j => ?_⟩
  rw [has_set (by rw [holds.size]; omega), holds.bits]
  simp

theorem Holds.clear (holds : b.Holds n (i :: ids)) (fresh : i ∉ ids) : (b.clear i).Holds n ids := by
  refine ⟨by simp [Bitset.clear, holds.size], fun j => ?_⟩
  rw [has_clear, holds.bits]
  by_cases same : j = i
  · simp [same, fresh]
  · simp [same]

theorem Holds.unique {o : Bitset} {ids' : List Nat} (holds : b.Holds n ids)
    (holds' : o.Holds n ids') (same : ∀ i, i ∈ ids ↔ i ∈ ids') : b = o := by
  have bits : ∀ i, b.has i = o.has i := fun i => by simp [holds.bits, holds'.bits, same]
  refine Bitset.ext (ext_getElem (holds.size.trans holds'.size.symm) fun w left right => ?_)
  refine BitVec.eq_of_getLsbD_eq fun p low => ?_
  -- The bit at a place of a word is the bit of the id that lives there.
  have bit := bits (64 * w + p)
  have word : (64 * w + p) / 64 = w := by omega
  have place : (64 * w + p) % 64 = p := by omega
  simpa [has, word, place, left, right] using bit

end Bitset

end Lincheck
