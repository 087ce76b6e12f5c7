import Mathlib.Algebra.Ring.Nat
import Mathlib.Data.List.Basic
import Mathlib.Data.List.Range
import Mathlib.Data.Nat.Basic

/-! The bloom filter of a table: what was added is never denied, under any hash function and behind any storage. -/

namespace Store

open List

/-- A bit row and the number of hash positions of a key. -/
structure Bloom where
  bits : List (BitVec 8)
  m : Nat
  k : Nat

namespace Bloom

/-- The number of hash functions: bits per key times ln 2, rounded. -/
def numHashes (bitsPerKey : Nat) : Nat :=
  min 30 (max 1 ((bitsPerKey * 6931471805599453 + 5000000000000000) / 10000000000000000))

/-- A filter sized by signed numbers, with the arithmetic of 64 bits. -/
def new (expectedKeys bitsPerKey : Int) : Bloom :=
  let expectedKeys := if expectedKeys < 1 then 1 else expectedKeys.toNat
  let bitsPerKey := if bitsPerKey < 1 then 1 else if 64 < bitsPerKey then 64 else bitsPerKey.toNat
  let mBits := expectedKeys * bitsPerKey % 2 ^ 64
  let mBytes := (mBits + 7) % 2 ^ 64 / 8
  let mBytes := if mBytes < 1 then 1 else mBytes
  ⟨List.replicate mBytes 0#8, mBytes * 8 % 2 ^ 64, numHashes bitsPerKey⟩

def fnv1a (key : List UInt8) : BitVec 64 :=
  key.foldl (fun h b => (h ^^^ b.toBitVec.setWidth 64) * 1099511628211#64) 14695981039346656037#64

def hashPair (hash : List UInt8 → BitVec 64) (key : List UInt8) : Nat × Nat :=
  let sum := (hash key).toNat
  (sum % 2 ^ 32, sum / 2 ^ 32)

/-- The bit positions of a key under a hash; the sum stays below 64 bits. -/
def positionsBy (hash : List UInt8 → BitVec 64) (f : Bloom) (key : List UInt8) : List Nat :=
  let (h1, h2) := hashPair hash key
  (List.range f.k).map fun i => (h1 + i * h2) % f.m

def setBit (bits : List (BitVec 8)) (pos : Nat) : List (BitVec 8) :=
  bits.modify (pos >>> 3) fun b => b ||| 1#8 <<< (pos &&& 7)

def testBit (bits : List (BitVec 8)) (pos : Nat) : Bool :=
  ((bits[pos >>> 3]?.getD 0#8) &&& 1#8 <<< (pos &&& 7)) ≠ 0#8

def addBy (hash : List UInt8 → BitVec 64) (f : Bloom) (key : List UInt8) : Bloom :=
  { f with bits := (f.positionsBy hash key).foldl setBit f.bits }

/-- Whether a key may have been added under a hash function. -/
def mayContainBy (hash : List UInt8 → BitVec 64) (f : Bloom) (key : List UInt8) : Bool :=
  if f.m = 0 then false else (f.positionsBy hash key).all (testBit f.bits)

def add (f : Bloom) (key : List UInt8) : Bloom := f.addBy fnv1a key

def mayContain (f : Bloom) (key : List UInt8) : Bool := f.mayContainBy fnv1a key

/-- The bytes of a filter: the number of hash functions and the bits. -/
def bytes (f : Bloom) : List UInt8 := UInt8.ofNat f.k :: f.bits.map UInt8.ofBitVec

/-- Reads a filter back; nothing from no bytes or a count out of range. -/
def load : List UInt8 → Option Bloom
  | [] => none
  | k :: bits =>
    if k < 1 ∨ 30 < k then none else some ⟨bits.map UInt8.toBitVec, bits.length * 8, k.toNat⟩

theorem place_lt (pos : Nat) : pos &&& 7 < 8 := Nat.and_lt_two_pow pos (by decide : 7 < 2 ^ 3)

theorem and_bit_ne_zero (b : BitVec 8) {i : Nat} (low : i < 8) : (b &&& 1#8 <<< i ≠ 0#8) ↔ b.getLsbD i = true := by
  constructor
  · intro differ
    by_contra off
    refine differ (BitVec.eq_of_getLsbD_eq fun j jLow => ?_)
    by_cases same : j = i
    · subst same
      simp [Bool.eq_false_iff.mpr off]
    · have other : j < i ∨ j - i ≠ 0 := by omega
      rcases other with below | above
      · simp [below]
      · simp [above]
  · intro on zero
    have bit : (b &&& 1#8 <<< i).getLsbD i = true := by
      rw [BitVec.getLsbD_and, on, BitVec.getLsbD_shiftLeft]
      simp [low]
    simp [zero] at bit

/-- A bit row of whole bytes, with positions for its keys. -/
structure Sized (f : Bloom) : Prop where
  size : f.m = f.bits.length * 8
  filled : 0 < f.bits.length

variable {pos other : Nat} {bits : List (BitVec 8)} {ps : List Nat} {f : Bloom}

theorem testBit_setBit_self (inside : pos < bits.length * 8) : testBit (setBit bits pos) pos = true := by
  have byte : pos >>> 3 < bits.length := by
    rw [Nat.shiftRight_eq_div_pow]
    omega
  have low := place_lt pos
  rw [testBit, decide_eq_true_eq, and_bit_ne_zero _ low]
  simp [setBit, byte, low]

theorem testBit_setBit (on : testBit bits other = true) : testBit (setBit bits pos) other = true := by
  have low := place_lt other
  rw [testBit, decide_eq_true_eq, and_bit_ne_zero _ low] at on ⊢
  rw [setBit, getElem?_modify]
  cases found : bits[other >>> 3]? with
  | none => simp [found] at on
  | some b =>
    simp only [found, Option.getD_some] at on
    by_cases same : pos >>> 3 = other >>> 3
    · simp [same, on]
    · simp [same, on]

theorem length_foldl_setBit (ps : List Nat) (bits : List (BitVec 8)) :
    (ps.foldl setBit bits).length = bits.length := by
  induction ps generalizing bits with
  | nil => rfl
  | cons p ps ih => simp [ih, setBit]

theorem testBit_foldl (on : testBit bits other = true) : testBit (ps.foldl setBit bits) other = true := by
  induction ps generalizing bits with
  | nil => exact on
  | cons p ps ih => exact ih (testBit_setBit on)

theorem testBit_foldl_mem (listed : pos ∈ ps)
    (inside : ∀ p ∈ ps, p < bits.length * 8) : testBit (ps.foldl setBit bits) pos = true := by
  induction ps generalizing bits with
  | nil => simp at listed
  | cons p ps ih =>
    rcases mem_cons.mp listed with rfl | later
    · rw [foldl_cons]
      exact testBit_foldl (testBit_setBit_self (inside pos (by simp)))
    · refine ih later fun q within => ?_
      simpa [setBit] using inside q (mem_cons_of_mem _ within)

theorem sized_new (expectedKeys bitsPerKey : Int) : (new expectedKeys bitsPerKey).Sized := by
  unfold new
  dsimp only
  -- An eighth of a 64-bit number does not overflow when it is multiplied back.
  generalize (if expectedKeys < 1 then 1 else expectedKeys.toNat) *
    (if bitsPerKey < 1 then 1 else if 64 < bitsPerKey then 64 else bitsPerKey.toNat) % 2 ^ 64 = mBits
  obtain ⟨mBytes, clamped, positive, small⟩ : ∃ n, (if (mBits + 7) % 2 ^ 64 / 8 < 1 then 1 else
      (mBits + 7) % 2 ^ 64 / 8) = n ∧ 0 < n ∧ n * 8 < 2 ^ 64 := ⟨_, rfl, by split_ifs <;> omega, by split_ifs <;> omega⟩
  rw [clamped]
  exact ⟨by rw [length_replicate, Nat.mod_eq_of_lt small], by simpa using positive⟩

section AnyHash

variable {hash : List UInt8 → BitVec 64}

theorem Sized.positionsBy_lt (sized : f.Sized) (key : List UInt8) :
    ∀ p ∈ f.positionsBy hash key, p < f.bits.length * 8 := by
  intro p listed
  obtain ⟨i, _, rfl⟩ := mem_map.mp listed
  have filled := sized.filled
  rw [← sized.size]
  exact Nat.mod_lt _ (by rw [sized.size]; omega)

theorem Sized.addBy (sized : f.Sized) (key : List UInt8) : (f.addBy hash key).Sized :=
  ⟨by simpa [Bloom.addBy, length_foldl_setBit] using sized.size,
    by simpa [Bloom.addBy, length_foldl_setBit] using sized.filled⟩

theorem Sized.mayContainBy_addBy (sized : f.Sized) (key : List UInt8) :
    (f.addBy hash key).mayContainBy hash key = true := by
  have some_bits : f.m ≠ 0 := by
    have filled := sized.filled
    rw [sized.size]
    omega
  have all : ∀ p ∈ f.positionsBy hash key, testBit ((f.positionsBy hash key).foldl setBit f.bits) p = true :=
    fun p listed => testBit_foldl_mem listed (sized.positionsBy_lt key)
  simpa [mayContainBy, Bloom.addBy, some_bits, positionsBy] using all

theorem mayContainBy_addBy_of {key other : List UInt8} (held : f.mayContainBy hash other = true) :
    (f.addBy hash key).mayContainBy hash other = true := by
  unfold mayContainBy at held ⊢
  split_ifs at held with empty
  rw [if_neg (by simpa [Bloom.addBy] using empty)]
  rw [all_eq_true] at held ⊢
  intro p listed
  exact testBit_foldl (held p listed)

end AnyHash

/-- A filter that can be stored: its sizes and number of hashes fit. -/
structure Storable (f : Bloom) : Prop where
  size : f.m = f.bits.length * 8
  low : 1 ≤ f.k
  high : f.k ≤ 30

theorem Storable.load (storable : f.Storable) : load f.bytes = some f := by
  obtain ⟨bits, m, k⟩ := f
  obtain ⟨size, low, high⟩ := storable
  simp only at size low high
  have number : (UInt8.ofNat k).toNat = k := by
    rw [UInt8.toNat_ofNat']
    omega
  have range : ¬ (UInt8.ofNat k < 1 ∨ 30 < UInt8.ofNat k) := by
    simp only [UInt8.lt_iff_toNat_lt, number]
    simp
    omega
  rw [Bloom.bytes, Bloom.load, if_neg range, number]
  simp [size, map_map, Function.comp_def]

theorem numHashes_range (bitsPerKey : Nat) : 1 ≤ numHashes bitsPerKey ∧ numHashes bitsPerKey ≤ 30 := by
  unfold numHashes
  omega

theorem Storable.addBy {hash : List UInt8 → BitVec 64} (storable : f.Storable) (key : List UInt8) :
    (f.addBy hash key).Storable := by
  refine ⟨?_, storable.low, storable.high⟩
  simp only [Bloom.addBy, length_foldl_setBit]
  exact storable.size

theorem storable_new (expectedKeys bitsPerKey : Int) : (new expectedKeys bitsPerKey).Storable :=
  ⟨(sized_new expectedKeys bitsPerKey).size, (numHashes_range _).1, (numHashes_range _).2⟩

/--
The filter has no false negatives through storage, for any size, hash function and keys.

No bit position on the way lies outside the bits.
-/
theorem no_false_negatives (hash : List UInt8 → BitVec 64) (expectedKeys bitsPerKey : Int)
    (keys : List (List UInt8)) :
    ∃ f, load (keys.foldl (addBy hash) (new expectedKeys bitsPerKey)).bytes = some f ∧
      (∀ key ∈ keys, f.mayContainBy hash key = true) ∧
      (∀ key, ∀ p ∈ f.positionsBy hash key, p < f.bits.length * 8) ∧
      ∀ n key, ∀ p ∈ ((keys.take n).foldl (addBy hash) (new expectedKeys bitsPerKey)).positionsBy hash key,
        p < ((keys.take n).foldl (addBy hash) (new expectedKeys bitsPerKey)).bits.length * 8 := by
  -- Each key that is added keeps the sizes and everything reported before.
  have all : ∀ (keys : List (List UInt8)) (f : Bloom), f.Sized → f.Storable →
      (keys.foldl (addBy hash) f).Sized ∧ (keys.foldl (addBy hash) f).Storable ∧
      ∀ key, key ∈ keys ∨ f.mayContainBy hash key = true →
        (keys.foldl (addBy hash) f).mayContainBy hash key = true := by
    intro keys
    induction keys with
    | nil =>
      intro f sized storable
      exact ⟨sized, storable, fun key held => held.resolve_left not_mem_nil⟩
    | cons first keys ih =>
      intro f sized storable
      obtain ⟨sized', storable', reports⟩ := ih (f.addBy hash first) (sized.addBy first) (storable.addBy first)
      refine ⟨sized', storable', fun key held => reports key ?_⟩
      rcases held with listed | before
      · rcases mem_cons.mp listed with rfl | later
        · exact .inr (sized.mayContainBy_addBy key)
        · exact .inl later
      · exact .inr (mayContainBy_addBy_of before)
  have start := sized_new expectedKeys bitsPerKey
  have stored := storable_new expectedKeys bitsPerKey
  obtain ⟨sized, storable, reports⟩ := all keys _ start stored
  refine ⟨_, storable.load, fun key listed => reports key (.inl listed), fun key => sized.positionsBy_lt key, ?_⟩
  intro n key
  exact (all (keys.take n) _ start stored).1.positionsBy_lt key

end Bloom

end Store
