import Mathlib.Data.List.Basic

/-! Logs of self-delimiting records: walking a file record by record, and files cut at any byte. -/

namespace Framing

open List

variable {ρ ε β : Type} {encode : ρ → List β} {r : ρ} {rs : List ρ} {fuel : Nat}

def log (encode : ρ → List β) (rs : List ρ) : List β := rs.flatMap encode

@[simp] theorem log_nil (encode : ρ → List β) : log encode [] = [] := rfl

@[simp] theorem log_cons (encode : ρ → List β) (r : ρ) (rs : List ρ) :
    log encode (r :: rs) = encode r ++ log encode rs := rfl

@[simp] theorem log_append (encode : ρ → List β) (rs rs' : List ρ) :
    log encode (rs ++ rs') = log encode rs ++ log encode rs' := flatMap_append

theorem length_le_log (filled : ∀ r, encode r ≠ []) (rs : List ρ) : rs.length ≤ (log encode rs).length := by
  induction rs with
  | nil => exact Nat.zero_le _
  | cons r rs ih =>
    have one := length_pos_iff.mpr (filled r)
    rw [log_cons, length_append, length_cons]
    omega

/--
Decodes records from the front of a file for as long as that works.

It gives the records, the number of bytes they fill, and the error that stopped the walk, if any.
-/
def walk (decode : List β → Except ε (ρ × Nat)) : Nat → List β → List ρ × Nat × Option ε
  | 0, _ => ([], 0, none)
  | fuel + 1, file =>
    if file.isEmpty then ([], 0, none)
    else
      match decode file with
      | .error e => ([], 0, some e)
      | .ok (r, n) =>
        let (rs, size, stop) := walk decode fuel (file.drop n)
        (r :: rs, n + size, stop)

theorem walk_all {decode : List β → Except ε (ρ × Nat)} {P : ρ → Prop}
    (decoded : ∀ file r n, decode file = .ok (r, n) → P r) (fuel : Nat) (file : List β) :
    ∀ r ∈ (walk decode fuel file).1, P r := by
  induction fuel generalizing file with
  | zero => simp [walk]
  | succ fuel ih =>
    rw [walk]
    split_ifs
    · simp
    · cases read : decode file with
      | error e => simp
      | ok rn =>
        obtain ⟨r, n⟩ := rn
        intro r' listed
        rcases mem_cons.mp listed with rfl | later
        · exact decoded file _ n read
        · exact ih _ r' later

/-- What is left of a torn record: some of its bytes, but not all. -/
def Torn (encode : ρ → List β) (r : ρ) (bytes : List β) : Prop :=
  bytes ≠ [] ∧ bytes ≠ encode r ∧ bytes <+: encode r

theorem Torn.cut {bytes : List β} (torn : Torn encode r bytes) :
    bytes = (encode r).take bytes.length ∧ bytes.length < (encode r).length := by
  obtain ⟨-, short, front⟩ := torn
  have cut : bytes = (encode r).take bytes.length := List.prefix_iff_eq_take.mp front
  refine ⟨cut, Nat.lt_of_le_of_ne front.length_le fun same => short ?_⟩
  rw [cut, same, take_length]

theorem torn_take {n : Nat} (short : n < (encode r).length) :
    (encode r).take n = [] ∨ Torn encode r ((encode r).take n) := by
  by_cases start : n = 0
  · exact .inl (by simp [start])
  · refine .inr ⟨?_, ?_, List.take_prefix n _⟩
    · intro empty
      have size := congrArg List.length empty
      simp only [length_take, length_nil] at size
      omega
    · intro same
      have size := congrArg List.length same
      simp only [length_take] at size
      omega

def starts (encode : ρ → List β) : Nat → List ρ → List Nat
  | _, [] => []
  | offset, r :: rs => offset :: starts encode (offset + (encode r).length) rs

section

variable (encode)

include encode

@[simp] theorem starts_nil (offset : Nat) : starts encode offset [] = [] := rfl

@[simp] theorem starts_cons (offset : Nat) (r : ρ) (rs : List ρ) :
    starts encode offset (r :: rs) = offset :: starts encode (offset + (encode r).length) rs := rfl

@[simp] theorem length_starts (offset : Nat) (rs : List ρ) : (starts encode offset rs).length = rs.length := by
  induction rs generalizing offset with
  | nil => rfl
  | cons r rs ih => simp [ih]

theorem starts_append (offset : Nat) (rs rs' : List ρ) : starts encode offset (rs ++ rs') =
      starts encode offset rs ++ starts encode (offset + (log encode rs).length) rs' := by
  induction rs generalizing offset with
  | nil => simp
  | cons r rs ih => simp [ih, Nat.add_assoc]

theorem take_starts (offset n : Nat) (rs : List ρ) :
    (starts encode offset rs).take n = starts encode offset (rs.take n) := by
  induction rs generalizing offset n with
  | nil => simp
  | cons r rs ih =>
    cases n with
    | zero => simp
    | succ n => simp [ih]

theorem getElem?_starts (offset : Nat) {n : Nat} (inside : n < rs.length) :
    (starts encode offset rs)[n]? = some (offset + (log encode (rs.take n)).length) := by
  induction rs generalizing offset n with
  | nil => simp at inside
  | cons r rs ih =>
    cases n with
    | zero => simp
    | succ n =>
      have rest := ih (offset + (encode r).length) (by simpa using inside : n < rs.length)
      simp [rest, Nat.add_assoc]

end

/-- A format: whole records are read back, and torn ones are recognized. -/
structure Lawful (encode : ρ → List β) (decode : List β → Except ε (ρ × Nat)) (Fits : ρ → Prop)
    (eof : ε) : Prop where
  filled : ∀ r, encode r ≠ []
  whole : ∀ r rest, Fits r → decode (encode r ++ rest) = .ok (r, (encode r).length)
  torn : ∀ r bytes, Fits r → Torn encode r bytes → decode bytes = .error eof

variable {decode : List β → Except ε (ρ × Nat)} {Fits : ρ → Prop} {eof : ε}

section

variable (laws : Lawful encode decode Fits eof)
include laws

theorem Lawful.walk_append (fit : ∀ r ∈ rs, Fits r) (tail : List β) (enough : (log encode rs ++ tail).length < fuel) :
    ∃ fuel', tail.length < fuel' ∧ walk decode fuel (log encode rs ++ tail) =
      (rs ++ (walk decode fuel' tail).1, (log encode rs).length + (walk decode fuel' tail).2.1,
        (walk decode fuel' tail).2.2) := by
  induction rs generalizing fuel with
  | nil => exact ⟨fuel, by simpa using enough, by simp⟩
  | cons r rs ih =>
    cases fuel with
    | zero => omega
    | succ fuel =>
      have size : 0 < (encode r).length := length_pos_iff.mpr (laws.filled r)
      simp only [log_cons, append_assoc, length_append] at enough
      obtain ⟨fuel', left, rest⟩ := ih (fun r' within => fit r' (mem_cons_of_mem _ within))
        (by simp only [length_append]; omega : (log encode rs ++ tail).length < fuel)
      refine ⟨fuel', left, ?_⟩
      -- The first record is decoded, and the walk goes on behind it.
      have filled : (log encode (r :: rs) ++ tail).isEmpty = false := by
        simp [laws.filled r]
      rw [walk, filled]
      simp only [log_cons, append_assoc, laws.whole r _ (fit r (by simp)), drop_left,
        rest, cons_append, length_append, Bool.false_eq_true, if_false, Nat.add_assoc]

theorem Lawful.walk_log (fit : ∀ r ∈ rs, Fits r) (enough : (log encode rs).length < fuel) :
    walk decode fuel (log encode rs) = (rs, (log encode rs).length, none) := by
  obtain ⟨fuel', left, walked⟩ := laws.walk_append fit [] (by simpa using enough)
  cases fuel' with
  | zero => omega
  | succ fuel' => simpa [walk] using walked

theorem Lawful.walk_torn (fit : ∀ r ∈ rs, Fits r) {tail : List β}
    (fits : Fits r) (torn : Torn encode r tail) (enough : (log encode rs ++ tail).length < fuel) :
    walk decode fuel (log encode rs ++ tail) = (rs, (log encode rs).length, some eof) := by
  obtain ⟨fuel', left, walked⟩ := laws.walk_append fit tail enough
  cases fuel' with
  | zero => omega
  | succ fuel' =>
    have filled : tail.isEmpty = false := by simpa using torn.1
    simpa [walk, filled, laws.torn r tail fits torn] using walked

end

/-- The records that stand wholly in the first bytes of a file. -/
def wholeIn (encode : ρ → List β) : Nat → List ρ → List ρ
  | _, [] => []
  | n, r :: rs =>
    if (encode r).length ≤ n then r :: wholeIn encode (n - (encode r).length) rs else []

theorem wholeIn_front (encode : ρ → List β) (n : Nat) (rs : List ρ) : wholeIn encode n rs <+: rs := by
  induction rs generalizing n with
  | nil => exact List.nil_prefix
  | cons r rs ih =>
    rw [wholeIn]
    split_ifs
    · exact List.cons_prefix_cons.mpr ⟨rfl, ih _⟩
    · exact List.nil_prefix

theorem wholeIn_append (encode : ρ → List β) (n : Nat) (rs rs' : List ρ) :
    wholeIn encode n (rs ++ rs') =
      if (log encode rs).length ≤ n then rs ++ wholeIn encode (n - (log encode rs).length) rs'
      else wholeIn encode n rs := by
  induction rs generalizing n with
  | nil => simp
  | cons r rs ih =>
    rw [cons_append, wholeIn, wholeIn, ih]
    simp only [log_cons, length_append]
    split_ifs with fits rest all all
    · rw [Nat.sub_sub, cons_append]
    · omega
    · omega
    · rfl
    · omega
    · rfl

theorem log_take (encode : ρ → List β) (n : Nat) (rs : List ρ) :
    ∃ tail, (log encode rs).take n = log encode (wholeIn encode n rs) ++ tail ∧
      (tail = [] ∨ ∃ r ∈ rs, Torn encode r tail) := by
  induction rs generalizing n with
  | nil => exact ⟨[], by simp [wholeIn], .inl rfl⟩
  | cons r rs ih =>
    rw [wholeIn]
    split_ifs with fits
    · -- The first record is kept, and the cut falls somewhere behind it.
      obtain ⟨tail, cut, shape⟩ := ih (n - (encode r).length)
      refine ⟨tail, ?_, shape.imp id fun ⟨r', listed, torn⟩ => ⟨r', by simp [listed], torn⟩⟩
      rw [log_cons, take_append, take_of_length_le fits, cut, log_cons, append_assoc]
    · -- The cut falls into the first record.
      have cut : (log encode (r :: rs)).take n = (encode r).take n := by
        rw [log_cons, take_append_of_le_length (by omega)]
      refine ⟨(encode r).take n, by simpa using cut, ?_⟩
      exact (torn_take (by omega)).imp_right fun torn => ⟨r, by simp, torn⟩

theorem Lawful.walk_take (laws : Lawful encode decode Fits eof) (fit : ∀ r ∈ rs, Fits r) (n : Nat)
    (enough : ((log encode rs).take n).length < fuel) :
    ∃ stop, (stop = none ∨ stop = some eof) ∧
      walk decode fuel ((log encode rs).take n) =
        (wholeIn encode n rs, (log encode (wholeIn encode n rs)).length, stop) ∧
      ((log encode rs).take n).take (log encode (wholeIn encode n rs)).length = log encode (wholeIn encode n rs) ∧
      (stop = none → (log encode rs).take n = log encode (wholeIn encode n rs)) := by
  obtain ⟨tail, cut, shape⟩ := log_take encode n rs
  have kept : ∀ r ∈ wholeIn encode n rs, Fits r :=
    fun r listed => fit r ((wholeIn_front encode n rs).subset listed)
  have front : ((log encode rs).take n).take (log encode (wholeIn encode n rs)).length =
      log encode (wholeIn encode n rs) := by
    rw [cut, take_left]
  rcases shape with rfl | ⟨r, listed, torn⟩
  · rw [append_nil] at cut
    refine ⟨none, .inl rfl, ?_, front, fun _ => cut⟩
    rw [cut] at enough ⊢
    exact laws.walk_log kept enough
  · refine ⟨some eof, .inr rfl, ?_, front, by simp⟩
    rw [cut] at enough ⊢
    exact laws.walk_torn kept (fit r listed) torn enough

end Framing
