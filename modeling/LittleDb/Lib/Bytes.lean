import Mathlib.Algebra.Ring.Nat
import Mathlib.Data.List.Basic
import Mathlib.Data.List.Lex

/-! Byte strings: little- and big-endian numbers of a fixed width, and the order of byte strings. -/

instance uint8LinearOrder : LinearOrder UInt8 where
  le_refl := UInt8.le_refl
  le_trans := fun _ _ _ => UInt8.le_trans
  le_antisymm := fun _ _ => UInt8.le_antisymm
  le_total := UInt8.le_total
  lt_iff_le_not_ge a b := by
    simp only [UInt8.lt_iff_toNat_lt, UInt8.le_iff_toNat_le]
    omega
  toDecidableLE := inferInstance
  toDecidableEq := inferInstance
  toDecidableLT := inferInstance

namespace Bytes

open List

/-- The low bytes of a number, least significant first. -/
def ofNat : Nat → Nat → List UInt8
  | 0, _ => []
  | width + 1, value => UInt8.ofNat value :: ofNat width (value / 256)

/-- The number a byte string spells, least significant byte first. -/
def toNat : List UInt8 → Nat
  | [] => 0
  | byte :: rest => byte.toNat + 256 * toNat rest

@[simp] theorem length_ofNat (width value : Nat) : (ofNat width value).length = width := by
  induction width generalizing value with
  | zero => rfl
  | succ width ih => simp [ofNat, ih]

theorem toNat_ofNat_mod (width value : Nat) : toNat (ofNat width value) = value % 256 ^ width := by
  induction width generalizing value with
  | zero => simp [ofNat, toNat, Nat.mod_one]
  | succ width ih =>
    -- The low byte and the rest are the two digits of a division by 256.
    rw [ofNat, toNat, ih, UInt8.toNat_ofNat', Nat.pow_succ 256, mul_comm (256 ^ width) 256, Nat.mod_mul]

variable {width value : Nat} {x y a b : List UInt8}

theorem toNat_ofNat (fits : value < 256 ^ width) : toNat (ofNat width value) = value := by
  rw [toNat_ofNat_mod, Nat.mod_eq_of_lt fits]

theorem toNat_lt (bytes : List UInt8) : toNat bytes < 256 ^ bytes.length := by
  induction bytes with
  | nil => simp [toNat]
  | cons byte rest ih =>
    have low := UInt8.toNat_lt byte
    rw [toNat, length_cons, Nat.pow_succ]
    omega

/-- The bytes of a number of a fixed width, most significant first. -/
def ofNatBE (width value : Nat) : List UInt8 := (ofNat width value).reverse

/-- The number a byte string spells, most significant byte first. -/
def toNatBE (bytes : List UInt8) : Nat := toNat bytes.reverse

@[simp] theorem length_ofNatBE (width value : Nat) : (ofNatBE width value).length = width := by
  simp [ofNatBE]

theorem toNatBE_ofNatBE (fits : value < 256 ^ width) : toNatBE (ofNatBE width value) = value := by
  simp [toNatBE, ofNatBE, toNat_ofNat fits]

theorem ofNatBE_succ (width value : Nat) :
    ofNatBE (width + 1) value = ofNatBE width (value / 256) ++ [UInt8.ofNat value] := by
  simp [ofNatBE, ofNat]

theorem append_lt_append_iff {c d : List UInt8} (same : a.length = b.length) :
    a ++ c < b ++ d ↔ a < b ∨ (a = b ∧ c < d) := by
  induction a generalizing b with
  | nil =>
    obtain rfl : b = [] := length_eq_zero_iff.mp (by simpa using same.symm)
    simp
  | cons x a ih =>
    cases b with
    | nil => simp at same
    | cons y b =>
      have rest := ih (by simpa using same)
      -- The first bytes decide, unless they agree.
      simp only [cons_append, cons_lt_cons_iff, rest, List.cons.injEq]
      tauto

theorem ofNatBE_lt_iff {x y : Nat} (xFits : x < 256 ^ width) (yFits : y < 256 ^ width) :
    ofNatBE width x < ofNatBE width y ↔ x < y := by
  induction width generalizing x y with
  | zero => simp [ofNatBE, ofNat] at xFits yFits ⊢; omega
  | succ width ih =>
    rw [Nat.pow_succ] at xFits yFits
    have high := ih (x := x / 256) (y := y / 256) (by omega) (by omega)
    -- The high bytes decide unless they are equal, and then the low byte does.
    have equal : ofNatBE width (x / 256) = ofNatBE width (y / 256) ↔ x / 256 = y / 256 := by
      refine ⟨fun same => ?_, fun same => by rw [same]⟩
      have xBack : toNatBE (ofNatBE width (x / 256)) = x / 256 := toNatBE_ofNatBE (by omega)
      have yBack : toNatBE (ofNatBE width (y / 256)) = y / 256 := toNatBE_ofNatBE (by omega)
      rw [← xBack, same, yBack]
    have low : UInt8.ofNat x < UInt8.ofNat y ↔ x % 256 < y % 256 := by
      simp [UInt8.lt_iff_toNat_lt]
    rw [ofNatBE_succ, ofNatBE_succ, append_lt_append_iff (by simp), high, equal]
    simp only [cons_lt_cons_iff, lt_irrefl, and_false, or_false, low]
    omega

theorem front_of_between {front : List UInt8} (low : ¬ b < front ++ x) (high : ¬ front ++ y < b) : front <+: b := by
  induction front generalizing b with
  | nil => exact List.nil_prefix
  | cons a front ih =>
    cases b with
    | nil => simp at low
    | cons c b =>
      -- The first byte is squeezed, and the rest lies between the rests.
      simp only [cons_append, cons_lt_cons_iff, not_or, not_and] at low high
      obtain rfl : a = c := le_antisymm (not_lt.mp low.1) (not_lt.mp high.1)
      exact List.cons_prefix_cons.mpr ⟨rfl, ih (low.2 rfl) (high.2 rfl)⟩

theorem append_lt_append_of_not_front (left : ¬ a <+: b) (right : ¬ b <+: a) : a ++ x < b ++ y ↔ a < b := by
  induction a generalizing b with
  | nil => exact absurd List.nil_prefix left
  | cons c a ih =>
    cases b with
    | nil => exact absurd List.nil_prefix right
    | cons d b =>
      simp only [cons_append, cons_lt_cons_iff]
      refine or_congr_right (and_congr_right ?_)
      rintro rfl
      refine ih (fun front => left ?_) fun front => right ?_
      · exact List.cons_prefix_cons.mpr ⟨rfl, front⟩
      · exact List.cons_prefix_cons.mpr ⟨rfl, front⟩

theorem not_lt_zeros (wide : width ≤ b.length) : ¬ b < List.replicate width 0 := by
  induction width generalizing b with
  | zero => simp
  | succ width ih =>
    cases b with
    | nil => simp at wide
    | cons c b =>
      rw [replicate_succ, cons_lt_cons_iff]
      rintro (less | ⟨-, rest⟩)
      · exact absurd less (not_lt.mpr UInt8.zero_le)
      · exact ih (by simpa using wide) rest

theorem not_append_lt_zeros (high : ¬ b < a) (wide : width ≤ x.length) : ¬ b ++ x < a ++ List.replicate width 0 := by
  induction a generalizing b with
  | nil => exact not_lt_zeros (by simp; omega)
  | cons c a ih =>
    cases b with
    | nil => exact absurd (nil_lt_cons c a) high
    | cons d b =>
      rw [cons_append, cons_append, cons_lt_cons_iff]
      rw [cons_lt_cons_iff, not_or, not_and] at high
      rintro (less | ⟨rfl, rest⟩)
      · exact high.1 less
      · exact ih (high.2 rfl) rest

/-- What a file holds after bytes were written at a position. -/
def writeAt (file : List UInt8) (pos : Nat) (data : List UInt8) : List UInt8 :=
  file.take pos ++ List.replicate (pos - file.length) 0 ++ data ++ file.drop (pos + data.length)

@[simp] theorem writeAt_length (file data : List UInt8) : writeAt file file.length data = file ++ data := by
  simp [writeAt]

end Bytes
