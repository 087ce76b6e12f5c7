import LittleDb.Lib.Bytes
import Mathlib.Data.Finset.Card

/-! Voting configurations: sets of node ids and their encoding in log entries. -/

namespace Cluster

open List Bytes

/-- Inserts an id into an ascending list unless it is there already. -/
def insertId (id : Nat) : List Nat → List Nat
  | [] => [id]
  | x :: xs =>
    if id < x then id :: x :: xs
    else if id = x then x :: xs
    else x :: insertId id xs

@[simp] theorem mem_insertId (id x : Nat) (xs : List Nat) : x ∈ insertId id xs ↔ x = id ∨ x ∈ xs := by
  induction xs with
  | nil => simp [insertId]
  | cons y ys ih =>
    unfold insertId
    split_ifs with below same
    · simp
    · subst same
      simp
    · simp only [mem_cons, ih]
      tauto

theorem insertId_sorted {xs : List Nat} (sorted : xs.Pairwise (· < ·)) (id : Nat) :
    (insertId id xs).Pairwise (· < ·) := by
  induction xs with
  | nil => simp [insertId]
  | cons y ys ih =>
    obtain ⟨first, rest⟩ := pairwise_cons.mp sorted
    unfold insertId
    split_ifs with below same
    · refine pairwise_cons.mpr ⟨?_, sorted⟩
      intro z member
      rcases mem_cons.mp member with rfl | later
      · exact below
      · exact lt_trans below (first z later)
    · exact sorted
    · refine pairwise_cons.mpr ⟨?_, ih rest⟩
      intro z member
      rcases (mem_insertId id z ys).mp member with rfl | later
      · omega
      · exact first z later

/-- A voting configuration, with the ids in ascending order. -/
structure Members where
  ids : List Nat
  sorted : ids.Pairwise (· < ·)
  deriving DecidableEq

namespace Members

def empty : Members := ⟨[], List.Pairwise.nil⟩

def insert (m : Members) (id : Nat) : Members :=
  ⟨insertId id m.ids, insertId_sorted m.sorted id⟩

def erase (m : Members) (id : Nat) : Members :=
  ⟨m.ids.filter (· ≠ id), m.sorted.filter _⟩

/-- The founding configuration of a cluster of the given size. -/
def fullConfig (n : Nat) : Members :=
  ⟨List.range n, pairwise_lt_range⟩

def toFinset (m : Members) : Finset Nat :=
  ⟨m.ids, m.sorted.imp ne_of_lt⟩

@[simp] theorem card_toFinset (m : Members) : m.toFinset.card = m.ids.length := rfl

@[simp] theorem mem_toFinset (m : Members) (id : Nat) : id ∈ m.toFinset ↔ id ∈ m.ids := Iff.rfl

theorem ext_mem {a b : Members} (same : ∀ id, id ∈ a.ids ↔ id ∈ b.ids) : a = b := by
  obtain ⟨xs, sortedX⟩ := a
  obtain ⟨ys, sortedY⟩ := b
  simp only [mk.injEq]
  exact List.Perm.eq_of_pairwise (fun x y _ _ below above => absurd below (lt_asymm above))
    sortedX sortedY ((perm_ext_iff_of_nodup (sortedX.imp ne_of_lt) (sortedY.imp ne_of_lt)).mpr same)

@[simp] theorem toFinset_insert (m : Members) (id : Nat) : (m.insert id).toFinset = Insert.insert id m.toFinset := by
  ext x
  simp [insert]

@[simp] theorem toFinset_erase (m : Members) (id : Nat) : (m.erase id).toFinset = m.toFinset.erase id := by
  ext x
  simp [erase, and_comm]

end Members

/-- The member count in four bytes, then each id in eight, all little-endian. -/
def encodeConfig (members : Members) : List UInt8 :=
  Bytes.ofNat 4 members.ids.length ++ members.ids.flatMap (Bytes.ofNat 8)

/-- Reads at most the given number of eight-byte ids. -/
def decodeIds : Nat → List UInt8 → Members
  | 0, _ => .empty
  | count + 1, data =>
    if data.length < 8 then .empty
    else (decodeIds count (data.drop 8)).insert (Bytes.toNat (data.take 8))

/-- Reads an encoded configuration; without a count it is empty. -/
def decodeConfig (data : List UInt8) : Members :=
  if data.length < 4 then .empty
  else decodeIds (Bytes.toNat (data.take 4)) (data.drop 4)

/-- The configuration fits its encoding: a 32-bit count and 64-bit ids. -/
def Members.Fits (m : Members) : Prop :=
  m.ids.length < 2 ^ 32 ∧ ∀ id ∈ m.ids, id < 2 ^ 64

instance (m : Members) : Decidable m.Fits :=
  inferInstanceAs (Decidable (_ ∧ _))

theorem mem_decodeIds {ids : List Nat} (fits : ∀ id ∈ ids, id < 2 ^ 64) (id : Nat) :
    id ∈ (decodeIds ids.length (ids.flatMap (Bytes.ofNat 8))).ids ↔ id ∈ ids := by
  induction ids with
  | nil => simp [decodeIds, Members.empty]
  | cons x xs ih =>
    -- The first eight bytes are the first id, and the rest encodes the others.
    have small : x < 256 ^ 8 := by
      have := fits x (by simp)
      omega
    have later := ih fun y member => fits y (by simp [member])
    simp only [length_cons, decodeIds, flatMap_cons, length_append, length_ofNat]
    rw [if_neg (by omega), take_left' (length_ofNat 8 x), drop_left' (length_ofNat 8 x), toNat_ofNat small]
    simp only [Members.insert, mem_insertId, later, mem_cons]

theorem decodeConfig_encodeConfig {members : Members} (fits : members.Fits) :
    decodeConfig (encodeConfig members) = members := by
  have small : members.ids.length < 256 ^ 4 := by
    have := fits.1
    omega
  unfold decodeConfig encodeConfig
  rw [if_neg (by simp), take_left' (length_ofNat 4 _), drop_left' (length_ofNat 4 _), toNat_ofNat small]
  exact Members.ext_mem (mem_decodeIds fits.2)

theorem length_insertId_le (id : Nat) (xs : List Nat) : (insertId id xs).length ≤ xs.length + 1 := by
  induction xs with
  | nil => simp [insertId]
  | cons x xs ih =>
    unfold insertId
    split_ifs
    · simp
    · simp
    · simpa using ih

theorem decodeIds_fits (count : Nat) (data : List UInt8) :
    (decodeIds count data).ids.length ≤ count ∧ ∀ id ∈ (decodeIds count data).ids, id < 2 ^ 64 := by
  induction count generalizing data with
  | zero => simp [decodeIds, Members.empty]
  | succ count ih =>
    rw [decodeIds]
    split_ifs with short
    · simp [Members.empty]
    · obtain ⟨few, small⟩ := ih (data.drop 8)
      refine ⟨(length_insertId_le _ _).trans (Nat.succ_le_succ few), fun id listed => ?_⟩
      rcases (mem_insertId _ _ _).mp listed with rfl | later
      · have bound := toNat_lt (data.take 8)
        rwa [length_take, min_eq_left (by omega)] at bound
      · exact small id later

theorem decodeConfig_fits (data : List UInt8) : (decodeConfig data).Fits := by
  unfold decodeConfig
  split_ifs with short
  · exact ⟨by decide, by simp [Members.empty]⟩
  · obtain ⟨few, small⟩ := decodeIds_fits (Bytes.toNat (data.take 4)) (data.drop 4)
    have bound := toNat_lt (data.take 4)
    rw [length_take, min_eq_left (by omega)] at bound
    exact ⟨few.trans_lt bound, small⟩

end Cluster
