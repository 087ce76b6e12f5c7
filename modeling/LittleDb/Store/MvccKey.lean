import LittleDb.Lib.SortedMap
import LittleDb.Lib.Versioned
import LittleDb.Store.Record

/-! Encoded keys: a user key and a complemented timestamp, and reads of one sorted layer of versions. -/

namespace Store

open List Bytes SortedMap

variable {k : Key} {t : Nat}

abbrev Key := List UInt8

abbrev Value := List UInt8

/-- The width of the timestamp at the end of an encoded key. -/
def timestampSize : Nat := 8

def maxUint64 : Nat := 2 ^ 64 - 1

/-- The user key and the timestamp's complement: newer versions sort first. -/
def encodeKey (userKey : Key) (ts : Nat) : List UInt8 :=
  userKey ++ Bytes.ofNatBE timestampSize (maxUint64 - ts % 2 ^ 64)

/-- Splits an encoded key into user key and timestamp, if it is long enough. -/
def decodeKey (enc : List UInt8) : Option (Key × Nat) :=
  if enc.length < timestampSize then none
  else
    let cut := enc.length - timestampSize
    some (enc.take cut, maxUint64 - Bytes.toNatBE (enc.drop cut))

@[simp] theorem length_encodeKey (k : Key) (t : Nat) : (encodeKey k t).length = k.length + timestampSize := by
  simp [encodeKey]

theorem complement_lt (t : Nat) : maxUint64 - t % 2 ^ 64 < 256 ^ timestampSize := by
  simp only [maxUint64, timestampSize]
  omega

theorem decodeKey_encodeKey (fits : t < 2 ^ 64) : decodeKey (encodeKey k t) = some (k, t) := by
  have cut : (encodeKey k t).length - timestampSize = k.length := by simp
  have back : maxUint64 - (maxUint64 - t % 2 ^ 64) = t := by
    simp only [maxUint64]
    omega
  rw [decodeKey, if_neg (by simp), cut]
  simp only [encodeKey, take_left, drop_left, toNatBE_ofNatBE (complement_lt t), back]

theorem encodeKey_inj {k' : Key} {t' : Nat} (fits : t < 2 ^ 64) (fits' : t' < 2 ^ 64)
    (same : encodeKey k t = encodeKey k' t') : k = k' ∧ t = t' := by
  have decoded := decodeKey_encodeKey (k := k) fits
  rw [same, decodeKey_encodeKey fits'] at decoded
  simpa [eq_comm] using decoded

theorem encodeKey_lt_iff {s : Nat} (sFits : s < 2 ^ 64) (tFits : t < 2 ^ 64) :
    encodeKey k s < encodeKey k t ↔ t < s := by
  rw [encodeKey, encodeKey, append_lt_append_iff rfl, ofNatBE_lt_iff (complement_lt s) (complement_lt t)]
  simp only [lt_irrefl, false_or, true_and, maxUint64]
  omega

/-- No key of a set is a proper initial part of another. -/
def Free (K : Set Key) : Prop := ∀ k ∈ K, ∀ k' ∈ K, k <+: k' → k = k'

theorem key_of_between {K : Set Key} {k' : Key} {s t' : Nat} (free : Free K) (here : k ∈ K) (there : k' ∈ K)
    (low : ¬ encodeKey k' t' < encodeKey k s) (high : ¬ encodeKey k t < encodeKey k' t') : k' = k := by
  have front : k <+: encodeKey k' t' := front_of_between low high
  have own : k' <+: encodeKey k' t' := List.prefix_append k' _
  -- Of two initial parts of one byte string, the shorter one begins the longer one.
  rcases le_total k.length k'.length with short | long
  · exact (free k here k' there (List.prefix_of_prefix_length_le front own short)).symm
  · exact free k' there k here (List.prefix_of_prefix_length_le own front long)

/-- A sorted run of versions: encoded keys with the operation and the value. -/
abbrev Layer := List (List UInt8 × (Op × Value))

/-- The payload an operation and a value stand for. -/
def payload : Op → Value → Option Value
  | .put, value => some value
  | _, _ => none

namespace Layer

/-- The version visible at a snapshot: seek, then compare the user key. -/
def getAsOf (l : Layer) (userKey : Key) (snapshot : Nat) : Option (Op × Value) :=
  match SortedMap.seek (encodeKey userKey snapshot) l with
  | [] => none
  | (enc, op, value) :: _ =>
    match decodeKey enc with
    | none => none
    | some (k, _) =>
      if k = userKey then
        if op = .delete then some (.delete, []) else some (.put, value)
      else none

/-- The timestamp of the newest version of a key: seek its smallest encoding. -/
def newestVersionTS (l : Layer) (userKey : Key) : Option Nat :=
  match SortedMap.seek (encodeKey userKey maxUint64) l with
  | [] => none
  | (enc, _, _) :: _ =>
    match decodeKey enc with
    | none => none
    | some (k, ts) => if k = userKey then some ts else none

def versions (l : Layer) : Set (Version Key Value) :=
  { v | v.ts < 2 ^ 64 ∧ ∃ op value, (encodeKey v.key v.ts, op, value) ∈ l ∧
    v.payload = payload op value }

/-- A layer as the write path builds it: sorted, encoded, puts and deletes. -/
structure Valid (l : Layer) : Prop where
  sorted : SortedMap.Sorted l
  encoded : ∀ e ∈ l, ∃ k t, t < 2 ^ 64 ∧ e.1 = encodeKey k t
  data : ∀ e ∈ l, e.2.1 ≠ .commit

/-- The user keys of a layer lie in a set. -/
def Within (l : Layer) (K : Set Key) : Prop := ∀ v ∈ l.versions, v.key ∈ K

theorem valid_nil : Valid [] := ⟨.nil, by simp, by simp⟩

variable {l : Layer} {s : Nat} {v : Version Key Value} {K : Set Key}

theorem Valid.version (valid : l.Valid) {e : List UInt8 × (Op × Value)} (within : e ∈ l) :
    ∃ v ∈ l.versions, e.1 = encodeKey v.key v.ts ∧ v.payload = payload e.2.1 e.2.2 := by
  obtain ⟨k, t, fits, enc⟩ := valid.encoded e within
  refine ⟨⟨k, t, payload e.2.1 e.2.2⟩, ⟨fits, e.2.1, e.2.2, ?_, rfl⟩, enc, rfl⟩
  rwa [← enc]

theorem Valid.functional (valid : l.Valid) : Versioned.Functional l.versions := by
  rintro v ⟨_, op, value, within, same⟩ w ⟨_, op', value', within', same'⟩ key ts
  have one : (op, value) = (op', value') := by
    have first := (get_eq_some valid.sorted).mpr within
    rw [key, ts, (get_eq_some valid.sorted).mpr within'] at first
    exact (Option.some.inj first).symm
  cases one
  exact Version.ext key ts (same.trans same'.symm)

/-- What a point read of a layer returns, as an operation and a value. -/
def answer (v : Version Key Value) : Op × Value :=
  match v.payload with
  | some value => (.put, value)
  | none => (.delete, [])

theorem Valid.seek_clear (valid : l.Valid) (fits : s < 2 ^ 64) (visible : Versioned.Visible l.versions k s v)
    (clear : ∀ u ∈ l.versions, encodeKey k s ≤ encodeKey u.key u.ts →
      encodeKey u.key u.ts < encodeKey k v.ts → u.key = k) :
    ∃ op value tail, SortedMap.seek (encodeKey k s) l = (encodeKey k v.ts, op, value) :: tail ∧
      op ≠ .commit ∧ v.payload = payload op value := by
  obtain ⟨vFits, op, value, here, load⟩ := visible.stored
  obtain rfl := visible.key
  have first : (SortedMap.seek (encodeKey v.key s) l).head? =
      some (encodeKey v.key v.ts, op, value) := by
    refine (head_seek valid.sorted).mpr ⟨here, not_lt.mp ?_, fun e inside above => ?_⟩
    · rw [encodeKey_lt_iff vFits fits]
      exact not_lt.mpr visible.below
    · -- A smaller entry would be a newer version of the same key.
      obtain ⟨w, stored, enc, _⟩ := valid.version inside
      by_contra low
      have between : w.key = v.key := clear w stored (enc ▸ above) (enc ▸ not_le.mp low)
      rw [enc, between] at above low
      have seen : w.ts ≤ s := by
        have order := not_lt.mpr above
        rw [encodeKey_lt_iff stored.1 fits] at order
        exact not_lt.mp order
      have newer := not_le.mp low
      rw [encodeKey_lt_iff stored.1 vFits] at newer
      exact absurd (visible.newest w stored between seen) (not_le.mpr newer)
  obtain ⟨tail, shape⟩ := head?_eq_some_iff.mp first
  exact ⟨op, value, tail, shape, valid.data _ here, load⟩

theorem clear_of_free (within : l.Within K) (free : Free K) (visible : Versioned.Visible l.versions k s v) :
    ∀ u ∈ l.versions, encodeKey k s ≤ encodeKey u.key u.ts →
      encodeKey u.key u.ts < encodeKey k v.ts → u.key = k := fun u stored low high =>
  key_of_between free (visible.key ▸ within v visible.stored) (within u stored) (not_lt.mpr low) (not_lt.mpr high.le)

variable (valid : l.Valid)

include valid

theorem Valid.seek_visible (within : l.Within K) (free : Free K) (fits : s < 2 ^ 64)
    (visible : Versioned.Visible l.versions k s v) :
    ∃ op value tail, SortedMap.seek (encodeKey k s) l = (encodeKey k v.ts, op, value) :: tail ∧
      op ≠ .commit ∧ v.payload = payload op value := by
  exact valid.seek_clear fits visible (clear_of_free within free visible)

theorem getAsOf_clear (fits : s < 2 ^ 64) (visible : Versioned.Visible l.versions k s v)
    (clear : ∀ u ∈ l.versions, encodeKey k s ≤ encodeKey u.key u.ts →
      encodeKey u.key u.ts < encodeKey k v.ts → u.key = k) : l.getAsOf k s = some (answer v) := by
  obtain ⟨op, value, tail, shape, kind, load⟩ := valid.seek_clear fits visible clear
  simp only [getAsOf, shape, decodeKey_encodeKey visible.stored.1, if_true, answer, load]
  cases op with
  | put => simp [payload]
  | delete => simp [payload]
  | commit => exact absurd rfl kind

theorem getAsOf_screened {u : Version Key Value} (visible : Versioned.Visible l.versions k s v)
    (stored : u ∈ l.versions) (low : encodeKey k s ≤ encodeKey u.key u.ts)
    (high : encodeKey u.key u.ts < encodeKey k v.ts) (fits : s < 2 ^ 64) : l.getAsOf k s = none := by
  cases first : (SortedMap.seek (encodeKey k s) l).head? with
  | none =>
    unfold getAsOf
    rw [head?_eq_none_iff.mp first]
  | some e =>
    obtain ⟨inside, above, least⟩ := (head_seek valid.sorted).mp first
    obtain ⟨w, held, enc, _⟩ := valid.version inside
    obtain ⟨uFits, op, value, uInside, _⟩ := stored
    -- What is found stands no later than the other key, so it is no version of this one.
    have before := least _ uInside low
    have foreign : w.key ≠ k := by
      intro same
      rw [enc, same] at above before
      have seen : w.ts ≤ s := by
        have order := not_lt.mpr above
        rw [encodeKey_lt_iff held.1 fits] at order
        exact not_lt.mp order
      have newer := lt_of_le_of_lt before high
      rw [encodeKey_lt_iff held.1 visible.stored.1] at newer
      exact absurd (visible.newest w held same seen) (not_le.mpr newer)
    obtain ⟨tail, shape⟩ := head?_eq_some_iff.mp first
    obtain ⟨enc', op', value'⟩ := e
    obtain rfl : enc' = encodeKey w.key w.ts := enc
    simp [getAsOf, shape, decodeKey_encodeKey held.1, foreign]

theorem getAsOf_visible (within : l.Within K) (free : Free K) (fits : s < 2 ^ 64)
    (visible : Versioned.Visible l.versions k s v) : l.getAsOf k s = some (answer v) := by
  exact getAsOf_clear valid fits visible (clear_of_free within free visible)

theorem getAsOf_none (fits : s < 2 ^ 64)
    (missing : ∀ w ∈ l.versions, w.key = k → s < w.ts) : l.getAsOf k s = none := by
  unfold getAsOf
  cases shape : SortedMap.seek (encodeKey k s) l with
  | nil => rfl
  | cons e tail =>
    have first : (SortedMap.seek (encodeKey k s) l).head? = some e := by simp [shape]
    obtain ⟨inside, above, _⟩ := (head_seek valid.sorted).mp first
    obtain ⟨w, stored, enc, _⟩ := valid.version inside
    obtain ⟨enc', op, value⟩ := e
    obtain rfl : enc' = encodeKey w.key w.ts := enc
    simp only [decodeKey_encodeKey stored.1]
    -- A version of the key found here would lie at or below the snapshot.
    have other : w.key ≠ k := by
      intro same
      have high := missing w stored same
      rw [same] at above
      have order := not_lt.mpr above
      rw [encodeKey_lt_iff stored.1 fits] at order
      exact order high
    simp [other]

theorem newestVersionTS_eq (within : l.Within K) (free : Free K)
    (newest : Versioned.Visible l.versions k maxUint64 v) : l.newestVersionTS k = some v.ts := by
  have fits : maxUint64 < 2 ^ 64 := by simp [maxUint64]
  obtain ⟨op, value, tail, shape, _, _⟩ := valid.seek_visible within free fits newest
  simp [newestVersionTS, shape, decodeKey_encodeKey newest.stored.1]

theorem newestVersionTS_mem (found : l.newestVersionTS k = some t) : ∃ w ∈ l.versions, w.key = k ∧ w.ts = t := by
  unfold newestVersionTS at found
  cases shape : SortedMap.seek (encodeKey k maxUint64) l with
  | nil => simp [shape] at found
  | cons e tail =>
    have first : (SortedMap.seek (encodeKey k maxUint64) l).head? = some e := by simp [shape]
    obtain ⟨inside, _, _⟩ := (head_seek valid.sorted).mp first
    obtain ⟨w, stored, enc, _⟩ := valid.version inside
    obtain ⟨enc', op, value⟩ := e
    obtain rfl : enc' = encodeKey w.key w.ts := enc
    simp only [shape, decodeKey_encodeKey stored.1] at found
    split_ifs at found with same
    exact ⟨w, stored, same, by simpa using found⟩

theorem newestVersionTS_above (within : l.Within K) (free : Free K) :
    (∃ t, l.newestVersionTS k = some t ∧ s < t) ↔ ∃ w ∈ l.versions, w.key = k ∧ s < w.ts := by
  constructor
  · rintro ⟨t, found, above⟩
    obtain ⟨w, stored, key, rfl⟩ := newestVersionTS_mem valid found
    exact ⟨w, stored, key, above⟩
  · rintro ⟨w, stored, key, above⟩
    have top : w.ts ≤ maxUint64 := by
      have bound := stored.1
      simp only [maxUint64]
      omega
    obtain ⟨v, newest⟩ := Versioned.exists_visible stored key top
    exact ⟨v.ts, newestVersionTS_eq valid within free newest, lt_of_lt_of_le above (newest.newest w stored key top)⟩

end Layer

end Store
