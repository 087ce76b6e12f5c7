import LittleDb.Store.MvccKey
import Mathlib.Data.List.Induction
import Mathlib.Data.List.Nodup
import Mathlib.Logic.Function.Basic

/-! The session file: it gives back the whole table, and nothing at all if any of its last bytes are missing. -/

namespace Store

open Function List Option Bytes

/-- The last sequence number of each session that has one. -/
abbrev SessionMap := Key → Option UInt64

def SessionMap.put (out : SessionMap) (e : Key × UInt64) : SessionMap := update out e.1 (some e.2)

def SessionMap.of (entries : List (Key × UInt64)) : SessionMap := entries.foldl SessionMap.put fun _ => none

/-- A session table; the size of a map is an `int`. -/
structure SessionTable where
  entries : List (Key × UInt64)
  distinct : (entries.map Prod.fst).Nodup
  counted : entries.length < 2 ^ 63

/-- What is written for a session: its key's size, the key and the number. -/
def sessionRecord (e : Key × UInt64) : List UInt8 :=
  Bytes.ofNat 4 e.1.length ++ (e.1 ++ Bytes.ofNat 8 e.2.toNat)

/-- A table written in an order: the number of sessions and their records. -/
def writeSessionsFile (order : List (Key × UInt64)) : List UInt8 :=
  Bytes.ofNat 8 order.length ++ order.flatMap sessionRecord

/-- Some bytes at an offset, or nothing where the access panics. -/
def sliceAt (buf : List UInt8) (off size : Nat) : Option (List UInt8) :=
  if off + size ≤ buf.length then some ((buf.drop off).take size) else none

/-- The loop of the reader over the records; nothing where an access panics. -/
def readSessions (buf : List UInt8) : Nat → Nat → SessionMap → Option SessionMap
  | 0, _, out => some out
  | n + 1, off, out =>
    if buf.length < off + 4 then some (.of [])
    else do
      let klen ← (sliceAt buf off 4).map Bytes.toNat
      if buf.length < off + 4 + klen + 8 then some (.of [])
      else do
        let key ← sliceAt buf (off + 4) klen
        let seq ← (sliceAt buf (off + 4 + klen) 8).map Bytes.toNat
        readSessions buf n (off + 4 + klen + 8) (SessionMap.put out (key, UInt64.ofNat seq))

/-- Reads a file back; a missing or too short one is an empty table. -/
def readSessionsFile : Option (List UInt8) → Option SessionMap
  | none => some (.of [])
  | some buf =>
    if buf.length < 8 then some (.of [])
    else do
      let n ← (sliceAt buf 0 8).map Bytes.toNat
      readSessions buf n 8 (.of [])

theorem SessionMap.of_snoc (entries : List (Key × UInt64)) (e : Key × UInt64) :
    SessionMap.of (entries ++ [e]) = (SessionMap.of entries).put e := by
  rw [SessionMap.of, foldl_append]
  rfl

theorem SessionMap.of_eq_some {entries : List (Key × UInt64)} (distinct : (entries.map Prod.fst).Nodup) {k : Key}
    {seq : UInt64} : SessionMap.of entries k = some seq ↔ (k, seq) ∈ entries := by
  induction entries using List.reverseRecOn with
  | nil => simp [SessionMap.of]
  | append_singleton entries e ih =>
    rw [map_append, nodup_append] at distinct
    obtain ⟨distinct, -, apart⟩ := distinct
    obtain ⟨k', seq'⟩ := e
    have fresh : (k', seq) ∉ entries := fun listed =>
      apart k' (mem_map_of_mem listed) k' (by simp) rfl
    rw [SessionMap.of_snoc, SessionMap.put, mem_append, mem_singleton, Prod.mk.injEq]
    by_cases own : k = k'
    · subst own
      simp [fresh, eq_comm]
    · rw [update_of_ne own, ih distinct]
      simp [own]

theorem SessionMap.of_perm {order entries : List (Key × UInt64)} (iterates : order.Perm entries)
    (distinct : (entries.map Prod.fst).Nodup) : SessionMap.of order = .of entries := by
  have distinct' := ((iterates.map Prod.fst).nodup_iff).mpr distinct
  refine funext fun k => Option.ext fun seq => ?_
  rw [of_eq_some distinct', of_eq_some distinct, iterates.mem_iff]

theorem length_sessionRecord (e : Key × UInt64) : (sessionRecord e).length = 4 + e.1.length + 8 := by
  simp [sessionRecord, add_assoc]

theorem sliceAt_append (front mid rest : List UInt8) {off size : Nat} (starts : off = front.length)
    (ends : size = mid.length) : sliceAt (front ++ (mid ++ rest)) off size = some mid := by
  subst starts ends
  simp [sliceAt]

variable {front : List UInt8} {out : SessionMap} {n : Nat}

theorem readSessions_record {e : Key × UInt64} (short : e.1.length < 2 ^ 32) (rest : List UInt8) :
    readSessions (front ++ (sessionRecord e ++ rest)) (n + 1) front.length out =
      readSessions (front ++ (sessionRecord e ++ rest)) n (front ++ sessionRecord e).length
        (SessionMap.put out e) := by
  obtain ⟨key, seq⟩ := e
  generalize whole : front ++ (sessionRecord (key, seq) ++ rest) = buf
  have size : buf.length = front.length + (4 + key.length + 8) + rest.length := by
    rw [← whole, length_append, length_append, length_sessionRecord]
    exact (add_assoc ..).symm
  have sized : sliceAt buf front.length 4 = some (Bytes.ofNat 4 key.length) := by
    rw [← whole, sessionRecord, append_assoc]
    exact sliceAt_append front _ _ rfl (by simp)
  have named : sliceAt buf (front.length + 4) key.length = some key := by
    rw [← whole, sessionRecord, append_assoc, append_assoc, ← append_assoc front]
    exact sliceAt_append _ key _ (by simp) rfl
  have numbered : sliceAt buf (front.length + 4 + key.length) 8 = some (Bytes.ofNat 8 seq.toNat) := by
    rw [← whole, sessionRecord, append_assoc, append_assoc, ← append_assoc front, ← append_assoc (front ++ _)]
    exact sliceAt_append _ _ rest (by simp [add_assoc]) (by simp)
  have count : Bytes.toNat (Bytes.ofNat 4 key.length) = key.length := toNat_ofNat short
  have value : Bytes.toNat (Bytes.ofNat 8 seq.toNat) = seq.toNat := toNat_ofNat seq.toNat_lt
  rw [readSessions, if_neg (by omega), sized]
  simp only [map_some, bind_eq_bind, bind_some, count]
  rw [if_neg (by omega), named, numbered]
  simp only [map_some, bind_some, value, UInt64.ofNat_toNat, length_append, length_sessionRecord]
  congr 1
  omega

theorem readSessions_all {es : List (Key × UInt64)} (short : ∀ e ∈ es, e.1.length < 2 ^ 32) :
    readSessions (front ++ es.flatMap sessionRecord) es.length front.length out =
      some (es.foldl SessionMap.put out) := by
  induction es generalizing front out with
  | nil => rfl
  | cons e es ih =>
    rw [length_cons, flatMap_cons, readSessions_record (short e (by simp)), ← append_assoc]
    exact ih fun e' listed => short e' (by simp [listed])

theorem readSessions_torn {e : Key × UInt64} {part : List UInt8} (short : e.1.length < 2 ^ 32)
    (torn : part <+: sessionRecord e) (fewer : part.length < (sessionRecord e).length) :
    readSessions (front ++ part) (n + 1) front.length out = some (.of []) := by
  rw [length_sessionRecord] at fewer
  rw [readSessions]
  split_ifs with missing
  · rfl
  · -- The size of the key is all there, so the second check finds the end missing.
    rw [length_append] at missing
    have sized : sliceAt (front ++ part) front.length 4 = some (Bytes.ofNat 4 e.1.length) := by
      obtain ⟨rest, whole⟩ := torn
      have start : part.take 4 = Bytes.ofNat 4 e.1.length := by
        rw [← take_append_of_le_length (by omega), whole, sessionRecord,
          take_append_of_le_length (by simp), take_of_length_le (by simp)]
      rw [sliceAt, if_pos (by rw [length_append]; omega), drop_left, start]
    have count : Bytes.toNat (Bytes.ofNat 4 e.1.length) = e.1.length := toNat_ofNat short
    simp only [sized, map_some, bind_eq_bind, bind_some, count]
    rw [if_pos (by rw [length_append]; omega)]

theorem readSessions_cut {es : List (Key × UInt64)} (short : ∀ e ∈ es, e.1.length < 2 ^ 32) {part : List UInt8}
    (torn : part <+: es.flatMap sessionRecord) (proper : part ≠ es.flatMap sessionRecord) :
    readSessions (front ++ part) es.length front.length out = some (.of []) := by
  induction es generalizing front out part with
  | nil => exact absurd (List.prefix_nil.mp torn) proper
  | cons e es ih =>
    rw [flatMap_cons] at torn proper
    rcases lt_or_ge part.length (sessionRecord e).length with inside | beyond
    · refine readSessions_torn (short e (by simp)) ?_ inside
      exact List.prefix_of_prefix_length_le torn (List.prefix_append ..) (by omega)
    · -- The first record is whole, and what is missing is missing from the others.
      obtain ⟨part, rfl⟩ : sessionRecord e <+: part :=
        List.prefix_of_prefix_length_le (List.prefix_append ..) torn beyond
      rw [length_cons, readSessions_record (short e (by simp)), ← append_assoc]
      refine ih (fun e' listed => short e' (by simp [listed])) ((List.prefix_append_right_inj _).mp torn) ?_
      rintro rfl
      exact proper rfl

/-- Behind a whole header the loop runs over the records. -/
theorem readSessionsFile_header (few : n < 2 ^ 63) (rest : List UInt8) :
    readSessionsFile (some (Bytes.ofNat 8 n ++ rest)) =
      readSessions (Bytes.ofNat 8 n ++ rest) n (Bytes.ofNat 8 n).length (.of []) := by
  have header : (Bytes.ofNat 8 n).length = 8 := length_ofNat ..
  have number : sliceAt (Bytes.ofNat 8 n ++ rest) 0 8 = some (Bytes.ofNat 8 n) :=
    sliceAt_append [] _ rest rfl header.symm
  rw [readSessionsFile, if_neg (by rw [length_append]; omega), number]
  have value : Bytes.toNat (Bytes.ofNat 8 n) = n := toNat_ofNat (few.trans (by decide))
  simp only [map_some, bind_eq_bind, bind_some, value, header]

/-- The bytes of a session file: a table in some order, with names that fit. -/
structure SessionTable.FiledAs (table : SessionTable) (file : List UInt8) : Prop where
  short : ∀ e ∈ table.entries, e.1.length < 2 ^ 32
  written : ∃ order, order.Perm table.entries ∧ file = writeSessionsFile order

/-- A session file is read back. -/
theorem SessionTable.FiledAs.read {table : SessionTable} {file : List UInt8} (filed : table.FiledAs file) :
    readSessionsFile (some file) = some (.of table.entries) := by
  obtain ⟨short, order, iterates, rfl⟩ := filed
  have few : order.length < 2 ^ 63 := by
    rw [iterates.length_eq]
    exact table.counted
  rw [writeSessionsFile, readSessionsFile_header few,
    readSessions_all fun e listed => short e (iterates.mem_iff.mp listed),
    ← SessionMap.of_perm iterates table.distinct]
  rfl

/-- The session file is read whole or not at all, and within range. -/
theorem session_file_all_or_nothing (table : SessionTable) {order : List (Key × UInt64)}
    (iterates : order.Perm table.entries) (short : ∀ e ∈ table.entries, e.1.length < 2 ^ 32) :
    readSessionsFile (some (writeSessionsFile order)) = some (.of table.entries) ∧
      ∀ part, part <+: writeSessionsFile order → part ≠ writeSessionsFile order →
        readSessionsFile (some part) = some (.of []) := by
  refine ⟨SessionTable.FiledAs.read ⟨short, order, iterates, rfl⟩, fun part torn proper => ?_⟩
  rw [writeSessionsFile] at torn proper
  rcases lt_or_ge part.length 8 with inside | beyond
  · rw [readSessionsFile, if_pos inside]
  · -- The header is whole, so what is missing is missing from the records.
    obtain ⟨part, rfl⟩ : Bytes.ofNat 8 order.length <+: part :=
      List.prefix_of_prefix_length_le (List.prefix_append ..) torn (by simpa using beyond)
    rw [readSessionsFile_header (by rw [iterates.length_eq]; exact table.counted)]
    refine readSessions_cut (fun e listed => short e (iterates.mem_iff.mp listed))
      ((List.prefix_append_right_inj _).mp torn) ?_
    rintro rfl
    exact proper rfl

def twoSessions : SessionTable where
  entries := [([115], 7), ([], 300)]
  distinct := by decide
  counted := by decide

/-- Written in the other order it is read back; cut short it is empty. -/
theorem session_file_all_or_nothing_two :
    readSessionsFile (some (writeSessionsFile [([], 300), ([115], 7)])) = some (.of twoSessions.entries) ∧
      readSessionsFile (some ((writeSessionsFile [([], 300), ([115], 7)]).dropLast)) = some (.of []) := by
  have read := session_file_all_or_nothing twoSessions (List.Perm.swap ([115], 7) ([], 300) []) (by decide)
  exact ⟨read.1, read.2 _ (List.dropLast_prefix _) (by decide)⟩

end Store
