import LittleDb.Store.SessionTable

/-! Applying one entry of the replicated log to a store: the batch it leaves there and what it changes. -/

namespace Store

open Db

variable {t : Txn}

namespace Db

variable {db done : Db} {dirs : List Dir}

theorem flushLocked_keeps (ran : db.flushLocked = .ok (done, dirs)) :
    done.sessions = db.sessions ∧ done.nextTimestamp = db.nextTimestamp ∧
      done.appliedTS = db.appliedTS ∧ done.appliedIndex = db.appliedIndex ∧ done.closed = db.closed := by
  unfold flushLocked at ran
  split_ifs at ran
  · cases ran
    exact ⟨rfl, rfl, rfl, rfl, rfl⟩
  · dsimp only at ran
    split at ran
    · cases ran
    · cases ran
      exact ⟨rfl, rfl, rfl, rfl, rfl⟩

theorem flushIfFull_keeps (ran : db.flushIfFull = .ok (done, dirs)) :
    done.sessions = db.sessions ∧ done.nextTimestamp = db.nextTimestamp ∧
      done.appliedTS = db.appliedTS ∧ done.appliedIndex = db.appliedIndex ∧ done.closed = db.closed := by
  unfold flushIfFull at ran
  split_ifs at ran
  · exact flushLocked_keeps ran
  · cases ran
    exact ⟨rfl, rfl, rfl, rfl, rfl⟩

theorem tryCompactOnce_open {w : Nat} (ran : db.tryCompactOnce w = .ok (some (done, dirs))) : db.closed = false := by
  cases shut : db.closed with
  | false => rfl
  | true => simp [tryCompactOnce, pickCompaction, shut] at ran

theorem tryCompactOnce_keeps {w : Nat} (ran : db.tryCompactOnce w = .ok (some (done, dirs))) :
    done.sessions = db.sessions ∧ done.nextTimestamp = db.nextTimestamp ∧
      done.appliedTS = db.appliedTS ∧ done.appliedIndex = db.appliedIndex ∧ done.closed = db.closed := by
  obtain ⟨job, merged, compacts⟩ := tryCompactOnce_cases (tryCompactOnce_open ran) ran
  rw [compacts.done]
  exact ⟨rfl, rfl, rfl, rfl, rfl⟩

/-- Where the clock stands behind a marker: past its timestamp. -/
def clockPast (db : Db) (marker : Record) : Nat :=
  if db.nextTimestamp ≤ marker.timestamp then succ64 marker.timestamp else db.nextTimestamp

theorem clockPast_lt {marker : Record} (range : db.nextTimestamp < 2 ^ 64) : db.clockPast marker < 2 ^ 64 := by
  unfold clockPast
  split_ifs
  · exact Nat.mod_lt _ (by decide)
  · exact range

/-- A prepared commit has no conflict, and takes the next timestamp. -/
structure Prepared (db : Db) (t : Txn) (db' : Db) (entry : List UInt8) (ts : Nat) : Prop where
  stamp : ts = db.nextTimestamp
  moved : db' = { db with nextTimestamp := succ64 ts }
  entry : entry = Batch.encode ⟨dataRecords t.writes ts, sessionMarker t ts⟩
  writes : t.writes ≠ []
  fresh : t.session = [] ∨ db.sessions t.session < t.seq
  clear : db.conflicts t = false

theorem prepareCommit_cases {db' : Db} {prepared : Option (List UInt8 × Nat)}
    (ran : db.prepareCommit t = .ok (db', prepared)) :
    (db' = db ∧ prepared = none ∧ (t.writes = [] ∨ (t.session ≠ [] ∧ t.seq ≤ db.sessions t.session))) ∨
    ∃ entry ts, prepared = some (entry, ts) ∧ Prepared db t db' entry ts := by
  unfold prepareCommit at ran
  dsimp only at ran
  split_ifs at ran with ended shut empty known conflict
  · cases ran
    exact .inl ⟨rfl, rfl, .inl (List.isEmpty_iff.mp empty)⟩
  · cases ran
    exact .inl ⟨rfl, rfl, .inr known⟩
  · cases ran
    refine .inr ⟨_, _, rfl, rfl, rfl, rfl, fun none => empty (by simp [none]), ?_, by simpa using conflict⟩
    rcases not_and_or.mp known with bare | newer
    · exact .inl (not_not.mp bare)
    · exact .inr (not_le.mp newer)

theorem sessionMarker_fits {ts : Nat} (small : headerSize + t.session.length < 2 ^ 32)
    (range : ts < 2 ^ 64) : (sessionMarker t ts).Fits := by
  unfold sessionMarker
  split_ifs
  · exact commitMarker_fits range
  · exact ⟨range, small, by simp [encodeSeq]⟩

theorem Prepared.parsed {db' : Db} {entry : List UInt8} {ts : Nat} (prepared : Prepared db t db' entry ts)
    (range : db.nextTimestamp < 2 ^ 64) (small : headerSize + t.session.length < 2 ^ 32)
    (fits : ∀ e ∈ t.writes, e.2.1 ≠ .commit ∧ headerSize + e.1.length < 2 ^ 32 ∧ e.2.2.length < 2 ^ 32) :
    parseEntry entry = .ok (dataRecords t.writes ts, sessionMarker t ts) := by
  have stamp : (sessionMarker t ts).timestamp = ts := by
    unfold sessionMarker
    split_ifs <;> rfl
  have marked : (sessionMarker t ts).op = .commit := by
    unfold sessionMarker
    split_ifs <;> rfl
  have valid := dataRecords_valid marked (sessionMarker_fits small (prepared.stamp ▸ range))
    (fun e found => (fits e found).1) (fun e found => (fits e found).2)
  rw [stamp] at valid
  rw [prepared.entry]
  exact parseEntry_encode valid

end Db

@[simp] theorem decodeSeq_encodeSeq {seq : Nat} (range : seq < 2 ^ 64) : decodeSeq (encodeSeq seq) = seq := by
  have size : (encodeSeq seq).length = 8 := by simp [encodeSeq]
  rw [decodeSeq, if_neg (by omega), List.take_of_length_le (by omega), encodeSeq]
  exact Bytes.toNat_ofNat (by simpa using range)

namespace Entry

variable {db done : Db} {e : Entry} {idx : Nat} {b : Batch} {session : Key}

/-- Applies an entry at its index, as the apply loop of a node does. -/
def apply (e : Entry) (db : Db) (idx : Nat) : Except ApplyError Db :=
  match e with
  | .control => (db.applyControlEntry idx).map Prod.fst
  | .data bytes => (db.applyEntry idx bytes).map Prod.fst

/-- The batch logged for an entry: without data if its number is known. -/
def batchOn (e : Entry) (db : Db) : Option Batch :=
  match e with
  | .control => some ⟨[], commitMarker db.nextTimestamp⟩
  | .data bytes =>
    match parseEntry bytes with
    | .error _ => none
    | .ok (records, marker) => some (db.batchOf records marker)

def modifies (e : Entry) (db : Db) : Bool := (e.batchOn db).any fun b => !b.data.isEmpty

theorem gives_batchOn (logs : e.batchOn db = some b) : e.Gives b := by
  cases e with
  | control =>
    cases logs
    exact ⟨rfl, rfl⟩
  | data bytes =>
    unfold batchOn at logs
    cases parsed : parseEntry bytes with
    | error why => simp [parsed] at logs
    | ok result =>
      obtain ⟨data, marker⟩ := result
      simp only [parsed, Option.some.injEq] at logs
      subst logs
      unfold Db.batchOf
      split_ifs
      · exact ⟨data, parsed, by simp⟩
      · exact ⟨data, parsed, fun r listed => listed⟩

section

variable (ran : e.apply db idx = .ok done)
include ran

theorem apply_cases : ∃ b db' dirs, e.batchOn db = some b ∧ Db.Logged db db' b ∧
    db'.appliedIndex = max db.appliedIndex idx ∧ db'.nextTimestamp = db.clockPast b.marker ∧
    db'.appliedTS = max db.appliedTS b.marker.timestamp ∧ db'.flushIfFull = .ok (done, dirs) := by
  cases e with
  | control =>
    cases applied : db.applyControlEntry idx with
    | error why => simp [apply, applied, Except.map] at ran
    | ok result =>
      obtain ⟨done', dirs⟩ := result
      simp only [apply, applied, Except.map, Except.ok.injEq] at ran
      subst ran
      obtain ⟨db', flush, logged, index, next, reached, flushed, -⟩ :=
        applyControlEntry_cases applied
      refine ⟨_, db', flush, rfl, logged, index, ?_, reached, flushed⟩
      rw [next, Db.clockPast, if_pos (by exact le_refl _)]
      rfl
  | data bytes =>
    cases applied : db.applyEntry idx bytes with
    | error why => simp [apply, applied, Except.map] at ran
    | ok result =>
      obtain ⟨done', dirs⟩ := result
      simp only [apply, applied, Except.map, Except.ok.injEq] at ran
      subst ran
      cases parsed : parseEntry bytes with
      | error why =>
        unfold Db.applyEntry at applied
        split_ifs at applied
        simp [parsed] at applied
      | ok parts =>
        obtain ⟨data, marker⟩ := parts
        -- A duplicate keeps its marker.
        have same : (db.batchOf data marker).marker = marker := by
          unfold Db.batchOf
          split_ifs <;> rfl
        obtain ⟨db', flush, logged, index, next, reached, flushed, -⟩ :=
          applyEntry_cases parsed applied
        refine ⟨_, db', flush, by simp [batchOn, parsed], logged, index, ?_, ?_, flushed⟩
        · rw [next, Db.clockPast, same]
        · rw [reached, same]

theorem apply_sessions (named : session ≠ []) :
    done.sessions session = max (db.sessions session) (e.seqOf session) := by
  obtain ⟨b, db', dirs, logs, logged, -, -, -, flushed⟩ := apply_cases ran
  rw [(flushIfFull_keeps flushed).1, logged.sessions, noteSession_apply _ _ named, (gives_batchOn logs).seqOf named]

theorem apply_clock (range : db.nextTimestamp < 2 ^ 64) : done.nextTimestamp < 2 ^ 64 := by
  obtain ⟨b, db', dirs, -, -, -, next, -, flushed⟩ := apply_cases ran
  rw [(flushIfFull_keeps flushed).2.1, next]
  exact clockPast_lt range

end

theorem modifies_iff {bytes : List UInt8} {data : List Record} {marker : Record}
    (parsed : parseEntry bytes = .ok (data, marker)) (filled : data ≠ []) (named : marker.key ≠ []) :
    (Entry.data bytes).modifies db = true ↔ db.sessions marker.key < decodeSeq marker.value := by
  have unfolded : (Entry.data bytes).modifies db = !(db.batchOf data marker).data.isEmpty := by
    simp [modifies, batchOn, parsed]
  rw [unfolded, Db.batchOf]
  by_cases known : decodeSeq marker.value ≤ db.sessions marker.key
  · rw [if_pos (by simpa [Db.duplicate] using ⟨named, known⟩)]
    simpa using known
  · rw [if_neg (by simpa [Db.duplicate] using fun _ => not_le.mp known)]
    simpa [filled] using known

end Entry

end Store
