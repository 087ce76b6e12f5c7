import LittleDb.Store.Layers
import LittleDb.Store.Open

/-! The log as a list of batches: what replaying it gives, and what is left of it after a cut. -/

namespace Store

open Versioned List Framing Set

/-- What a commit or an applied entry logs: data records and a marker. -/
structure Batch where
  data : List Record
  marker : Record
  deriving DecidableEq

namespace Batch

def records (b : Batch) : List Record := b.data ++ [b.marker]

structure Valid (b : Batch) : Prop where
  marked : b.marker.op = .commit
  data : ∀ r ∈ b.data, r.op ≠ .commit
  stamped : ∀ r ∈ b.data, r.timestamp = b.marker.timestamp
  fits : ∀ r ∈ b.records, r.Fits

end Batch

def batchRecords (bs : List Batch) : List Record := bs.flatMap Batch.records

def batchData (bs : List Batch) : List Record := bs.flatMap Batch.data

def Batch.encode (b : Batch) : List UInt8 := Framing.log Store.encode b.records

def extent (bs : List Batch) : Nat := (Framing.log Batch.encode bs).length

/-- The batches that stand wholly in the first bytes of a log. -/
def survivors (cut : Nat) (bs : List Batch) : List Batch := Framing.wholeIn Batch.encode cut bs

def recordVersions (rs : List Record) : Set (Version Key Value) := { v | ∃ r ∈ rs, v = r.version }

/-- Data records without a marker that fit the record format. -/
def Loose (rs : List Record) : Prop := ∀ r ∈ rs, r.op ≠ .commit ∧ r.Fits

@[simp] theorem recordVersions_nil : recordVersions [] = ∅ := by
  ext v
  simp [recordVersions]

@[simp] theorem recordVersions_cons (r : Record) (rs : List Record) :
    recordVersions (r :: rs) = {r.version} ∪ recordVersions rs := by
  ext v
  simp [recordVersions]

@[simp] theorem recordVersions_append (rs rs' : List Record) :
    recordVersions (rs ++ rs') = recordVersions rs ∪ recordVersions rs' := by
  ext v
  simp [recordVersions, or_and_right, exists_or]

@[simp] theorem batchRecords_nil : batchRecords [] = [] := rfl

@[simp] theorem batchRecords_cons (b : Batch) (bs : List Batch) :
    batchRecords (b :: bs) = b.data ++ b.marker :: batchRecords bs := by
  simp [batchRecords, Batch.records]

@[simp] theorem batchRecords_append (bs bs' : List Batch) :
    batchRecords (bs ++ bs') = batchRecords bs ++ batchRecords bs' := flatMap_append

@[simp] theorem batchData_nil : batchData [] = [] := rfl

@[simp] theorem batchData_cons (b : Batch) (bs : List Batch) :
    batchData (b :: bs) = b.data ++ batchData bs := rfl

@[simp] theorem batchData_append (bs bs' : List Batch) :
    batchData (bs ++ bs') = batchData bs ++ batchData bs' := flatMap_append

@[simp] theorem extent_nil : extent [] = 0 := rfl

@[simp] theorem extent_cons (b : Batch) (bs : List Batch) : extent (b :: bs) = b.encode.length + extent bs := by
  simp [extent]

@[simp] theorem extent_append (bs bs' : List Batch) : extent (bs ++ bs') = extent bs + extent bs' := by
  simp [extent]

theorem log_batches (bs : List Batch) : Framing.log Batch.encode bs = Framing.log encode (batchRecords bs) := by
  induction bs with
  | nil => rfl
  | cons b bs ih => simp [ih, Batch.encode, Batch.records]

theorem length_log_batches (bs : List Batch) : (Framing.log encode (batchRecords bs)).length = extent bs := by
  rw [extent, log_batches]

variable {m : Memtable} {rs rest : List Record} {b : Batch} {s : Replay} {bs : List Batch} {marker : Record}

theorem Memtable.Open.applyAll (ready : m.Open) (data : ∀ r ∈ rs, r.op ≠ .commit)
    (fits : ∀ r ∈ rs, r.timestamp < 2 ^ 64) : ∃ m', rs.foldlM Memtable.apply m = some m' ∧ m'.Open := by
  induction rs generalizing m with
  | nil => exact ⟨m, rfl, ready⟩
  | cons r rs ih =>
    obtain ⟨m₁, applied, ready₁, _⟩ := ready.apply (fits r (by simp)) (data r (by simp))
    obtain ⟨m', rest, ready'⟩ := ih ready₁ (fun r' listed => data r' (by simp [listed]))
      (fun r' listed => fits r' (by simp [listed]))
    refine ⟨m', ?_, ready'⟩
    rw [foldlM_cons, applied]
    exact rest

theorem Memtable.Open.versions_applyAll {m' : Memtable} (ready : m.Open) (data : ∀ r ∈ rs, r.op ≠ .commit)
    (fits : ∀ r ∈ rs, r.timestamp < 2 ^ 64) (functional : Functional (recordVersions rs ∪ m.versions))
    (applied : rs.foldlM Memtable.apply m = some m') : m'.versions = recordVersions rs ∪ m.versions := by
  induction rs generalizing m with
  | nil =>
    obtain rfl : m = m' := Option.some.inj applied
    simp
  | cons r rs ih =>
    obtain ⟨m₁, applied₁, ready₁, members⟩ := ready.apply (fits r (by simp)) (data r (by simp))
    rw [foldlM_cons, applied₁] at applied
    -- A version that is replaced is replaced by itself.
    have grown : m₁.versions = {r.version} ∪ m.versions := by
      ext v
      rw [members v, mem_union, mem_singleton_iff]
      constructor
      · exact Or.imp_right And.left
      · rintro (rfl | old)
        · exact .inl rfl
        · by_cases same : v.key = r.key ∧ v.ts = r.timestamp
          · exact .inl (functional v (.inr old) r.version (.inl (by simp)) same.1 same.2)
          · exact .inr ⟨old, same⟩
    have whole : recordVersions rs ∪ m₁.versions = recordVersions (r :: rs) ∪ m.versions := by
      rw [grown, recordVersions_cons, ← union_assoc, union_comm (recordVersions rs)]
    rw [← whole] at functional ⊢
    exact ih ready₁ (fun r' listed => data r' (by simp [listed]))
      (fun r' listed => fits r' (by simp [listed])) functional applied

def latest (bound : Nat) (rs : List Record) : Nat := (rs.map Record.timestamp).foldl max bound

theorem foldl_max_le_iff {ns : List Nat} {bound n : Nat} : ns.foldl max bound ≤ n ↔ bound ≤ n ∧ ∀ m ∈ ns, m ≤ n := by
  induction ns generalizing bound with
  | nil => simp
  | cons m ns ih => rw [foldl_cons, ih, Nat.max_le, forall_mem_cons, and_assoc]

theorem replay_data (s : Replay) (data : ∀ r ∈ rs, r.op ≠ .commit) : rs.foldlM Replay.step s =
      .ok { s with maxTS := latest s.maxTS rs, buffer := s.buffer ++ rs } := by
  induction rs generalizing s with
  | nil => simp [latest]; rfl
  | cons r rs ih =>
    have kind := data r (by simp)
    have step : s.step r =
        .ok { s with maxTS := max s.maxTS r.timestamp, buffer := s.buffer ++ [r] } := by
      simp [Replay.step, kind]
    rw [foldlM_cons, step]
    exact (ih _ fun r' listed => data r' (by simp [listed])).trans (by simp [latest])

theorem replay_batch (valid : b.Valid)
    (fresh : s.buffer = []) (applied : b.data.foldlM Memtable.apply s.memtable = some m) :
    b.records.foldlM Replay.step s =
      .ok ⟨latest s.maxTS b.records, [], s.opCommits + 1, noteSession s.sessions b.marker, m⟩ := by
  have agree : b.data.find? (fun br => br.timestamp ≠ b.marker.timestamp) = none := by
    rw [find?_eq_none]
    intro r listed
    simpa using valid.stamped r listed
  rw [Batch.records, foldlM_append, replay_data s valid.data]
  change [b.marker].foldlM Replay.step _ = _
  simp only [foldlM_cons, foldlM_nil, Replay.step, valid.marked, fresh, nil_append,
    ne_eq, not_true_eq_false, if_false, agree, applied]
  simp [latest, pure, Except.pure, bind, Except.bind]

theorem replay_batches (valid : ∀ b ∈ bs, b.Valid) (loose : ∀ r ∈ rest, r.op ≠ .commit) (fresh : s.buffer = [])
    (ready : s.memtable.Open) :
    ∃ m, (batchData bs).foldlM Memtable.apply s.memtable = some m ∧ m.Open ∧
      (batchRecords bs ++ rest).foldlM Replay.step s =
        .ok ⟨latest s.maxTS (batchRecords bs ++ rest), rest, s.opCommits + bs.length,
          (bs.map Batch.marker).foldl noteSession s.sessions, m⟩ := by
  induction bs generalizing s with
  | nil =>
    refine ⟨s.memtable, rfl, ready, ?_⟩
    rw [batchRecords_nil, nil_append, replay_data s loose, fresh]
    rfl
  | cons b bs ih =>
    have first := valid b (by simp)
    obtain ⟨m₁, applied, ready₁⟩ := ready.applyAll first.data
      fun r listed => (first.fits r (by simp [Batch.records, listed])).timestamp
    obtain ⟨m, rest', ready', replayed⟩ :=
      ih (s := ⟨latest s.maxTS b.records, [], s.opCommits + 1, noteSession s.sessions b.marker, m₁⟩)
        (fun b' listed => valid b' (by simp [listed])) rfl ready₁
    refine ⟨m, ?_, ready', ?_⟩
    · rw [batchData_cons, foldlM_append, applied]
      exact rest'
    · have split : batchRecords (b :: bs) ++ rest = b.records ++ (batchRecords bs ++ rest) := by
        simp [Batch.records]
      rw [split, foldlM_append, replay_batch first fresh applied]
      refine replayed.trans ?_
      simp only [latest, map_append, foldl_append, map_cons, foldl_cons, length_cons, add_assoc, add_comm 1]

/-- Before a cut stand the surviving batches, and data records behind them. -/
theorem wholeIn_batches (cut : Nat) (bs : List Batch) (rest : List Record) :
    ∃ rest', Framing.wholeIn encode cut (batchRecords bs ++ rest) = batchRecords (survivors cut bs) ++ rest' ∧
      ((extent bs ≤ cut ∧ survivors cut bs = bs ∧ rest' <+: rest) ∨
        (cut < extent bs ∧ ∃ b, survivors cut bs ++ [b] <+: bs ∧ rest' <+: b.data)) := by
  induction bs generalizing cut with
  | nil =>
    exact ⟨Framing.wholeIn encode cut rest, rfl, .inl ⟨by simp, rfl, wholeIn_front ..⟩⟩
  | cons b bs ih =>
    have split : batchRecords (b :: bs) ++ rest = b.records ++ (batchRecords bs ++ rest) := by
      simp [Batch.records]
    rw [split, wholeIn_append, survivors, Framing.wholeIn]
    change ∃ rest', (if b.encode.length ≤ cut then _ else _) = _ ∧ _
    split_ifs with fits
    · obtain ⟨rest', whole, shape⟩ := ih (cut - b.encode.length)
      refine ⟨rest', ?_, ?_⟩
      · change b.records ++ Framing.wholeIn encode (cut - b.encode.length) _ = _
        rw [whole]
        simp [Batch.records, survivors]
      · rcases shape with ⟨long, all, front⟩ | ⟨short, lost, within, front⟩
        · exact .inl ⟨by rw [extent_cons]; omega, by rw [← survivors, all], front⟩
        · refine .inr ⟨by rw [extent_cons]; omega, lost, ?_, front⟩
          exact List.cons_prefix_cons.mpr ⟨rfl, within⟩
    · -- The cut falls into the first batch, whose marker is its last record.
      refine ⟨Framing.wholeIn encode cut b.records, by simp, .inr ⟨?_, b, by simp, ?_⟩⟩
      · rw [extent_cons]
        omega
      · rw [Batch.records, wholeIn_append]
        split_ifs with data
        · have long : ¬ (encode b.marker).length ≤ cut - (Framing.log encode b.data).length := by
            simp only [Batch.encode, Batch.records, log_append, length_append, log_cons, log_nil, length_nil] at fits
            omega
          have none : Framing.wholeIn encode (cut - (Framing.log encode b.data).length) [b.marker] = [] := by
            rw [Framing.wholeIn, if_neg long]
          simp [none]
        · exact wholeIn_front ..

theorem recover_take (fits : ∀ r ∈ rs, r.Fits) (cut : Nat) : recover ((Framing.log encode rs).take cut) =
      .ok (Framing.wholeIn encode cut rs, Framing.log encode (Framing.wholeIn encode cut rs)) := by
  obtain ⟨stop, shape, walked, front, clean⟩ :=
    lawful.walk_take fits cut (Nat.lt_succ_self ((Framing.log encode rs).take cut).length)
  rcases shape with rfl | rfl
  · rw [recover, walked]
    simp only [clean rfl]
  · rw [recover, walked]
    simp only [front]

theorem recover_log (fits : ∀ r ∈ rs, r.Fits) : recover (Framing.log encode rs) = .ok (rs, Framing.log encode rs) := by
  rw [recover, lawful.walk_log fits (Nat.lt_succ_self _)]

/-- The highest timestamp in the tables that a directory scan finds. -/
def tablesReached (dir : Dir) : Nat :=
  ((discoverSSTables dir).map fun e => e.2.maxTimestamp).foldl max 0

/-- The highest applied index in the tables that a directory scan finds. -/
def tablesApplied (dir : Dir) : Nat :=
  ((discoverSSTables dir).map fun e => e.2.appliedIndex).foldl max 0

/-- The database that opening gives, from the batches and records in its log. -/
def Db.reopened (dir : Dir) (opts : Options) (bs : List Batch) (rest : List Record) (m : Memtable) : Db where
  opts := opts.normalize
  dir := { dir with wal := Framing.log encode (batchRecords bs ++ rest) }
  memtable := m
  frozen := none
  retired := []
  sstables := (discoverSSTables dir).reverse
  nextID := ((discoverSSTables dir).getLast?.map fun e => e.1 + 1).getD 1
  nextTimestamp := succ64 (latest (tablesReached dir) (batchRecords bs ++ rest))
  appliedIndex := max (tablesApplied dir) ((dir.appliedBase + bs.length) % 2 ^ 64)
  recoveredApplied := max (tablesApplied dir) ((dir.appliedBase + bs.length) % 2 ^ 64)
  appliedTS := latest (tablesReached dir) (batchRecords bs ++ rest)
  sessions := (bs.map Batch.marker).foldl noteSession dir.sessions
  closed := false

theorem openWith_batches {dir : Dir} (opts : Options) (read : recover dir.wal =
      .ok (batchRecords bs ++ rest, Framing.log encode (batchRecords bs ++ rest)))
    (valid : ∀ b ∈ bs, b.Valid) (loose : ∀ r ∈ rest, r.op ≠ .commit) :
    ∃ m, (batchData bs).foldlM Memtable.apply Memtable.new = some m ∧ m.Open ∧
      openWith dir opts = .ok (.reopened dir opts bs rest m) := by
  obtain ⟨m, applied, ready, replayed⟩ :=
    replay_batches (s := ⟨tablesReached dir, [], 0, dir.sessions, Memtable.new⟩) valid loose rfl Memtable.open_new
  refine ⟨m, applied, ready, ?_⟩
  simp only [tablesReached] at replayed
  simp only [openWith, read, replayed, zero_add]
  rfl

theorem parseEntry_valid {entry : List UInt8} {data : List Record}
    (parsed : parseEntry entry = .ok (data, marker)) : Batch.Valid ⟨data, marker⟩ := by
  have fits := walk_all decode_fits (entry.length + 1) entry
  unfold parseEntry at parsed
  generalize walked : Framing.walk decode (entry.length + 1) entry = result at parsed fits
  obtain ⟨records, offset, stop⟩ := result
  cases stop with
  | some e => cases parsed
  | none =>
    cases last : records.getLast? with
    | none => simp [last] at parsed
    | some m =>
      simp only [last] at parsed
      split_ifs at parsed with kind
      cases bad : records.dropLast.find? fun r => r.timestamp ≠ m.timestamp ∨ r.op = .commit with
      | some r =>
        simp only [bad] at parsed
        split_ifs at parsed
      | none =>
        simp only [bad] at parsed
        obtain ⟨rfl, rfl⟩ := Prod.mk.inj (Except.ok.inj parsed)
        -- No record before the marker is of another timestamp or a marker itself.
        have good : ∀ r ∈ records.dropLast, r.timestamp = m.timestamp ∧ r.op ≠ .commit := by
          intro r listed
          have refused := find?_eq_none.mp bad r listed
          simp only [decide_eq_true_eq, not_or, not_not] at refused
          exact refused
        have whole : records.dropLast ++ [m] = records := dropLast_append_getLast? m last
        refine ⟨not_not.mp kind, fun r listed => (good r listed).2,
          fun r listed => (good r listed).1, fun r listed => fits r ?_⟩
        rwa [Batch.records, whole] at listed

theorem parseEntry_encode (valid : b.Valid) : parseEntry b.encode = .ok (b.data, b.marker) := by
  have good : b.data.find? (fun r => r.timestamp ≠ b.marker.timestamp ∨ r.op = .commit) = none := by
    refine find?_eq_none.mpr fun r listed => ?_
    simp only [decide_eq_true_eq, not_or, not_not]
    exact ⟨valid.stamped r listed, valid.data r listed⟩
  have last : b.records.getLast? = some b.marker := by simp [Batch.records]
  have front : b.records.dropLast = b.data := by simp [Batch.records]
  rw [parseEntry, Batch.encode, lawful.walk_log valid.fits (Nat.lt_succ_self _)]
  simp only [last, front, good, valid.marked, ne_eq, not_true_eq_false, if_false]

theorem dataRecords_valid {writes : Writes} (marked : marker.op = .commit)
    (fits : marker.Fits) (data : ∀ e ∈ writes, e.2.1 ≠ .commit)
    (small : ∀ e ∈ writes, headerSize + e.1.length < 2 ^ 32 ∧ e.2.2.length < 2 ^ 32) :
    Batch.Valid ⟨dataRecords writes marker.timestamp, marker⟩ := by
  have each : ∀ r ∈ dataRecords writes marker.timestamp,
      ∃ e ∈ writes, r = ⟨e.2.1, marker.timestamp, e.1, e.2.2⟩ := by
    intro r listed
    obtain ⟨e, found, rfl⟩ := mem_map.mp listed
    exact ⟨e, found, rfl⟩
  refine ⟨marked, fun r listed => ?_, fun r listed => ?_, fun r listed => ?_⟩
  · obtain ⟨e, found, rfl⟩ := each r listed
    exact data e found
  · obtain ⟨e, found, rfl⟩ := each r listed
    rfl
  · rcases mem_append.mp listed with record | last
    · obtain ⟨e, found, rfl⟩ := each r record
      exact ⟨fits.timestamp, (small e found).1, (small e found).2⟩
    · rw [mem_singleton.mp last]
      exact fits

end Store
