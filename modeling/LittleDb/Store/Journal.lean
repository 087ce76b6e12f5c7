import LittleDb.Store.Life

/-! How the log on disk and the record of what reached it belong together. -/

namespace Store

open List Framing

variable {bs : List Batch}

/-- Some batches, each with the offset at which it ends. -/
def located (start : Nat) : List Batch → List (Batch × Nat)
  | [] => []
  | b :: bs => (b, start + b.encode.length) :: located (start + b.encode.length) bs

section

variable (start : Nat)
include start

@[simp] theorem located_nil : located start [] = [] := rfl

@[simp] theorem located_cons (b : Batch) (bs : List Batch) : located start (b :: bs) =
    (b, start + b.encode.length) :: located (start + b.encode.length) bs := rfl

theorem located_append (bs bs' : List Batch) :
    located start (bs ++ bs') = located start bs ++ located (start + extent bs) bs' := by
  induction bs generalizing start with
  | nil => rfl
  | cons b bs ih => simp [ih, add_assoc]

@[simp] theorem length_located (bs : List Batch) : (located start bs).length = bs.length := by
  induction bs generalizing start with
  | nil => rfl
  | cons b bs ih => simp [ih]

@[simp] theorem map_located (bs : List Batch) : (located start bs).map Prod.fst = bs := by
  induction bs generalizing start with
  | nil => rfl
  | cons b bs ih => simp [ih]

theorem last_located (bs : List Batch) :
    (((located start bs).map Prod.snd).getLast?).getD start = start + extent bs := by
  induction bs using List.reverseRecOn with
  | nil => rfl
  | append_singleton bs b _ => simp [located_append, add_assoc]

end

theorem start_le_located {start : Nat} {e : Batch × Nat} (listed : e ∈ located start bs) : start ≤ e.2 := by
  induction bs generalizing start with
  | nil => simp at listed
  | cons b bs ih =>
    rcases mem_cons.mp listed with rfl | later
    · exact Nat.le_add_right ..
    · exact (Nat.le_add_right ..).trans (ih later)

theorem sorted_located (start : Nat) (bs : List Batch) : ((located start bs).map Prod.snd).Pairwise (· ≤ ·) := by
  induction bs generalizing start with
  | nil => exact .nil
  | cons b bs ih =>
    refine pairwise_cons.mpr ⟨fun stop listed => ?_, ih _⟩
    obtain ⟨e, later, rfl⟩ := mem_map.mp listed
    exact start_le_located later

theorem filter_front {es : List (Batch × Nat)} (n : Nat)
    (grow : (es.map Prod.snd).Pairwise (· ≤ ·)) : es.filter (fun e => e.2 ≤ n) <+: es := by
  induction es with
  | nil => exact List.nil_prefix
  | cons e es ih =>
    obtain ⟨later, grow'⟩ := pairwise_cons.mp grow
    by_cases before : e.2 ≤ n
    · rw [filter_cons_of_pos (by simpa using before)]
      exact List.cons_prefix_cons.mpr ⟨rfl, ih grow'⟩
    · rw [filter_cons_of_neg (by simpa using before), filter_eq_nil_iff.mpr]
      · exact List.nil_prefix
      · intro e' listed
        have behind := later e'.2 (mem_map_of_mem listed)
        simp only [decide_eq_true_eq]
        omega

theorem filter_located (start cut : Nat) (bs : List Batch) :
    (located start bs).filter (fun e => e.2 ≤ start + cut) = located start (survivors cut bs) := by
  induction bs generalizing start cut with
  | nil => rfl
  | cons b bs ih =>
    rw [located_cons, survivors, Framing.wholeIn]
    split_ifs with fits
    · have rest := ih (start + b.encode.length) (cut - b.encode.length)
      have same : start + b.encode.length + (cut - b.encode.length) = start + cut := by omega
      rw [same] at rest
      rw [filter_cons_of_pos (by simpa using fits), rest]
      rfl
    · -- The first batch is cut, and the later ones end behind it.
      rw [filter_cons_of_neg (by simpa using fits), filter_eq_nil_iff.mpr]
      · rfl
      · intro e later
        have behind := start_le_located later
        simp only [decide_eq_true_eq]
        omega

/-- The log holds batches that tables hold too, and then those only it holds. -/
structure Journal {β : Type} (view : Batch → β) (l : Ledger) (dups new : List Batch) : Prop where
  covered : extent dups = l.covered
  logged : l.logged.map (Prod.map view id) = (located l.covered new).map (Prod.map view id)
  stored : dups.map view <:+ l.stored.map view

namespace Journal

variable {β : Type} {view : Batch → β} {l : Ledger} {dups new : List Batch}

theorem empty (view : Batch → β) : Journal view .empty [] [] :=
  ⟨rfl, rfl, List.nil_suffix⟩

section

variable (journal : Journal view l dups new)

include journal

theorem views : l.logged.map (fun e => view e.1) = new.map view := by
  have firsts := congrArg (List.map Prod.fst) journal.logged
  rw [map_map, map_map] at firsts
  calc l.logged.map (fun e => view e.1)
      = (located l.covered new).map (Prod.fst ∘ Prod.map view id) := firsts
    _ = ((located l.covered new).map Prod.fst).map view := by rw [map_map]; rfl
    _ = new.map view := by rw [map_located]

theorem length : new.length = l.logged.length := by
  simpa using (congrArg List.length journal.logged).symm

theorem ends : l.logged.map Prod.snd = (located l.covered new).map Prod.snd := by
  have seconds := congrArg (List.map Prod.snd) journal.logged
  rwa [map_map, map_map] at seconds

theorem last : (l.logged.getLast?.map Prod.snd).getD l.covered = extent (dups ++ new) := by
  rw [← getLast?_map, journal.ends, last_located, extent_append, journal.covered]

theorem write {b b' : Batch} {stop : Nat} (same : view b = view b') (ends : stop = extent (dups ++ (new ++ [b']))) :
    Journal view (l.write b stop) dups (new ++ [b']) := by
  refine ⟨journal.covered, ?_, journal.stored⟩
  have behind : stop = l.covered + extent new + b'.encode.length := by
    rw [ends, ← journal.covered]
    simp [add_assoc]
  simp [Ledger.write, journal.logged, located_append, same, behind]

theorem held : Journal view l.held (dups ++ new) [] := by
  refine ⟨journal.last.symm, rfl, ?_⟩
  obtain ⟨older, split⟩ := journal.stored
  have same : (l.logged.map Prod.fst).map view = new.map view := by
    rw [map_map]
    exact journal.views
  refine ⟨older, ?_⟩
  rw [Ledger.held, Ledger.batches, map_append, map_append, ← split, same, append_assoc]

end

theorem removed (view : Batch → β) (l : Ledger) : Journal view l.removed [] [] :=
  ⟨rfl, rfl, List.nil_suffix⟩

variable (journal : Journal view l dups new)

include journal

theorem cut {n : Nat} (spared : l.covered ≤ n) : Journal view (l.cut n) dups (survivors (n - l.covered) new) := by
  refine ⟨?_, ?_, journal.stored⟩
  · rw [journal.covered, Ledger.cut, min_eq_left spared]
  · have filtered := filter_located l.covered (n - l.covered) new
    rw [Nat.add_sub_cancel' spared] at filtered
    have kept : (l.cut n).covered = l.covered := min_eq_left spared
    -- The ends decide what is lost, and both sides have the same ends.
    have through : ∀ es : List (Batch × Nat), (es.filter fun e => e.2 ≤ n).map (Prod.map view id) =
        (es.map (Prod.map view id)).filter fun e => e.2 ≤ n := by
      intro es
      rw [filter_map]
      rfl
    rw [kept, ← filtered, through, ← journal.logged, ← through]
    rfl

theorem cut_front (n : Nat) : (l.cut n).batches <+: l.batches := by
  refine (List.prefix_append_right_inj _).mpr ((filter_front n ?_).map Prod.fst)
  rw [journal.ends]
  exact sorted_located ..

theorem survivors_cut {n : Nat} (spared : l.covered ≤ n) :
    survivors n (dups ++ new) = dups ++ survivors (n - l.covered) new := by
  have fits : (Framing.log Batch.encode dups).length ≤ n := journal.covered.trans_le spared
  rw [survivors, wholeIn_append, if_pos fits]
  change dups ++ survivors (n - extent dups) new = _
  rw [journal.covered]

end Journal

/-- A log file that holds batches and data records behind them. -/
structure Walled (wal : List UInt8) (bs : List Batch) (rest : List Record) : Prop where
  file : wal = Framing.log encode (batchRecords bs ++ rest)
  valid : ∀ b ∈ bs, b.Valid
  loose : Loose rest

/-- A log file that recovers to batches and data records behind them. -/
structure Recovers (wal : List UInt8) (bs : List Batch) (rest : List Record) : Prop where
  read : recover wal = .ok (batchRecords bs ++ rest, Framing.log encode (batchRecords bs ++ rest))
  valid : ∀ b ∈ bs, b.Valid
  loose : Loose rest

namespace Walled

variable {wal : List UInt8} {rest : List Record}

theorem empty : Walled [] [] [] := ⟨rfl, by simp, by simp [Loose]⟩

theorem fits (walled : Walled wal bs rest) : ∀ r ∈ batchRecords bs ++ rest, r.Fits := by
  intro r listed
  rcases mem_append.mp listed with inBatch | behind
  · obtain ⟨b, held, own⟩ := mem_flatMap.mp inBatch
    exact (walled.valid b held).fits r own
  · exact (walled.loose r behind).2

theorem append (walled : Walled wal bs rest) {b : Batch} (valid : b.Valid)
    (agree : ∀ r ∈ rest, r.timestamp = b.marker.timestamp) :
    Walled (wal ++ Framing.log encode b.records) (bs ++ [⟨rest ++ b.data, b.marker⟩]) [] := by
  refine ⟨?_, ?_, by simp [Loose]⟩
  · rw [walled.file, ← log_append]
    simp [Batch.records]
  · intro b' listed
    rcases mem_append.mp listed with old | last
    · exact walled.valid b' old
    · rw [mem_singleton.mp last]
      refine ⟨valid.marked, fun r own => ?_, fun r own => ?_, fun r own => ?_⟩
      · rcases mem_append.mp own with behind | new
        · exact (walled.loose r behind).1
        · exact valid.data r new
      · rcases mem_append.mp own with behind | new
        · exact agree r behind
        · exact valid.stamped r new
      · rw [Batch.records, append_assoc] at own
        rcases mem_append.mp own with behind | new
        · exact (walled.loose r behind).2
        · exact valid.fits r new

theorem length (walled : Walled wal bs []) : wal.length = extent bs := by
  rw [walled.file, append_nil, length_log_batches]

theorem recovers (walled : Walled wal bs rest) : Recovers wal bs rest := by
  refine ⟨?_, walled.valid, walled.loose⟩
  rw [walled.file]
  exact recover_log walled.fits

theorem cut (walled : Walled wal bs rest) (n : Nat) : ∃ rest', Recovers (wal.take n) (survivors n bs) rest' ∧
    ((survivors n bs = bs ∧ rest' <+: rest) ∨ ∃ b, survivors n bs ++ [b] <+: bs ∧ rest' <+: b.data) := by
  obtain ⟨rest', whole, shape⟩ := wholeIn_batches n bs rest
  have read := recover_take walled.fits n
  rw [← walled.file, whole] at read
  have kept : ∀ b ∈ survivors n bs, b.Valid :=
    fun b listed => walled.valid b ((wholeIn_front ..).subset listed)
  rcases shape with ⟨_, all, front⟩ | ⟨_, b, within, front⟩
  · exact ⟨rest', ⟨read, kept, fun r listed => walled.loose r (front.subset listed)⟩, .inl ⟨all, front⟩⟩
  · have lost := walled.valid b (within.subset (by simp))
    refine ⟨rest', ⟨read, kept, fun r listed => ?_⟩, .inr ⟨b, within, front⟩⟩
    have own := front.subset listed
    exact ⟨lost.data r own, lost.fits r (by simp [Batch.records, own])⟩

end Walled

theorem Recovers.opens {dir : Dir} {rest : List Record} (recovers : Recovers dir.wal bs rest)
    (opts : Options) : ∃ m, (batchData bs).foldlM Memtable.apply Memtable.new = some m ∧ m.Open ∧
    openWith dir opts = .ok (.reopened dir opts bs rest m) ∧
    Walled (Db.reopened dir opts bs rest m).dir.wal bs rest := by
  obtain ⟨m, applied, ready, opened⟩ :=
    openWith_batches opts recovers.read recovers.valid fun r listed => (recovers.loose r listed).1
  exact ⟨m, applied, ready, opened, rfl, recovers.valid, recovers.loose⟩

/-- The number of commit markers in the log. -/
def Dir.markers (dir : Dir) : Nat :=
  match recover dir.wal with
  | .error _ => 0
  | .ok (records, _) => records.countP fun r => decide (r.op = .commit)

/-- A log that recovers has one marker for each batch. -/
theorem Recovers.markers {dir : Dir} {rest : List Record} (recovers : Recovers dir.wal bs rest) :
    dir.markers = bs.length := by
  have behind : rest.countP (fun r => decide (r.op = .commit)) = 0 :=
    countP_eq_zero.mpr fun r listed => by simpa using (recovers.loose r listed).1
  have counted : ∀ bs : List Batch, (∀ b ∈ bs, b.Valid) →
      (batchRecords bs).countP (fun r => decide (r.op = .commit)) = bs.length := by
    intro bs valid
    induction bs with
    | nil => rfl
    | cons b bs ih =>
      have first := valid b mem_cons_self
      have data : b.data.countP (fun r => decide (r.op = .commit)) = 0 :=
        countP_eq_zero.mpr fun r listed => by simpa using first.data r listed
      simp [data, first.marked, ih fun b' listed => valid b' (mem_cons_of_mem _ listed)]
  rw [Dir.markers, recovers.read]
  dsimp only
  rw [countP_append, behind, counted bs recovers.valid, add_zero]

end Store
