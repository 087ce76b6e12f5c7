import LittleDb.Store.EngineInvariant

/-! Every step of the engine keeps the invariant. -/

namespace Store

open Versioned Function List Option Set SortedMap

namespace Engine

variable {K : Set Key} {H₀ : Set (Version Key Value)} {base : Key → Option Value} {s s' : Engine}
  {events : List Event}

variable {id ts : Nat} {t : Txn} {key : Key} {op : Op} {value : Value} {done : Writes} {db : Db} {job : Job}
  {front : List (Nat × Table)} {a : Act} {new : List Event}

section

variable (inv : Inv K H₀ base s events)

include inv

theorem Inv.begin (unknown : s.txns id = none) (unlocked : s.writer = none) :
    Inv K H₀ base { s.setTxn id ⟨s.db.appliedTS, [], false, [], 0⟩ with pending := id :: s.pending }
      (.began id :: events) := by
  have extended : Extends (· ≠ id) events (.began id :: events) :=
    .event trivial (fun id' away same => away (Event.began.inj same).symm) (by simp)
  have idle : s.captures id = none := by
    by_contra reading
    obtain ⟨c, captured⟩ := ne_none_iff_exists'.mp reading
    obtain ⟨_, t, found, _⟩ := inv.reading id c captured
    exact absurd (found.symm.trans unknown) (by simp)
  refine inv.change extended idle (fun c under => absurd (under.symm.trans unlocked) (by simp))
    (fun _ => .inr (le_refl _)) (fun id' waiting => ?_) (fun _ => mem_cons_of_mem _)
    (fun _ => .inl mem_cons_self) ?_
  · rcases mem_cons.mp waiting with rfl | old
    · exact .inr ⟨rfl, unlocked, rfl, rfl⟩
    · refine .inl ⟨?_, old⟩
      rintro rfl
      obtain ⟨_, t, found, _⟩ := inv.pending id' old
      exact absurd (found.symm.trans unknown) (by simp)
  · -- What was on record when it began is all that is on record now.
    have start : before id (.began id :: events) = events := by simp [before]
    refine ⟨.nil, by simp, le_refl _, fun _ k => ?_, start.symm ▸ inv.agrees, fun id₂ ts writes listed _ _ => ?_⟩
    · rw [ownWrite_cons (by simp), inv.fresh id unknown k]
      rfl
    · rw [start]
      simpa using listed

theorem Inv.register (id : Nat) :
    Inv K H₀ base { s with pending := s.pending.erase id, activeTxns := id :: s.activeTxns } events := by
  refine { inv with pending := ?_, registered := ?_, compaction := ?_ }
  · exact fun id' waiting => inv.pending id' (mem_of_mem_erase waiting)
  · intro id' t' found stillOpen
    rcases inv.registered id' t' found stillOpen with waiting | listed
    · by_cases same : id' = id
      · exact .inr (same ▸ mem_cons_self)
      · exact .inl ((mem_erase_of_ne same).mpr waiting)
    · exact .inr (mem_cons_of_mem _ listed)
  · refine inv.compaction.mono rfl ⟨[], rfl⟩ (le_refl _) fun id' t' found stillOpen => ?_
    exact .inl ⟨t', found, stillOpen, rfl, mem_cons_of_mem _⟩

theorem Inv.unregister (known : s.txns id = some t) (ended : t.finished = true) :
    Inv K H₀ base { s with activeTxns := s.activeTxns.filter fun other => other ≠ id } events := by
  have away : ∀ id' t', s.txns id' = some t' → t'.finished = false → id' ≠ id := by
    rintro id' t' found stillOpen rfl
    rw [known] at found
    rw [← Option.some.inj found, ended] at stillOpen
    cases stillOpen
  refine { inv with registered := ?_, compaction := ?_ }
  · intro id' t' found stillOpen
    refine (inv.registered id' t' found stillOpen).imp_right fun listed => ?_
    simpa using ⟨listed, away id' t' found stillOpen⟩
  · refine inv.compaction.mono rfl ⟨[], rfl⟩ (le_refl _) fun id' t' found stillOpen => ?_
    refine .inl ⟨t', found, stillOpen, rfl, fun listed => ?_⟩
    simpa using ⟨listed, away id' t' found stillOpen⟩

theorem Inv.buffer (ready : s.ready id = some t) (stillOpen : t.finished = false)
    (inside : key ∈ K) (data : op ≠ .commit) :
    Inv K H₀ base (s.setTxn id { t with writes := SortedMap.put key (op, value) t.writes })
      (.wrote id key op value :: events) := by
  have own := inv.txns id t (ready_eq ready).1
  have extended : Extends (· ≠ id) events (.wrote id key op value :: events) :=
    .event trivial (by simp) fun id' away k op' value' same => away (Event.wrote.inj same).1.symm
  refine inv.replace ready extended rfl (fun _ => stillOpen)
    ⟨sorted_put own.sorted, fun e listed => ?_, own.low, fun _ k => ?_, ?_, ?_⟩
  · rcases (mem_put own.sorted).mp listed with rfl | ⟨older, _⟩
    · exact ⟨inside, data⟩
    · exact own.data e older
  · rw [get_put own.sorted]
    by_cases same : k = key
    · simp [ownWrite, same]
    · have away : key ≠ k := Ne.symm same
      rw [if_neg same, own.own stillOpen k]
      simp [ownWrite, away]
  · rw [before_cons (by simp)]
    exact own.agrees
  · intro id₂ ts writes listed filled low
    rw [before_cons (by simp)]
    exact own.earlier id₂ ts writes (by simpa using listed) filled low

end

theorem memtableAt_last : s.memtableAt s.db.retired.length = s.db.memtable := by
  simp [memtableAt]

section

variable (inv : Inv K H₀ base s events)

include inv

theorem Inv.capture (ready : s.ready id = some t) (stillOpen : t.finished = false)
    (own : SortedMap.get key t.writes = none) : Inv K H₀ base
      { s with
        captures := update s.captures id (some ⟨key, s.db.retired.length, s.db.tables⟩) } events := by
  obtain ⟨known, _, _, notWriting⟩ := ready_eq ready
  have txn := inv.txns id t known
  refine { inv with writing := fun c under => ?_, reading := fun id' c captured => ?_ }
  · obtain ⟨ts, next, idle, rest⟩ := inv.writing c under
    exact ⟨ts, next, (update_of_ne (notWriting c under) _ _).trans idle, rest⟩
  by_cases same : id' = id
  · subst same
    simp only [update_self, Option.some.injEq] at captured
    subst captured
    refine ⟨le_refl _, t, known, stillOpen, (txn.own stillOpen key).symm.trans own, fun free named => ?_⟩
    obtain ⟨floor, layered, below⟩ := inv.layered
    have high := below.2 id' t known stillOpen
    have buffer : ((Engine.memtableAt _ s.db.retired.length).sl) = s.db.memtable.sl :=
      congrArg Memtable.sl (memtableAt_last (s := { s with
        captures := update s.captures id' (some ⟨key, s.db.retired.length, s.db.tables⟩) }))
    rw [buffer]
    refine ⟨layered.memtable.valid, layered.tables, layered.stacked, layered.atop, layered.keeps.sub, ?_⟩
    -- From the floor on the layers show what was written, and the commit under way is later.
    refine ((layered.follows free named).shows_above high).mpr ?_
    refine (txn.agrees.later (N := s.inFlight) ?_ key _).mpr rfl
    intro v flying
    unfold inFlight at flying
    cases under : s.writer with
    | none => simp [under] at flying
    | some c =>
      simp only [under] at flying
      obtain ⟨e, _, rfl⟩ := flying
      have ts := (inv.writing c under).1
      have low := txn.low
      simp only
      omega
  · simp only [update_of_ne same] at captured
    exact inv.reading id' c captured

theorem Inv.uncapture (id : Nat) : Inv K H₀ base { s with captures := update s.captures id none } events := by
  refine { inv with writing := fun c under => ?_, reading := fun id' c captured => ?_ }
  · obtain ⟨ts, next, idle, rest⟩ := inv.writing c under
    refine ⟨ts, next, ?_, rest⟩
    by_cases same : c.id = id
    · simp [same]
    · exact (update_of_ne same _ _).trans idle
  by_cases same : id' = id
  · subst same
    simp at captured
  · simp only [update_of_ne same] at captured
    exact inv.reading id' c captured

theorem Inv.startCommit (ready : s.ready id = some t) (stillOpen : t.finished = false) (unlocked : s.free = true)
    (room : s.db.nextTimestamp + 1 < 2 ^ 64) : Inv K H₀ base
      { s with
        db := s.db.logCommit t.writes
        writer := some ⟨id, s.db.nextTimestamp, [], t.writes⟩ } events := by
  obtain ⟨known, _, notReading, _⟩ := ready_eq ready
  simp only [Engine.free, Bool.and_eq_true, Option.isNone_iff_eq_none, List.isEmpty_iff] at unlocked
  have clock := inv.clock unlocked.1
  have next : succ64 s.db.nextTimestamp = s.db.nextTimestamp + 1 := Nat.mod_eq_of_lt room
  -- Nothing of the commit is in the buffer yet.
  have same : written { s with
      db := s.db.logCommit t.writes
      writer := some ⟨id, s.db.nextTimestamp, [], t.writes⟩ } H₀ events = s.written H₀ events := by
    simp [written, inFlight, unlocked.1]
  refine
    { inv with
      layered := ?_, clock := by simp, range := ?_, pending := ?_, writing := ?_, reading := ?_ }
  · obtain ⟨floor, layered, below⟩ := inv.layered
    rw [same]
    exact ⟨floor, layered.congr rfl rfl rfl, below⟩
  · exact next.trans_lt room
  · intro id' waiting
    rw [unlocked.2] at waiting
    simp at waiting
  · rintro c ⟨⟩
    exact ⟨clock, next, notReading, t, known, stillOpen, rfl⟩
  · rw [same]
    exact inv.reading

theorem Inv.writeNext {left : Writes} {k : Key} {m : Memtable}
    (under : s.writer = some ⟨id, ts, done, (k, op, value) :: left⟩)
    (applied : s.db.memtable.apply ⟨op, ts, k, value⟩ = some m) : Inv K H₀ base
      { s with
        db := { s.db with memtable := m }
        writer := some ⟨id, ts, done ++ [(k, op, value)], left⟩ } events := by
  obtain ⟨isNext, next, idle, t, known, stillOpen, split⟩ := inv.writing _ under
  simp only at isNext next split known
  have txn := inv.txns id t known
  have range := inv.range
  have sorted := txn.sorted
  rw [split] at sorted
  obtain ⟨inside, data⟩ := txn.data (k, op, value) (by rw [split]; simp)
  have fits : ts < 2 ^ 64 := by omega
  -- The version is new: older commits have older timestamps, and this one has other keys.
  have newest : ∀ v ∈ s.written H₀ events, v.key = k → v.ts < ts := by
    rintro v (flying | old) same
    · simp only [inFlight, under] at flying
      obtain ⟨e, listed, rfl⟩ := flying
      have order := (pairwise_append.mp sorted).2.2 e listed (k, op, value) (by simp)
      exact absurd same order.ne
    · have bound := inv.past v old
      omega
  have grown : written { s with
      db := { s.db with memtable := m }
      writer := some ⟨id, ts, done ++ [(k, op, value)], left⟩ } H₀ events =
      {⟨k, ts, payload op value⟩} ∪ s.written H₀ events := by
    simp only [written, inFlight, under, commitVersions_snoc, union_assoc]
  refine
    { inv with
      layered := ?_, clock := by simp, pending := ?_, writing := ?_, reading := ?_ }
  · obtain ⟨floor, layered, below⟩ := inv.layered
    have high : floor < ts := by
      have bound := below.1
      omega
    rw [grown]
    exact ⟨floor, layered.write (r := ⟨op, ts, k, value⟩) fits data inside newest high applied, below⟩
  · intro id' waiting
    exact absurd ((inv.pending id' waiting).1.symm.trans under) (by simp)
  · rintro c ⟨⟩
    exact ⟨isNext, next, idle, t, known, stillOpen, by rw [split]; simp⟩
  · intro id' c captured
    obtain ⟨old, t', found, open', none_own, sees⟩ := inv.reading id' c captured
    refine ⟨old, t', found, open', none_own, fun free named => ?_⟩
    have sees := sees free named
    rw [grown]
    rcases old.lt_or_eq with earlier | same
    · -- An earlier buffer is not written any more.
      have kept : (Engine.memtableAt { s with
          db := { s.db with memtable := m }
          writer := some ⟨id, ts, done ++ [(k, op, value)], left⟩ } c.generation) =
          s.memtableAt c.generation := by
        simp [memtableAt, getElem?_eq_getElem earlier]
      rw [kept]
      exact sees.mono subset_union_right
    · obtain ⟨floor, layered, _⟩ := inv.layered
      have low := (inv.txns id' t' found).low
      have current : (Engine.memtableAt { s with
          db := { s.db with memtable := m }
          writer := some ⟨id, ts, done ++ [(k, op, value)], left⟩ } c.generation) = m := by
        simp [memtableAt, same]
      rw [current]
      rw [same, memtableAt_last] at sees
      exact sees.write (r := ⟨op, ts, k, value⟩) fits data newest (by simp only; omega)
        layered.memtable.writable applied

end

/-- A flush keeps the layers, retires a buffer and opens a table. -/
structure Flush (db db' : Db) : Prop where
  layered : ∀ {K H floor}, db.Layered K H floor → db'.Layered K H floor
  up : db'.closed = db.closed
  applied : db'.appliedTS = db.appliedTS
  next : db'.nextTimestamp = db.nextTimestamp
  tables : ∃ front, db'.sstables = front ++ db.sstables
  retired : db.retired.length ≤ db'.retired.length
  buffers : ∀ g ≤ db.retired.length, ((db'.retired[g]?).getD db'.memtable).sl =
    ((db.retired[g]?).getD db.memtable).sl

theorem Flush.refl (db : Db) : Flush db db :=
  ⟨fun layered => layered, rfl, rfl, rfl, ⟨[], rfl⟩, le_refl _, fun _ _ => rfl⟩

theorem flush_ok (ready : db.memtable.Open) : ∃ db' dirs, db.flushLocked = .ok (db', dirs) ∧ Flush db db' := by
  rcases Db.flushLocked_ok ready with ⟨_, done⟩ | ⟨t, made, done⟩
  · exact ⟨db, [], done, .refl db⟩
  · refine ⟨db.flushed t, db.flushDirs t, done, fun layered => layered.flushed made, rfl, rfl, rfl,
      ⟨[(db.nextID, t)], rfl⟩, by simp [Db.flushed], fun g earlier => ?_⟩
    rcases earlier.lt_or_eq with old | same
    · simp [Db.flushed, getElem?_append_left old, getElem?_eq_getElem old]
    · simp [Db.flushed, same, Memtable.freeze]

theorem flushIfFull_ok (ready : db.memtable.Open) : ∃ db' dirs, db.flushIfFull = .ok (db', dirs) ∧ Flush db db' := by
  unfold Db.flushIfFull
  split_ifs
  · exact flush_ok ready
  · exact ⟨db, [], rfl, .refl db⟩

section

variable (inv : Inv K H₀ base s events)
include inv

theorem Inv.flush (flush : Flush s.db db) : Inv K H₀ base { s with db := db } events := by
  have same : written { s with db := db } H₀ events = s.written H₀ events := rfl
  refine ⟨flush.up.trans inv.up, ?_, ?_, ?_, ?_, ?_, ?_, inv.registered, ?_, inv.fresh, ?_, ?_, ?_⟩
  · obtain ⟨floor, layered, below⟩ := inv.layered
    refine ⟨floor, flush.layered (same ▸ layered), ?_⟩
    exact ⟨below.1.trans flush.applied.ge, below.2⟩
  · rw [flush.applied]
    exact inv.agrees
  · rw [flush.applied]
    exact inv.past
  · rw [flush.applied, flush.next]
    exact inv.clock
  · rw [flush.next]
    exact inv.range
  · rw [flush.applied]
    exact inv.pending
  · rw [flush.applied]
    exact inv.txns
  · rw [flush.applied, flush.next]
    exact inv.writing
  · intro id c captured
    obtain ⟨old, t, found, stillOpen, none_own, sees⟩ := inv.reading id c captured
    refine ⟨old.trans flush.retired, t, found, stillOpen, none_own, fun free named => ?_⟩
    -- A captured buffer is kept among the retired ones.
    have buffer : (Engine.memtableAt { s with db := db } c.generation).sl =
        (s.memtableAt c.generation).sl := flush.buffers c.generation old
    rw [buffer]
    exact sees free named
  · refine inv.compaction.mono rfl flush.tables flush.applied.ge fun id t found stillOpen => ?_
    exact .inl ⟨t, found, stillOpen, rfl, fun listed => listed⟩

theorem Inv.finishCommit (under : s.writer = some ⟨id, ts, done, []⟩)
    (known : s.txns id = some t) (flush : Flush { s.db with appliedTS := ts } db) :
    Inv K H₀ base { s.setTxn id { t with finished := true } with db := db, writer := none }
      (.committed id ts done :: events) := by
  obtain ⟨isNext, next, idle, t₀, known₀, stillOpen, split⟩ := inv.writing _ under
  simp only [append_nil] at isNext next split known₀ idle
  obtain rfl : t₀ = t := Option.some.inj (known₀.symm.trans known)
  have own := inv.txns id t₀ known
  have later : s.db.appliedTS < ts := by omega
  have sorted : SortedMap.Sorted done := split ▸ own.sorted
  -- What the commit had in the buffer is now on record.
  have now : H₀ ∪ history (.committed id ts done :: events) =
      commitVersions ts done ∪ (H₀ ∪ history events) := by
    rw [history_committed, union_left_comm]
  have same : written { s.setTxn id { t₀ with finished := true } with db := db, writer := none } H₀
      (.committed id ts done :: events) = s.written H₀ events := by
    simp only [written, inFlight, under, now, empty_union]
  -- Open transactions afterwards are other ones, unchanged.
  have live : ∀ id' t', update s.txns id (some { t₀ with finished := true }) id' = some t' →
      t'.finished = false → s.txns id' = some t' := by
    intro id' t' found open'
    rcases update_cases found with ⟨_, rfl⟩ | ⟨_, old⟩
    · simp at open'
    · exact old
  have other : ∀ id', id' ≠ id →
      update s.txns id (some { t₀ with finished := true }) id' = s.txns id' :=
    fun id' away => update_of_ne away _ _
  have applied : db.appliedTS = ts := flush.applied
  refine ⟨flush.up.trans inv.up, ?_, ?_, ?_, ?_, ?_, ?_, ?_, ?_, ?_, by simp, ?_, ?_⟩
  · obtain ⟨floor, layered, below⟩ := inv.layered
    rw [same]
    refine ⟨floor, flush.layered (layered.congr rfl rfl rfl), ?_⟩
    refine below.mono (applied ▸ later.le) fun id' t' found open' => ?_
    exact .inl ⟨t', live id' t' found open', open', rfl⟩
  · rw [now, applied]
    exact inv.agrees.commit sorted inv.past later
  · rw [now, applied]
    rintro v (⟨e, _, rfl⟩ | old)
    · exact le_refl _
    · exact (inv.past v old).trans later.le
  · intro _
    rw [applied, flush.next]
    exact next
  · rw [flush.next]
    exact inv.range
  · intro id' waiting
    exact absurd ((inv.pending id' waiting).1.symm.trans under) (by simp)
  · intro id' t' found open'
    exact inv.registered id' t' (live id' t' found open') open'
  · intro id' t' found
    rw [now, applied]
    rcases update_cases found with ⟨rfl, rfl⟩ | ⟨_, old⟩
    · have moved := own.commit id' done later
      exact { moved with own := fun open' => by simp at open' }
    · exact (inv.txns id' t' old).commit _ _ later
  · intro id' unknown k
    rw [ownWrite_cons (by simp)]
    by_cases away : id' = id
    · subst away
      exact absurd unknown (by simp [setTxn])
    · exact inv.fresh id' ((other id' away).symm.trans unknown) k
  · intro id' c captured
    obtain ⟨old, t', found, open', none_own, sees⟩ := inv.reading id' c captured
    have away : id' ≠ id := by
      rintro rfl
      exact absurd (captured.symm.trans idle) (by simp)
    refine ⟨old.trans flush.retired, t', (other id' away).trans found, open', ?_, fun free named => ?_⟩
    · rw [ownWrite_cons (by simp)]
      exact none_own
    · have buffer : (Engine.memtableAt { s.setTxn id { t₀ with finished := true } with
          db := db, writer := none } c.generation).sl = (s.memtableAt c.generation).sl :=
        flush.buffers c.generation old
      rw [buffer, same, before_cons (by simp)]
      exact sees free named
  · refine inv.compaction.mono rfl flush.tables (applied ▸ later.le) fun id' t' found open' => ?_
    exact .inl ⟨t', live id' t' found open', open', rfl, fun listed => listed⟩

theorem Inv.files {dir : Dir} {phase : Phase}
    (compaction : PhaseInv { s with db := { s.db with dir := dir }, phase := phase }) :
    Inv K H₀ base { s with db := { s.db with dir := dir }, phase := phase } events := by
  refine { inv with layered := ?_, compaction := compaction }
  obtain ⟨floor, layered, below⟩ := inv.layered
  exact ⟨floor, layered.congr rfl rfl rfl, below⟩

end

theorem foldl_min_le (l : List Nat) (bound : Nat) : l.foldl min bound ≤ bound ∧ ∀ x ∈ l, l.foldl min bound ≤ x := by
  induction l generalizing bound with
  | nil => exact ⟨le_refl _, by simp⟩
  | cons first rest ih =>
    obtain ⟨low, each⟩ := ih (min bound first)
    refine ⟨low.trans (min_le_left _ _), fun x listed => ?_⟩
    rcases mem_cons.mp listed with rfl | later
    · exact low.trans (min_le_right _ _)
    · exact each x later

theorem lowest_le_bound (bound : Nat) : s.lowest bound ≤ bound := (foldl_min_le _ bound).1

theorem lowest_le {bound : Nat} (known : s.txns id = some t)
    (listed : id ∈ s.activeTxns) : s.lowest bound ≤ t.readSnap := by
  have snapshot : s.readSnap id = t.readSnap := by simp [readSnap, known]
  rw [← snapshot]
  exact (foldl_min_le _ bound).2 _ (mem_map_of_mem listed)

theorem Inv.install {merged : Table} {w : Nat} (dir : Dir)
    (inv : Inv K H₀ base s events) (tail : s.db.sstables = front ++ job.inputs)
    (made : job.merge w = .ok merged) (below : s.Below w) (ids : List Nat) : Inv K H₀ base
      { s with
        db := { s.db with dir := dir, sstables := front ++ [(job.outputID, merged)] }
        phase := .removing ids } events := by
  refine { inv with layered := ?_, compaction := trivial }
  obtain ⟨floor, layered, low⟩ := inv.layered
  refine ⟨max floor w, (layered.collect tail made).congr rfl rfl rfl, ?_⟩
  refine ⟨max_le low.1 below.1, fun id t known stillOpen => ?_⟩
  exact max_le (low.2 id t known stillOpen) (below.2 id t known stillOpen)

/-- What a step of the compaction does to the engine. -/
inductive Compacts (s : Engine) : Engine → Prop where
  | pick (job : Job) (picked : s.db.pickCompaction = some job) : Compacts s { s with phase := .picked job }
  | sampleClock (job : Job) (under : s.phase = .picked job) (unlocked : s.writer = none) :
      Compacts s { s with phase := .sampled job (s.db.nextTimestamp - 1) }
  | sampleTxns (job : Job) (w : Nat) (under : s.phase = .sampled job w) :
      Compacts s { s with phase := .marked job (s.lowest w) }
  | merge (job : Job) (w : Nat) (table : Table) (under : s.phase = .marked job w)
      (made : job.merge w = .ok table) :
      Compacts s { s with db := s.db.writeMerged job table, phase := .merged job table }
  | install (job : Job) (table : Table) (under : s.phase = .merged job table) :
      Compacts s
        { s with
          db := { s.db with sstables :=
            s.db.sstables.take (s.db.sstables.length - job.inputs.length) ++ [(job.outputID, table)] }
          phase := .removing job.obsolete }
  /-- Files are removed, at the end or when the compaction is given up. -/
  | remove (dir : Dir) (phase : Phase) (ended : phase = .idle ∨ ∃ ids, phase = .removing ids) :
      Compacts s { s with db := { s.db with dir := dir }, phase := phase }

theorem compactStep_cases (moved : s.compactStep a = some s') : Compacts s s' := by
  cases a with
  | pick =>
    simp only [Engine.compactStep] at moved
    split at moved
    · split_ifs at moved
      obtain ⟨job, picked, rfl⟩ := map_eq_some_iff.mp moved
      exact .pick job picked
    · cases moved
  | sampleClock =>
    simp only [Engine.compactStep] at moved
    split at moved
    · rename_i job under
      split_ifs at moved with locked
      cases moved
      exact .sampleClock job under (by simpa using locked)
    · cases moved
  | sampleTxns =>
    simp only [Engine.compactStep] at moved
    split at moved
    · rename_i job w under
      cases moved
      exact .sampleTxns job w under
    · cases moved
  | merge =>
    simp only [Engine.compactStep] at moved
    split at moved
    · rename_i job w under
      split at moved
      -- A failed merge only removes its output file.
      · cases moved
        exact .remove _ _ (.inl rfl)
      · rename_i merged made
        cases moved
        exact .merge job w merged under made
    · cases moved
  | install =>
    simp only [Engine.compactStep] at moved
    split at moved
    · rename_i job merged under
      split_ifs at moved
      unfold Db.installMerged at moved
      split_ifs at moved
      · cases moved
        exact .remove _ _ (.inl rfl)
      · cases moved
        exact .install job merged under
    · cases moved
  | remove =>
    simp only [Engine.compactStep] at moved
    split at moved
    · cases moved
      exact .remove _ _ (.inr ⟨_, rfl⟩)
    · cases moved
      exact .remove s.db.dir _ (.inl rfl)
    · cases moved
  | _ => simp [Engine.compactStep] at moved

theorem tail_picked (picked : s.db.pickCompaction = some job) : s.Tail job := by
  unfold Db.pickCompaction at picked
  split_ifs at picked
  cases picked
  exact ⟨_, (take_append_drop (s.db.sstables.length - s.db.trigger) _).symm⟩

theorem take_front (tail : s.db.sstables = front ++ job.inputs) :
    s.db.sstables.take (s.db.sstables.length - job.inputs.length) = front := by
  simp [tail]

theorem Inv.compactStep (inv : Inv K H₀ base s events) (compacts : Compacts s s') : Inv K H₀ base s' events := by
  have phase := inv.compaction
  cases compacts with
  | pick job picked => exact { inv with compaction := tail_picked picked }
  | sampleClock job under unlocked =>
    simp only [PhaseInv, under] at phase
    have clock := inv.clock unlocked
    refine { inv with compaction := ⟨phase, ?_, fun id t known stillOpen => ?_⟩ }
    · simp only
      omega
    · -- An unregistered transaction holds the read lock, so nothing was committed since.
      refine (inv.registered id t known stillOpen).imp_left fun waiting => ?_
      obtain ⟨_, t', known', _, snapshot⟩ := inv.pending id waiting
      rw [known] at known'
      rw [Option.some.inj known', snapshot]
      omega
  | sampleTxns job w under =>
    simp only [PhaseInv, under] at phase
    obtain ⟨tail, low, covered⟩ := phase
    refine { inv with compaction := ⟨tail, ?_, fun id t known stillOpen => ?_⟩ }
    · exact (lowest_le_bound w).trans low
    · rcases covered id t known stillOpen with below | listed
      · exact (lowest_le_bound w).trans below
      · exact lowest_le known listed
  | merge job w table under made =>
    simp only [PhaseInv, under] at phase
    exact inv.files ⟨phase.1, w, made, phase.2⟩
  | install job table under =>
    simp only [PhaseInv, under] at phase
    obtain ⟨⟨front, tail⟩, w, made, below⟩ := phase
    rw [take_front tail]
    exact inv.install s.db.dir tail made below job.obsolete
  | remove dir phase' ended =>
    refine inv.files ?_
    -- Nothing is expected of the compaction any more.
    rcases ended with rfl | ⟨ids, rfl⟩ <;> trivial

/-- The condition on a step: keys of the set, a timestamp for a commit. -/
def Fine (K : Set Key) (s : Engine) : Act → Prop
  | .put _ key _ => key ∈ K
  | .delete _ key => key ∈ K
  | .commit _ => s.db.nextTimestamp + 1 < 2 ^ 64
  | _ => True

/-- What a step does, and what it puts on record. -/
inductive Moves (s : Engine) : Act → Engine → List Event → Prop where
  /-- A call on an ended transaction, or a flush of a closed database. -/
  | idle (a : Act) : Moves s a s []
  | begin (id : Nat) (unknown : s.txns id = none) (unlocked : s.writer = none) : Moves s (.begin id)
      { s.setTxn id ⟨s.db.appliedTS, [], false, [], 0⟩ with pending := id :: s.pending } [.began id]
  | register (id : Nat) : Moves s (.register id)
      { s with pending := s.pending.erase id, activeTxns := id :: s.activeTxns } []
  | buffer {a : Act} {id : Nat} {key : Key} {op : Op} {value : Value} {t : Txn} (ready : s.ready id = some t)
      (stillOpen : t.finished = false) (inside : ∀ {K}, s.Fine K a → key ∈ K) (data : op ≠ .commit) : Moves s a
        (s.setTxn id { t with writes := SortedMap.put key (op, value) t.writes }) [.wrote id key op value]
  | own {id : Nat} {key : Key} {t : Txn} {hit : Op × Value} (ready : s.ready id = some t)
      (stillOpen : t.finished = false) (found : SortedMap.get key t.writes = some hit) :
      Moves s (.get id key) s [.got id key (reply hit)]
  | down (id : Nat) (key : Key) (closed : s.db.closed = true) :
      Moves s (.get id key) s [.got id key (.error .closed)]
  | capture {id : Nat} {key : Key} {t : Txn} (ready : s.ready id = some t) (stillOpen : t.finished = false)
      (missing : SortedMap.get key t.writes = none) : Moves s (.get id key)
        { s with captures := update s.captures id (some ⟨key, s.db.retired.length, s.db.tables⟩) } []
  | read {id : Nat} {c : Capture} (captured : s.captures id = some c) : Moves s (.read id)
      { s with captures := update s.captures id none } [.got id c.key (getAsOfSnapshot c.key
        (s.readSnap id) (s.memtableAt c.generation) none c.tables)]
  | rollback {id : Nat} {t : Txn} (ready : s.ready id = some t) : Moves s (.rollback id)
      (s.setTxn id { t with writes := [], finished := true }) []
  | closed {id : Nat} {t : Txn} (ready : s.ready id = some t) : Moves s (.commit id)
      (s.setTxn id { t with finished := true }) []
  | empty {id : Nat} {t : Txn} (ready : s.ready id = some t) : Moves s (.commit id)
      (s.setTxn id { t with finished := true }) [.committed id 0 []]
  | conflicted {id : Nat} {t : Txn} (ready : s.ready id = some t) : Moves s (.commit id)
      (s.setTxn id { t with finished := true }) [.conflicted id]
  | commit {id : Nat} {t : Txn} (ready : s.ready id = some t) (stillOpen : t.finished = false)
      (unlocked : s.free = true) (clear : s.db.conflicts t = false) : Moves s (.commit id)
        { s with db := s.db.logCommit t.writes, writer := some ⟨id, s.db.nextTimestamp, [], t.writes⟩ } []
  | write {id ts : Nat} {done left : Writes} {k : Key} {op : Op} {value : Value} {m : Memtable}
      (under : s.writer = some ⟨id, ts, done, (k, op, value) :: left⟩)
      (applied : s.db.memtable.apply ⟨op, ts, k, value⟩ = some m) : Moves s .write
        { s with db := { s.db with memtable := m }, writer := some ⟨id, ts, done ++ [(k, op, value)], left⟩ } []
  | finish {id ts : Nat} {done : Writes} {t : Txn} {db : Db} {dirs : List Dir}
      (under : s.writer = some ⟨id, ts, done, []⟩) (known : s.txns id = some t)
      (ended : s.db.finishCommit ts = .ok (db, dirs)) : Moves s .finish
        { s.setTxn id { t with finished := true } with db := db, writer := none } [.committed id ts done]
  | unregister {id : Nat} {t : Txn} (known : s.txns id = some t) (ended : t.finished = true) :
      Moves s (.unregister id) { s with activeTxns := s.activeTxns.filter fun other => other ≠ id } []
  | flush {db : Db} {dirs : List Dir} (flushed : s.db.flushLocked = .ok (db, dirs)) :
      Moves s .flush { s with db := db } []
  | compact {a : Act} {s' : Engine} (compacts : Compacts s s') : Moves s a s' []

theorem buffer_moves {op : Op} (inside : ∀ {K}, s.Fine K a → key ∈ K) (data : op ≠ .commit)
    (moved : s.buffer id key op value = some (s', new)) : Moves s a s' new := by
  unfold Engine.buffer at moved
  split at moved
  · cases moved
  · next ready =>
    split_ifs at moved with ended <;> cases moved
    · exact .idle a
    · exact .buffer ready (by simpa using ended) inside data

/-- Every step does just that. -/
theorem moves (moved : s.step a = some (s', new)) : Moves s a s' new := by
  cases a with
  | begin id =>
    simp only [Engine.step] at moved
    split_ifs at moved with busy
    simp only [not_or, Bool.not_eq_true, isSome_eq_false_iff, Option.isNone_iff_eq_none] at busy
    cases moved
    exact .begin id busy.1 busy.2
  | register id =>
    simp only [Engine.step] at moved
    split_ifs at moved
    cases moved
    exact .register id
  | put id key value => exact buffer_moves (fun fine => fine) (by simp) moved
  | delete id key => exact buffer_moves (fun fine => fine) (by simp) moved
  | get id key =>
    simp only [Engine.step, Engine.startGet] at moved
    cases ready : s.ready id with
    | none => simp [ready] at moved
    | some t =>
      -- A buffered write answers at once; otherwise the layers are captured.
      cases own : SortedMap.get key t.writes with
      | some hit =>
        simp only [ready, own] at moved
        split_ifs at moved with ended <;> cases moved
        · exact .idle _
        · exact .own ready (by simpa using ended) own
      | none =>
        simp only [ready, own] at moved
        split_ifs at moved with ended locked down <;> cases moved
        · exact .idle _
        · exact .down id key down
        · exact .capture ready (by simpa using ended) own
  | read id =>
    simp only [Engine.step, Engine.finishGet] at moved
    split at moved
    · cases moved
    · next captured =>
      cases moved
      exact .read captured
  | rollback id =>
    simp only [Engine.step] at moved
    obtain ⟨t, ready, same⟩ := map_eq_some_iff.mp moved
    split_ifs at same <;> cases same
    · exact .idle _
    · exact .rollback ready
  | commit id =>
    simp only [Engine.step, Engine.startCommit] at moved
    split at moved
    · cases moved
    · next t ready =>
      split_ifs at moved with ended locked down empty conflict <;> cases moved
      · exact .idle _
      · exact .closed ready
      · exact .empty ready
      · exact .conflicted ready
      · exact .commit ready (by simpa using ended) (by simpa using locked) (by simpa using conflict)
  | write =>
    simp only [Engine.step, Engine.writeNext] at moved
    split at moved
    · next under =>
      obtain ⟨m, applied, same⟩ := map_eq_some_iff.mp moved
      cases same
      exact .write under applied
    · cases moved
  | finish =>
    simp only [Engine.step, Engine.finishCommit] at moved
    split at moved
    · next under =>
      split at moved
      · next known ended =>
        cases moved
        exact .finish under known ended
      · cases moved
    · cases moved
  | unregister id =>
    simp only [Engine.step] at moved
    split_ifs at moved with ended
    cases moved
    cases known : s.txns id with
    | none => simp [known] at ended
    | some t => exact .unregister known (by simpa [known] using ended)
  | flush =>
    simp only [Engine.step] at moved
    split_ifs at moved
    · cases moved
      exact .idle _
    · split at moved
      · cases moved
      · next flushed =>
        cases moved
        exact .flush flushed
  | pick | sampleClock | sampleTxns | merge | install | remove =>
    obtain ⟨next, compacted, same⟩ := map_eq_some_iff.mp moved
    cases same
    exact .compact (compactStep_cases compacted)

/-- Every step keeps the invariant. -/
theorem Inv.step (inv : Inv K H₀ base s events) (fine : s.Fine K a)
    (moved : s.step a = some (s', new)) : Inv K H₀ base s' (new ++ events) := by
  -- Ending a transaction keeps the laws, whatever it is told.
  have ends : ∀ {id t}, s.ready id = some t → Inv K H₀ base (s.setTxn id { t with finished := true }) events :=
    fun {id t} ready => inv.endTxn ready (fun _ listed => listed) (inv.txns id t (ready_eq ready).1).sorted
  cases moves moved with
  | idle => exact inv
  | begin id unknown unlocked => exact inv.begin unknown unlocked
  | register id => exact inv.register id
  | buffer ready stillOpen inside data => exact inv.buffer ready stillOpen (inside fine) data
  | own | down => exact inv.event trivial (by simp) (by simp)
  | capture ready stillOpen missing => exact inv.capture ready stillOpen missing
  | @read id => exact (inv.uncapture id).event trivial (by simp) (by simp)
  | rollback ready => exact inv.endTxn ready (by simp) .nil
  | closed ready => exact ends ready
  | empty ready => exact (ends ready).event rfl (by simp) (by simp)
  | conflicted ready => exact (ends ready).event trivial (by simp) (by simp)
  | commit ready stillOpen unlocked => exact inv.startCommit ready stillOpen unlocked fine
  | write under applied => exact inv.writeNext under applied
  | @finish id ts done t db dirs under known ended =>
    obtain ⟨floor, layered, _⟩ := inv.layered
    have ready : Db.memtable { s.db with appliedTS := ts } |>.Open := layered.memtable
    obtain ⟨db', dirs', flushed, flush⟩ := flushIfFull_ok ready
    have same : s.db.finishCommit ts = .ok (db', dirs') := flushed
    cases same.symm.trans ended
    exact inv.finishCommit under known flush
  | unregister known ended => exact inv.unregister known ended
  | flush flushed =>
    obtain ⟨floor, layered, _⟩ := inv.layered
    obtain ⟨db, dirs, done, flush⟩ := flush_ok layered.memtable
    cases done.symm.trans flushed
    exact inv.flush flush
  | compact compacts => exact inv.compactStep compacts

end Engine

end Store
