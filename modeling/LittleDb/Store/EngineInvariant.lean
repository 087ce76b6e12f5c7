import LittleDb.Store.Timeline

/-! What holds of the engine after every step of every run. -/

namespace Store

open Versioned Function List Set

variable {P : Nat → Prop} {events' : List Event} {id : Nat} {t : Txn} {t' : Txn}

/-- Captured layers that show a value at a snapshot, whatever is written later. -/
structure Sees (H : Set (Version Key Value)) (l : Layer) (ts : List Table) (k : Key) (s : Nat)
    (r : Option Value) : Prop where
  buffer : l.Valid
  valid : ∀ t ∈ ts, t.Valid
  stacked : Stacked ts
  atop : ∀ t ∈ ts, Over l.versions t.versions
  sub : l.versions ∪ tableVersions ts ⊆ H
  shows : Shows (l.versions ∪ tableVersions ts) k s r

variable {K : Set Key} {H H₀ : Set (Version Key Value)} {base : Key → Option Value}

variable {m : Memtable} {ts : List Table} {k : Key} {s appliedTS : Nat} {r : Option Value} {events : List Event}

theorem Sees.read (sees : Sees H m.sl ts k s r) (within : ∀ v ∈ H, v.key ∈ K) (free : Free K) (fits : s < 2 ^ 64) :
    getAsOfSnapshot k s m none ts = answerOf r :=
  getAsOfSnapshot_eq sees.buffer sees.valid sees.stacked sees.atop (fun v stored => within v (sees.sub (.inl stored)))
    (fun v stored => within v (sees.sub (.inr stored))) free fits sees.shows

theorem Sees.mono {H' : Set (Version Key Value)} {l : Layer}
    (sees : Sees H l ts k s r) (sub : H ⊆ H') : Sees H' l ts k s r :=
  { sees with sub := sees.sub.trans sub }

theorem Sees.write {m' : Memtable} {v : Option Value}
    {r : Record} (sees : Sees H m.sl ts k s v) (fits : r.timestamp < 2 ^ 64) (data : r.op ≠ .commit)
    (newest : ∀ w ∈ H, w.key = r.key → w.ts < r.timestamp) (later : s < r.timestamp)
    (writable : m.frozen = false) (written : m.apply r = some m') : Sees ({r.version} ∪ H) m'.sl ts k s v := by
  have ready : m.Open := ⟨writable, sees.buffer⟩
  obtain ⟨m₁, applied, ready', members⟩ := ready.apply fits data
  obtain rfl : m₁ = m' := Option.some.inj (applied.symm.trans written)
  have grown : m₁.sl.versions = {r.version} ∪ m.sl.versions := by
    ext w
    refine (members w).trans (or_congr_right ⟨And.left, fun stored => ⟨stored, fun same => ?_⟩⟩)
    exact absurd same.2 (newest w (sees.sub (.inl stored)) same.1).ne
  refine ⟨ready'.valid, sees.valid, sees.stacked, fun t listed => ?_, ?_, ?_⟩
  · rw [grown]
    rintro u (rfl | old) w stored same order
    · have below := newest w (sees.sub (.inr ⟨t, listed, stored⟩)) same.symm
      exact absurd order (not_le.mpr below)
    · exact .inr (sees.atop t listed u old w stored same order)
  · rw [grown, union_assoc]
    exact union_subset_union_right _ sees.sub
  · rw [grown, union_assoc]
    refine sees.shows.congr fun w _ below => ⟨.inr, fun stored => ?_⟩
    rcases stored with rfl | old
    · exact absurd below (not_le.mpr later)
    · exact old

structure TxnInv (K : Set Key) (H : Set (Version Key Value)) (base : Key → Option Value)
    (appliedTS : Nat) (events : List Event) (id : Nat) (t : Txn) : Prop where
  sorted : SortedMap.Sorted t.writes
  data : ∀ e ∈ t.writes, e.1 ∈ K ∧ e.2.1 ≠ .commit
  low : t.readSnap ≤ appliedTS
  own : t.finished = false → ∀ k, SortedMap.get k t.writes = ownWrite id k events
  agrees : Agrees base H t.readSnap (before id events)
  earlier : ∀ id' ts writes, .committed id' ts writes ∈ events → writes ≠ [] → ts ≤ t.readSnap →
    .committed id' ts writes ∈ before id events

/-- A longer record that says nothing more about some transactions. -/
structure Extends (P : Nat → Prop) (events events' : List Event) : Prop where
  history : history events' = history events
  value : ∀ base key, valueOf base key events' = valueOf base key events
  committed : ∀ id ts writes, .committed id ts writes ∈ events' → writes ≠ [] → .committed id ts writes ∈ events
  before : ∀ id, P id → before id events' = before id events
  own : ∀ id, P id → ∀ key, ownWrite id key events' = ownWrite id key events

theorem Extends.refl (P : Nat → Prop) (events : List Event) : Extends P events events :=
  ⟨rfl, fun _ _ => rfl, fun _ _ _ listed _ => listed, fun _ _ => rfl, fun _ _ _ => rfl⟩

theorem Extends.event {e : Event} (quiet : e.Quiet) (notBegan : ∀ id, P id → e ≠ .began id)
    (notWrote : ∀ id, P id → ∀ k op value, e ≠ .wrote id k op value) : Extends P events (e :: events) where
  history := history_quiet quiet events
  value _ _ := valueOf_quiet quiet events
  committed id ts writes listed filled := by
    rcases mem_cons.mp listed with rfl | older
    · exact absurd quiet filled
    · exact older
  before id here := before_cons (notBegan id here) events
  own id here key := ownWrite_cons (notWrote id here key) events

theorem TxnInv.extends (inv : TxnInv K H base appliedTS events id t)
    (extended : Extends P events events') (here : P id) : TxnInv K H base appliedTS events' id t where
  sorted := inv.sorted
  data := inv.data
  low := inv.low
  own stillOpen k := (inv.own stillOpen k).trans (extended.own id here k).symm
  agrees := extended.before id here ▸ inv.agrees
  earlier id' ts writes listed filled below := by
    rw [extended.before id here]
    exact inv.earlier id' ts writes (extended.committed id' ts writes listed filled) filled below

theorem TxnInv.commit {ts : Nat} (id' : Nat) (writes : Writes)
    (inv : TxnInv K H base appliedTS events id t) (later : appliedTS < ts) :
    TxnInv K (commitVersions ts writes ∪ H) base ts (.committed id' ts writes :: events) id t where
  sorted := inv.sorted
  data := inv.data
  low := inv.low.trans later.le
  own stillOpen k := by
    rw [ownWrite_cons (by simp)]
    exact inv.own stillOpen k
  agrees := by
    rw [before_cons (by simp)]
    refine inv.agrees.later ?_
    rintro v ⟨e, _, rfl⟩
    exact lt_of_le_of_lt inv.low later
  earlier id₂ ts₂ writes₂ listed filled below := by
    rw [before_cons (by simp)]
    rcases mem_cons.mp listed with same | older
    · simp only [Event.committed.injEq] at same
      have bound := below.trans inv.low
      omega
    · exact inv.earlier id₂ ts₂ writes₂ older filled below

namespace Engine

/-- The versions that the commit under way has already put into the buffer. -/
def inFlight (s : Engine) : Set (Version Key Value) :=
  match s.writer with
  | none => ∅
  | some c => commitVersions c.commitTS c.done

/-- A bound that no open transaction and no later one reads below. -/
def Below (s : Engine) (w : Nat) : Prop :=
  w ≤ s.db.appliedTS ∧ ∀ id t, s.txns id = some t → t.finished = false → w ≤ t.readSnap

/-- The inputs of a compaction still are the oldest tables. -/
def Tail (s : Engine) (job : Job) : Prop := ∃ front, s.db.sstables = front ++ job.inputs

/-- What holds of a compaction at each of its phases. -/
def PhaseInv (s : Engine) : Prop :=
  match s.phase with
  | .idle => True
  | .picked job => s.Tail job
  | .sampled job w =>
    -- A transaction that is not registered yet took its snapshot at the bound or later.
    s.Tail job ∧ w ≤ s.db.appliedTS ∧ ∀ id t, s.txns id = some t → t.finished = false →
      w ≤ t.readSnap ∨ id ∈ s.activeTxns
  | .marked job w => s.Tail job ∧ s.Below w
  | .merged job table => s.Tail job ∧ ∃ w, job.merge w = .ok table ∧ s.Below w
  | .removing _ => True

/-- Everything written so far, the commit under way included. -/
def written (s : Engine) (H₀ : Set (Version Key Value)) (events : List Event) : Set (Version Key Value) :=
  s.inFlight ∪ (H₀ ∪ history events)

/-- What holds of the engine and the record, over a starting store. -/
structure Inv (K : Set Key) (H₀ : Set (Version Key Value)) (base : Key → Option Value) (s : Engine)
    (events : List Event) : Prop where
  up : s.db.closed = false
  layered : ∃ floor, s.db.Layered K (s.written H₀ events) floor ∧ s.Below floor
  agrees : Agrees base (H₀ ∪ history events) s.db.appliedTS events
  past : ∀ v ∈ H₀ ∪ history events, v.ts ≤ s.db.appliedTS
  clock : s.writer = none → s.db.nextTimestamp = s.db.appliedTS + 1
  range : s.db.nextTimestamp < 2 ^ 64
  pending : ∀ id ∈ s.pending, s.writer = none ∧
    ∃ t, s.txns id = some t ∧ t.finished = false ∧ t.readSnap = s.db.appliedTS
  registered : ∀ id t, s.txns id = some t → t.finished = false → id ∈ s.pending ∨ id ∈ s.activeTxns
  txns : ∀ id t, s.txns id = some t →
    TxnInv K (H₀ ∪ history events) base s.db.appliedTS events id t
  fresh : ∀ id, s.txns id = none → ∀ k, ownWrite id k events = none
  writing : ∀ c, s.writer = some c → c.commitTS = s.db.appliedTS + 1 ∧
    s.db.nextTimestamp = c.commitTS + 1 ∧ s.captures c.id = none ∧
    ∃ t, s.txns c.id = some t ∧ t.finished = false ∧ t.writes = c.done ++ c.left
  reading : ∀ id c, s.captures id = some c → c.generation ≤ s.db.retired.length ∧
    ∃ t, s.txns id = some t ∧ t.finished = false ∧ ownWrite id c.key events = none ∧
      (Free K → [] ∉ K → Sees (s.written H₀ events) (s.memtableAt c.generation).sl c.tables c.key t.readSnap
        (valueOf base c.key (before id events)))
  compaction : s.PhaseInv

variable {s s' : Engine}

theorem written_extends (extended : Extends P events events') : s.written H₀ events' = s.written H₀ events := by
  rw [written, written, extended.history]

theorem ready_eq (ready : s.ready id = some t) : s.txns id = some t ∧ id ∉ s.pending ∧
    s.captures id = none ∧ ∀ c, s.writer = some c → c.id ≠ id := by
  unfold Engine.ready at ready
  split_ifs at ready with busy
  simp only [not_or] at busy
  refine ⟨ready, busy.1, by simpa using busy.2.1, fun c under same => busy.2.2 ?_⟩
  simp [under, same]

theorem Below.mono {w : Nat} (below : s.Below w) (clock : s.db.appliedTS ≤ s'.db.appliedTS)
    (live : ∀ id t', s'.txns id = some t' → t'.finished = false →
      (∃ t, s.txns id = some t ∧ t.finished = false ∧ t.readSnap = t'.readSnap) ∨
        s.db.appliedTS ≤ t'.readSnap) : s'.Below w := by
  refine ⟨below.1.trans clock, fun id t' known stillOpen => ?_⟩
  rcases live id t' known stillOpen with ⟨t, old, was, same⟩ | high
  · exact same ▸ below.2 id t old was
  · exact below.1.trans high

/-- New tables come in front. -/
theorem Tail.mono {job : Job} (tail : s.Tail job) (tables : ∃ front, s'.db.sstables = front ++ s.db.sstables) :
    s'.Tail job := by
  obtain ⟨front, split⟩ := tail
  obtain ⟨new, grown⟩ := tables
  exact ⟨new ++ front, by rw [grown, split, append_assoc]⟩

theorem PhaseInv.mono (inv : s.PhaseInv) (phase : s'.phase = s.phase)
    (tables : ∃ front, s'.db.sstables = front ++ s.db.sstables) (clock : s.db.appliedTS ≤ s'.db.appliedTS)
    (live : ∀ id t', s'.txns id = some t' → t'.finished = false →
      (∃ t, s.txns id = some t ∧ t.finished = false ∧ t.readSnap = t'.readSnap ∧
        (id ∈ s.activeTxns → id ∈ s'.activeTxns)) ∨ s.db.appliedTS ≤ t'.readSnap) :
    s'.PhaseInv := by
  have bound : ∀ w, s.Below w → s'.Below w := fun w below =>
    below.mono clock fun id t' known stillOpen =>
      (live id t' known stillOpen).imp_left fun ⟨t, old, was, same, _⟩ => ⟨t, old, was, same⟩
  unfold PhaseInv at inv ⊢
  rw [phase]
  cases under : s.phase with
  | idle => trivial
  | picked job => exact Tail.mono (by simpa [under] using inv) tables
  | sampled job w =>
    simp only [under] at inv ⊢
    refine ⟨inv.1.mono tables, inv.2.1.trans clock, fun id t' known stillOpen => ?_⟩
    -- An open transaction was open before, or began above the clock.
    rcases live id t' known stillOpen with ⟨t, old, was, same, kept⟩ | high
    · exact (inv.2.2 id t old was).imp (fun low => same ▸ low) kept
    · exact .inl (inv.2.1.trans high)
  | marked job w =>
    simp only [under] at inv ⊢
    exact ⟨inv.1.mono tables, bound w inv.2⟩
  | merged job table =>
    simp only [under] at inv ⊢
    obtain ⟨old, w, made, below⟩ := inv
    exact ⟨old.mono tables, w, made, bound w below⟩
  | removing ids => trivial

theorem Inv.event {e : Event} (inv : Inv K H₀ base s events) (quiet : e.Quiet) (notBegan : ∀ id, e ≠ .began id)
    (notWrote : ∀ id k op value, e ≠ .wrote id k op value) : Inv K H₀ base s (e :: events) := by
  have extended : Extends (fun _ => True) events (e :: events) :=
    .event quiet (fun id _ => notBegan id) fun id _ => notWrote id
  refine { inv with layered := ?_, agrees := ?_, past := ?_, txns := ?_, fresh := ?_, reading := ?_ }
  · rw [written_extends extended]
    exact inv.layered
  · intro k r
    rw [extended.history, extended.value]
    exact inv.agrees k r
  · rw [extended.history]
    exact inv.past
  · intro id t known
    rw [extended.history]
    exact (inv.txns id t known).extends extended trivial
  · exact fun id unknown k => (extended.own id trivial k).trans (inv.fresh id unknown k)
  · intro id c captured
    rw [written_extends extended, extended.before id trivial, extended.own id trivial]
    exact inv.reading id c captured

theorem update_cases {txns : Nat → Option Txn} {id' : Nat}
    (found : update txns id (some t) id' = some t') : (id' = id ∧ t' = t) ∨ (id' ≠ id ∧ txns id' = some t') := by
  by_cases same : id' = id
  · subst same
    rw [update_self] at found
    exact .inl ⟨rfl, (Option.some.inj found).symm⟩
  · rw [update_of_ne same] at found
    exact .inr ⟨same, found⟩

section

variable (inv : Inv K H₀ base s events)
include inv

theorem Inv.change {pending : List Nat} (extended : Extends (· ≠ id) events events') (idle : s.captures id = none)
    (apart : ∀ c, s.writer = some c → c.id ≠ id) (live : t'.finished = false →
      (∃ t, s.txns id = some t ∧ t.finished = false ∧ t.readSnap = t'.readSnap) ∨ s.db.appliedTS ≤ t'.readSnap)
    (waits : ∀ id' ∈ pending, (id' ≠ id ∧ id' ∈ s.pending) ∨
      (id' = id ∧ s.writer = none ∧ t'.finished = false ∧ t'.readSnap = s.db.appliedTS))
    (kept : ∀ id' ∈ s.pending, id' ∈ pending) (listed : t'.finished = false → id ∈ pending ∨ id ∈ s.activeTxns)
    (own : TxnInv K (H₀ ∪ history events) base s.db.appliedTS events' id t') :
    Inv K H₀ base { s.setTxn id t' with pending := pending } events' := by
  have other : ∀ id', id' ≠ id → update s.txns id (some t') id' = s.txns id' :=
    fun id' away => update_of_ne away _ _
  -- Every open transaction kept its snapshot, or takes it now.
  have snapshots : ∀ id' u, update s.txns id (some t') id' = some u → u.finished = false →
      (∃ t, s.txns id' = some t ∧ t.finished = false ∧ t.readSnap = u.readSnap) ∨ s.db.appliedTS ≤ u.readSnap := by
    intro id' u found stillOpen
    rcases update_cases found with ⟨rfl, rfl⟩ | ⟨_, old⟩
    · exact live stillOpen
    · exact .inl ⟨u, old, stillOpen, rfl⟩
  have same : written { s.setTxn id t' with pending := pending } H₀ events' = s.written H₀ events :=
    written_extends (s := s) extended
  refine ⟨inv.up, ?_, ?_, ?_, inv.clock, inv.range, ?_, ?_, ?_, ?_, ?_, ?_, ?_⟩
  · obtain ⟨floor, layered, below⟩ := inv.layered
    exact ⟨floor, same ▸ layered, below.mono (le_refl _) snapshots⟩
  · intro k r
    rw [extended.history, extended.value]
    exact inv.agrees k r
  · rw [extended.history]
    exact inv.past
  · intro id' waiting
    rcases waits id' waiting with ⟨away, old⟩ | ⟨rfl, unlocked, stillOpen, snapshot⟩
    · obtain ⟨unlocked, t, found, rest⟩ := inv.pending id' old
      exact ⟨unlocked, t, (other id' away).trans found, rest⟩
    · exact ⟨unlocked, t', update_self .., stillOpen, snapshot⟩
  · intro id' u found stillOpen
    rcases update_cases found with ⟨rfl, rfl⟩ | ⟨_, old⟩
    · exact listed stillOpen
    · exact (inv.registered id' u old stillOpen).imp_left (kept id')
  · intro id' u found
    rw [extended.history]
    rcases update_cases found with ⟨rfl, rfl⟩ | ⟨away, old⟩
    · exact own
    · exact (inv.txns id' u old).extends extended away
  · intro id' unknown k
    have away : id' ≠ id := by
      rintro rfl
      exact absurd unknown (by simp [setTxn])
    rw [extended.own id' away]
    exact inv.fresh id' ((other id' away).symm.trans unknown) k
  · intro c under
    obtain ⟨ts, next, none_captured, t, found, rest⟩ := inv.writing c under
    exact ⟨ts, next, none_captured, t, (other c.id (apart c under)).trans found, rest⟩
  · intro id' c captured
    obtain ⟨old, t, found, rest⟩ := inv.reading id' c captured
    have away : id' ≠ id := by
      rintro rfl
      exact absurd (captured.symm.trans idle) (by simp)
    rw [same, extended.before id' away, extended.own id' away]
    exact ⟨old, t, (other id' away).trans found, rest⟩
  · refine inv.compaction.mono rfl ⟨[], rfl⟩ (le_refl _) fun id' u found stillOpen => ?_
    refine (snapshots id' u found stillOpen).imp_left fun ⟨t, old, was, snapshot⟩ => ?_
    exact ⟨t, old, was, snapshot, fun listed => listed⟩

theorem Inv.replace (ready : s.ready id = some t) (extended : Extends (· ≠ id) events events')
    (snapshot : t'.readSnap = t.readSnap) (ended : t'.finished = false → t.finished = false)
    (own : TxnInv K (H₀ ∪ history events) base s.db.appliedTS events' id t') :
    Inv K H₀ base (s.setTxn id t') events' := by
  obtain ⟨known, notPending, notReading, notWriting⟩ := ready_eq ready
  refine inv.change extended notReading notWriting (fun stillOpen => .inl ⟨t, known, ended stillOpen, snapshot.symm⟩)
    (fun id' waiting => .inl ⟨?_, waiting⟩) (fun _ waiting => waiting)
    (fun stillOpen => inv.registered id t known (ended stillOpen)) own
  rintro rfl
  exact notPending waiting

theorem Inv.endTxn {writes : Writes}
    (ready : s.ready id = some t) (kept : ∀ e ∈ writes, e ∈ t.writes) (order : SortedMap.Sorted writes) :
    Inv K H₀ base (s.setTxn id { t with writes := writes, finished := true }) events := by
  have old := inv.txns id t (ready_eq ready).1
  refine inv.replace ready (.refl _ _) rfl (fun stillOpen => by cases stillOpen) ?_
  exact { old with
    sorted := order
    data := fun e listed => old.data e (kept e listed)
    own := fun stillOpen => by cases stillOpen }

end

end Engine

end Store
