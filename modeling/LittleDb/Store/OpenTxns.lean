import LittleDb.Store.Settled

/-! Open transactions hold back garbage collection: calls on them one after another, beside a compaction. -/

namespace Store

open Versioned List Option Bool SortedMap

/-- What goes wrong in a commit on a single node. -/
inductive CommitFault where
  /-- A table cannot be read in the conflict check. -/
  | check
  /-- The log cannot be written; these bytes of the records have reached it. -/
  | wal (torn : List UInt8)
  | flush (fault : FlushFault)

/-- How far a commit override comes before it returns, whatever it returns. -/
inductive Overridden where
  | early
  /-- It prepares the commit, with tables that can be read or not. -/
  | prepared (readable : Bool)

inductive Call where
  | begin (id : Nat)
  | setSession (id : Nat) (session : Key) (seq : Nat)
  | get (id : Nat) (key : Key)
  | put (id : Nat) (key : Key) (value : Value)
  | delete (id : Nat) (key : Key)
  | rollback (id : Nat)
  | commit (id : Nat) (fault : Option CommitFault)
  | override (id : Nat) (how : Overridden)
  | apply (e : Entry) (idx : Nat)
  | compact (a : Act)

inductive Reply where
  | txnFinished (id : Nat)
  | got (id : Nat) (key : Key) (value : Except DbError Value)
  | returned (id : Nat)
  deriving DecidableEq

namespace Db

/-- What a commit on a single node leaves; nothing if it panics. -/
def afterCommit (db : Db) (t : Txn) : Option CommitFault → Option Db
  | none =>
    match db.commit t with
    | .ok (done, _) => some done
    | .error .frozen | .error (.flush _) => none
    | .error _ => some db
  | some .check => some db
  | some (.wal torn) =>
    if db.closed || t.writes.isEmpty || db.conflicts t then some db
    else
      some
        { db with
          nextTimestamp := succ64 db.nextTimestamp
          dir := { db.dir with wal := db.dir.wal ++ torn } }
  | some (.flush fault) => (db.failCommit t fault).map Prod.fst

def afterPrepare (db : Db) (t : Txn) (readable : Bool) : Db :=
  match db.prepareCommit t with
  | .ok (done, some _) => if readable then done else db
  | _ => db

variable {K : Set Key} {db done : Db} {t : Txn}

/-- The writes of a transaction: sorted puts and deletes of keys of a set. -/
structure Clean (K : Set Key) (writes : Writes) : Prop where
  sorted : SortedMap.Sorted writes
  keys : ∀ e ∈ writes, e.1 ∈ K
  data : ∀ e ∈ writes, e.2.1 ≠ .commit

theorem Clean.nil : Clean K [] := ⟨List.Pairwise.nil, by simp, by simp⟩

theorem Clean.put {writes : Writes} {key : Key} {op : Op} {value : Value} (clean : Clean K writes)
    (inside : key ∈ K) (data : op ≠ .commit) : Clean K (SortedMap.put key (op, value) writes) := by
  refine ⟨sorted_put clean.sorted, fun e listed => ?_, fun e listed => ?_⟩
  · rcases (mem_put clean.sorted).mp listed with rfl | ⟨old, -⟩
    · exact inside
    · exact clean.keys e old
  · rcases (mem_put clean.sorted).mp listed with rfl | ⟨old, -⟩
    · exact data
    · exact clean.data e old

theorem Settled.committed {db' : Db} {marker : Record} (settled : db.Settled K) (clean : Clean K t.writes)
    (room : db.nextTimestamp + 1 < 2 ^ 64) (logs : Logged db db' ⟨dataRecords t.writes db.nextTimestamp, marker⟩)
    (next : db'.nextTimestamp = succ64 db.nextTimestamp) (applied : db'.appliedTS = db.nextTimestamp) :
    Grown K db db' := by
  have step : db'.nextTimestamp = db.nextTimestamp + 1 := by rw [next, succ64, Nat.mod_eq_of_lt room]
  have each : ∀ r ∈ dataRecords t.writes db.nextTimestamp,
      ∃ e ∈ t.writes, r = ⟨e.2.1, db.nextTimestamp, e.1, e.2.2⟩ := by
    intro r listed
    obtain ⟨e, found, rfl⟩ := mem_map.mp listed
    exact ⟨e, found, rfl⟩
  have clock := settled.clock
  refine settled.logged db.nextTimestamp logs ?_ settled.range ?_ ?_ ?_ (fun _ => clock) ?_ ?_ ?_
  · intro r listed
    obtain ⟨e, -, rfl⟩ := each r listed
    rfl
  · intro r listed
    obtain ⟨e, found, rfl⟩ := each r listed
    exact clean.data e found
  · intro r listed
    obtain ⟨e, found, rfl⟩ := each r listed
    exact clean.keys e found
  · exact pairwise_map.mpr (clean.sorted.imp fun less same => less.ne same)
  · rw [applied, max_eq_right clock.le]
  · omega
  · omega

theorem Settled.afterCommit {fault : Option CommitFault} (settled : db.Settled K) (clean : Clean K t.writes)
    (room : db.nextTimestamp + 1 < 2 ^ 64) (left : db.afterCommit t fault = some done) : Grown K db done := by
  cases fault with
  | none =>
    cases ran : db.commit t with
    | error why =>
      cases why with
      | frozen | flush e => simp [Db.afterCommit, ran] at left
      | _ =>
        simp only [Db.afterCommit, ran, Option.some.injEq] at left
        exact left ▸ settled.refl
    | ok result =>
      obtain ⟨after, dirs⟩ := result
      simp only [Db.afterCommit, ran, Option.some.injEq] at left
      subst left
      rcases commit_cases ran with ⟨-, rfl, -⟩ | ⟨db', flush, logged, flushed, -⟩
      · exact settled.refl
      · obtain ⟨-, logs, next, applied, -⟩ := commitLogged_cases logged
        have grown := settled.committed clean room logs next applied
        exact grown.trans (grown.settled.flushing (flushIfFull_cases grown.settled.layers.memtable flushed))
  | some fault =>
    cases fault with
    | check =>
      cases left
      exact settled.refl
    | wal torn =>
      simp only [Db.afterCommit] at left
      split_ifs at left
      · exact Option.some.inj left ▸ settled.refl
      · -- The timestamp is spent, and nothing is applied.
        cases left
        have clock := settled.clock
        have step : succ64 db.nextTimestamp = db.nextTimestamp + 1 := Nat.mod_eq_of_lt room
        refine settled.ahead rfl rfl rfl ?_ ?_
        · simp only [step]
          omega
        · simp only [step]
          exact room
    | flush fault =>
      obtain ⟨⟨after, logging⟩, failed, rfl⟩ := map_eq_some_iff.mp left
      obtain ⟨logged, logs, flushing⟩ := bind_eq_some_iff.mp failed
      obtain ⟨-, wrote, next, applied, -⟩ := commitLogged_cases logs
      have grown := settled.committed clean room wrote next applied
      split_ifs at flushing
      exact grown.trans (grown.settled.failFlush flushing)

theorem Settled.afterPrepare (settled : db.Settled K) (room : db.nextTimestamp + 1 < 2 ^ 64) (t : Txn)
    (readable : Bool) : Grown K db (db.afterPrepare t readable) := by
  unfold Db.afterPrepare
  split
  · rename_i done prepared ran
    cases readable with
    | false => exact settled.refl
    | true =>
      rcases prepareCommit_cases ran with ⟨-, none, -⟩ | ⟨entry, ts, -, minted⟩
      · cases none
      · have clock := settled.clock
        have step : succ64 ts = db.nextTimestamp + 1 := by rw [minted.stamp]; exact Nat.mod_eq_of_lt room
        rw [if_pos rfl, minted.moved]
        refine settled.ahead rfl rfl rfl ?_ ?_
        · simp only [step]
          omega
        · simp only [step]
          exact room
  · exact settled.refl

/-- A new entry, with different keys of the set, and room behind it. -/
structure InTurn (K : Set Key) (db : Db) (b : Batch) : Prop where
  single : b.data.Pairwise fun r r' => r.key ≠ r'.key
  keys : ∀ r ∈ b.data, r.key ∈ K
  newer : b.data ≠ [] → db.appliedTS < b.marker.timestamp
  room : b.marker.timestamp + 1 < 2 ^ 64

theorem Settled.apply {e : Entry} {idx : Nat} (settled : db.Settled K)
    (turn : ∀ b, e.batchOn db = some b → InTurn K db b) (ran : e.apply db idx = .ok done) : Grown K db done := by
  obtain ⟨b, db', dirs, logs, wrote, -, next, applied, flushed⟩ := Entry.apply_cases ran
  have turn := turn b logs
  have gives := Entry.gives_batchOn logs
  have room := turn.room
  have range := settled.range
  have clock := settled.clock
  -- The clock moves past the marker, and was past what was applied before.
  have past : db'.nextTimestamp = max db.nextTimestamp (b.marker.timestamp + 1) := by
    rw [next, clockPast]
    split_ifs with behind
    · rw [succ64, Nat.mod_eq_of_lt room]
      omega
    · omega
  have data : ∀ r ∈ b.data, r.op ≠ .commit := by
    intro r listed
    cases e with
    | control => rw [gives.1] at listed; cases listed
    | data bytes =>
      obtain ⟨records, parsed, within⟩ := gives
      exact (parseEntry_valid parsed).data r (within r listed)
  have grown := settled.logged b.marker.timestamp wrote
    (fun r listed => gives.agree (gives.holds listed)) (by omega) data turn.keys turn.single turn.newer applied
    (by omega) (by omega)
  exact grown.trans (grown.settled.flushing (flushIfFull_cases grown.settled.layers.memtable flushed))

end Db

namespace Engine

def unregister (s : Engine) (id : Nat) : Engine :=
  { s with activeTxns := s.activeTxns.filter fun other => other ≠ id }

def endTxn (s : Engine) (id : Nat) (t : Txn) (db : Db) : Engine :=
  unregister { s.setTxn id { t with finished := true } with db := db } id

/-- Calls an operation: every one is refused once the transaction has ended. -/
def onOpen (s : Engine) (id : Nat) (act : Txn → Option (Engine × Reply)) : Option (Engine × List Reply) :=
  match s.txns id with
  | none => none
  | some t =>
    if t.finished then some (s, [.txnFinished id])
    else (act t).map fun done => (done.1, [done.2])

def call (s : Engine) : Call → Option (Engine × List Reply)
  | .begin id =>
    if (s.txns id).isSome then none
    else
      some ({ s.setTxn id ⟨s.db.appliedTS, [], false, [], 0⟩ with activeTxns := id :: s.activeTxns }, [])
  | .setSession id session seq =>
    (s.txns id).map fun t => (s.setTxn id { t with session := session, seq := seq }, [])
  | .get id key =>
    s.onOpen id fun t =>
      match SortedMap.get key t.writes with
      | some own => some (s, .got id key (reply own))
      | none => some (s, .got id key (s.db.getAsOf key t.readSnap))
  | .put id key value =>
    s.onOpen id fun t =>
      some (s.setTxn id { t with writes := SortedMap.put key (.put, value) t.writes }, .returned id)
  | .delete id key =>
    s.onOpen id fun t =>
      some (s.setTxn id { t with writes := SortedMap.put key (.delete, []) t.writes }, .returned id)
  | .rollback id => s.onOpen id fun t => some (s.endTxn id { t with writes := [] } s.db, .returned id)
  | .commit id fault =>
    s.onOpen id fun t => (s.db.afterCommit t fault).map fun db => (s.endTxn id t db, .returned id)
  | .override id .early => s.onOpen id fun _ => some (s.unregister id, .returned id)
  | .override id (.prepared readable) =>
    s.onOpen id fun t => some (s.endTxn id t (s.db.afterPrepare t readable), .returned id)
  | .apply e idx =>
    match e.apply s.db idx with
    | .error _ => none
    | .ok db => some ({ s with db := db }, [])
  | .compact a => (s.compactStep a).map fun s => (s, [])

/-- The watermark: the clock, and the snapshots of open transactions. -/
def computeWatermark (s : Engine) : Nat := s.lowest (s.db.nextTimestamp - 1)

/-- No override gives up before it prepares an open commit. -/
def prepares (s : Engine) : Call → Bool
  | .override id .early => (s.txns id).all Txn.finished
  | _ => true

variable {s s' : Engine} {c : Call} {replies : List Reply} {id : Nat} {t : Txn}

theorem onOpen_cases {act : Txn → Option (Engine × Reply)} {P : Engine → Prop}
    (moved : s.onOpen id act = some (s', replies)) (refused : P s)
    (acts : ∀ t reply, s.txns id = some t → t.finished = false → act t = some (s', reply) → P s') : P s' := by
  unfold onOpen at moved
  cases known : s.txns id with
  | none => simp [known] at moved
  | some t =>
    simp only [known] at moved
    split_ifs at moved with ended
    · exact (Prod.mk.inj (Option.some.inj moved)).1 ▸ refused
    · obtain ⟨⟨after, reply⟩, done, same⟩ := map_eq_some_iff.mp moved
      cases same
      exact acts t reply known (by simpa using ended) done

/-- Reads are stable under calls with keys of the set, entries in turn, and room. -/
def Orderly (K : Set Key) (s : Engine) : Call → Prop
  | .put _ key _ => key ∈ K
  | .delete _ key => key ∈ K
  | .commit _ _ => s.db.nextTimestamp + 1 < 2 ^ 64
  | .override _ _ => s.db.nextTimestamp + 1 < 2 ^ 64
  | .apply e _ => ∀ b, e.batchOn s.db = some b → Db.InTurn K s.db b
  | _ => True

inductive Does (s : Engine) (c : Call) : Engine → Prop where
  | begin (id : Nat) (unknown : s.txns id = none) :
      Does s c { s.setTxn id ⟨s.db.appliedTS, [], false, [], 0⟩ with activeTxns := id :: s.activeTxns }
  | stay : Does s c s
  /-- A transaction is given a session or buffers a write. -/
  | set (id : Nat) (t t' : Txn) (known : s.txns id = some t) (same : t'.finished = t.finished)
      (snapshot : t'.readSnap = t.readSnap)
      (clean : ∀ K, s.Orderly K c → Db.Clean K t.writes → Db.Clean K t'.writes) : Does s c (s.setTxn id t')
  | ends (id : Nat) (t t' : Txn) (db : Db) (known : s.txns id = some t) (stillOpen : t.finished = false)
      (snapshot : t'.readSnap = t.readSnap)
      (grown : ∀ K, s.db.Settled K → s.Orderly K c → Db.Clean K t.writes →
        Db.Grown K s.db db ∧ Db.Clean K t'.writes) : Does s c (s.endTxn id t' db)
  | early (id : Nat) (t : Txn) (known : s.txns id = some t) (stillOpen : t.finished = false)
      (gaveUp : c = .override id .early) : Does s c (s.unregister id)
  | apply (e : Entry) (idx : Nat) (db : Db) (ran : e.apply s.db idx = .ok db) (applies : c = .apply e idx) :
      Does s c { s with db := db }
  | compact (s' : Engine) (compacts : Compacts s s') : Does s c s'

theorem call_cases (moved : s.call c = some (s', replies)) : Does s c s' := by
  cases c with
  | begin id =>
    simp only [call] at moved
    split_ifs at moved with begun
    cases moved
    exact .begin id (by simpa using begun)
  | setSession id session seq =>
    obtain ⟨t, known, same⟩ := map_eq_some_iff.mp moved
    cases same
    exact .set id t _ known rfl rfl fun K _ clean => clean
  | get id key =>
    refine onOpen_cases moved .stay fun t reply _ _ done => ?_
    -- Whether it finds a write of its own or not, a read changes nothing.
    split at done <;> obtain ⟨rfl, -⟩ := Prod.mk.inj (Option.some.inj done) <;> exact .stay
  | put id key value =>
    refine onOpen_cases moved .stay fun t reply known stillOpen done => ?_
    cases done
    exact .set id t _ known rfl rfl fun K inside clean => clean.put inside (by simp)
  | delete id key =>
    refine onOpen_cases moved .stay fun t reply known stillOpen done => ?_
    cases done
    exact .set id t _ known rfl rfl fun K inside clean => clean.put inside (by simp)
  | rollback id =>
    refine onOpen_cases moved .stay fun t reply known stillOpen done => ?_
    cases done
    exact .ends id t _ _ known stillOpen rfl fun K settled _ _ => ⟨settled.refl, .nil⟩
  | commit id fault =>
    refine onOpen_cases moved .stay fun t reply known stillOpen done => ?_
    obtain ⟨db, left, same⟩ := map_eq_some_iff.mp done
    cases same
    exact .ends id t t db known stillOpen rfl fun K settled room clean =>
      ⟨settled.afterCommit clean room left, clean⟩
  | override id how =>
    cases how with
    | early =>
      refine onOpen_cases moved .stay fun t reply known stillOpen done => ?_
      cases done
      exact .early id t known stillOpen rfl
    | prepared readable =>
      refine onOpen_cases moved .stay fun t reply known stillOpen done => ?_
      cases done
      exact .ends id t t _ known stillOpen rfl fun K settled room clean =>
        ⟨settled.afterPrepare room t readable, clean⟩
  | apply e idx =>
    simp only [call] at moved
    cases ran : e.apply s.db idx with
    | error why => simp [ran] at moved
    | ok db =>
      simp only [ran] at moved
      obtain ⟨rfl, -⟩ := Prod.mk.inj (Option.some.inj moved)
      exact .apply e idx db ran rfl
  | compact a =>
    obtain ⟨after, stepped, same⟩ := map_eq_some_iff.mp moved
    obtain ⟨rfl, -⟩ := Prod.mk.inj same
    exact .compact after (compactStep_cases stepped)

def Registered (s : Engine) : Prop :=
  ∀ id t, s.txns id = some t → t.finished = false → id ∈ s.activeTxns

theorem Compacts.txns (compacts : Compacts s s') : s'.txns = s.txns ∧ s'.activeTxns = s.activeTxns := by
  cases compacts <;> exact ⟨rfl, rfl⟩

theorem Registered.call (registered : s.Registered) (prepares : s.prepares c = true)
    (moved : s.call c = some (s', replies)) : s'.Registered := by
  cases call_cases moved with
  | begin id unknown =>
    intro id' u found stillOpen
    rcases update_cases found with ⟨rfl, -⟩ | ⟨_, old⟩
    · exact mem_cons_self
    · exact mem_cons_of_mem _ (registered id' u old stillOpen)
  | stay => exact registered
  | set id t t' known same snapshot clean =>
    intro id' u found stillOpen
    rcases update_cases found with ⟨rfl, rfl⟩ | ⟨_, old⟩
    · exact registered id' t known (same ▸ stillOpen)
    · exact registered id' u old stillOpen
  | ends id t t' db known _ snapshot grown =>
    intro id' u found stillOpen
    rcases update_cases found with ⟨rfl, rfl⟩ | ⟨away, old⟩
    · cases stillOpen
    · exact mem_filter.mpr ⟨registered id' u old stillOpen, by simpa using away⟩
  | early id t known stillOpen gaveUp =>
    -- The condition says that this transaction had ended.
    rw [gaveUp, Engine.prepares, known, all_some, stillOpen] at prepares
    cases prepares
  | apply e idx db ran applies => exact registered
  | compact s' compacts =>
    obtain ⟨txns, listed⟩ := compacts.txns
    intro id' u found stillOpen
    rw [listed]
    exact registered id' u (txns ▸ found) stillOpen

/-- The watermark is not above the snapshots, or they began after all inputs. -/
def Spares (s : Engine) (job : Job) (w : Nat) : Prop :=
  ∀ id t, s.txns id = some t → t.finished = false →
    w ≤ t.readSnap ∨ ∀ v ∈ tableVersions (job.inputs.map Prod.snd), v.ts ≤ t.readSnap

/-- What a compaction under way will do to the open transactions. -/
def Harmless (s : Engine) : Prop :=
  match s.phase with
  | .idle => True
  | .picked job => s.Tail job
  | .sampled job _ => s.Tail job
  | .marked job w => s.Tail job ∧ s.Spares job w
  | .merged job table => s.Tail job ∧ ∃ w, job.merge w = .ok table ∧ s.Spares job w
  | .removing _ => True

structure Holding (K : Set Key) (s : Engine) : Prop where
  settled : s.db.Settled K
  registered : s.Registered
  clean : ∀ id t, s.txns id = some t → Db.Clean K t.writes
  low : ∀ id t, s.txns id = some t → t.readSnap ≤ s.db.appliedTS
  compaction : s.Harmless

variable {K : Set Key}

section

variable (holding : s.Holding K)

include holding

theorem Holding.inputs_past {job : Job} (tail : s.Tail job) :
    ∀ v ∈ tableVersions (job.inputs.map Prod.snd), v.ts ≤ s.db.appliedTS := by
  obtain ⟨front, split⟩ := tail
  intro v stored
  refine holding.settled.past v (.inr ?_)
  rw [Db.tables, split, map_append, tableVersions_append]
  exact .inr stored

theorem Holding.undisturbed (phase : s'.phase = s.phase) (tables : ∃ front, s'.db.sstables = front ++ s.db.sstables)
    (live : ∀ id t', s'.txns id = some t' → t'.finished = false →
      (∃ t, s.txns id = some t ∧ t.finished = false ∧ t.readSnap = t'.readSnap) ∨
        s.db.appliedTS ≤ t'.readSnap) : s'.Harmless := by
  have spares : ∀ job w, s.Tail job → s.Spares job w → s'.Spares job w := by
    intro job w here spared id t' known stillOpen
    -- A new transaction begins above everything in the inputs.
    rcases live id t' known stillOpen with ⟨t, old, was, same⟩ | high
    · exact same ▸ spared id t old was
    · exact .inr fun v stored => (holding.inputs_past here v stored).trans high
  have inv := holding.compaction
  unfold Harmless at inv ⊢
  rw [phase]
  cases under : s.phase with
  | idle => trivial
  | picked job => exact Tail.mono (by simpa [under] using inv) tables
  | sampled job w => exact Tail.mono (by simpa [under] using inv) tables
  | marked job w =>
    simp only [under] at inv ⊢
    exact ⟨inv.1.mono tables, spares job w inv.1 inv.2⟩
  | merged job table =>
    simp only [under] at inv ⊢
    obtain ⟨here, w, made, spared⟩ := inv
    exact ⟨here.mono tables, w, made, spares job w here spared⟩
  | removing ids => trivial

theorem Holding.change (known : s.txns id = some t) {t' : Txn} {db : Db}
    {active : List Nat} (grown : Db.Grown K s.db db) (snapshot : t'.readSnap = t.readSnap)
    (ended : t'.finished = false → t.finished = false) (clean : Db.Clean K t'.writes)
    (registered : Registered { s.setTxn id t' with db := db, activeTxns := active }) :
    Holding K { s.setTxn id t' with db := db, activeTxns := active } := by
  refine ⟨grown.settled, registered, fun id' u found => ?_, fun id' u found => ?_, ?_⟩
  · rcases update_cases found with ⟨rfl, rfl⟩ | ⟨_, old⟩
    · exact clean
    · exact holding.clean id' u old
  · rcases update_cases found with ⟨rfl, rfl⟩ | ⟨_, old⟩
    · rw [snapshot]
      exact (holding.low id' t known).trans grown.applied
    · exact (holding.low id' u old).trans grown.applied
  · refine holding.undisturbed rfl grown.tables fun id' u found stillOpen => .inl ?_
    rcases update_cases found with ⟨rfl, rfl⟩ | ⟨_, old⟩
    · exact ⟨t, known, ended stillOpen, snapshot.symm⟩
    · exact ⟨u, old, stillOpen, rfl⟩

theorem Holding.install {job : Job} {table : Table} (under : s.phase = .merged job table) :
    ∃ front w, s.db.sstables = front ++ job.inputs ∧ job.merge w = .ok table ∧ s.Spares job w := by
  have inv := holding.compaction
  simp only [Harmless, under] at inv
  obtain ⟨⟨front, split⟩, w, made, spared⟩ := inv
  exact ⟨front, w, split, made, spared⟩

theorem Holding.compactStep (compacts : Compacts s s') : s'.Holding K := by
  have inv := holding.compaction
  cases compacts with
  | pick job picked => exact { holding with compaction := tail_picked picked }
  | sampleClock job under unlocked =>
    simp only [Harmless, under] at inv
    exact { holding with compaction := inv }
  | sampleTxns job w under =>
    simp only [Harmless, under] at inv
    -- Every open transaction is on the register that the watermark is taken from.
    refine { holding with compaction := ⟨inv, fun id t known stillOpen => .inl ?_⟩ }
    exact lowest_le known (holding.registered id t known stillOpen)
  | merge job w table under made =>
    simp only [Harmless, under] at inv
    have files : Db.Grown K s.db (s.db.writeMerged job table) := holding.settled.ahead rfl rfl rfl
      holding.settled.clock holding.settled.range
    exact ⟨files.settled, holding.registered, holding.clean, holding.low, inv.1, w, made, inv.2⟩
  | install job table under =>
    obtain ⟨front, w, split, made, -⟩ := holding.install under
    have collected : Db.Layered
        { s.db with frozen := none, sstables := front ++ [(job.outputID, table)] } K s.db.versions (max 0 w) :=
      holding.settled.layers.collect split made
    rw [take_front split]
    refine ⟨⟨collected.self, fun v stored => holding.settled.past v (collected.keeps.sub stored),
      holding.settled.clock, holding.settled.range⟩, holding.registered, holding.clean, holding.low, trivial⟩
  | remove dir phase ended =>
    have files : Db.Grown K s.db { s.db with dir := dir } := holding.settled.ahead rfl rfl rfl
      holding.settled.clock holding.settled.range
    refine ⟨files.settled, holding.registered, holding.clean, holding.low, ?_⟩
    rcases ended with rfl | ⟨ids, rfl⟩ <;> trivial

theorem Holding.call (prepares : s.prepares c = true) (orderly : s.Orderly K c)
    (moved : s.call c = some (s', replies)) : s'.Holding K := by
  have registered := holding.registered.call prepares moved
  cases call_cases moved with
  | begin id unknown =>
    -- The new transaction reads everything applied, so no compaction under way matters to it.
    refine ⟨holding.settled, registered, fun id' u found => ?_, fun id' u found => ?_, ?_⟩
    · rcases update_cases found with ⟨rfl, rfl⟩ | ⟨_, old⟩
      · exact .nil
      · exact holding.clean id' u old
    · rcases update_cases found with ⟨rfl, rfl⟩ | ⟨_, old⟩
      · exact le_refl _
      · exact holding.low id' u old
    · refine holding.undisturbed rfl ⟨[], rfl⟩ fun id' u found stillOpen => ?_
      rcases update_cases found with ⟨rfl, rfl⟩ | ⟨_, old⟩
      · exact .inr (le_refl _)
      · exact .inl ⟨u, old, stillOpen, rfl⟩
  | stay => exact holding
  | set id t t' known same snapshot clean =>
    exact holding.change known holding.settled.refl snapshot (fun stillOpen => same ▸ stillOpen)
      (clean K orderly (holding.clean id t known)) registered
  | ends id t t' db known stillOpen snapshot grown =>
    obtain ⟨grown, clean⟩ := grown K holding.settled orderly (holding.clean id t known)
    exact holding.change known grown snapshot (fun _ => stillOpen) clean registered
  | early id t known stillOpen gaveUp =>
    rw [gaveUp, Engine.prepares, known, all_some, stillOpen] at prepares
    cases prepares
  | apply e idx db ran applies =>
    subst applies
    have grown := holding.settled.apply orderly ran
    refine ⟨grown.settled, registered, holding.clean,
      fun id' u found => (holding.low id' u found).trans grown.applied, ?_⟩
    exact holding.undisturbed rfl grown.tables fun id' u found stillOpen => .inl ⟨u, found, stillOpen, rfl⟩
  | compact s' compacts => exact holding.compactStep compacts

theorem Holding.reads (free : Free K) (named : [] ∉ K) (known : s.txns id = some t) (stillOpen : t.finished = false)
    (compacts : Compacts s s') (k : Key) : s'.db.getAsOf k t.readSnap = s.db.getAsOf k t.readSnap := by
  cases compacts with
  | install job table under =>
    obtain ⟨front, w, split, made, spared⟩ := holding.install under
    have fits : t.readSnap < 2 ^ 64 :=
      (holding.low id t known).trans_lt (holding.settled.clock.trans holding.settled.range)
    have oldest := holding.settled.layers.read_collected k free named fits split made (spared id t known stillOpen)
    have tables : s.db.tables = front.map Prod.snd ++ job.inputs.map Prod.snd := by
      rw [Db.tables, split, map_append]
    have after : Db.tables { s.db with sstables := front ++ [(job.outputID, table)] } =
        front.map Prod.snd ++ [table] := by
      rw [Db.tables, map_append]
      rfl
    rw [take_front split, Db.getAsOf, Db.getAsOf, after, tables]
    exact if_congr Iff.rfl rfl (Db.getAsOfSnapshot_oldest oldest _ _)
  | _ => rfl

end

/--
Open transactions hold back garbage collection, if overrides prepare a commit before they return.

With keys that do not extend one another and entries in the order of their timestamps, no step of a compaction
changes what such a transaction reads.
-/
theorem open_registered {start : Db} {past : List Engine}
    (run : Run.Reach call (fun s c => s.prepares c = true) (new start) s past replies)
    (known : s.txns id = some t) (stillOpen : t.finished = false) :
    id ∈ s.activeTxns ∧ s.computeWatermark ≤ t.readSnap ∧
      ∀ K, Free K → [] ∉ K → start.Sound K →
        Run.Reach call (fun s c => s.prepares c = true ∧ s.Orderly K c) (new start) s past replies →
        ∀ a s', s.compactStep a = some s' → ∀ k, s'.db.getAsOf k t.readSnap = s.db.getAsOf k t.readSnap := by
  have registered : s.Registered := by
    refine run.invariant (P := fun s _ _ => s.Registered) (by simp [Registered, new]) ?_
    exact fun s c s' past replies new _ prepares moved inv => inv.call prepares moved
  have listed := registered id t known stillOpen
  refine ⟨listed, lowest_le known listed, fun K free named sound orderly a s' stepped => ?_⟩
  have init : (new start).Holding K := ⟨sound.settled, by simp [Registered, new], by simp [new], by simp [new], trivial⟩
  have holding : s.Holding K := by
    refine orderly.invariant (P := fun s _ _ => s.Holding K) init ?_
    exact fun s c s' past replies new _ meets moved inv => inv.call meets.1 meets.2 moved
  exact holding.reads free named known stillOpen (compactStep_cases stepped)

/-- Whether a call has keys of one byte and a timestamp left; no entry is applied. -/
def orderlyCheck (s : Engine) : Call → Bool
  | .put _ key _ => key.length = 1
  | .delete _ key => key.length = 1
  | .commit _ _ => s.db.nextTimestamp + 1 < 2 ^ 64
  | .override _ _ => s.db.nextTimestamp + 1 < 2 ^ 64
  | .apply _ _ => false
  | _ => true

theorem orderly_of_check (passed : orderlyCheck s c = true) : s.Orderly oneByte c := by
  cases c <;> simp_all [orderlyCheck, Orderly, oneByte]

/-- Two flushed commits of a key, a transaction between, a compaction. -/
def overwritten (between : List Call) : List Call :=
  [.begin 0, .put 0 [97] [1], .commit 0 none, .begin 1] ++ between ++
    [.begin 3, .put 3 [97] [2], .commit 3 none, .compact .pick, .compact .sampleClock, .compact .sampleTxns,
      .compact .merge]

/-- The merged table is written, with a transaction open at a snapshot. -/
def readerAt (id snapshot : Nat) (r : Engine × List Engine × List Reply) : Bool :=
  (r.1.txns id).any (fun t : Txn => !t.finished && t.readSnap == snapshot) &&
    (r.1.compactStep .install).isSome

/-- The registered reader still reads the first value after the merge. -/
theorem open_registered_overwritten : ∃ s s' past replies t,
    Run.Reach call (fun s c => s.prepares c = true) (new (Db.fresh ⟨1, 2⟩)) s past replies ∧
    s.txns 1 = some t ∧ t.finished = false ∧ s.compactStep .install = some s' ∧
    1 ∈ s.activeTxns ∧ s.computeWatermark ≤ t.readSnap ∧
    s'.db.getAsOf [97] t.readSnap = s.db.getAsOf [97] t.readSnap := by
  obtain ⟨s, past, replies, run, passed⟩ := Run.exec_exists call
    (fun s c => s.prepares c && orderlyCheck s c) (new (Db.fresh ⟨1, 2⟩)) (overwritten [.begin 2, .override 2 (.prepared true)])
    (readerAt 1 1) (by rfl)
  simp only [readerAt, and_eq_true, isSome_iff_exists] at passed
  obtain ⟨reader, s', installed⟩ := passed
  obtain ⟨t, known, open'⟩ := (any_eq_true _ _).mp reader
  have stillOpen : t.finished = false := by simp_all
  have orderly := run.weaken fun s c meets =>
    (show s.prepares c = true ∧ s.Orderly oneByte c from
      ⟨(and_eq_true_iff.mp meets).1, orderly_of_check (and_eq_true_iff.mp meets).2⟩)
  have prepared := orderly.weaken fun s c meets => meets.1
  obtain ⟨listed, low, stable⟩ := open_registered prepared known stillOpen
  refine ⟨s, s', past, replies, t, prepared, known, stillOpen, installed, listed, low, ?_⟩
  exact stable oneByte free_oneByte (by simp [oneByte]) (Db.sound_fresh ⟨1, 2⟩ oneByte) orderly .install s'
    installed [97]

/-- The transaction is open, not registered, and loses its value. -/
def losesReader (id snapshot : Nat) (key : Key) (value : Value) (r : Engine × List Engine × List Reply) : Bool :=
  (r.1.txns id).any (fun t : Txn => !t.finished && t.readSnap == snapshot) &&
    !r.1.activeTxns.contains id && decide (snapshot < r.1.computeWatermark) &&
    decide (r.1.db.getAsOf key snapshot = .ok value) &&
    (r.1.compactStep .install).any fun s' : Engine => decide (s'.db.getAsOf key snapshot = .error .keyNotFound)

/-- After an override returned too early, a compaction takes a read's value. -/
theorem reader_collected : ∃ s s' past replies t,
    Run.Reach call (fun _ _ => True) (new (Db.fresh ⟨1, 2⟩)) s past replies ∧
    s.txns 1 = some t ∧ t.finished = false ∧ 1 ∉ s.activeTxns ∧ t.readSnap < s.computeWatermark ∧
    s.db.getAsOf [97] t.readSnap = .ok [1] ∧ s.compactStep .install = some s' ∧
    s'.db.getAsOf [97] t.readSnap = .error .keyNotFound := by
  obtain ⟨s, past, replies, run, passed⟩ := Run.exec_exists call (fun _ _ => true) (new (Db.fresh ⟨1, 2⟩))
    (overwritten [.override 1 .early]) (losesReader 1 1 [97] [1]) (by rfl)
  simp only [losesReader, and_eq_true, decide_eq_true_eq] at passed
  obtain ⟨⟨⟨⟨reader, off⟩, high⟩, found⟩, after⟩ := passed
  obtain ⟨t, known, open'⟩ := (any_eq_true _ _).mp reader
  obtain ⟨s', installed, lost⟩ := (any_eq_true _ _).mp after
  simp only [and_eq_true, not_eq_true', beq_iff_eq] at open'
  obtain ⟨stillOpen, snapshot⟩ := open'
  rw [← snapshot] at high found lost
  exact ⟨s, s', past, replies, t, run.weaken fun _ _ _ => trivial, known, stillOpen, by simpa using off, high,
    found, installed, by simpa using lost⟩

end Engine

end Store
