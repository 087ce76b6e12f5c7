import LittleDb.Store.AppliedIndex
import LittleDb.Store.SessionsFile

/-! The session table survives crashes: the stored table and the log give every sequence number back. -/

namespace Store

open Function List

variable {b : Batch} {s : Life}

/-- The sequence number that an entry carries for a session, zero if none. -/
def Entry.seqOf (session : Key) : Entry → Nat
  | .control => 0
  | .data bytes =>
    match parseEntry bytes with
    | .error _ => 0
    | .ok (_, marker) => if marker.key = session then decodeSeq marker.value else 0

/-- The highest number of a session among the first entries. -/
def highestSeq (source : Nat → Entry) (session : Key) : Nat → Nat
  | 0 => 0
  | n + 1 => max (highestSeq source session n) ((source (n + 1)).seqOf session)

def sessionsOf (bs : List Batch) : Sessions := (bs.map Batch.marker).foldl noteSession fun _ => 0

variable {source : Nat → Entry} {db done : Db} {dir : Dir} {l : Ledger} {dirs : List Dir}

variable {session : Key} {dups new : List Batch} {n : Nat} {rest : List Record}

theorem noteSession_apply (sessions : Sessions) (marker : Record) (named : session ≠ []) :
    noteSession sessions marker session =
      max (sessions session) (if marker.key = session then decodeSeq marker.value else 0) := by
  unfold noteSession
  by_cases own : marker.key = session
  · subst own
    rw [if_pos rfl]
    by_cases newer : sessions marker.key < decodeSeq marker.value
    · rw [if_pos ⟨named, newer⟩, update_self, max_eq_right newer.le]
    · rw [if_neg fun both => newer both.2, max_eq_left (not_lt.mp newer)]
  · rw [if_neg own, Nat.max_zero]
    split_ifs
    · exact update_of_ne (Ne.symm own) _ _
    · rfl

theorem sessionsOf_snoc (bs : List Batch) (b : Batch) :
    sessionsOf (bs ++ [b]) = noteSession (sessionsOf bs) b.marker := by
  simp [sessionsOf]

theorem Entry.Gives.seqOf {e : Entry} (gives : e.Gives b) (named : session ≠ []) :
    e.seqOf session = if b.marker.key = session then decodeSeq b.marker.value else 0 := by
  cases e with
  | control => rw [if_neg fun same => named (same.symm.trans gives.2)]; rfl
  | data bytes =>
    obtain ⟨data, parsed, _⟩ := gives
    simp [Entry.seqOf, parsed]

theorem sessionsOf_eq {bs : List Batch} (matching : Matches source 0 bs)
    (named : session ≠ []) : sessionsOf bs session = highestSeq source session bs.length := by
  induction bs using List.reverseRecOn with
  | nil => rfl
  | append_singleton bs b ih =>
    have gives : (source (bs.length + 1)).Gives b := by simpa using matching.next (List.prefix_refl _)
    rw [sessionsOf_snoc, noteSession_apply _ _ named, ih (matching.front (List.prefix_append ..)),
      ← gives.seqOf named, length_append, length_singleton, highestSeq]

/-- The numbers that a session file gives, zero for unknown sessions. -/
def SessionMap.seqs (m : SessionMap) : Sessions := fun session => ((m session).map UInt64.toNat).getD 0

/-- The sessions of some batches are listed, each once. -/
theorem exists_entries (bs : List Batch) : ∃ entries : List (Key × UInt64), (entries.map Prod.fst).Nodup ∧
    entries.length ≤ bs.length ∧ (∀ e ∈ entries, ∃ b ∈ bs, b.marker.key = e.1) ∧
    (SessionMap.of entries).seqs = sessionsOf bs := by
  induction bs using List.reverseRecOn with
  | nil => exact ⟨[], by simp, by simp, by simp, rfl⟩
  | append_singleton bs b ih =>
    obtain ⟨entries, distinct, few, known, same⟩ := ih
    rw [sessionsOf_snoc, noteSession, ← same]
    split_ifs with newer
    · -- The session's entry is replaced by a new last one.
      let others := entries.filter fun e => e.1 ≠ b.marker.key
      have within : others.Sublist entries := filter_sublist
      have apart : (others.map Prod.fst).Nodup := distinct.sublist (within.map _)
      refine ⟨others ++ [(b.marker.key, UInt64.ofNat (decodeSeq b.marker.value))], ?_, ?_, fun e listed => ?_, ?_⟩
      · rw [map_append, nodup_append]
        refine ⟨apart, by simp, ?_⟩
        simp +contextual [others]
      · simpa using within.length_le.trans few
      · rcases mem_append.mp listed with old | new
        · obtain ⟨b', member, key⟩ := known e (within.subset old)
          exact ⟨b', by simp [member], key⟩
        · exact ⟨b, by simp, by rw [mem_singleton.mp new]⟩
      · have small : decodeSeq b.marker.value < 2 ^ 64 := by
          unfold decodeSeq
          split_ifs with brief
          · decide
          · have low := Bytes.toNat_lt (b.marker.value.take 8)
            rw [length_take_of_le (not_lt.mp brief)] at low
            exact low.trans_eq (by decide)
        funext session
        rw [SessionMap.of_snoc, SessionMap.put, SessionMap.seqs]
        by_cases own : session = b.marker.key
        · subst own
          simp [UInt64.toNat_ofNat_of_lt' small]
        · have kept : SessionMap.of others session = SessionMap.of entries session := by
            refine Option.ext fun seq => ?_
            rw [SessionMap.of_eq_some apart, SessionMap.of_eq_some distinct]
            simp [others, own]
          rw [update_of_ne own, update_of_ne own, kept]
          rfl
    · refine ⟨entries, distinct, few.trans (by simp), fun e listed => ?_, rfl⟩
      obtain ⟨b', member, key⟩ := known e listed
      exact ⟨b', by simp [member], key⟩

theorem seqOf_le_highestSeq (source : Nat → Entry) (session : Key) {i : Nat} (positive : 0 < i) (within : i ≤ n) :
    (source i).seqOf session ≤ highestSeq source session n := by
  induction n with
  | zero => omega
  | succ n ih =>
    rw [highestSeq]
    rcases lt_or_ge n i with last | earlier
    · obtain rfl : i = n + 1 := by omega
      exact le_max_right ..
    · exact (ih earlier).trans (le_max_left ..)

/-- The stored session table is that of the entries below the base. -/
def Filed (dir : Dir) (l : Ledger) : Prop :=
  dir.sessions = sessionsOf (l.batches.take dir.appliedBase)

theorem Indexed.base_le (indexed : Indexed source dir l dups new rest) : dir.appliedBase ≤ l.stored.length := by
  have base := indexed.base
  omega

theorem take_batches (low : n ≤ l.stored.length) : l.batches.take n = l.stored.take n := take_append_of_le_length low

theorem Indexed.sessions (indexed : Indexed source dir l dups new rest) (filed : Filed dir l) :
    ((dups ++ new).map Batch.marker).foldl noteSession dir.sessions = sessionsOf l.batches := by
  obtain ⟨older, split⟩ := indexed.journal.stored
  have base := indexed.base
  have size : older.length = dir.appliedBase := by
    have total := congrArg List.length split
    simp only [length_append, length_map] at total
    omega
  have below : (l.stored.take dir.appliedBase).map Batch.marker = older := by
    rw [map_take, ← split, ← size, take_left]
  have behind : (l.logged.map Prod.fst).map Batch.marker = new.map Batch.marker := by
    rw [map_map]
    exact indexed.journal.views
  have all : l.batches.map Batch.marker = older ++ (dups ++ new).map Batch.marker := by
    rw [Ledger.batches, map_append, ← split, behind, map_append, append_assoc]
  rw [filed, take_batches indexed.base_le, sessionsOf, below, sessionsOf, all, foldl_append]

/-- An open database whose session table is that of the entries on its disk. -/
structure Attended (db : Db) (l : Ledger) : Prop where
  sessions : db.sessions = sessionsOf l.batches
  filed : Filed db.dir l

namespace Attended

theorem logged {db' : Db} (attended : Attended db l) (state : Running source db l)
    (logs : Db.Logged db db' b) : Attended db' (l.write b db'.dir.wal.length) := by
  obtain ⟨dups, new, rest, indexed, _⟩ := state.disk
  have grown : (l.write b db'.dir.wal.length).batches = l.batches ++ [b] := by
    simp [Ledger.batches, Ledger.write]
  constructor
  · rw [logs.sessions, attended.sessions, grown, sessionsOf_snoc]
  · have low : db'.dir.appliedBase ≤ (l.write b db'.dir.wal.length).stored.length := by
      rw [logs.dir]
      exact indexed.base_le
    rw [Filed, take_batches low, logs.dir]
    change db.dir.sessions = sessionsOf (l.stored.take db.dir.appliedBase)
    rw [← take_batches indexed.base_le]
    exact attended.filed

theorem flushing (attended : Attended db l) (state : Running source db l) (flush : Db.Flushing db done dirs) :
    Attended done (settled l (flushPoints l dirs)) ∧ ∀ i p, (flushPoints l dirs)[i]? = some p → i ≠ 1 → i ≠ 2 →
    Filed p.1 p.2 := by
  cases flush with
  | idle => exact ⟨attended, fun i p found => by simp [flushPoints] at found⟩
  | made t table =>
    have removed : l.held.removed.batches = l.batches := by
      simp [Ledger.held, Ledger.removed, Ledger.batches]
    have filed : Filed (db.flushed t).dir l.held.removed := by
      change db.sessions = sessionsOf (l.held.removed.batches.take db.appliedIndex)
      rw [removed, state.index, take_length]
      exact attended.sessions
    refine ⟨⟨attended.sessions.trans (by rw [← removed]; rfl), filed⟩, fun i p found one two => ?_⟩
    rcases i with _ | _ | _ | _ | i
    · cases found
      have held : l.held.batches = l.batches := by simp [Ledger.held, Ledger.batches]
      rw [Filed, held]
      exact attended.filed
    · exact absurd rfl one
    · exact absurd rfl two
    · cases found
      exact filed
    · simp [flushPoints, Db.flushDirs] at found

theorem batch {db' : Db} (attended : Attended db' (l.write b db'.dir.wal.length))
    (state : Running source db' (l.write b db'.dir.wal.length)) (flush : Db.Flushing db' done dirs) :
    Attended done (settled l (batchPoints l b (db'.dir :: dirs))) ∧
      ∀ i p, (batchPoints l b (db'.dir :: dirs))[i]? = some p → i ≠ 2 → i ≠ 3 → Filed p.1 p.2 := by
  obtain ⟨after, points⟩ := attended.flushing state flush
  refine ⟨by simpa [batchPoints] using after, fun i p found two three => ?_⟩
  cases i with
  | zero =>
    cases found
    exact attended.filed
  | succ i => exact points i p found (by omega) (by omega)

theorem work {points : List (Dir × Ledger)} {unbased : Option Nat} (attended : Attended db l)
    (state : Running source db l) (runs : Runs source db l done points unbased) : Attended done (settled l points) ∧
    ∀ i p, points[i]? = some p → unbased ≠ some i → unbased.map (· + 1) ≠ some i → Filed p.1 p.2 := by
  cases runs with
  | batch logs state' flush =>
    obtain ⟨after, stages⟩ := (attended.logged state logs).batch state' flush
    exact ⟨after, fun i p found one two => stages i p found (fun at2 => one (by rw [at2]))
      (fun at3 => two (by rw [at3]; rfl))⟩
  | flush flush =>
    obtain ⟨after, stages⟩ := attended.flushing state flush
    exact ⟨after, fun i p found one two => stages i p found (fun at1 => one (by rw [at1]))
      (fun at2 => two (by rw [at2]; rfl))⟩
  | compact compacts =>
    constructor
    · rw [settled_cons, settled_const, compacts.done]
      exact ⟨attended.sessions, attended.filed⟩
    · intro i p found _ _
      rcases mem_cons.mp (mem_of_getElem? found) with rfl | later
      · exact attended.filed
      · rw [compacts.dirs, map_map] at later
        obtain ⟨gone, _, rfl⟩ := mem_map.mp later
        exact attended.filed

end Attended

theorem Filed.cut (filed : Filed dir l) (indexed : Indexed source dir l dups new rest) :
    Filed { dir with wal := dir.wal.take n } (l.cut n) := by
  have low := indexed.base_le
  rw [Filed, take_batches (by exact low)]
  change dir.sessions = sessionsOf (l.stored.take dir.appliedBase)
  rw [← take_batches low]
  exact filed

namespace Life

/-- No crash falls between the removal of the log and the new session table. -/
def Act.filed : Act → Bool
  | .crashIn w stage _ => w.unbased ≠ some stage ∧ w.unbased.map (· + 1) ≠ some stage
  | _ => true

/-- The session table is that of the entries on disk, or will be once opened. -/
def Attends (s : Life) : Prop :=
  match s.host with
  | .up db => Attended db s.ledger
  | .down dir => Filed dir s.ledger

theorem Act.based_of_filed {a : Act} (placed : a.filed = true) : a.based = true := by
  cases a with
  | crashIn w stage cut =>
    simp only [Act.filed, decide_eq_true_eq] at placed
    simpa [Act.based] using placed.1
  | _ => rfl

/-- Each step keeps the session table. -/
theorem Attends.step {s' : Life} {a : Act} {new : List Unit} (attends : s.Attends) (counts : s.Counts source)
    (meets : s.follows source a = true ∧ s.spared a = true ∧ a.filed = true) (moved : s.step a = some (s', new)) :
    s'.Attends := by
  obtain ⟨follows, spared, placed⟩ := meets
  cases moves moved with
  | work ran => exact (Attended.work attends counts (Running.runs counts follows ran)).1
  | crash =>
    obtain ⟨dups, new, rest, indexed, _⟩ := Running.disk counts
    exact (Attended.filed attends).cut indexed
  | crashIn ran found =>
    simp only [Act.filed, decide_eq_true_eq] at placed
    have runs := Running.runs counts follows ran
    obtain ⟨dups, new, rest, indexed, _⟩ := (Running.work counts runs).2 _ _ found placed.1
    exact ((Attended.work attends counts runs).2 _ _ found placed.1 placed.2).cut indexed
  | reopen opened =>
    obtain ⟨dups, new, rest, indexed, recovers⟩ := counts
    obtain ⟨m, _, _, opened', _⟩ := recovers.opens _
    obtain rfl := Except.ok.inj (opened.symm.trans opened')
    exact ⟨indexed.sessions attends, attends⟩

/-- The base counts the entries of every such run, with their session table. -/
theorem attends_run {past : List Life} {events : List Unit}
    (run : Run.Reach step (fun s a => s.follows source a = true ∧ s.spared a = true ∧ a.filed = true) Life.start s
      past events) : s.Counts source ∧ s.Attends := by
  refine run.invariant (P := fun s _ _ => s.Counts source ∧ s.Attends) ?_ ?_
  · exact ⟨⟨[], [], [], .empty source, ⟨rfl, by simp, by simp [Loose]⟩⟩, rfl⟩
  · intro s a s' _ _ _ _ meets moved inv
    exact ⟨inv.1.step ⟨meets.1, meets.2.1, Act.based_of_filed meets.2.2⟩ moved, inv.2.step inv.1 meets moved⟩

/-- The stored session table of such a run is what its file gives. -/
theorem sessions_read {past : List Life} {events : List Unit}
    (run : Run.Reach step (fun s a => s.follows source a = true ∧ s.spared a = true ∧ a.filed = true) Life.start s
      past events) (few : s.ledger.batches.length < 2 ^ 63)
    (short : ∀ b ∈ s.ledger.batches, b.marker.key.length < 2 ^ 32) :
    ∃ (table : SessionTable) (file : List UInt8), table.FiledAs file ∧
      (readSessionsFile (some file)).map SessionMap.seqs = some s.host.dir.sessions := by
  have filed : Filed s.host.dir s.ledger := by
    have attends := (attends_run run).2
    unfold Attends at attends
    cases host : s.host with
    | up db => rw [host] at attends; exact attends.filed
    | down dir => rw [host] at attends; exact attends
  obtain ⟨entries, distinct, fewer, known, same⟩ := exists_entries (s.ledger.batches.take s.host.dir.appliedBase)
  have counted : entries.length < 2 ^ 63 := fewer.trans_lt ((length_take_le' ..).trans_lt few)
  have files : SessionTable.FiledAs ⟨entries, distinct, counted⟩ (writeSessionsFile entries) := by
    refine ⟨fun e listed => ?_, entries, .refl _, rfl⟩
    obtain ⟨b, member, key⟩ := known e listed
    exact key ▸ short b (mem_of_mem_take member)
  exact ⟨_, _, files, by rw [files.read, filed, ← same]; rfl⟩

/--
The session table survives every crash.

Opening what a crash left gives each session its highest number among the recovered entries, and recognizes them all.
-/
theorem session_table_recovered (source : Nat → Entry) {s : Life} {past : List Life}
    {events : List Unit} {dir : Dir}
    (run : Run.Reach step
      (fun s a => s.follows source a = true ∧ s.spared a = true ∧ a.filed = true) Life.start s past
      events)
    (left : s.host = .down dir) (opts : Options) :
    ∃ db, openWith dir opts = .ok db ∧ db.recoveredApplied = s.ledger.batches.length ∧
      (∀ session, session ≠ [] →
        db.sessionLastSeq session = highestSeq source session db.recoveredApplied) ∧
      ∀ i data marker bytes, 0 < i → i ≤ db.recoveredApplied → source i = .data bytes →
        parseEntry bytes = .ok (data, marker) → marker.key ≠ [] → db.duplicate marker = true := by
  obtain ⟨counts, attends⟩ := attends_run run
  unfold Counts at counts
  unfold Attends at attends
  rw [left] at counts attends
  obtain ⟨db, opened, counted, _⟩ := Left.opens counts opts
  obtain ⟨dups, new, rest, indexed, recovers⟩ := counts
  obtain ⟨m, _, _, opened', _⟩ := recovers.opens opts
  obtain rfl := Except.ok.inj (opened.symm.trans opened')
  have table : ∀ session, session ≠ [] →
      Db.sessionLastSeq (.reopened dir opts (dups ++ new) rest m) session =
        highestSeq source session s.ledger.batches.length := by
    intro session named
    rw [← sessionsOf_eq indexed.entries named, ← indexed.sessions attends]
    rfl
  refine ⟨_, opened, counted, fun session named => ?_, ?_⟩
  · rw [counted]
    exact table session named
  · intro i data marker bytes positive within entry parsed named
    -- The entry's number is at most the highest of its session.
    have low := seqOf_le_highestSeq source marker.key positive within
    rw [entry, counted, ← table marker.key named] at low
    simp only [Entry.seqOf, parsed, if_true] at low
    simp only [Db.duplicate, decide_eq_true_eq]
    exact ⟨named, low⟩

/-- One entry of a session, and control entries behind it. -/
def oneSessioned : Nat → Entry
  | 1 => .data (Framing.log encode [⟨.put, 1, [97], [1]⟩, ⟨.commit, 1, [115], encodeSeq 7⟩])
  | _ => .control

/-- An entry is applied and flushed, with a crash right behind the flush. -/
def crashesFiled : List Act :=
  [.reopen ⟨0, 0⟩, .work (applyNth oneSessioned 1), .crashIn .flush 3 0]

/-- Such a run recovers the sequence number of the session. -/
theorem session_table_recovered_flushed : ∃ s past events dir db,
    Run.Reach step (fun s a => s.follows oneSessioned a = true ∧ s.spared a = true ∧ a.filed = true)
      Life.start s past events ∧
    s.host = .down dir ∧ openWith dir ⟨0, 0⟩ = .ok db ∧ db.sessionLastSeq [115] = 7 := by
  obtain ⟨s, past, events, run, passed⟩ := Run.exec_exists step
    (fun s a => s.follows oneSessioned a && s.spared a && a.filed) Life.start crashesFiled
    (fun r => match r.1.host with
      | .up _ => false
      | .down _ => r.1.ledger.batches.length = 1) (by decide +kernel)
  have meets : Run.Reach step (fun s a => s.follows oneSessioned a = true ∧ s.spared a = true ∧
      a.filed = true) Life.start s past events :=
    run.weaken fun s a passed => by simpa [and_assoc] using passed
  cases left : s.host with
  | up db => simp [left] at passed
  | down dir =>
    obtain ⟨db, opened, counted, table, _⟩ := session_table_recovered oneSessioned meets left ⟨0, 0⟩
    have one : s.ledger.batches.length = 1 := by simpa [left] using passed
    refine ⟨s, past, events, dir, db, meets, left, opened, ?_⟩
    rw [table [115] (by decide), counted, one]
    decide +kernel

/-- An entry is applied, and its flush loses the log before the new table. -/
def crashesUnfiled : List Act :=
  [.reopen ⟨0, 0⟩, .work (applyNth oneSessioned 1), .crashIn .flush 1 0]

/-- A crash between the removal of the log and the new table loses sessions. -/
theorem session_table_lost : ∃ s past events dir db,
    Run.Reach step (fun s a => s.follows oneSessioned a = true ∧ s.spared a = true)
      Life.start s past events ∧
    s.host = .down dir ∧ openWith dir ⟨0, 0⟩ = .ok db ∧ db.recoveredApplied = 1 ∧
    highestSeq oneSessioned [115] db.recoveredApplied = 7 ∧ db.sessionLastSeq [115] = 0 := by
  obtain ⟨s, past, events, run, passed⟩ := Run.exec_exists step
    (fun s a => s.follows oneSessioned a && s.spared a) Life.start crashesUnfiled
    (fun r => r.1.reopens ⟨0, 0⟩ (Run.passes fun db =>
      decide (db.recoveredApplied = 1 ∧ db.sessionLastSeq [115] = 0))) (by decide +kernel)
  have meets : Run.Reach step (fun s a => s.follows oneSessioned a = true ∧ s.spared a = true)
      Life.start s past events :=
    run.weaken fun s a passed => by simpa using passed
  obtain ⟨dir, left, reopened⟩ := exists_of_reopens passed
  obtain ⟨db, opened, tested⟩ := Run.exists_of_passes reopened
  obtain ⟨counted, lost⟩ := of_decide_eq_true tested
  refine ⟨s, past, events, dir, db, meets, left, opened, counted, ?_, lost⟩
  rw [counted]
  decide +kernel

end Life

end Store
