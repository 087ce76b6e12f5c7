import LittleDb.Store.Applying
import LittleDb.Store.Snapshots

/-! Client sessions on a replicated log: a command that is retried takes effect once, and once only. -/

namespace Store

open Function List Entry

variable {e : Entry} {idx : Nat}

def Entry.Carries (session : Key) (seq : Nat) : Entry → Prop
  | .control => False
  | .data bytes => ∃ records marker, parseEntry bytes = .ok (records, marker) ∧
      marker.key = session ∧ decodeSeq marker.value = seq

def Entry.sessionOf : Entry → Key
  | .control => []
  | .data bytes =>
    match parseEntry bytes with
    | .error _ => []
    | .ok (_, marker) => marker.key

/-- The replicas of a group with their common log, and one client. -/
structure Group where
  /-- The log that all replicas apply, from index one on. -/
  log : List Entry
  /-- The client's entries that may still come into the log, in order. -/
  proposed : List (List UInt8)
  stores : Nat → Db
  applied : Nat → Nat
  seq : Nat

namespace Group

inductive Act where
  /-- The client commits a command, or tries again, through a replica. -/
  | commit (r : Nat) (t : Txn)
  /-- A prepared entry comes into the log; earlier ones never will. -/
  | settle (n : Nat)
  /-- An entry of somebody else comes into the log. -/
  | other (e : Entry)
  | apply (r : Nat)
  | flush (r : Nat)
  | compact (r : Nat) (watermark : Nat)

inductive Event where
  /-- A replica answered a commit with success and without an entry. -/
  | answered (r : Nat) (seq : Nat)
  /-- A replica applied an entry, with its data or without. -/
  | applied (r : Nat) (idx : Nat) (modified : Bool)
  deriving DecidableEq

def start (opts : Nat → Options) : Group :=
  ⟨[], [], fun r => Db.fresh (opts r), fun _ => 0, 0⟩

def entryAt (g : Group) (idx : Nat) : Entry := (g.log[idx - 1]?).getD .control

def setStore (g : Group) (r : Nat) (db : Db) : Group :=
  { g with stores := update g.stores r db }

def step (g : Group) : Act → Option (Group × List Event)
  | .commit r t =>
    match (g.stores r).prepareCommit t with
    | .error _ => some ({ g with seq := t.seq }, [])
    | .ok (_, none) => some ({ g with seq := t.seq }, [.answered r t.seq])
    | .ok (db, some (entry, _)) =>
      some ({ g.setStore r db with proposed := g.proposed ++ [entry], seq := t.seq }, [])
  | .settle n =>
    (g.proposed[n]?).map fun bytes =>
      ({ g with log := g.log ++ [.data bytes], proposed := g.proposed.drop (n + 1) }, [])
  | .other e => some ({ g with log := g.log ++ [e] }, [])
  | .apply r =>
    match g.log[g.applied r]? with
    | none => none
    | some e =>
      match e.apply (g.stores r) (g.applied r + 1) with
      | .error _ => none
      | .ok db =>
        some ({ g.setStore r db with applied := update g.applied r (g.applied r + 1) },
          [.applied r (g.applied r + 1) (e.modifies (g.stores r))])
  | .flush r =>
    match (g.stores r).flushLocked with
    | .error _ => none
    | .ok (db, _) => some (g.setStore r db, [])
  | .compact r watermark =>
    match (g.stores r).tryCompactOnce watermark with
    | .ok (some (db, _)) => some (g.setStore r db, [])
    | _ => none

/-- A client numbers its commands in order and shares no session. -/
def Disciplined (session : Key) (g : Group) : Act → Prop
  | .commit _ t => t.session = session ∧ t.finished = false ∧ g.seq ≤ t.seq ∧ t.seq < 2 ^ 64 ∧
      t.writes ≠ [] ∧ ∀ e ∈ t.writes, e.2.1 ≠ .commit ∧ headerSize + e.1.length < 2 ^ 32 ∧ e.2.2.length < 2 ^ 32
  | .other e => e.sessionOf ≠ session
  | _ => True

/-- A commit of a sequence number was reported successful by a replica. -/
def Succeeded (g : Group) (session : Key) (seq : Nat) (events : List Event) (r : Nat) : Prop :=
  .answered r seq ∈ events ∨
    ∃ idx modified, .applied r idx modified ∈ events ∧ (g.entryAt idx).Carries session seq

/-- Once success is reported, one entry with the number has modified every store. -/
def OnceOnly (g : Group) (session : Key) (seq : Nat) (events : List Event) : Prop :=
  ∀ r, g.Succeeded session seq events r →
    ∃ idx, (g.entryAt idx).Carries session seq ∧ .applied r idx true ∈ events ∧
      ∀ r' idx' modified, .applied r' idx' modified ∈ events →
        (g.entryAt idx').Carries session seq → (modified = true ↔ idx' = idx)

variable {session : Key}

/-- An entry of the client: it has data, and names the session. -/
def Own (session : Key) (e : Entry) : Prop :=
  ∃ bytes records marker, e = .data bytes ∧ parseEntry bytes = .ok (records, marker) ∧
    records ≠ [] ∧ marker.key = session

/-- The entries in the log and those that may still come, in order. -/
def queue (g : Group) : List Entry := g.log ++ g.proposed.map .data

theorem seqOf_other (foreign : e.sessionOf ≠ session) : e.seqOf session = 0 := by
  cases e with
  | control => rfl
  | data bytes =>
    cases parsed : parseEntry bytes with
    | error why => simp [Entry.seqOf, parsed]
    | ok result =>
      simp only [Entry.sessionOf, parsed] at foreign
      simp [Entry.seqOf, parsed, foreign]

theorem sessionOf_carries {seq : Nat} (carries : e.Carries session seq) :
    e.sessionOf = session ∧ e.seqOf session = seq := by
  cases e with
  | control => exact carries.elim
  | data bytes =>
    obtain ⟨records, marker, parsed, named, number⟩ := carries
    exact ⟨by simpa [Entry.sessionOf, parsed] using named, by simpa [Entry.seqOf, parsed, named] using number⟩

theorem carries_seqOf (positive : 0 < e.seqOf session) : e.Carries session (e.seqOf session) := by
  cases e with
  | control => cases positive
  | data bytes =>
    cases parsed : parseEntry bytes with
    | error why => simp [Entry.seqOf, parsed] at positive
    | ok result =>
      obtain ⟨records, marker⟩ := result
      by_cases named : marker.key = session
      · exact ⟨records, marker, parsed, named, by simp [Entry.seqOf, parsed, named]⟩
      · simp [Entry.seqOf, parsed, named] at positive

theorem highestSeq_congr {source source' : Nat → Entry} {n : Nat} (same : ∀ i, 0 < i → i ≤ n → source i = source' i) :
    highestSeq source session n = highestSeq source' session n := by
  induction n with
  | zero => rfl
  | succ n ih =>
    rw [highestSeq, highestSeq, ih fun i positive low => same i positive (by omega),
      same (n + 1) (by omega) (le_refl _)]

theorem highestSeq_attained (source : Nat → Entry) (session : Key) (n : Nat) : highestSeq source session n = 0 ∨
    ∃ i, 0 < i ∧ i ≤ n ∧ (source i).seqOf session = highestSeq source session n := by
  induction n with
  | zero => exact .inl rfl
  | succ n ih =>
    rw [highestSeq]
    rcases le_total (highestSeq source session n) ((source (n + 1)).seqOf session) with above | below
    · rw [max_eq_right above]
      exact .inr ⟨n + 1, by omega, le_refl _, rfl⟩
    · rw [max_eq_left below]
      rcases ih with none | ⟨i, positive, low, found⟩
      · exact .inl none
      · exact .inr ⟨i, positive, by omega, found⟩

/-- What holds of the group along every run with a disciplined client. -/
structure Inv (session : Key) (g : Group) (events : List Event) : Prop where
  clock : ∀ r, (g.stores r).nextTimestamp < 2 ^ 64
  behind : ∀ r, g.applied r ≤ g.log.length
  table : ∀ r, (g.stores r).sessions session = highestSeq g.entryAt session (g.applied r)
  own : ∀ e ∈ g.queue, e.sessionOf = session → Own session e
  ordered : g.queue.Pairwise fun a b => b.sessionOf = session → a.seqOf session ≤ b.seqOf session
  reached : ∀ e ∈ g.queue, e.seqOf session ≤ g.seq
  recorded : ∀ r idx, 0 < idx → idx ≤ g.applied r → ∃ modified, .applied r idx modified ∈ events
  modified : ∀ r idx modified, .applied r idx modified ∈ events → 0 < idx ∧ idx ≤ g.applied r ∧
    ((g.entryAt idx).sessionOf = session →
      (modified = true ↔ highestSeq g.entryAt session (idx - 1) < (g.entryAt idx).seqOf session))
  answered : ∀ r seq, .answered r seq ∈ events → seq = 0 ∨
    ∃ idx, 0 < idx ∧ idx ≤ g.applied r ∧ (g.entryAt idx).Carries session seq

theorem entryAt_grown {g g' : Group} (grown : g.log <+: g'.log) (positive : 0 < idx)
    (within : idx ≤ g.log.length) : g'.entryAt idx = g.entryAt idx := by
  obtain ⟨more, whole⟩ := grown
  rw [entryAt, entryAt, ← whole, getElem?_append_left (by omega)]

theorem entryAt_mem (g : Group) (positive : 0 < idx) (within : idx ≤ g.log.length) : g.entryAt idx ∈ g.queue := by
  have low : idx - 1 < g.log.length := by omega
  refine mem_append_left _ ?_
  rw [entryAt, getElem?_eq_getElem low]
  exact getElem_mem low

namespace Inv

variable {g g' : Group} {events : List Event}

theorem moved (inv : Inv session g events) (grown : g.log <+: g'.log) (same : g'.applied = g.applied)
    (tables : ∀ r, (g'.stores r).sessions = (g.stores r).sessions) (clock : ∀ r, (g'.stores r).nextTimestamp < 2 ^ 64)
    (own : ∀ e ∈ g'.queue, e.sessionOf = session → Own session e)
    (ordered : g'.queue.Pairwise fun a b => b.sessionOf = session → a.seqOf session ≤ b.seqOf session)
    (reached : ∀ e ∈ g'.queue, e.seqOf session ≤ g'.seq) : Inv session g' events := by
  have entries : ∀ r idx, 0 < idx → idx ≤ g.applied r → g'.entryAt idx = g.entryAt idx :=
    fun r idx positive low => entryAt_grown grown positive (low.trans (inv.behind r))
  have highest : ∀ r n, n ≤ g.applied r →
      highestSeq g'.entryAt session n = highestSeq g.entryAt session n := fun r n low =>
    highestSeq_congr fun i positive within => entries r i positive (within.trans low)
  refine ⟨clock, fun r => ?_, fun r => ?_, own, ordered, reached, fun r idx positive low => ?_, ?_, ?_⟩
  · rw [same]
    exact (inv.behind r).trans grown.length_le
  · rw [tables, inv.table, same, highest r _ (le_refl _)]
  · exact inv.recorded r idx positive (same ▸ low)
  · intro r idx modified listed
    obtain ⟨positive, low, iff⟩ := inv.modified r idx modified listed
    rw [same, entries r idx positive low, highest r (idx - 1) (by omega)]
    exact ⟨positive, low, iff⟩
  · intro r seq listed
    rcases inv.answered r seq listed with zero | ⟨idx, positive, low, carries⟩
    · exact .inl zero
    · refine .inr ⟨idx, positive, same ▸ low, ?_⟩
      rw [entries r idx positive low]
      exact carries

variable {r seq : Nat} {db : Db} {bytes : List UInt8}

variable (inv : Inv session g events)

include inv

theorem setStore (table : db.sessions = (g.stores r).sessions) (clock : db.nextTimestamp < 2 ^ 64) :
    Inv session (g.setStore r db) events := by
  refine inv.moved (List.prefix_refl _) rfl ?_ ?_ inv.own inv.ordered inv.reached
  · exact (forall_update_iff g.stores fun r' db => db.sessions = (g.stores r').sessions).mpr ⟨table, fun _ _ => rfl⟩
  · exact (forall_update_iff g.stores fun _ db => db.nextTimestamp < 2 ^ 64).mpr ⟨clock, fun r' _ => inv.clock r'⟩

theorem setSeq (later : g.seq ≤ seq) : Inv session { g with seq := seq } events :=
  inv.moved (List.prefix_refl _) rfl (fun _ => rfl) inv.clock inv.own inv.ordered
    fun e listed => (inv.reached e listed).trans later

theorem propose (own : Own session (.data bytes)) (last : (Entry.data bytes).seqOf session = g.seq) :
    Inv session { g with proposed := g.proposed ++ [bytes] } events := by
  have whole : ({ g with proposed := g.proposed ++ [bytes] } : Group).queue =
      g.queue ++ [.data bytes] := by simp [queue]
  refine inv.moved (List.prefix_refl _) rfl (fun _ => rfl) inv.clock ?_ ?_ ?_
  · rw [whole]
    intro e listed named
    rcases mem_append.mp listed with old | new
    · exact inv.own e old named
    · rwa [mem_singleton.mp new]
  · rw [whole]
    refine pairwise_append.mpr ⟨inv.ordered, by simp, fun a old b new _ => ?_⟩
    rw [mem_singleton.mp new, last]
    exact inv.reached a old
  · rw [whole]
    intro e listed
    rcases mem_append.mp listed with old | new
    · exact inv.reached e old
    · rw [mem_singleton.mp new, last]

theorem settle {n : Nat} (chosen : g.proposed[n]? = some bytes) :
    Inv session { g with log := g.log ++ [.data bytes], proposed := g.proposed.drop (n + 1) }
      events := by
  have within : bytes :: g.proposed.drop (n + 1) = g.proposed.drop n := by
    obtain ⟨low, rfl⟩ := List.getElem?_eq_some_iff.mp chosen
    exact (drop_eq_getElem_cons low).symm
  -- The entries that were passed over leave the queue, and the others stay in order.
  have thinner : ({ g with log := g.log ++ [.data bytes], proposed := g.proposed.drop (n + 1) } :
      Group).queue.Sublist g.queue := by
    have front : ({ g with log := g.log ++ [.data bytes], proposed := g.proposed.drop (n + 1) } :
        Group).queue = g.log ++ (g.proposed.drop n).map .data := by
      rw [← within]
      simp [queue]
    rw [front]
    exact (List.Sublist.refl _).append ((drop_sublist n _).map _)
  exact inv.moved (List.prefix_append ..) rfl (fun _ => rfl) inv.clock
    (fun e listed => inv.own e (thinner.subset listed)) (inv.ordered.sublist thinner)
    fun e listed => inv.reached e (thinner.subset listed)

theorem other (foreign : e.sessionOf ≠ session) : Inv session { g with log := g.log ++ [e] } events := by
  have whole : ({ g with log := g.log ++ [e] } : Group).queue = g.log ++ e :: g.proposed.map .data := by simp [queue]
  have listed : ∀ a, a ∈ g.log ++ e :: g.proposed.map .data → a = e ∨ a ∈ g.queue := by
    intro a inside
    simp only [mem_append, mem_cons] at inside
    rcases inside with logged | same | waiting
    · exact .inr (mem_append_left _ logged)
    · exact .inl same
    · exact .inr (mem_append_right _ waiting)
  refine inv.moved (List.prefix_append ..) rfl (fun _ => rfl) inv.clock ?_ ?_ ?_
  · rw [whole]
    intro a inside named
    rcases listed a inside with rfl | old
    · exact absurd named foreign
    · exact inv.own a old named
  · rw [whole]
    obtain ⟨front, back, across⟩ := pairwise_append.mp inv.ordered
    -- A foreign entry counts as number zero of the client's session.
    refine pairwise_append.mpr ⟨front, pairwise_cons.mpr ⟨fun b _ _ => ?_, back⟩, ?_⟩
    · rw [seqOf_other foreign]
      exact Nat.zero_le _
    · intro a logged b behind named
      rcases mem_cons.mp behind with rfl | waiting
      · exact absurd named foreign
      · exact across a logged b waiting named
  · rw [whole]
    intro a inside
    rcases listed a inside with rfl | old
    · rw [seqOf_other foreign]
      exact Nat.zero_le _
    · exact inv.reached a old

theorem answer (known : g.seq ≤ (g.stores r).sessions session) : Inv session g (.answered r g.seq :: events) := by
  have table := inv.table r
  refine ⟨inv.clock, inv.behind, inv.table, inv.own, inv.ordered, inv.reached, ?_, ?_, ?_⟩
  · intro r' idx positive low
    obtain ⟨modified, listed⟩ := inv.recorded r' idx positive low
    exact ⟨modified, mem_cons_of_mem _ listed⟩
  · intro r' idx modified listed
    rcases mem_cons.mp listed with other | old
    · cases other
    · exact inv.modified r' idx modified old
  · intro r' seq listed
    rcases mem_cons.mp listed with new | old
    · obtain ⟨rfl, rfl⟩ := Event.answered.inj new
      -- The table has the highest number applied, and the client has not been beyond it.
      rcases highestSeq_attained g.entryAt session (g.applied r') with none | ⟨i, positive, low, found⟩
      · left
        omega
      · rcases Nat.eq_zero_or_pos g.seq with zero | some
        · exact .inl zero
        · have last := inv.reached _ (g.entryAt_mem positive (low.trans (inv.behind r')))
          have same : (g.entryAt i).seqOf session = g.seq := by omega
          exact .inr ⟨i, positive, low, same ▸ carries_seqOf (by omega)⟩
    · exact inv.answered r' seq old

theorem apply (named : session ≠ []) (next : g.log[g.applied r]? = some e)
    (ran : e.apply (g.stores r) (g.applied r + 1) = .ok db) : Inv session
      { g.setStore r db with applied := update g.applied r (g.applied r + 1) }
      (.applied r (g.applied r + 1) (e.modifies (g.stores r)) :: events) := by
  have low : g.applied r < g.log.length := (List.getElem?_eq_some_iff.mp next).1
  have entry : g.entryAt (g.applied r + 1) = e := by simp [entryAt, next]
  -- No replica has applied fewer entries than before.
  have counts : ∀ r', g.applied r' ≤ update g.applied r (g.applied r + 1) r' :=
    (forall_update_iff g.applied fun r' n => g.applied r' ≤ n).mpr ⟨Nat.le_succ _, fun _ _ => le_refl _⟩
  refine ⟨?_, ?_, fun r' => ?_, inv.own, inv.ordered, inv.reached, ?_, ?_, ?_⟩
  · exact (forall_update_iff g.stores fun _ db => db.nextTimestamp < 2 ^ 64).mpr
      ⟨apply_clock ran (inv.clock r), fun r' _ => inv.clock r'⟩
  · exact (forall_update_iff g.applied fun _ n => n ≤ g.log.length).mpr ⟨low, fun r' _ => inv.behind r'⟩
  · by_cases here : r' = r
    · subst here
      simp only [Group.setStore, update_self]
      rw [apply_sessions ran named, inv.table, ← entry]
      rfl
    · simp only [Group.setStore, update_of_ne here]
      exact inv.table r'
  · intro r' idx positive within
    by_cases here : r' = r ∧ idx = g.applied r + 1
    · obtain ⟨rfl, rfl⟩ := here
      exact ⟨_, mem_cons_self ..⟩
    · have old : idx ≤ g.applied r' := by
        by_cases same : r' = r
        · subst same
          simp only [update_self] at within
          have other : idx ≠ g.applied r' + 1 := fun last => here ⟨rfl, last⟩
          omega
        · simpa only [Group.setStore, update_of_ne same] using within
      obtain ⟨modified, listed⟩ := inv.recorded r' idx positive old
      exact ⟨modified, mem_cons_of_mem _ listed⟩
  · intro r' idx modified listed
    rcases mem_cons.mp listed with new | old
    · obtain ⟨rfl, rfl, rfl⟩ := Event.applied.inj new
      refine ⟨Nat.succ_pos _, by simp, fun owned => ?_⟩
      change (g.entryAt (g.applied r' + 1)).sessionOf = session at owned
      -- An own entry modifies exactly if its number is above all before it.
      have mine := inv.own _ (g.entryAt_mem (Nat.succ_pos _) low) owned
      rw [entry] at mine
      obtain ⟨bytes, records, marker, rfl, parsed, filled, rfl⟩ := mine
      have number : (Entry.data bytes).seqOf marker.key = decodeSeq marker.value := by
        simp [Entry.seqOf, parsed]
      change _ ↔ highestSeq g.entryAt marker.key (g.applied r' + 1 - 1) <
        (g.entryAt (g.applied r' + 1)).seqOf marker.key
      rw [modifies_iff parsed filled named, inv.table, Nat.add_sub_cancel, entry, number]
    · obtain ⟨positive, within, iff⟩ := inv.modified r' idx modified old
      exact ⟨positive, within.trans (counts r'), iff⟩
  · intro r' seq listed
    rcases mem_cons.mp listed with other | old
    · cases other
    · rcases inv.answered r' seq old with zero | ⟨idx, positive, within, carries⟩
      · exact .inl zero
      · exact .inr ⟨idx, positive, within.trans (counts r'), carries⟩

/-- Each step with a disciplined client keeps the invariant. -/
theorem step {a : Act} {new : List Event} (named : session ≠ []) (small : headerSize + session.length < 2 ^ 32)
    (meets : g.Disciplined session a) (moved : g.step a = some (g', new)) : Inv session g' (new ++ events) := by
  cases a with
  | commit r t =>
    obtain ⟨rfl, -, later, range, filled, fits⟩ := meets
    unfold Group.step at moved
    cases ran : (g.stores r).prepareCommit t with
    | error why =>
      simp only [ran, Option.some.injEq, Prod.mk.injEq] at moved
      obtain ⟨rfl, rfl⟩ := moved
      -- A refused commit still takes its number.
      exact inv.setSeq later
    | ok result =>
      obtain ⟨db, prepared⟩ := result
      rcases Db.prepareCommit_cases ran with ⟨rfl, rfl, why⟩ | ⟨entry, ts, rfl, prepared⟩
      · simp only [ran, Option.some.injEq, Prod.mk.injEq] at moved
        obtain ⟨rfl, rfl⟩ := moved
        -- Nothing is proposed because the store has applied the number.
        have known : t.seq ≤ (g.stores r).sessions t.session :=
          (why.resolve_left filled).2
        exact (inv.setSeq later).answer known
      · simp only [ran, Option.some.injEq, Prod.mk.injEq] at moved
        obtain ⟨rfl, rfl⟩ := moved
        have parsed := prepared.parsed (inv.clock r) small fits
        have marker : Db.sessionMarker t ts = ⟨.commit, ts, t.session, encodeSeq t.seq⟩ := by
          rw [Db.sessionMarker, if_neg named]
        have number : (Entry.data entry).seqOf t.session = t.seq := by
          simp [Entry.seqOf, parsed, marker, decodeSeq_encodeSeq range]
        have same : db.sessions = (g.stores r).sessions := by rw [prepared.moved]
        have clock : db.nextTimestamp < 2 ^ 64 := by
          rw [prepared.moved]
          exact Nat.mod_lt _ (by decide)
        have stored := (inv.setStore same clock).setSeq later
        refine stored.propose ⟨entry, _, _, rfl, parsed, ?_, by rw [marker]⟩ number
        simpa [dataRecords] using filled
  | settle n =>
    obtain ⟨bytes, chosen, same⟩ := Option.map_eq_some_iff.mp moved
    cases same
    exact inv.settle chosen
  | other e =>
    cases moved
    exact inv.other meets
  | apply r =>
    unfold Group.step at moved
    cases next : g.log[g.applied r]? with
    | none => simp [next] at moved
    | some e =>
      cases ran : e.apply (g.stores r) (g.applied r + 1) with
      | error why => simp [next, ran] at moved
      | ok db =>
        simp only [next, ran, Option.some.injEq, Prod.mk.injEq] at moved
        obtain ⟨rfl, rfl⟩ := moved
        exact inv.apply named next ran
  | flush r =>
    unfold Group.step at moved
    cases ran : (g.stores r).flushLocked with
    | error why => simp [ran] at moved
    | ok result =>
      obtain ⟨db, dirs⟩ := result
      simp only [ran, Option.some.injEq, Prod.mk.injEq] at moved
      obtain ⟨rfl, rfl⟩ := moved
      obtain ⟨table, clock, -⟩ := Db.flushLocked_keeps ran
      exact inv.setStore table (clock ▸ inv.clock r)
  | compact r watermark =>
    dsimp only [Group.step] at moved
    split at moved
    · next db dirs ran =>
      cases moved
      obtain ⟨table, clock, -⟩ := Db.tryCompactOnce_keeps ran
      exact inv.setStore table (clock ▸ inv.clock r)
    · cases moved

theorem seqOf_le {i j : Nat} (positive : 0 < i) (before : i < j) (within : j ≤ g.log.length)
    (named : (g.entryAt j).sessionOf = session) : (g.entryAt i).seqOf session ≤ (g.entryAt j).seqOf session := by
  have front := (pairwise_append.mp inv.ordered).1
  have low : i - 1 < g.log.length := by omega
  have high : j - 1 < g.log.length := by omega
  have at_i : g.entryAt i = g.log[i - 1] := by simp [entryAt, getElem?_eq_getElem low]
  have at_j : g.entryAt j = g.log[j - 1] := by simp [entryAt, getElem?_eq_getElem high]
  rw [at_j] at named
  rw [at_i, at_j]
  exact pairwise_iff_getElem.mp front (i - 1) (j - 1) low high (by omega) named

theorem first_new (within : idx ≤ g.log.length) (carries : (g.entryAt idx).Carries session seq)
    (positive : 1 ≤ seq) (first : ∀ i, 0 < i → i < idx → ¬ (g.entryAt i).Carries session seq) :
    highestSeq g.entryAt session (idx - 1) < seq := by
  obtain ⟨named, number⟩ := sessionOf_carries carries
  rcases highestSeq_attained g.entryAt session (idx - 1) with none | ⟨i, some, low, found⟩
  · omega
  · have ordered := inv.seqOf_le some (by omega) within named
    have other : (g.entryAt i).seqOf session ≠ seq := fun same =>
      first i some (by omega) (same ▸ carries_seqOf (by omega))
    omega

theorem once_only (positive : 1 ≤ seq) : g.OnceOnly session seq events := by
  classical
  intro r succeeded
  -- In both cases the replica has applied an entry with the number.
  have applied : ∃ idx, 0 < idx ∧ idx ≤ g.applied r ∧ (g.entryAt idx).Carries session seq := by
    rcases succeeded with answered | ⟨idx, modified, listed, carries⟩
    · exact (inv.answered r seq answered).resolve_left (by omega)
    · obtain ⟨some, low, -⟩ := inv.modified r idx modified listed
      exact ⟨idx, some, low, carries⟩
  -- The first one is the one that counts.
  obtain ⟨some, low, carries⟩ := Nat.find_spec applied
  have first : ∀ i, 0 < i → i < Nat.find applied → ¬ (g.entryAt i).Carries session seq :=
    fun i here before holds => Nat.find_min applied before ⟨here, by omega, holds⟩
  have new := inv.first_new (low.trans (inv.behind r)) carries positive first
  obtain ⟨named, number⟩ := sessionOf_carries carries
  obtain ⟨modified, listed⟩ := inv.recorded r _ some low
  refine ⟨Nat.find applied, carries, ?_, ?_⟩
  · have took : modified = true := ((inv.modified r _ _ listed).2.2 named).mpr (by rw [number]; exact new)
    rwa [took] at listed
  · intro r' idx modified' listed' carries'
    obtain ⟨some', low', iff⟩ := inv.modified r' idx modified' listed'
    obtain ⟨named', number'⟩ := sessionOf_carries carries'
    rw [iff named', number']
    constructor
    · intro newer
      by_contra other
      rcases lt_or_ge idx (Nat.find applied) with before | behind
      · exact first idx some' before carries'
      · -- Behind the first one the table has the number.
        have known := seqOf_le_highestSeq g.entryAt session some (show Nat.find applied ≤ idx - 1 by omega)
        omega
    · intro same
      rw [same]
      exact new

end Inv

theorem inv_start (session : Key) (opts : Nat → Options) : Inv session (start opts) [] := by
  refine ⟨fun _ => by simp [start, Db.fresh], fun _ => le_refl _, fun _ => rfl, ?_, ?_, ?_, ?_, ?_, ?_⟩
  · simp [queue, start]
  · simp [queue, start]
  · simp [queue, start]
  · intro r idx positive low
    exact absurd low (by simpa [start] using positive.ne')
  · simp
  · simp

/-- The first command of a client that starts to count at zero. -/
def zeroth (session : Key) : Txn := ⟨0, [([97], .put, [1])], false, session, 0⟩

theorem step_zeroth {session : Key} (named : session ≠ []) (opts : Nat → Options) :
    (start opts).step (.commit 0 (zeroth session)) = some (start opts, [.answered 0 0]) := by
  simp [step, start, zeroth, Db.prepareCommit, Db.fresh, named]

theorem run_zeroth {session : Key} (named : session ≠ []) (opts : Nat → Options) :
    Run.Reach step (Disciplined session) (start opts) (start opts) [start opts] [.answered 0 0] := by
  have meets : (start opts).Disciplined session (.commit 0 (zeroth session)) :=
    ⟨rfl, rfl, le_refl _, by simp [zeroth], by simp [zeroth], by simp [zeroth, headerSize]⟩
  exact .step _ .start meets (step_zeroth named opts)

/--
Retried commands take effect exactly once, if their numbers start at one.

With retries through any replica, lost entries and entries of others in between; number zero counts as used.
-/
theorem exactly_once (session : Key) (named : session ≠ []) (small : headerSize + session.length < 2 ^ 32)
    (opts : Nat → Options) (seq : Nat) :
    (∀ g past events, Run.Reach step (Disciplined session) (start opts) g past events →
      g.OnceOnly session seq events) ↔ 1 ≤ seq := by
  constructor
  · intro always
    by_contra zero
    obtain rfl : seq = 0 := by omega
    obtain ⟨idx, -, listed, -⟩ := always _ _ _ (run_zeroth named opts) 0 (.inl (by simp))
    simp at listed
  · intro positive g past events run
    have inv : Inv session g events :=
      run.invariant (P := fun g _ events => Inv session g events) (inv_start session opts)
        fun _ _ _ _ _ _ _ meets moved inv => inv.step named small meets moved
    exact inv.once_only positive

instance Disciplined.decidable (session : Key) (g : Group) : (a : Act) → Decidable (g.Disciplined session a)
  | .commit _ t => inferInstanceAs (Decidable (t.session = session ∧ t.finished = false ∧ g.seq ≤ t.seq ∧
      t.seq < 2 ^ 64 ∧ t.writes ≠ [] ∧
      ∀ e ∈ t.writes, e.2.1 ≠ .commit ∧ headerSize + e.1.length < 2 ^ 32 ∧ e.2.2.length < 2 ^ 32))
  | .other e => inferInstanceAs (Decidable (e.sessionOf ≠ session))
  | .settle _ | .apply _ | .flush _ | .compact _ _ => inferInstanceAs (Decidable True)

def numbered (value : Value) : Txn := ⟨0, [([97], .put, value)], false, [115], 1⟩

/-- A command and its retry come into the log, and two replicas apply. -/
def retried : List Act :=
  [.commit 0 (numbered [1]), .commit 1 (numbered [2]), .settle 0, .other .control, .settle 0,
    .apply 0, .apply 1, .apply 1, .apply 1, .commit 1 (numbered [3])]

/-- In such a run only the first of the two entries modifies a store. -/
theorem exactly_once_retried : ∃ g past events,
    Run.Reach step (Disciplined [115]) (start fun _ => ⟨0, 0⟩) g past events ∧
    events = [.answered 1 1, .applied 1 3 false, .applied 1 2 false, .applied 1 1 true, .applied 0 1 true] ∧
    g.OnceOnly [115] 1 events := by
  obtain ⟨g, past, events, run, passed⟩ := Run.exec_exists step
    (fun g a => decide (g.Disciplined [115] a)) (start fun _ => ⟨0, 0⟩) retried
    (fun r => decide (r.2.2 = [.answered 1 1, .applied 1 3 false, .applied 1 2 false, .applied 1 1 true,
      .applied 0 1 true])) (by decide +kernel)
  have meets : Run.Reach step (Disciplined [115]) (start fun _ => ⟨0, 0⟩) g past events :=
    run.weaken fun g a passed => of_decide_eq_true passed
  exact ⟨g, past, events, meets, of_decide_eq_true passed,
    (exactly_once [115] (by decide) (by decide) _ 1).mpr (le_refl _) g past events meets⟩

/-- A client that counts from zero is told that its lost command succeeded. -/
theorem zeroth_lost : ∃ g past events,
    Run.Reach step (Disciplined [115]) (start fun _ => ⟨0, 0⟩) g past events ∧
    g.Succeeded [115] 0 events 0 ∧ ¬ g.OnceOnly [115] 0 events ∧
    g.log = [] ∧ g.proposed = [] ∧ (g.stores 0).get [97] = .error .keyNotFound := by
  refine ⟨_, _, _, run_zeroth (by decide) _, .inl (by simp), fun once => ?_, rfl, rfl, rfl⟩
  obtain ⟨idx, -, listed, -⟩ := once 0 (.inl (by simp))
  simp at listed

end Group

end Store
