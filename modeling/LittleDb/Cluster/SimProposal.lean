import LittleDb.Cluster.SimReplication

/-! Proposals, membership changes, transfers and the apply loop simulate the protocol. -/

namespace Cluster

open Consensus Quorum List Members Node RaftLog

variable {founders : Nat} {tracked : Prop} {c : System} {events : List Event} {s s' : Abstract}
  {v : NodeID} {n : Node} {limit : Nat} {o : Outcomes}

variable {t' : Threads} {data : List UInt8} {id : NodeID} {j : Nat}

theorem ThreadSim.rethread {t : Threads} (x : ThreadSim founders tracked s limit ⟨n, t⟩)
    (rounds : t'.rounds = t.rounds) (applying : t'.applying = t.applying)
    (proposal : ∀ call data, t'.proposer = some call → call.stage = .ready .config data →
      t.proposer = some call ∨ (call.term = n.currentTerm ∧ n.role = .leader ∧
        Proposable founders n data)) : ThreadSim founders tracked s limit ⟨n, t'⟩ := by
  exact {
    rounds := by
      dsimp only
      rw [rounds]
      exact x.rounds
    fetched := by
      dsimp only
      rw [applying]
      exact x.fetched
    stored := by
      dsimp only
      rw [applying]
      exact x.stored
    proposal := by
      intro call data holds ready
      rcases proposal call data holds ready with old | ⟨term, leading, proposable⟩
      · exact x.proposal call data old ready
      · refine ⟨le_of_eq term, fun _ => ⟨?_, fun _ => proposable⟩⟩
        exact fun standing => Role.noConfusion (leading.symm.trans standing) }

section

variable (x : Sim founders tracked c events s)

include x

theorem Sim.rethread {n' : Node} (commit : n'.commitIndex = (c.node v).commitIndex)
    (term : n'.currentTerm = (c.node v).currentTerm) (role : n'.role = (c.node v).role) (log : n'.log = (c.node v).log)
    (rounds : t'.rounds = (c.server v).threads.rounds) (applying : t'.applying = (c.server v).threads.applying)
    (proposer : t'.proposer = none ∨ t'.proposer = (c.server v).threads.proposer) :
    ThreadSim founders tracked s c.nextTag ⟨n', t'⟩ := by
  refine ThreadSim.rethread ((x.threads v).same commit term role log) rounds applying ?_
  intro call data holds _
  rcases proposer with none | same
  · rw [none] at holds
    cases holds
  · rw [same] at holds
    exact .inl holds

theorem Local.thread {new : List Event}
    (rounds : t'.rounds = (c.server v).threads.rounds) (applying : t'.applying = (c.server v).threads.applying)
    (proposal : ∀ call data, t'.proposer = some call → call.stage = .ready .config data →
      (c.server v).threads.proposer = some call ∨ (call.term = (c.node v).currentTerm ∧
        (c.node v).role = .leader ∧ Proposable founders (c.node v) data))
    (happened : ∀ e ∈ new, EventSim tracked s e ∧ e.OwnedBy v) :
    Part founders tracked c s v ⟨⟨c.node v, t'⟩, [], new⟩ := by
  exact x.still (x.node v) ((x.threads v).rethread rounds applying proposal) (fun _ => .inl rfl)
    (fun p => .inl (congrFun rounds p)) (by simp) happened

theorem Sim.beginCommit (done : (c.server v).beginCommit c.nextTag = some o) : Part founders tracked c s v o := by
  unfold Server.beginCommit at done
  split_ifs at done
  cases done
  refine Local.thread x rfl rfl ?_ (by simp)
  rintro call data ⟨rfl⟩ ready
  cases ready

theorem Sim.prepare (done : (c.server v).prepare data = some o) : Part founders tracked c s v o := by
  unfold Server.prepare at done
  split at done
  · split_ifs at done
    cases done
    refine Local.thread x rfl rfl ?_ (by simp)
    rintro call data ⟨rfl⟩ ready
    cases ready
  · cases done

theorem Sim.cancel (done : (c.server v).cancel = some o) : Part founders tracked c s v o := by
  unfold Server.cancel at done
  split at done
  · split_ifs at done
    cases done
    exact Local.thread x rfl rfl (by simp) (by simp)
  · cases done

theorem Sim.leader_members (leading : (c.node v).role = .leader) :
    (c.node v).config.toFinset = (rules founders).members (c.node v).log.entries :=
  (x.node v).members fun follower => Role.noConfusion (leading.symm.trans follower)

theorem Sim.beginRemove (fits : ((c.node v).config.erase id).Fits)
    (done : (c.server v).beginRemove id c.nextTag = some o) : Part founders tracked c s v o := by
  unfold Server.beginRemove at done
  dsimp only at done
  split_ifs at done with allowed
  obtain ⟨_, leading, settled, _, _⟩ := allowed
  cases done
  refine Local.thread x rfl rfl ?_ (by simp)
  rintro call data ⟨rfl⟩ ready
  cases ready
  refine .inr ⟨rfl, leading, (c.node v).config.erase id, rfl, fits, ?_, settled⟩
  rw [← x.leader_members leading, toFinset_erase]
  exact near_erase ..

theorem Sim.promote (fits : ∀ join, (c.threads v).joins[j]? = some join → ((c.node v).config.insert join.id).Fits)
    (done : (c.server v).promote j c.nextTag = some o) : Part founders tracked c s v o := by
  unfold Server.promote at done
  dsimp only at done
  split at done
  · rename_i join found
    split_ifs at done with ready refused
    · cases done
      exact Local.thread x rfl rfl (fun _ _ holds _ => .inl holds) (by simp)
    · cases done
      simp only [ne_eq, not_or, Decidable.not_not] at refused
      obtain ⟨leading, term, settled⟩ := refused
      refine Local.thread x rfl rfl ?_ (by simp)
      rintro call data ⟨rfl⟩ ready
      cases ready
      refine .inr ⟨term.symm, leading, (c.node v).config.insert join.id, rfl, fits join found, ?_, settled⟩
      rw [← x.leader_members leading, toFinset_insert]
      exact near_insert ..
  · cases done

theorem Sim.beginAdd (done : (c.server v).beginAdd id = some o) : Part founders tracked c s v o := by
  unfold Server.beginAdd at done
  dsimp only at done
  split_ifs at done with allowed
  cases done
  have nx := x.node v
  obtain ⟨peers, next, matched, replies, equal, forgets, empties, more, source⟩ :=
    (c.node v).ensurePeer_eq id
  rw [show (c.server v).node = c.node v from rfl, equal]
  refine x.still ?_ (x.rethread rfl rfl rfl rfl rfl rfl (.inr rfl)) empties (fun _ => .inl rfl) (by simp) (by simp)
  · exact { nx with
      peers := by
        intro p member
        rcases source p member with old | ⟨_, other⟩
        · exact nx.peers p old
        · rw [← nx.id]
          exact other
      strangers := by
        intro p absent
        obtain ⟨unknown, silent⟩ := nx.strangers p fun old => absent (more old)
        constructor
        · rcases forgets p with same | zero
          · exact same.trans unknown
          · exact zero
        · rcases empties p with same | empty
          · exact same.trans silent
          · exact empty
      -- A learner that is new has acknowledged nothing.
      acks := by
        intro on leading p positive
        rcases forgets p with same | zero
        · dsimp only at positive ⊢
          rw [same] at positive ⊢
          exact nx.acks on leading p positive
        · dsimp only at positive
          omega }

theorem Sim.pollAdd (done : (c.server v).pollAdd j = some o) : Part founders tracked c s v o := by
  unfold Server.pollAdd at done
  split at done
  · split_ifs at done <;> cases done <;> exact Local.thread x rfl rfl (fun _ _ holds _ => .inl holds) (by simp)
  · cases done

theorem Sim.expireAdd (done : (c.server v).expireAdd j = some o) : Part founders tracked c s v o := by
  unfold Server.expireAdd at done
  split at done
  · cases done
    exact Local.thread x rfl rfl (fun _ _ holds _ => .inl holds) (by simp)
  · cases done

theorem Sim.gate (leading : (c.node v).role = .leader) {kind : EntryKind} {term : Nat}
    (proposable : kind = .config → Proposable founders (c.node v) data)
    (behind : kind = .config → tracked ∧ (c.node v).Begins) :
    ∀ set, (rules founders).reconf ⟨term, kind, data⟩ = some set → Near ((rules founders).members (s.log v)) set ∧
    ∃ k l, s.Opened (rules founders) v (s.term v) k l ∧ l <+: s.log v ∧ ∀ pos, k ≤ pos →
    ¬ (rules founders).ReconfAt (s.log v) pos := by
  have nx := x.node v
  intro set reconf
  cases kind with
  | data => cases reconf
  | config =>
    obtain ⟨m, encoded, fits, near, settled⟩ := proposable rfl
    obtain ⟨on, begins⟩ := behind rfl
    have same : set = m.toFinset := by
      have value : some (decodeConfig data).toFinset = some set := reconf
      rw [encoded, decodeConfig_encodeConfig fits] at value
      exact (Option.some.inj value).symm
    rw [same, nx.log, nx.term]
    have plain := plain_above_commit nx.whole founders settled
    rcases begins with own | ⟨first, none⟩
    · -- The leader's own commit covers every configuration entry before the new one.
      obtain ⟨l, commit, pre⟩ := nx.own on leading own
      exact ⟨near, (c.node v).commitIndex, l, .inl commit, pre, plain⟩
    · -- The first leader has no configuration entry at all.
      rw [none] at plain
      exact ⟨near, 0, [], .inr ⟨first, rfl, rfl⟩, List.nil_prefix, plain⟩

end

theorem NodeSim.appendOwn (x : NodeSim founders tracked s v n) (leading : n.role = .leader) (running : n.up = true)
    {e : Entry} (inside : tracked → n.commitIndex ≤ n.log.entries.length) :
    NodeSim founders tracked (s.append v e) v (Server.appendOwn n e) := by
  have whole : (n.log.append e).Whole := x.whole.append e
  have role : (Server.appendOwn n e).role = .leader := leading
  have log : (s.append v e).log v = (n.log.append e).entries := by
    show Function.update s.log v (s.log v ++ [e]) v = n.log.entries ++ [e]
    rw [Function.update_self, x.log]
  have members := x.members fun follower => Role.noConfusion (leading.symm.trans follower)
  exact { x with
    whole := whole
    log := log
    leads := x.leads
    candidate := fun standing => Role.noConfusion (role.symm.trans standing)
    config := by
      intro _
      -- A configuration entry is the newest one, and a data entry leaves the newest one alone.
      show (if e.kind = .config then decodeConfig e.data else n.config) = _
      split_ifs with kind
      · unfold Node.deriveConfig
        rw [show (Server.appendOwn n e).log = n.log.append e from rfl, lastIndex_append,
          RaftLog.latestConfig, if_neg (by simp [x.whole.1]), whole.entryAt, x.whole.lastIndex]
        simp [RaftLog.append, kind]
      · rw [x.config running]
        refine (deriveConfig_append (n := n) (Server.appendOwn n e) rfl
          (show _ = n.log.entries ++ [e] from rfl) ?_).symm
        intro y member
        rw [mem_singleton.mp member]
        cases other : e.kind with
        | data => rfl
        | config => exact absurd other kind
    members := by
      intro _
      show (if e.kind = .config then decodeConfig e.data else n.config).toFinset =
        (rules founders).members (n.log.entries ++ [e])
      rw [Rules.members_append, ← members]
      split_ifs with kind
      · simp [rules, kind]
      · simp [rules, kind]
    own := by
      intro on _ at_
      -- The commit index is inside the old log.
      have before : n.log.term n.commitIndex = some n.currentTerm := by
        have below := inside on
        change (n.log.append e).term n.commitIndex = _ at at_
        cases index : n.commitIndex with
        | zero =>
          rw [index, whole.term_zero] at at_
          rw [x.whole.term_zero]
          exact at_
        | succ i =>
          rw [index, whole.term] at at_
          rw [x.whole.term]
          simp only [RaftLog.append] at at_
          rwa [getElem?_append_left (by omega)] at at_
      obtain ⟨l, commit, pre⟩ := x.own on leading before
      exact ⟨l, commit, pre.trans (List.prefix_append _ _)⟩ }

variable (x : Sim founders tracked c events s)

include x

theorem Sim.propose (running : (c.node v).up = true)
    (gate : ∀ call data, (c.threads v).proposer = some call → call.stage = .ready .config data →
      tracked ∧ (c.node v).Begins)
    (done : (c.server v).propose = some o) : Part founders tracked c s v o := by
  have nx := x.node v
  unfold Server.propose at done
  split at done
  · rename_i call term purpose kind data holder
    dsimp only at done
    rw [show (c.server v).node = c.node v from rfl] at done
    split_ifs at done with refused
    · cases done
      refine Local.thread x rfl rfl (by simp) ?_
      intro e recorded
      rw [mem_singleton.mp recorded]
      exact ⟨trivial, trivial⟩
    · simp only [ne_eq, not_or, Decidable.not_not] at refused
      obtain ⟨leading, current, _⟩ := refused
      split at done
      · cases done
      · rename_i node new commit
        cases done
        have proposable : kind = .config → Proposable founders (c.node v) data := by
          rintro rfl
          exact (((x.threads v).proposal _ data holder rfl).2 current.symm).2 leading
        have behind : kind = .config → tracked ∧ (c.node v).Begins := by
          rintro rfl
          exact gate _ data holder rfl
        have append : Turn (rules founders) v s (s.append v ⟨term, kind, data⟩) := by
          refine Turn.append (nx.leads.mpr leading) ?_ (x.gate leading proposable behind)
          rw [nx.term]
          exact current.symm
        have appended := nx.appendOwn leading running (e := ⟨term, kind, data⟩)
          (fun on => (x.backed on v).inside x.safe)
        have safe : Safe (rules founders) (s.append v ⟨term, kind, data⟩) :=
          Safe.of_reachable (append.reach x.reach)
        obtain ⟨s', k, settle, acks, leads, rfl, higher, final, happened⟩ :=
          appended.settle safe leading commit
        have grown : (s.append v ⟨term, kind, data⟩).led v term
            ((c.node v).log.append ⟨term, kind, data⟩).entries := by
          refine .inr ⟨rfl, by rw [nx.term, current], ?_⟩
          rw [nx.log]
          rfl
        have recorded : Event.appended v call
            (Server.appendOwn (c.node v) ⟨term, kind, data⟩).log.lastIndex ⟨term, kind, data⟩ ∈
            Event.appended (c.node v).id call (Server.appendOwn (c.node v)
              ⟨term, kind, data⟩).log.lastIndex ⟨term, kind, data⟩ :: new := by
          rw [nx.id]
          exact mem_cons_self
        refine ⟨s', Local.of_turn x (append.trans settle) ⟨?_, ?_⟩ final ?_ (fun _ => .inl rfl)
          (fun _ => .inl rfl) (by simp) ?_⟩
        · exact fun ack => acks ack
        · intro w t l led
          rw [leads] at led
          rcases led with old | ⟨rfl, _, rfl⟩
          · exact .inl old
          · refine .inr ⟨rfl, ?_, .inr ⟨_, _, _, recorded, ?_⟩⟩ <;>
            · rw [nx.log]
              rfl
        · -- The caller now waits, so nothing is left to propose.
          have threads := (x.threads v).mono (append.trans settle) (Nat.le_succ _)
          exact {
            rounds := threads.rounds
            fetched := fun on idx e reads => ⟨(threads.fetched on idx e reads).1,
              le_trans (threads.fetched on idx e reads).2 higher⟩
            stored := fun on idx stores => le_trans (threads.stored on idx stores) higher
            proposal := by
              rintro other data ⟨rfl⟩ ready
              cases ready }
        · intro e recorded
          rcases mem_cons.mp recorded with rfl | later
          · have length : ((c.node v).log.append ⟨term, kind, data⟩).lastIndex =
                (c.node v).log.entries.length + 1 := by
              rw [lastIndex_append, nx.whole.lastIndex]
            refine ⟨⟨?_, _, settle.led (by rw [nx.id]; exact grown), ?_⟩, trivial⟩
            · show 0 < ((c.node v).log.append ⟨term, kind, data⟩).lastIndex
              omega
            · show ((c.node v).log.append ⟨term, kind, data⟩).entries[
                ((c.node v).log.append ⟨term, kind, data⟩).lastIndex - 1]? = _
              rw [length]
              simp [RaftLog.append]
          · exact happened e later
  · cases done

theorem Sim.wake (done : (c.server v).wake = some o) : Part founders tracked c s v o := by
  unfold Server.wake at done
  split at done
  · dsimp only at done
    split_ifs at done <;> cases done <;> refine Local.thread x rfl rfl ?_ ?_
    · rintro call data ⟨rfl⟩ ready
      cases ready
    · simp [EventSim, Event.OwnedBy]
    · simp
    · simp [EventSim, Event.OwnedBy]
    · simp
    · simp [EventSim, Event.OwnedBy]
  · cases done

theorem Sim.relinquish (done : (c.server v).relinquish = some o) : Part founders tracked c s v o := by
  unfold Server.relinquish at done
  split at done
  · split_ifs at done
    cases done
    dsimp only
    rw [show (c.server v).node = c.node v from rfl]
    split_ifs
    · have turn := Turn.follow (R := rules founders) (v := v) s (t := (c.node v).currentTerm) (by rw [(x.node v).term])
      refine ⟨_, Local.of_turn x turn (Stamped.of_same rfl rfl)
        ((x.node v).rest x.safe.known fun running => running) ?_ (fun _ => .inl rfl)
        (fun _ => .inl rfl) (by simp) (by simp)⟩
      refine ThreadSim.mono ?_ turn (Nat.le_succ _)
      have follower : ThreadSim founders tracked s c.nextTag ⟨{ c.node v with role := .follower }, _⟩ :=
        (x.threads v).follow (le_refl _) (le_refl _) rfl
      exact follower.rethread rfl rfl (by simp)
    · exact Local.thread x rfl rfl (by simp) (by simp)
  · cases done

theorem Sim.beginTransfer {target : NodeID} (done : (c.server v).beginTransfer target = some o) :
    Part founders tracked c s v o := by
  unfold Server.beginTransfer at done
  dsimp only at done
  split_ifs at done
  cases done
  exact x.still { x.node v with } (x.rethread rfl rfl rfl rfl rfl rfl (.inr rfl)) (fun _ => .inl rfl)
    (fun _ => .inl rfl) (by simp) (by simp)

theorem Sim.pollTransfer (done : (c.server v).pollTransfer j c.nextTag = some o) : Part founders tracked c s v o := by
  unfold Server.pollTransfer at done
  dsimp only at done
  split at done
  · split_ifs at done <;> cases done
    · exact Local.thread x rfl rfl (fun _ _ holds _ => .inl holds) (by simp)
    · exact Local.thread x rfl rfl (fun _ _ holds _ => .inl holds) (by simp)
    · refine x.still (x.node v) (x.rethread rfl rfl rfl rfl rfl rfl (.inr rfl)) (fun _ => .inl rfl)
        (fun _ => .inl rfl) ?_ (by simp)
      intro pkt sent
      rw [mem_singleton.mp sent]
      exact ⟨trivial, Nat.lt_succ_self _, fun _ _ _ _ _ _ => trivial⟩
  · cases done

theorem Sim.abortTransfer (done : (c.server v).abortTransfer j = some o) : Part founders tracked c s v o := by
  unfold Server.abortTransfer at done
  split at done
  · cases done
    exact x.still { x.node v with } (x.rethread rfl rfl rfl rfl rfl rfl (.inr rfl)) (fun _ => .inl rfl)
      (fun _ => .inl rfl) (by simp) (by simp)
  · cases done

theorem Sim.fetch (done : (c.server v).fetch = some o) : Part founders tracked c s v o := by
  unfold Server.fetch at done
  dsimp only at done
  rw [show (c.server v).node = c.node v from rfl] at done
  split_ifs at done with ready
  split at done
  · cases done
  · rename_i e found
    cases done
    rw [(x.node v).whole.entryAt] at found
    refine x.still (x.node v) ?_ (fun _ => .inl rfl) (fun _ => .inl rfl) (by simp) (by simp)
    exact { x.threads v with
      fetched := by
        rintro on idx e' ⟨rfl⟩
        exact ⟨(x.backed on v).certified (Nat.succ_pos _) ready.2.2 found, ready.2.2⟩
      stored := fun _ _ stores => by cases stores }

theorem Sim.store (done : (c.server v).store = some o) : Part founders tracked c s v o := by
  unfold Server.store at done
  split at done
  · rename_i idx e reads
    cases done
    have threads := x.threads v
    refine x.still ?_ ?_ (fun _ => .inl rfl) (fun _ => .inl rfl) (by simp) ?_
    · exact { x.node v with stored := fun on => (threads.fetched on idx e reads).2 }
    · have same : ThreadSim founders tracked s c.nextTag ⟨{ c.node v with stored := idx }, _⟩ :=
        threads.same rfl rfl rfl rfl
      exact { same with
        fetched := fun _ _ _ fetches => by cases fetches
        stored := by
          rintro on idx' ⟨rfl⟩
          exact (threads.fetched on idx e reads).2 }
    · intro e' recorded
      rw [mem_singleton.mp recorded]
      exact ⟨fun on => (threads.fetched on idx e reads).1, trivial⟩
  · cases done

theorem Sim.finishApply (short : c.uncompacted (.finishApply v) = true)
    (done : (c.server v).finishApply c.settings = some o) : Part founders tracked c s v o := by
  unfold Server.finishApply at done
  split at done
  · rename_i idx stores
    have same : { c.node v with lastApplied := idx }.maybeCompact c.settings = _ :=
      maybeCompact_short (of_decide_eq_true short)
    rw [show (c.server v).node = c.node v from rfl, same] at done
    cases done
    have threads := x.threads v
    refine x.still ?_ ?_ (fun _ => .inl rfl) (fun _ => .inl rfl) (by simp) (by simp)
    · exact { x.node v with applied := fun on => threads.stored on idx stores }
    · have same : ThreadSim founders tracked s c.nextTag ⟨{ c.node v with lastApplied := idx }, _⟩ :=
        threads.same rfl rfl rfl rfl
      exact { same with
        fetched := fun _ _ _ fetches => by cases fetches
        stored := fun _ _ stores => by cases stores }
  · cases done

theorem Sim.abandon {p : NodeID} (done : (c.server v).abandon p = some o) : Part founders tracked c s v o := by
  have idle : Part founders tracked c s v ⟨⟨c.node v, { (c.server v).threads with
      rounds := Function.update (c.server v).threads.rounds p .idle }⟩, [], []⟩ :=
    x.still (x.node v) ((x.threads v).idle p) (fun _ => .inl rfl) (Round.update_idle _ p) (by simp) (by simp)
  unfold Server.abandon at done
  split at done
  · cases done
    exact idle
  · cases done
    exact idle
  · cases done

end Cluster
