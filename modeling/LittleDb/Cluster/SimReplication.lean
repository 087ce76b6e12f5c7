import LittleDb.Cluster.SimElection

/-! Replication simulates the protocol: shipping, storing, acknowledging and committing. -/

namespace Cluster

open Consensus Quorum List Node

variable {founders : Nat} {tracked : Prop} {c : System} {events : List Event} {s s' : Abstract}
  {v : NodeID} {n : Node} {limit : Nat}

variable {t commit : Nat} {log : List Entry} {m : AppendEntries} {p : NodeID} {pkt : Packet} {o : Outcomes}

theorem Backed.inside (safe : Safe (rules founders) s) (backed : Backed s t log commit) : commit ≤ log.length := by
  rcases backed with zero | ⟨m, u, k, l, source, _, below, shared⟩
  · omega
  · have long := (safe.commit_length source).2
    have same := congrArg List.length shared
    rw [length_take, length_take] at same
    omega

theorem Sim.backed (x : Sim founders tracked c events s) (on : tracked) (v : NodeID) :
    Backed s (c.node v).currentTerm (c.node v).log.entries (c.node v).commitIndex := by
  have nx := x.node v
  have ok := x.safe.commit_ok v
  rwa [nx.commit on, nx.term, nx.log] at ok

theorem Backed.certified (backed : Backed s t log commit) {idx : Nat} {e : Entry} (positive : 0 < idx)
    (below : idx ≤ commit) (found : log[idx - 1]? = some e) : Certified s idx e := by
  rcases backed with zero | ⟨m, u, k, l, source, _, inside, shared⟩
  · omega
  · refine ⟨m, u, k, l, source, positive, by omega, ?_⟩
    have same := congrArg (·[idx - 1]?) shared
    simp only [getElem?_take_of_lt (show idx - 1 < commit by omega)] at same
    rw [← same, found]

theorem Sim.matching (x : Sim founders tracked c events s) (v : NodeID) {m : NodeID}
    {l : List Entry} (led : s.led m t l) : Matching (c.node v).log.entries l := by
  intro i a b atA atB same
  rw [← (x.node v).log] at atA ⊢
  exact x.safe.one.matching x.safe.known (x.safe.known.log_from v).1
    (x.safe.known.pre_from led (List.prefix_refl l)) atA atB same

theorem NodeSim.yield (x : NodeSim founders tracked s v n) (known : Records (rules founders) s)
    (below : n.currentTerm ≤ t) (up : Bool) (alive : up = true → n.up = true) (contact : Option Nat) :
    NodeSim founders tracked (s.follow v t) v
      { n.catchUp t .ok with up := up, role := .follower, lastLeaderContact := contact } := by
  unfold Node.catchUp
  split_ifs with higher
  · rw [Node.stepDown, persist_ok]
    exact x.follow known below (fun same => by omega) alive false contact
  · have same : t = n.currentTerm := by omega
    subst same
    have follow := x.follow known (le_refl _) (fun _ => rfl) alive n.transferring contact
    rw [← x.disk] at follow
    exact follow

theorem NodeSim.deferTo (x : NodeSim founders tracked s v n) (known : Records (rules founders) s)
    (below : n.currentTerm ≤ t) (now : Nat) :
    NodeSim founders tracked (s.follow v t) v ((n.catchUp t .ok).deferTo now) := by
  refine x.yield known below (n.catchUp t .ok).up ?_ (some now)
  unfold Node.catchUp
  split_ifs <;> exact fun running => running

theorem Node.deferTo_eq (n : Node) (below : n.currentTerm ≤ t) (now : Nat) :
    ∃ vote transferring disk, (n.catchUp t .ok).deferTo now =
      { n with currentTerm := t, role := .follower, votedFor := vote
               transferring := transferring, lastLeaderContact := some now, disk := disk } := by
  unfold Node.catchUp
  split_ifs with higher
  · exact ⟨none, false, ⟨t, none⟩, rfl⟩
  · have same : t = n.currentTerm := by omega
    subst same
    exact ⟨n.votedFor, n.transferring, n.disk, rfl⟩

theorem stored_entries {l : RaftLog} (whole : l.Whole) {source : List Entry}
    (aligned : Matching l.entries source) (inside : m.prevLogIndex ≤ source.length)
    (part : m.entries = source.drop m.prevLogIndex)
    (prev : ∀ i y, m.prevLogIndex = i + 1 → source[i]? = some y → y.term = m.prevLogTerm)
    (matched : l.matchesPrev m.prevLogIndex m.prevLogTerm = true) :
    (l.appendWindow (m.prevLogIndex + 1) m.entries).1.Whole ∧
    (l.appendWindow (m.prevLogIndex + 1) m.entries).1.entries =
      if source <+: l.entries then l.entries else source := by
  have own := whole.matchesPrev matched
  have all : source.take (m.prevLogIndex + m.entries.length) = source := by
    rw [part, List.length_drop, take_of_length_le (by omega)]
  have result := appendWindow_entries whole (aligned.prev whole inside own prev)
    (whole.term_inside own) m.entries (by rw [part]) aligned
  rwa [all] at result

theorem NodeSim.storeEntries (x : NodeSim founders tracked s v n) (follower : n.role = .follower)
    (whole : (n.log.appendWindow (m.prevLogIndex + 1) m.entries).1.Whole)
    (entries : (n.log.appendWindow (m.prevLogIndex + 1) m.entries).1.entries = log)
    (same : s'.term v = s.term v ∧ ¬ s'.leads v ∧ s'.voted = s.voted) (stored : s'.log v = log)
    (commit : tracked → s'.commit v = (n.storeEntries m).commitIndex) :
    NodeSim founders tracked s' v (n.storeEntries m) := by
  have higher : n.commitIndex ≤ (n.storeEntries m).commitIndex := le_max_left _ _
  have role : (n.storeEntries m).role = .follower := follower
  exact { x with
    whole := whole
    term := same.1.trans x.term
    log := stored.trans entries.symm
    leads := by
      rw [role]
      exact ⟨fun leads => absurd leads same.2.1, fun leading => Role.noConfusion leading⟩
    voted := by
      rw [same.2.2]
      exact x.voted
    candidate := fun standing => Role.noConfusion (role.symm.trans standing)
    config := by
      intro running
      -- Without a configuration entry or a conflict the old configuration still applies.
      show (if (n.log.appendWindow (m.prevLogIndex + 1) m.entries).2 then _ else _) = _
      split_ifs with touched
      · rfl
      · rw [x.config running]
        obtain ⟨extra, longer, data⟩ := appendWindow_untouched (by simpa using touched)
        exact (deriveConfig_append (n := n) (n.storeEntries m) rfl longer data).symm
    members := fun other => absurd role other
    commit := commit
    acks := fun _ leading => Role.noConfusion (role.symm.trans leading)
    own := fun _ leading => Role.noConfusion (role.symm.trans leading)
    stored := fun on => le_trans (x.stored on) higher
    applied := fun on => le_trans (x.applied on) higher }

section

variable (x : Sim founders tracked c events s)

include x

theorem Sim.handleAppendEntries (member : pkt ∈ c.net) (isAppend : pkt.msg = .appendEntries m) :
    Handled founders tracked c s pkt.dst ((c.node pkt.dst).handleAppendEntries c.now m pkt.tag .ok) := by
  have nx := x.node pkt.dst
  have tagged : pkt.tag < c.nextTag + 1 := Nat.lt_succ_of_lt (x.tags pkt (.inl member))
  -- A rejection says nothing about the protocol.
  have reject : ∀ {hint : Nat} {s' : Abstract} {n' : Node}, Turn (rules founders) pkt.dst s s' →
      Stamped pkt.dst n'.log.entries [] s s' → NodeSim founders tracked s' pkt.dst n' →
      ThreadSim founders tracked s' (c.nextTag + 1) ⟨n', (c.server pkt.dst).threads⟩ →
      n'.respCh = (c.node pkt.dst).respCh → Part founders tracked c s pkt.dst ⟨⟨n', (c.server pkt.dst).threads⟩,
          [⟨m.sender, .appendResponse n'.id n'.currentTerm false 0 hint, pkt.tag⟩], []⟩ := by
    intro hint s' n' turn stamped node threads channel
    refine ⟨s', Local.of_turn x turn stamped node threads
      (fun p => .inl (congrFun channel p)) (fun _ => .inl rfl) ?_ (by simp)⟩
    intro reply sent
    rw [List.mem_singleton.mp sent]
    exact ⟨trivial, tagged, fun _ _ _ _ _ _ => trivial⟩
  unfold Node.handleAppendEntries
  dsimp only
  split_ifs with stale matched
  · exact reject (Turn.refl _ pkt.dst s) (Stamped.of_same rfl rfl) nx
      ((x.threads pkt.dst).mono (Turn.refl _ pkt.dst s) (Nat.le_succ _)) rfl
  · have below : (c.node pkt.dst).currentTerm ≤ m.term := by omega
    have shipped := x.net pkt member
    simp only [PacketSim, isAppend] at shipped
    obtain ⟨other, l, led, inside, part, prev, backed⟩ := shipped
    -- The node first follows in the message's term.
    have followed := Turn.follow (R := rules founders) (v := pkt.dst) s (t := m.term) (by rw [nx.term]; exact below)
    have node := nx.deferTo x.safe.known below c.now
    obtain ⟨vote, transferring, disk, equal⟩ := (c.node pkt.dst).deferTo_eq below c.now
    rw [equal] at matched node ⊢
    have term : (s.follow pkt.dst m.term).term pkt.dst = m.term := Function.update_self ..
    have log : (s.follow pkt.dst m.term).log pkt.dst = (c.node pkt.dst).log.entries := nx.log
    -- Then it stores the leader's log, unless it holds it already.
    obtain ⟨whole, entries⟩ := stored_entries nx.whole (x.matching pkt.dst led) inside part prev matched
    have merged : (if l <+: (c.node pkt.dst).log.entries then (c.node pkt.dst).log.entries else l) =
        (s.follow pkt.dst m.term).log pkt.dst ∨
        (¬ l <+: (s.follow pkt.dst m.term).log pkt.dst ∧
          (if l <+: (c.node pkt.dst).log.entries then (c.node pkt.dst).log.entries else l) <+: l ∧
          ∀ y, y <+: (s.follow pkt.dst m.term).log pkt.dst → y <+: l →
            y <+: if l <+: (c.node pkt.dst).log.entries then (c.node pkt.dst).log.entries else l) := by
      rw [log]
      split_ifs with held
      · exact .inl rfl
      · exact .inr ⟨held, List.prefix_refl l, fun _ _ right => right⟩
    have holds : l <+: if l <+: (c.node pkt.dst).log.entries then (c.node pkt.dst).log.entries
        else l := by
      split_ifs with held
      · exact held
      · exact List.prefix_refl l
    generalize (if l <+: (c.node pkt.dst).log.entries then (c.node pkt.dst).log.entries else l) =
      log' at entries merged holds
    have stored : Turn (rules founders) pkt.dst (s.follow pkt.dst m.term)
        ((s.follow pkt.dst m.term).store pkt.dst log') :=
      Turn.store (by rw [term]; exact led) other merged
    have kept : ((s.follow pkt.dst m.term).store pkt.dst log').log pkt.dst = log' :=
      Function.update_self ..
    have acked : Turn (rules founders) pkt.dst ((s.follow pkt.dst m.term).store pkt.dst log')
        (((s.follow pkt.dst m.term).store pkt.dst log').ack pkt.dst l) := by
      refine Turn.ack (n := m.sender) ?_ ?_
      · show s.led m.sender ((s.follow pkt.dst m.term).term pkt.dst) l
        rw [term]
        exact led
      · rw [kept]
        exact holds
    have turn := (followed.trans stored).trans acked
    -- Last it learns the leader's commit index, which lies inside the shipped log.
    have learned : ∃ s', Turn (rules founders) pkt.dst
        (((s.follow pkt.dst m.term).store pkt.dst log').ack pkt.dst l) s' ∧
        s'.term = (s.follow pkt.dst m.term).term ∧
        s'.leads = ((s.follow pkt.dst m.term).store pkt.dst log').leads ∧
        s'.voted = s.voted ∧ s'.log pkt.dst = log' ∧
        s'.acked = (((s.follow pkt.dst m.term).store pkt.dst log').ack pkt.dst l).acked ∧
        s'.led = s.led ∧ (tracked → s'.commit pkt.dst =
          max (c.node pkt.dst).commitIndex (min m.leaderCommit log'.length)) := by
      by_cases raises : tracked ∧ (c.node pkt.dst).commitIndex < min m.leaderCommit log'.length
      · obtain ⟨on, raises⟩ := raises
        rcases backed on with zero | ⟨w, u, k, l', source, reached, low, shared⟩
        · omega
        · have short := Backed.inside x.safe (.inr ⟨w, u, k, l', source, reached, low, shared⟩)
          have long := holds.length_le
          have value : min m.leaderCommit log'.length = m.leaderCommit := by omega
          refine ⟨State.learn _ pkt.dst m.leaderCommit, Turn.learn (n := w) (t := u) (k := k)
            (l := l') source ?_ low ?_, rfl, rfl, rfl, kept, rfl, rfl, ?_⟩
          · show u ≤ (s.follow pkt.dst m.term).term pkt.dst
            rw [term]
            exact reached
          · show (((s.follow pkt.dst m.term).store pkt.dst log').log pkt.dst).take _ = _
            rw [kept, ← take_eq_of_pre holds short, shared]
          · intro _
            rw [value] at raises ⊢
            rw [max_eq_right (le_of_lt raises)]
            exact Function.update_self ..
      · refine ⟨_, Turn.refl _ pkt.dst _, rfl, rfl, rfl, kept, rfl, rfl, ?_⟩
        intro on
        have low : min m.leaderCommit log'.length ≤ (c.node pkt.dst).commitIndex := by
          by_contra high
          exact raises ⟨on, by omega⟩
        rw [max_eq_left low]
        exact nx.commit on
    obtain ⟨s', learn, term', leads', voted', log'', acked', led', commit'⟩ := learned
    have total := turn.trans learn
    refine ⟨s', Local.of_turn x total ⟨?_, ?_⟩ ?_ ?_ (fun _ => .inl rfl) (fun _ => .inl rfl) ?_ (by simp)⟩
    · intro w t l' ack
      rw [acked'] at ack
      rcases ack with old | ⟨rfl, _, rfl⟩
      · exact .inl old
      · exact .inr ⟨rfl, entries ▸ holds⟩
    · intro w t l' leads
      rw [led'] at leads
      exact .inl leads
    · refine node.storeEntries rfl whole entries ⟨by rw [term'], ?_, voted'⟩ log'' ?_
      · rw [leads']
        simp [State.store]
      · intro on
        rw [commit' on]
        show _ = max _ (min _ (RaftLog.lastIndex _))
        rw [whole.lastIndex, entries]
    · exact ((x.threads pkt.dst).mono total (Nat.le_succ _)).follow (le_max_left _ _) below rfl
    · intro reply sent
      rw [List.mem_singleton.mp sent]
      refine ⟨trivial, tagged, ?_⟩
      intro w p roundTerm roundPrev count waits
      -- The round's own message tells which log was shipped.
      have asked := x.rounds w p roundTerm roundPrev count pkt.tag waits pkt (.inl member) rfl
      simp only [Answers, isAppend] at asked
      obtain ⟨target, sameTerm, size⟩ := asked
      refine ⟨nx.id.trans target, sameTerm, l, ?_, ?_⟩
      · rw [acked', ← target, ← sameTerm]
        exact .inr ⟨rfl, term.symm, rfl⟩
      · rw [← size, part, List.length_drop]
        omega
  · have below : (c.node pkt.dst).currentTerm ≤ m.term := by omega
    have followed := Turn.follow (R := rules founders) (v := pkt.dst) s (t := m.term) (by rw [nx.term]; exact below)
    have node := nx.deferTo x.safe.known below c.now
    obtain ⟨vote, transferring, disk, equal⟩ := (c.node pkt.dst).deferTo_eq below c.now
    rw [equal] at node ⊢
    exact reject followed (Stamped.of_same rfl rfl) node
      (((x.threads pkt.dst).mono followed (Nat.le_succ _)).follow (le_refl _) below rfl) rfl

theorem Local.halt (turn : Turn (rules founders) v s s') (same : s'.acked = s.acked ∧ s'.led = s.led)
    (node : NodeSim founders tracked s' v { n with up := false, role := .follower })
    (channel : n.respCh = (c.node v).respCh) :
    Local founders tracked c v s s' limit { server := System.halt n } := by
  refine Local.of_turn x turn (Stamped.of_same same.1 same.2) node ?_
    (fun p => .inl (congrFun channel p)) (fun _ => .inr rfl) (by simp) (by simp)
  exact ⟨fun _ => .inl rfl, by simp, by simp, by simp⟩

theorem Sim.halt_caught (limit : Nat) (v : NodeID) (t : Nat) : ∃ s', Local founders tracked c v s s' limit
      { server := System.halt ((c.node v).catchUp t .ok) } := by
  have nx := x.node v
  by_cases below : (c.node v).currentTerm ≤ t
  · have turn := Turn.follow (R := rules founders) (v := v) s (t := t) (by rw [nx.term]; exact below)
    refine ⟨_, Local.halt x turn ⟨rfl, rfl⟩ (nx.yield x.safe.known below false (by simp)
      ((c.node v).catchUp t .ok).lastLeaderContact) ?_⟩
    unfold Node.catchUp
    split_ifs <;> rfl
  · have same : (c.node v).catchUp t .ok = c.node v := if_neg (by omega)
    have turn := Turn.follow (R := rules founders) (v := v) s (t := (c.node v).currentTerm) (by rw [nx.term])
    rw [same]
    exact ⟨_, Local.halt x turn ⟨rfl, rfl⟩ (nx.rest x.safe.known (by simp)) rfl⟩

theorem Sim.stopInAppendEntries
    (member : pkt ∈ c.net) (isAppend : pkt.msg = .appendEntries m) (count : Nat) (cut : Bool) :
    ∃ s', Local founders tracked c pkt.dst s s' limit
      { server := System.halt ((c.node pkt.dst).stopInAppendEntries m count cut) } := by
  have nx := x.node pkt.dst
  have caught : ((c.node pkt.dst).catchUp m.term .ok).log = (c.node pkt.dst).log := by
    unfold Node.catchUp
    split_ifs <;> rfl
  have channel : ((c.node pkt.dst).catchUp m.term .ok).respCh = (c.node pkt.dst).respCh := by
    unfold Node.catchUp
    split_ifs <;> rfl
  unfold Node.stopInAppendEntries
  dsimp only
  split_ifs with stale matched
  · have same : (c.node pkt.dst).catchUp m.term .ok = c.node pkt.dst := if_neg (by omega)
    rw [← same]
    exact x.halt_caught _ pkt.dst m.term
  · have below : (c.node pkt.dst).currentTerm ≤ m.term := by omega
    have shipped := x.net pkt member
    simp only [PacketSim, isAppend] at shipped
    obtain ⟨other, l, led, inside, part, prev, _⟩ := shipped
    have followed := Turn.follow (R := rules founders) (v := pkt.dst) s (t := m.term) (by rw [nx.term]; exact below)
    have node := nx.yield x.safe.known below false (by simp) ((c.node pkt.dst).catchUp m.term .ok).lastLeaderContact
    rw [caught] at matched
    have own := nx.whole.matchesPrev matched
    have aligned := x.matching pkt.dst led
    -- What was stored before the stop is a part of the same merge.
    obtain ⟨whole, merged⟩ := stopInWindow_entries nx.whole count cut
      (aligned.prev nx.whole inside own prev) (nx.whole.term_inside own) part aligned
    have stored : Turn (rules founders) pkt.dst (s.follow pkt.dst m.term)
        ((s.follow pkt.dst m.term).store pkt.dst ((c.node pkt.dst).log.stopInWindow m count cut).entries) := by
      refine Turn.store (n := m.sender) (l := l) ?_ other ?_
      · show s.led m.sender (Function.update s.term pkt.dst m.term pkt.dst) l
        rw [Function.update_self]
        exact led
      · rw [← nx.log] at merged
        exact merged
    refine ⟨_, Local.halt x (followed.trans stored) ⟨rfl, rfl⟩ ?_ channel⟩
    rw [caught]
    exact { node with
      whole := whole
      log := Function.update_self ..
      leads := by simp [State.store]
      candidate := fun standing => Role.noConfusion standing
      config := fun running => by cases running
      members := fun other => absurd rfl other
      own := fun _ leading => Role.noConfusion leading }
  · exact x.halt_caught _ pkt.dst m.term

theorem Sim.shipped (target : p ∈ (c.node v).peers) (leading : (c.node v).role = .leader) {prev : Nat}
    (known : (c.node v).log.term prev = some t) (tag : Nat) : PacketSim founders tracked s
      ⟨p, .appendEntries ⟨(c.node v).id, (c.node v).currentTerm, prev, t,
        (c.node v).log.entriesAfter prev, (c.node v).commitIndex⟩, tag⟩ := by
  have nx := x.node v
  have led := (x.safe.known.led_top (nx.leads.mpr leading)).1
  rw [nx.term, nx.log] at led
  refine ⟨?_, (c.node v).log.entries, ?_, nx.whole.term_inside known, ?_, ?_, fun on => x.backed on v⟩
  · rw [nx.id]
    exact (nx.peers p target).symm
  · rw [nx.id]
    exact led
  · simp [RaftLog.entriesAfter, nx.whole.1]
  · intro i y at_ found
    dsimp only at at_
    rw [at_, nx.whole.term, found] at known
    exact Option.some.inj known

theorem Sim.replicate (done : (c.server v).replicate p c.nextTag = some o) : Part founders tracked c s v o := by
  have nx := x.node v
  unfold Server.replicate at done
  split_ifs at done with ready
  obtain ⟨target, -⟩ := ready
  split at done
  · cases done
  · rename_i round sends started
    cases done
    unfold Node.startRound at started
    dsimp only at started
    rw [show (c.server v).node = c.node v from rfl] at started
    split_ifs at started with follower zero compacted
    · cases started
      -- A replicator that ships nothing stays idle.
      exact x.still nx ((x.threads v).idle p) (fun _ => .inl rfl) (Round.update_idle _ p) (by simp) (by simp)
    · have base := nx.whole.1
      omega
    · simp only [ne_eq, Decidable.not_not] at follower
      split at started
      · cases started
      · rename_i t known
        cases started
        have sim := x.shipped target follower known c.nextTag
        have threads := (x.threads v).mono (Turn.refl (rules founders) v s) (Nat.le_succ c.nextTag)
        refine ⟨s, ?_⟩
        -- Only this round carries the new tag.
        have fresh : ∀ w q term prev count tag, (c.threads w).rounds q = .append term prev count tag →
            tag ≠ c.nextTag := by
          intro w q term prev count tag waits
          rcases (x.threads w).rounds q with still | ⟨_, _, _, _, other, below⟩
          · rw [System.threads, still] at waits
            cases waits
          · rw [System.threads, other] at waits
            cases waits
            omega
        exact {
          turn := Turn.refl _ v s
          stamped := Stamped.of_same rfl rfl
          node := nx
          threads := { threads with
            rounds := by
              intro q
              by_cases same : q = p
              · subst same
                exact .inr ⟨_, _, _, _, Function.update_self .., Nat.lt_succ_self _⟩
              · dsimp only
                rw [Function.update_of_ne same]
                exact threads.rounds q }
          channel := fun q pkt waits => ⟨.inr ⟨v, q, waits⟩, x.channel v q pkt waits⟩
          sends := by
            intro pkt sent
            rw [List.mem_singleton.mp sent]
            exact ⟨sim, Nat.lt_succ_self _⟩
          rounds := by
            intro q term prev count tag waits
            by_cases same : q = p
            · subst same
              dsimp only at waits
              rw [Function.update_self] at waits
              cases waits
              exact .inr (le_refl _)
            · dsimp only at waits
              rw [Function.update_of_ne same] at waits
              exact .inl waits
          answers := by
            intro pkt sent w q term prev count waits
            rw [List.mem_singleton.mp sent] at waits ⊢
            dsimp only at waits
            by_cases here : w = v
            · subst here
              rw [Function.update_self] at waits
              dsimp only at waits
              by_cases same : q = p
              · subst same
                rw [Function.update_self] at waits
                cases waits
                exact ⟨rfl, rfl, rfl⟩
              · rw [Function.update_of_ne same] at waits
                exact absurd rfl (fresh w q term prev count c.nextTag waits)
            · rw [Function.update_of_ne here] at waits
              exact absurd rfl (fresh w q term prev count c.nextTag waits)
          events := by simp }

end

theorem ThreadSim.raise {t : Threads} (x : ThreadSim founders tracked s limit ⟨n, t⟩) {k : Nat}
    (higher : n.commitIndex ≤ k) : ThreadSim founders tracked s limit ⟨{ n with commitIndex := k }, t⟩ := by
  exact { x with
    fetched := fun on idx e reads =>
      ⟨(x.fetched on idx e reads).1, le_trans (x.fetched on idx e reads).2 higher⟩
    stored := fun on idx stores => le_trans (x.stored on idx stores) higher
    proposal := by
      intro call data holds ready
      obtain ⟨below, current⟩ := x.proposal call data holds ready
      refine ⟨below, fun same => ⟨(current same).1, fun leading => ?_⟩⟩
      obtain ⟨members, encoded, fits, near, done⟩ := (current same).2 leading
      refine ⟨members, encoded, fits, near, ?_⟩
      -- A committed configuration entry stays committed.
      unfold Node.latestConfigEntryCommitted at done ⊢
      dsimp only at done ⊢
      split at done
      · exact decide_eq_true (le_trans (of_decide_eq_true done) higher)
      · rfl }

theorem NodeSim.counts_others (x : NodeSim founders tracked s v n) (reached : NodeID → Bool) :
    v ∉ n.votingPeers.filter reached := by
  intro counted
  have voter := (List.mem_filter.mp counted).1
  have away := (List.mem_filter.mp voter).2
  simp [x.id] at away

theorem NodeSim.settle (x : NodeSim founders tracked s v n) (safe : Safe (rules founders) s)
    (leading : n.role = .leader) {n' : Node} {new : List Event} (done : n.maybeAdvanceCommit = some (n', new)) :
    ∃ s' k, Turn (rules founders) v s s' ∧
      (∀ {w t l}, s'.acked w t l → s.acked w t l ∨ (w = v ∧ l <+: n.log.entries)) ∧
      s'.led = s.led ∧
      n' = { n with commitIndex := k } ∧ n.commitIndex ≤ k ∧
      NodeSim founders tracked s' v { n with commitIndex := k } ∧
      ∀ e ∈ new, EventSim tracked s' e ∧ e.OwnedBy v := by
  rcases maybeAdvanceCommit_cases done with
    ⟨rfl, rfl⟩ | ⟨cand, above, own, rfl, rfl, q, quorum, held⟩
  · exact ⟨s, n'.commitIndex, Turn.refl _ v s, .inl, rfl, rfl, le_refl _, x, by simp⟩
  by_cases on : tracked
  · have leads := x.leads.mpr leading
    obtain ⟨led, _⟩ := safe.known.led_top leads
    have ack := Turn.ack (R := rules founders) led (List.prefix_refl _)
    -- The leader's own log counts like an acknowledgement.
    have acks : ∀ p, cand ≤ n.heldIndex p →
        ∃ l, (s.ack v (s.log v)).acked p n.currentTerm l ∧ cand ≤ l.length := by
      intro p reached
      unfold Node.heldIndex at reached
      split_ifs at reached with self
      · refine ⟨s.log v, .inr ⟨self.trans x.id, x.term.symm, rfl⟩, ?_⟩
        rw [x.whole.lastIndex] at reached
        rw [x.log]
        exact reached
      · obtain ⟨l, acked, long⟩ := x.acks on leading p (by omega)
        exact ⟨l, .inl acked, by omega⟩
    obtain ⟨k, rfl⟩ : ∃ k, cand = k + 1 := ⟨cand - 1, by omega⟩
    rw [x.whole.term, Option.map_eq_some_iff] at own
    obtain ⟨e, present, term⟩ := own
    have inside := (List.getElem?_eq_some_iff.mp present).1
    have settle : Turn (rules founders) v (s.ack v (s.log v))
        ((s.ack v (s.log v)).settle v k) := by
      refine Turn.settle (x := e) (q := q) leads ?_ ?_ ?_ ?_
      · show (s.log v)[k]? = some e
        rw [x.log]
        exact present
      · show e.term = s.term v
        rw [x.term]
        exact term
      · show Majority ((rules founders).members (s.log v)) q
        rw [x.log, ← x.members fun follower => Role.noConfusion (leading.symm.trans follower)]
        exact quorum
      · intro w member
        obtain ⟨l, acked, long⟩ := acks w (held w member)
        refine ⟨l, ?_, long⟩
        show (s.ack v (s.log v)).acked w (s.term v) l
        rw [x.term]
        exact acked
    refine ⟨_, k + 1, ack.trans settle, ?_, rfl, rfl, le_of_lt above, ?_, ?_⟩
    · rintro w t l (old | ⟨rfl, _, rfl⟩)
      · exact .inl old
      · exact .inr ⟨rfl, by rw [x.log]⟩
    · exact { x with
        commit := fun _ => Function.update_self ..
        acks := by
          intro _ _ p positive
          obtain ⟨l, acked, long⟩ := x.acks on leading p positive
          exact ⟨l, .inl acked, long⟩
        own := fun _ _ _ => ⟨n.log.entries, .inr ⟨rfl, x.term.symm, rfl, x.log.symm⟩, List.prefix_refl _⟩
        stored := fun _ => le_trans (x.stored on) (le_of_lt above)
        applied := fun _ => le_trans (x.applied on) (le_of_lt above) }
    · intro e recorded
      rw [List.mem_singleton.mp recorded]
      refine ⟨⟨x.whole, fun _ => ⟨?_, inside, ?_⟩⟩, x.id, x.counts_others _⟩
      · rw [x.id, ← x.term, ← x.log]
        exact led
      · intro p member
        obtain ⟨voter, reached⟩ := List.mem_filter.mp member
        have away : p ≠ n.id := by simpa using (List.mem_filter.mp voter).2
        refine acks p ?_
        unfold Node.heldIndex
        rw [if_neg away]
        exact of_decide_eq_true reached
  · -- In untracked runs commit indices mean nothing to the protocol.
    refine ⟨s, cand, Turn.refl _ v s, .inl, rfl, rfl, le_of_lt above, ?_, ?_⟩
    · exact { x with
        commit := fun on' => absurd on' on
        acks := fun on' => absurd on' on
        own := fun on' => absurd on' on
        stored := fun on' => absurd on' on
        applied := fun on' => absurd on' on }
    · intro e recorded
      rw [List.mem_singleton.mp recorded]
      exact ⟨⟨x.whole, fun on' => absurd on' on⟩, x.id, x.counts_others _⟩

theorem Node.maybeCompact_short {settings : Settings}
    (short : settings.snapshotThreshold = 0 ∨ n.log.entries.length < settings.snapshotThreshold) :
    n.maybeCompact settings = some n :=
  if_pos (or_assoc.mp (.inl short))

theorem Sim.consume (x : Sim founders tracked c events s)
    (replies : tracked → ((c.node v).respCh p).map Packet.tag = ((c.threads v).rounds p).tag)
    (short : c.uncompacted (.consume v p .ok) = true)
    (done : (c.server v).consume c.settings p .ok = some o) : Part founders tracked c s v o := by
  have nx := x.node v
  unfold Server.consume at done
  obtain ⟨pkt, waiting, rest⟩ := Option.bind_eq_some_iff.mp done
  obtain ⟨resp, read, last⟩ := Option.bind_eq_some_iff.mp rest
  dsimp only at last
  rw [show (c.server v).node = c.node v from rfl] at waiting
  have taken : NodeSim founders tracked s v
      { c.node v with respCh := Function.update (c.node v).respCh p none } := { nx with
    strangers := by
      intro q absent
      obtain ⟨unknown, silent⟩ := nx.strangers q absent
      refine ⟨unknown, ?_⟩
      by_cases same : q = p <;> simp [same, silent] }
  have target : p ∈ (c.node v).peers := by
    by_contra absent
    rw [(nx.strangers p absent).2] at waiting
    cases waiting
  have channel : ∀ q, Function.update (c.node v).respCh p none q = (c.node v).respCh q ∨
      Function.update (c.node v).respCh p none q = none := by
    intro q
    by_cases same : q = p <;> simp [same]
  have rounds := Round.update_idle (c.threads v).rounds p
  -- The replicator becomes idle again.
  have threads : ThreadSim founders tracked s c.nextTag
      ⟨{ c.node v with respCh := Function.update (c.node v).respCh p none },
        { (c.server v).threads with
          rounds := Function.update (c.server v).threads.rounds p .idle }⟩ :=
    ((x.threads v).idle p).same rfl rfl rfl rfl
  cases waits : (c.server v).threads.rounds p with
  | append term prevLogIndex count tag =>
    simp only [waits] at last
    obtain ⟨effect, finished, result⟩ := Option.bind_eq_some_iff.mp last
    cases result
    unfold Node.finishRound at finished
    split_ifs at finished with higher stale success
    · cases finished
      have below : s.term v ≤ resp.term := by
        rw [nx.term]
        exact le_of_lt higher
      have turn := Turn.follow (R := rules founders) s below
      exact ⟨_, Local.of_turn x turn (Stamped.of_same rfl rfl) (taken.stepDown x.safe.known higher)
        ((threads.mono turn (Nat.le_succ _)).follow (le_refl _) (le_of_lt higher) rfl)
        channel rounds (by simp) (by simp)⟩
    · cases finished
      exact x.still taken threads channel rounds (by simp) (by simp)
    · obtain ⟨⟨advanced, new⟩, commit, rest⟩ := Option.bind_eq_some_iff.mp finished
      obtain ⟨compacted, compact, last⟩ := Option.bind_eq_some_iff.mp rest
      cases last
      have log : advanced.log = (c.node v).log := by
        rcases maybeAdvanceCommit_cases commit with ⟨rfl, _⟩ | ⟨_, _, _, rfl, _⟩ <;> rfl
      rw [maybeCompact_short (log ▸ of_decide_eq_true short)] at compact
      cases compact
      simp only [ne_eq, not_or, Decidable.not_not] at stale
      obtain ⟨leading, current⟩ := stale
      -- The reply of the round tells that the peer acknowledged the shipped log.
      have acked : tracked → ∃ l, s.acked p term l ∧ l.length = prevLogIndex + count := by
        intro on
        have own := replies on
        rw [waiting, System.threads, waits] at own
        have answers := x.rounds v p term prevLogIndex count tag waits pkt
          (.inr ⟨v, p, waiting⟩) (Option.some.inj own)
        obtain ⟨sender, replied, ok, known, hint, isReply⟩ := x.channel v p pkt waiting
        rw [isReply] at read
        cases read
        dsimp only at success
        subst success
        simp only [Answers, isReply] at answers
        exact answers.2.2
      have matched : NodeSim founders tracked s v
          ({ c.node v with respCh := Function.update (c.node v).respCh p none }.onAppendSuccess p
            (prevLogIndex + count)) := { taken with
        strangers := by
          intro q absent
          have other : q ≠ p := fun same => absent (same ▸ target)
          refine ⟨?_, (taken.strangers q absent).2⟩
          exact (Function.update_of_ne other ..).trans (taken.strangers q absent).1
        acks := by
          intro on leads q positive
          by_cases same : q = p
          · subst same
            obtain ⟨l, ack, length⟩ := acked on
            rw [← current] at ack
            simp only [Node.onAppendSuccess, Function.update_self] at positive ⊢
            rcases le_total (prevLogIndex + count) ((c.node v).matchIndex q) with less | more
            · rw [max_eq_right less] at positive ⊢
              exact nx.acks on leading q positive
            · rw [max_eq_left more]
              exact ⟨l, ack, by omega⟩
          · simp only [Node.onAppendSuccess, Function.update_of_ne same] at positive ⊢
            exact nx.acks on leading q positive }
      obtain ⟨s', k, turn, acks, led, rfl, higher, node, happened⟩ :=
        matched.settle x.safe leading commit
      refine ⟨s', Local.of_turn x turn ⟨acks, fun leads => .inl (led ▸ leads)⟩ node ?_ channel
        rounds (by simp) happened⟩
      have same : ThreadSim founders tracked s c.nextTag ⟨{ c.node v with
          respCh := Function.update (c.node v).respCh p none }.onAppendSuccess p
            (prevLogIndex + count), _⟩ := threads.same rfl rfl rfl rfl
      exact (same.raise higher).mono turn (Nat.le_succ _)
    · cases finished
      have same : ThreadSim founders tracked s c.nextTag ⟨{ c.node v with
          respCh := Function.update (c.node v).respCh p none }.onAppendReject p resp.conflictHint,
          _⟩ := threads.same rfl rfl rfl rfl
      exact x.still { taken with } same channel rounds (by simp) (by simp)
  | snapshot term lastIncludedIndex tag =>
    rcases (x.threads v).rounds p with idle | ⟨_, _, _, _, other, _⟩
    · rw [waits] at idle
      cases idle
    · rw [waits] at other
      cases other
  | idle => simp [waits] at last
  | scanning term => simp [waits] at last
  | scanned term lastIncludedIndex => simp [waits] at last

end Cluster
