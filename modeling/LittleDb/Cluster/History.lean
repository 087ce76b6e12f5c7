import LittleDb.Cluster.SimRun

/-! What a whole run leaves behind in the protocol's records, state by state. -/

namespace Cluster

open Consensus Quorum List Option

variable {founders : Nat} {tracked : Prop} {c c' : System} {past : List System}
  {events new : List Event} {s : Abstract} {settings : Settings} {a : Action}

/-- The protocol's records agree with every state the run has visited. -/
structure History (founders : Nat) (tracked : Prop) (c : System) (past : List System)
    (events : List Event) (s : Abstract) : Prop where
  sim : Sim founders tracked c events s
  acked : ∀ {p t l}, s.acked p t l → ∃ st ∈ c :: past, l <+: (st.node p).log.entries
  led : ∀ {w t l}, s.led w t l → ∃ st ∈ c :: past, (st.node w).log.entries = l
  whole : ∀ st ∈ c :: past, ∀ v, (st.node v).log.Whole
  leaders : ∀ st ∈ c :: past, ∀ v, (st.node v).role = .leader →
    ∃ e q, s.elected v (st.node v).currentTerm e q
  backed : tracked → ∀ st ∈ c :: past, ∀ v,
    Backed s (st.node v).currentTerm (st.node v).log.entries (st.node v).commitIndex

theorem Sim.leader_elected (x : Sim founders tracked c events s) {v : NodeID}
    (leading : (c.node v).role = .leader) : ∃ e q, s.elected v (c.node v).currentTerm e q := by
  have led := (x.safe.known.led_top ((x.node v).leads.mpr leading)).1
  obtain ⟨e, q, won, _⟩ := x.safe.known.led_elected led
  rw [(x.node v).term] at won
  exact ⟨e, q, won⟩

namespace History

theorem init (positive : 0 < founders) :
    History founders tracked (System.init settings founders) [] [] (State.init (rules founders)) := by
  have sim : Sim founders tracked (System.init settings founders) [] (State.init (rules founders)) :=
    Sim.init positive
  have only : ∀ {P : System → Prop}, P (System.init settings founders) →
      ∀ st ∈ [System.init settings founders], P st := by
    intro P holds st member
    rw [mem_singleton.mp member]
    exact holds
  refine ⟨sim, fun ack => ack.elim, ?_, only fun v => (sim.node v).whole,
    only fun v leading => sim.leader_elected leading, fun on => only fun v => sim.backed on v⟩
  rintro w t l ⟨rfl, rfl, rfl⟩
  exact ⟨_, mem_singleton_self _, (sim.node _).log.symm⟩

/-- Every step that meets the conditions continues the history. -/
theorem step (h : History founders tracked c past events s) (polls : Polls c events)
    (meets : Meets tracked c a) (moved : c.step a = some (c', new)) : ∃ s', History founders tracked c' (c :: past)
    (new ++ events) s' ∧ Advances founders c c' new s s' := by
  obtain ⟨s', sim, v, turn, stamped, owned, others⟩ := h.sim.step polls meets moved
  -- A property of the new state and, by monotonicity, of the earlier ones holds of all.
  have all : ∀ {P Q : System → Prop}, (∀ st ∈ c :: past, P st) → (∀ st, P st → Q st) → Q c' →
      ∀ st ∈ c' :: c :: past, Q st := by
    intro P Q old grow fresh st member
    rcases mem_cons.mp member with rfl | earlier
    · exact fresh
    · exact grow st (old st earlier)
  refine ⟨s', ⟨sim, ?_, ?_, all h.whole (fun _ same => same) fun v => (sim.node v).whole, ?_, ?_⟩,
    v, turn, stamped, owned, others⟩
  · intro p t l ack
    rcases stamped.acked ack with old | ⟨rfl, holds⟩
    · obtain ⟨st, member, holds⟩ := h.acked old
      exact ⟨st, mem_cons_of_mem _ member, holds⟩
    · exact ⟨c', mem_cons_self, holds⟩
  · intro w t l led
    rcases stamped.led led with old | ⟨rfl, holds, _⟩
    · obtain ⟨st, member, holds⟩ := h.led old
      exact ⟨st, mem_cons_of_mem _ member, holds⟩
    · exact ⟨c', mem_cons_self, holds.symm⟩
  · refine all h.leaders (fun st old w leading => ?_) fun w leading => sim.leader_elected leading
    obtain ⟨e, q, won⟩ := old w leading
    exact ⟨e, q, turn.elected won⟩
  · exact fun on => all (h.backed on) (fun st old w => (old w).mono turn (le_refl _)) fun w => sim.backed on w

/-- Every run of such steps has a history. -/
theorem of_reach (positive : 0 < founders)
    (run : Run.Reach System.step (Meets tracked) (System.init settings founders) c past events) :
    ∃ s, History founders tracked c past events s := by
  induction run with
  | start => exact ⟨_, init positive⟩
  | step a before meets moved ih =>
    obtain ⟨s, h⟩ := ih
    obtain ⟨s', h', _⟩ := h.step (Polls.of_reach positive before) meets moved
    exact ⟨s', h'⟩

end History

theorem Meets.of_careful (careful : c.careful a = true) : Meets True c a := by
  simp only [System.careful, Bool.and_eq_true] at careful
  obtain ⟨⟨⟨⟨⟨calm, replies⟩, fits⟩, gate⟩, fresh⟩, short⟩ := careful
  refine ⟨calm, fits, ?_, fun _ => replies, fun _ => fresh, short⟩
  rintro v call data rfl holds ready
  cases call
  cases ready
  simp only [System.ownTermCommit, holds, decide_eq_true_eq] at gate
  exact ⟨trivial, gate⟩

theorem Fixed.forgetsMatches (x : Fixed founders c) (polls : Polls c events)
    (moves : (c.step a).isSome) : c.forgetsMatches a = true := by
  obtain ⟨⟨_, _⟩, moved⟩ := isSome_iff_exists.mp moves
  cases System.moves moved with
  | @deliver _ pkt _ _ _ found running =>
    have started := polls.started running
    rw [x.size] at started
    simp only [System.forgetsMatches, found, all_some]
    split
    · -- Every peer of a founder is a voter.
      refine Bool.or_eq_true_iff.mpr (.inr (all_eq_true.mpr fun p known => decide_eq_true (.inl ?_)))
      have plain : (c.node pkt.dst).Plain founders := (x.servers _ started).node
      obtain ⟨inside, other⟩ := plain.peers p known
      refine mem_filter.mpr ⟨?_, by simpa using other⟩
      rw [plain.config]
      exact mem_range.mpr inside
    · rfl
  | ordinary no => cases a <;> first | rfl | cases no
  | drop | stop | timeout | install | crash | restart | spawn | tick => rfl

theorem Meets.of_fixed (x : Fixed founders c) (polls : Polls c events) (off : c.settings.snapshotThreshold = 0)
    (fixed : a.fixedMembership = true) (calm : a.calm = true)
    (replies : tracked → c.answersRound a = true) (moves : (c.step a).isSome) : Meets tracked c a := by
  refine ⟨calm, ?_, ?_, replies, fun _ => x.forgetsMatches polls moves, ?_⟩
  · cases a <;> first | rfl | cases fixed
  · rintro v call data rfl holds ready
    -- A founder has no configuration to propose.
    obtain ⟨_, moved⟩ := isSome_iff_exists.mp moves
    obtain ⟨running, _⟩ := System.act_cases moved
    have started := polls.started running
    rw [x.size] at started
    exact absurd ready ((x.servers v started).threads.proposer call data holds)
  · cases a <;> first | rfl | exact decide_eq_true (.inl off)

theorem History.of_fixed (tracked : Prop) (off : settings.snapshotThreshold = 0) (positive : 0 < founders)
    {ok : System → Action → Prop} (fixed : ∀ c a, ok c a → a.fixedMembership = true)
    (calm : ∀ c a, ok c a → a.calm = true) (replies : tracked → ∀ c a, ok c a → c.answersRound a = true)
    (run : Run.Reach System.step ok (System.init settings founders) c past events) : Fixed founders c ∧
    ∃ s, History founders tracked c past events s := by
  induction run with
  | start => exact ⟨Fixed.init settings, _, History.init positive⟩
  | @step c _ _ _ _ a before meets moved ih =>
    obtain ⟨membership, s, h⟩ := ih
    have polls := Polls.of_reach positive before
    have small : ∀ v m, (c.node v).installing = some m → founders < 2 ^ 32 := by
      intro v m busy
      rw [(h.sim.node v).idle] at busy
      cases busy
    have conditions := Meets.of_fixed membership polls (System.run_settings before ▸ off) (fixed _ a meets) (calm _ a meets)
      (fun on => replies on _ a meets) (by rw [moved]; rfl)
    obtain ⟨s', h', _⟩ := h.step polls conditions moved
    exact ⟨membership.step small polls (fixed _ a meets) moved, s', h'⟩

end Cluster
