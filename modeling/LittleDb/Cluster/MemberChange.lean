import LittleDb.Cluster.Compaction
import LittleDb.Cluster.ConfigFaults
import LittleDb.Cluster.ElectionSafety
import LittleDb.Cluster.IndexRange

/-! One member at a time: what a leader's membership change still finds when its entry is appended. -/

namespace Cluster

open Quorum Function Members

variable {s : Server} {n : Node}

namespace Node

/-- A change behind its gate has a leader with an open gate, or no leader. -/
def Prepares (n : Node) (call : Call) (data : List UInt8) : Prop :=
  call.term ≤ n.currentTerm ∧
    (call.term = n.currentTerm → n.role ≠ .candidate ∧ (n.role = .leader → n.Builds call data))

variable {n' : Node} {call : Call} {data : List UInt8}

theorem Builds.prepares (builds : n.Builds call data) : n.Prepares call data :=
  ⟨builds.term.le, fun _ => ⟨by simp [builds.leads], fun _ => builds⟩⟩

theorem Prepares.lasts (prepares : n.Prepares call data) (lasts : n.Lasts n') : n'.Prepares call data := by
  obtain ⟨past, current⟩ := prepares
  rcases lasts.tenure with ⟨higher, -⟩ | ⟨term, role⟩
  · exact ⟨by omega, fun same => by omega⟩
  · refine ⟨past.trans term.ge, fun same => ?_⟩
    obtain ⟨settled, builds⟩ := current (same.trans term)
    rcases role with kept | follower | candidate
    · rw [kept]
      refine ⟨settled, fun leads => ?_⟩
      have before := builds leads
      exact ⟨kept.trans leads, same, lasts.gate before.gate, lasts.config ▸ before.change⟩
    · simp [follower]
    · exact absurd candidate settled

theorem Prepares.follow (prepares : n.Prepares call data) (follows : n'.role = .follower)
    (later : n.currentTerm ≤ n'.currentTerm) : n'.Prepares call data :=
  ⟨prepares.1.trans later, fun _ => by simp [follows]⟩

theorem Tenure.waits (tenure : n.Tenure n') (waits : n.installing ≠ none → n.role = .follower)
    (same : n'.installing = n.installing) (busy : n'.installing ≠ none) : n'.role = .follower := by
  have follows := waits (same ▸ busy)
  rcases tenure with ⟨-, down | free⟩ | ⟨-, kept | down | candidate⟩
  · exact down
  · exact absurd (same.trans free) busy
  · exact kept.trans follows
  · exact down
  · exact absurd (follows.symm.trans candidate) nofun

theorem Works.waits (works : n.Works n') (waits : n.installing ≠ none → n.role = .follower)
    (busy : n'.installing ≠ none) : n'.role = .follower := by
  cases works with
  | aside same => exact same.tenure.waits waits same.installing busy
  | learn id => exact (Lasts.ensurePeer n id).tenure.waits waits (Lasts.ensurePeer n id).installing busy
  | append e leads same =>
    -- A leader installs no snapshot.
    rw [same.installing] at busy
    exact absurd ((waits busy).symm.trans leads) nofun
  | compact settings same done =>
    have lasts := same.toSame.lasts.maybeCompact done
    exact lasts.tenure.waits waits lasts.installing busy

theorem handleAppendEntries_follows (n : Node) (now : Nat) (m : AppendEntries) (tag : Nat) (save : Save) :
    let done := (n.handleAppendEntries now m tag save).node
    done = n ∨ done.role = .follower ∧ n.currentTerm ≤ done.currentTerm := by
  have later := (le_max_left ..).trans (n.currentTerm_deferTo m.term now save).ge
  unfold Node.handleAppendEntries
  dsimp only
  split_ifs
  · exact .inl rfl
  · exact .inr ⟨rfl, later⟩
  · exact .inr ⟨rfl, later⟩

theorem handleInstallSnapshot_follows (n : Node) (now : Nat) (m : InstallSnapshot) (tag : Nat) (save : Save) :
    let done := (n.handleInstallSnapshot now m tag save).node
    done = n ∨ done.role = .follower ∧ n.currentTerm ≤ done.currentTerm := by
  have later := (le_max_left ..).trans (n.currentTerm_deferTo m.term now save).ge
  unfold Node.handleInstallSnapshot
  dsimp only
  split_ifs
  · exact .inl rfl
  · exact .inr ⟨rfl, later⟩
  · exact .inr ⟨rfl, later⟩

end Node

/-- A server whose membership change stands behind an open gate. -/
structure Server.Gated (s : Server) : Prop where
  waits : s.node.installing ≠ none → s.node.role = .follower
  prepares : ∀ call data, s.threads.proposer = some call → call.stage = .ready .config data → s.node.Prepares call data

theorem Server.Gated.turn {a : Action} {o : Outcomes} (gated : s.Gated) (turn : s.Turn a o) : o.server.Gated where
  waits := turn.works.waits gated.waits
  prepares call data holds ready := by
    rcases turn.holder call data holds ready with ⟨old, lasts⟩ | ⟨builds, same, -⟩
    · exact (gated.prepares call data old ready).lasts lasts
    · rw [same]
      exact builds.prepares

theorem Server.Gated.follow (gated : s.Gated) (follows : n.role = .follower)
    (later : s.node.currentTerm ≤ n.currentTerm) : Gated { s with node := n } :=
  ⟨fun _ => follows, fun call data holds ready => (gated.prepares call data holds ready).follow follows later⟩

theorem Server.Gated.same (gated : s.Gated) (same : s.node.Same n) : Gated { s with node := n } :=
  ⟨same.tenure.waits gated.waits same.installing,
    fun call data holds ready => (gated.prepares call data holds ready).lasts same.lasts⟩

theorem Server.Gated.idle (waits : n.installing ≠ none → n.role = .follower) : Gated ⟨n, {}⟩ :=
  ⟨waits, nofun⟩

namespace System

variable {c c' : System} {new : List Event}

theorem gated_step (gated : ∀ v, (c.server v).Gated) {a : Action} (moved : c.step a = some (c', new)) (w : NodeID) :
    (c'.server w).Gated := by
  have put : ∀ {d : System} {v : NodeID} {o : Outcomes}, d.server = c.server → o.server.Gated →
      ((d.put v o).server w).Gated := by
    intro d v o same own
    rw [server_put, same]
    by_cases here : w = v
    · rw [here, update_self]
      exact own
    · rw [update_of_ne here]
      exact gated w
  cases moves moved with
  | ordinary ordinary =>
    obtain ⟨v, o, -, turn, rfl⟩ := step_turn ordinary moved
    exact put rfl ((gated v).turn turn)
  | @deliver _ pkt saveTerm _ _ _ _ _ handled =>
    -- Only a leader's call changes the log, and its receiver follows.
    refine put rfl ?_
    rcases handle_cases handled with ⟨m, -, rfl⟩ | ⟨m, -, rfl⟩ | same
    · rcases (c.node pkt.dst).handleAppendEntries_follows c.now m pkt.tag saveTerm with kept | ⟨follows, later⟩
      · rw [kept]
        exact gated pkt.dst
      · exact (gated pkt.dst).follow follows later
    · rcases (c.node pkt.dst).handleInstallSnapshot_follows c.now m pkt.tag saveTerm with kept | ⟨follows, later⟩
      · rw [kept]
        exact gated pkt.dst
      · exact (gated pkt.dst).follow follows later
    · exact (gated pkt.dst).same same
  | drop => exact gated w
  | stop => exact put rfl (.idle fun _ => rfl)
  | @timeout v => exact put rfl ((gated v).same (Node.Aside.maybeStartElection ..).toSame)
  | @install v _ _ _ busy =>
    have follows := (gated v).waits fun idle => by cases busy.symm.trans idle
    exact put rfl ((gated v).follow follows (le_refl _))
  | crash => exact put rfl (.idle fun _ => rfl)
  | @restart v save =>
    refine put rfl (.idle fun busy => absurd ?_ busy)
    unfold Node.rebuild
    exact (Node.Aside.persist _ save).installing
  | spawn => exact put rfl (.idle fun busy => absurd rfl busy)
  | tick => exact gated w

theorem gated_init (settings : Settings) (founders : Nat) (v : NodeID) : ((init settings founders).server v).Gated := by
  refine .idle fun busy => absurd ?_ busy
  split
  · exact (Node.Aside.bootstrap _).installing
  · rfl

/-- The change that a proposal is about to append fits its encoding. -/
def changeFits (c : System) (v : NodeID) : Bool :=
  ((c.threads v).proposer).all fun call => decide (call.purpose.members (c.node v).config).Fits

theorem near_members (config : Members) (purpose : Purpose) :
    Near config.toFinset (purpose.members config).toFinset := by
  cases purpose with
  | client => exact .refl _
  | add id =>
    rw [Purpose.members, toFinset_insert]
    exact near_insert ..
  | remove id =>
    rw [Purpose.members, toFinset_erase]
    exact near_erase ..

/--
One member at a time.

When a leader appends a configuration, the one its log implied is committed; if the new member set fits its encoding,
it differs in at most one member, so their majorities meet.
-/
theorem one_member_at_a_time {settings : Settings} {founders : Nat} {past : List System} {events : List Event}
    (run : Run.Reach System.step (fun _ _ => True) (init settings founders) c past events) {v : NodeID}
    (moved : c.step (.propose v) = some (c', new)) {id : NodeID} {call idx : Nat} {e : Entry}
    (appends : .appended id call idx e ∈ new) (config : e.kind = .config) :
    (c.node v).role = .leader ∧
    (∀ i latest, (c.node v).log.latestConfig (c.node v).log.lastIndex = some (i, latest) →
      i ≤ (c.node v).commitIndex) ∧
    (c.changeFits v = true →
      Near (c.node v).deriveConfig.toFinset (decodeConfig e.data).toFinset ∧
      ∀ voters acks, Majority (c.node v).deriveConfig.toFinset voters → Majority (decodeConfig e.data).toFinset acks →
        ∃ x, x ∈ voters ∧ x ∈ acks) := by
  obtain ⟨gated, derived⟩ : (∀ v, (c.server v).Gated) ∧ c.Derived := by
    refine run.invariant (P := fun c _ _ => (∀ v, (c.server v).Gated) ∧ c.Derived)
      ⟨gated_init settings founders, .init settings founders⟩ ?_
    exact fun c a c' past events new _ _ moved before => ⟨gated_step before.1 moved, before.2.step moved⟩
  obtain ⟨up, o, done, -, rfl⟩ := act_cases moved
  unfold Server.propose at done
  split at done
  case h_2 => cases done
  next name term purpose kind data holder =>
  dsimp only at done
  split_ifs at done with refused
  · cases done
    simp at appends
  · split at done
    · cases done
    · next advanced =>
      cases done
      simp only [not_or, not_not] at refused
      -- The commit that follows the append records nothing of the kind.
      have own : e = ⟨term, kind, data⟩ := by
        rcases List.mem_cons.mp appends with first | later
        · cases first
          rfl
        · rcases Node.maybeAdvanceCommit_cases advanced with ⟨-, rfl⟩ | ⟨_, -, -, -, rfl, -⟩ <;> simp at later
      subst own
      cases config
      have builds := ((gated v).prepares _ data holder rfl).2 refused.2.1.symm |>.2 refused.1
      refine ⟨refused.1, (c.node v).gate_iff.mp builds.gate, fun fits => ?_⟩
      have fits : (purpose.members (c.node v).config).Fits := by
        simpa [changeFits, show (c.threads v).proposer = _ from holder] using fits
      have change : data = encodeConfig (purpose.members (c.node v).config) := builds.change
      have near : Near (c.node v).deriveConfig.toFinset (decodeConfig data).toFinset := by
        rw [change, decodeConfig_encodeConfig fits, ← (derived.nodes v).config up]
        exact near_members ..
      exact ⟨near, fun voters acks elected stored => elected.meet near stored⟩

/-- Of three nodes the leader removes one, commits that and removes the next. -/
theorem one_member_at_a_time_second : ∃ c past events,
    Run.Reach System.step (fun _ _ => True) (init ⟨10, 0⟩ 3) c past events ∧
    ∃ c' new call idx e, c.step (.propose 0) = some (c', new) ∧ .appended 0 call idx e ∈ new ∧ e.kind = .config ∧
      c.changeFits 0 = true ∧ (c.node 0).deriveConfig.ids = [0, 1] ∧ (decodeConfig e.data).ids = [0] ∧
      Near (c.node 0).deriveConfig.toFinset (decodeConfig e.data).toFinset := by
  obtain ⟨c, past, events, run, tested⟩ := Run.exec_exists System.step (fun _ _ => true) (init ⟨10, 0⟩ 3)
    [.beginRemove 0 2, .propose 0, .replicate 0 1, .deliver 0 .ok .ok, .deliver 0 .ok .ok, .consume 0 1 .ok,
      .fetch 0, .store 0, .finishApply 0, .wake 0, .beginRemove 0 1]
    (fun r => decide (r.1.changeFits 0 = true ∧ (r.1.node 0).deriveConfig.ids = [0, 1]) &&
      (r.1.step (.propose 0)).any fun done => done.2.any fun
        | .appended 0 _ _ e => decide (e.kind = .config ∧ (decodeConfig e.data).ids = [0])
        | _ => false) (by rfl)
  have run := run.weaken fun _ _ _ => trivial
  simp only [Bool.and_eq_true, decide_eq_true_eq, Option.any_eq_true, List.any_eq_true, Prod.exists] at tested
  obtain ⟨⟨fits, before⟩, c', new, moved, event, listed, kind⟩ := tested
  split at kind
  case h_2 => cases kind
  next call idx e =>
  obtain ⟨kind, after⟩ := of_decide_eq_true kind
  exact ⟨c, past, events, run, c', new, call, idx, e, moved, listed, kind, fits, before, after,
    ((one_member_at_a_time run moved listed kind).2.2 fits).1⟩

end System

end Cluster
