import LittleDb.Cluster.ElectionSafety

/-! The life of a proposal: what a call that holds the commit lock appends and returns. -/

namespace Cluster

open Function List Option Node Cluster.System

/-- The event is neither the append nor the return of a proposal. -/
def Event.Silent : Event → Prop
  | .appended _ _ _ _ | .returned _ _ _ => False
  | _ => True

def Call.Unsent (call : Call) : Prop :=
  call.stage = .opened ∨ ∃ kind data, call.stage = .ready kind data

/-- What a step does to the call that holds the commit lock: new names lie between two bounds, only a woken call
succeeds. -/
inductive CallStep (n : Node) (woken : Prop) (old new : Nat) : Option Call → Option Call → List Event → Prop where
  | keep {held : Option Call} {events : List Event} (silent : ∀ e ∈ events, e.Silent) :
    CallStep n woken old new held held events
  | release {held : Option Call} : CallStep n woken old new held none []
  | enter {call : Call} (above : old ≤ call.call) (below : call.call < new)
      (unsent : call.Unsent) : CallStep n woken old new none (some call) []
  | prepare {call : Call} {stage : Stage} (unsent : call.Unsent)
      (still : { call with stage := stage }.Unsent) :
    CallStep n woken old new (some call) (some { call with stage := stage }) []
  | refuse {call : Call} (unsent : call.Unsent) :
    CallStep n woken old new (some call) none [.returned n.id call.call .notLeader]
  | append {call : Call} {kind : EntryKind} {data : List UInt8} {idx : Nat} {events : List Event}
      (ready : call.stage = .ready kind data) (silent : ∀ e ∈ events, e.Silent) :
    CallStep n woken old new (some call) (some { call with stage := .waiting idx })
      (.appended n.id call.call idx ⟨call.term, kind, data⟩ :: events)
  | succeed {call : Call} {idx : Nat} {left : Option Call} (now : woken) (waiting : call.stage = .waiting idx)
      (applied : idx ≤ n.lastApplied)
      (left_eq : left = none ∨ left = some { call with stage := .committed }) :
    CallStep n woken old new (some call) left [.returned n.id call.call .nil]
  | give_up {call : Call} {idx : Nat} (waiting : call.stage = .waiting idx) :
    CallStep n woken old new (some call) none [.returned n.id call.call .maybeCommitted]

namespace CallStep

variable {n : Node} {woken : Prop} {old new : Nat} {held left : Option Call} {events : List Event}

variable (move : CallStep n woken old new held left events)

include move

theorem of_appended {w k idx : Nat} {e : Entry} (member : .appended w k idx e ∈ events) : w = n.id ∧
    ∃ call, held = some call ∧ k = call.call ∧ call.Unsent ∧ left = some { call with stage := .waiting idx } := by
  cases move with
  | keep silent => exact (silent _ member).elim
  | append ready silent =>
    rcases mem_cons.mp member with equal | rest
    · cases equal
      exact ⟨rfl, _, rfl, rfl, .inr ⟨_, _, ready⟩, rfl⟩
    · exact (silent _ rest).elim
  | release | enter | prepare => cases member
  | refuse | succeed | give_up => simp at member

theorem appended_once {w k idx idx' : Nat} {e e' : Entry} (member : .appended w k idx e ∈ events)
    (member' : .appended w k idx' e' ∈ events) : idx = idx' ∧ e = e' := by
  cases move with
  | keep silent => exact (silent _ member).elim
  | append ready silent =>
    rcases mem_cons.mp member with equal | rest <;> rcases mem_cons.mp member' with equal' | rest'
    · cases equal
      cases equal'
      exact ⟨rfl, rfl⟩
    · exact (silent _ rest').elim
    · exact (silent _ rest).elim
    · exact (silent _ rest).elim
  | release | enter | prepare => cases member
  | refuse | succeed | give_up => simp at member

theorem of_returned {w k : Nat} {o : Outcome} (member : .returned w k o ∈ events) : w = n.id ∧
    ∃ call, held = some call ∧ k = call.call ∧ (o = .notLeader → call.Unsent) ∧
    (o = .nil → woken ∧ ∃ idx, call.stage = .waiting idx ∧ idx ≤ n.lastApplied) ∧ ∀ call', left = some call' →
    call'.stage = .committed := by
  cases move with
  | keep silent => exact (silent _ member).elim
  | append ready silent =>
    rcases mem_cons.mp member with equal | rest
    · cases equal
    · exact (silent _ rest).elim
  | release | enter | prepare => cases member
  | refuse unsent =>
    cases mem_singleton.mp member
    exact ⟨rfl, _, rfl, rfl, fun _ => unsent, by simp, by simp⟩
  | succeed now waiting applied rest =>
    cases mem_singleton.mp member
    refine ⟨rfl, _, rfl, rfl, by simp, fun _ => ⟨now, _, waiting, applied⟩, ?_⟩
    rintro call' rfl
    rcases rest with none | some
    · cases none
    · cases some
      rfl
  | give_up waiting =>
    cases mem_singleton.mp member
    exact ⟨rfl, _, rfl, rfl, by simp, by simp, by simp⟩

end CallStep

section Steps

variable {n : Node} {s : Server} {o : Outcomes} {tag : Nat}

theorem Node.maybeAdvanceCommit_silent {n' : Node} {events : List Event}
    (done : n.maybeAdvanceCommit = some (n', events)) : ∀ e ∈ events, e.Silent := by
  unfold Node.maybeAdvanceCommit at done
  dsimp only at done
  repeat' split at done
  all_goals cases done
  all_goals simp [Event.Silent]

theorem Node.maybeStartElection_silent (n : Node) (leaderTransfer : Bool) (tag : Nat)
    (save : Save) : ∀ e ∈ (n.maybeStartElection leaderTransfer tag save).events, e.Silent := by
  rcases n.maybeStartElection_cases leaderTransfer tag save with
    equal | ⟨_, _, _, equal | ⟨-, equal⟩⟩ <;> rw [equal] <;> simp [Event.Silent]

theorem System.handle_silent {c : System} {pkt : Packet} {saveTerm saveVote : Save} {effect : Effect}
    (handled : c.handle n pkt saveTerm saveVote = some effect) : ∀ e ∈ effect.events, e.Silent := by
  unfold System.handle at handled
  split at handled
  · rename_i m isAppend
    cases handled
    unfold Node.handleAppendEntries
    dsimp only
    split_ifs <;> simp
  · rename_i m isRequest
    cases handled
    unfold Node.handleRequestVote
    split_ifs
    · simp
    · rcases (n.catchUp m.term saveTerm).considerVote_cases m pkt.tag saveVote with
        ⟨_, _, _, equal⟩ | ⟨d, _, equal⟩ <;> rw [equal] <;> simp [Event.Silent]
  · cases handled
    rw [handleVoteResponse_events]
    simp
  · cases handled
    unfold Node.handleTimeoutNow
    split_ifs
    · simp
    · exact maybeStartElection_silent _ _ _ _
  · cases handled
    unfold Node.handleInstallSnapshot
    dsimp only
    split_ifs <;> simp
  all_goals
    split_ifs at handled <;> cases handled <;> simp

namespace Server

/-- A step that leaves the lock alone and records no proposal. -/
def Quiet (s : Server) (o : Outcomes) : Prop :=
  o.server.threads.proposer = s.threads.proposer ∧ ∀ e ∈ o.events, e.Silent

theorem consume_quiet {settings : Settings} {p : NodeID} {save : Save}
    (done : s.consume settings p save = some o) : s.Quiet o := by
  unfold consume at done
  obtain ⟨pkt, _, rest⟩ := bind_eq_some_iff.mp done
  obtain ⟨resp, _, last⟩ := bind_eq_some_iff.mp rest
  dsimp only at last
  split at last
  · obtain ⟨effect, finished, result⟩ := bind_eq_some_iff.mp last
    cases result
    refine ⟨rfl, ?_⟩
    unfold Node.finishRound at finished
    split_ifs at finished
    · cases finished
      simp
    · cases finished
      simp
    · obtain ⟨⟨_, _⟩, advanced, rest⟩ := bind_eq_some_iff.mp finished
      obtain ⟨_, _, result⟩ := bind_eq_some_iff.mp rest
      cases result
      exact maybeAdvanceCommit_silent advanced
    · cases finished
      simp
  · cases last
    refine ⟨rfl, ?_⟩
    unfold Node.finishSnapshot
    split_ifs <;> simp
  · cases last

end Server

end Steps

namespace System

variable {c c' : System} {a : Action} {new : List Event} {v : NodeID}

/-- A step of the cluster moves the call of one node at most. -/
def MovesCall (c : System) (a : Action) (c' : System) (new : List Event) : Prop :=
  c.nextTag ≤ c'.nextTag ∧ ∃ v, CallStep (c.node v) (a = .wake v) c.nextTag c'.nextTag (c.threads v).proposer
    (c'.threads v).proposer new ∧ ∀ w, w ≠ v → c'.threads w = c.threads w

theorem MovesCall.of_same (tags : c.nextTag ≤ c'.nextTag) (same : c'.threads = c.threads)
    (silent : ∀ e ∈ new, e.Silent) : MovesCall c a c' new := by
  refine ⟨tags, 0, ?_, fun w _ => congrFun same w⟩
  rw [same]
  exact .keep silent

theorem MovesCall.put (c₀ : System) (tags : c.nextTag ≤ c₀.nextTag)
    (same : c₀.server = c.server) {o : Outcomes} {recorded : List Event}
    (move : CallStep (c.node v) (a = .wake v) c.nextTag c₀.nextTag (c.threads v).proposer
      o.server.threads.proposer recorded) : MovesCall c a (c₀.put v o) recorded := by
  refine ⟨tags, v, ?_, fun w other => ?_⟩
  · simpa only [System.threads, System.put, update_self] using move
  · simp only [System.threads, System.put, update_of_ne other, same]

theorem MovesCall.act {f : Server → Option Outcomes}
    (move : ∀ {o}, f (c.server v) = some o → CallStep (c.node v) (a = .wake v) c.nextTag (c.nextTag + 1)
      (c.threads v).proposer o.server.threads.proposer o.events)
    (moved : c.act v f = some (c', new)) : MovesCall c a c' new := by
  obtain ⟨_, o, done, rfl, rfl⟩ := act_cases moved
  exact MovesCall.put c.bump (Nat.le_succ _) rfl (move done)

theorem MovesCall.quiet {f : Server → Option Outcomes} (quiet : ∀ {o}, f (c.server v) = some o → (c.server v).Quiet o)
    (moved : c.act v f = some (c', new)) : MovesCall c a c' new := by
  refine MovesCall.act (fun done => ?_) moved
  obtain ⟨same, silent⟩ := quiet done
  rw [same]
  exact .keep silent

theorem step_call (moved : c.step a = some (c', new)) : MovesCall c a c' new := by
  cases System.moves moved with
  | deliver _ _ _ handled =>
    exact MovesCall.put (bump _) (Nat.le_succ _) rfl (.keep (handle_silent handled))
  | drop | tick => exact MovesCall.of_same (le_refl _) rfl (by simp)
  | @stop i => exact MovesCall.put (c.take i) (le_refl _) rfl .release
  | timeout => exact MovesCall.put c.bump (Nat.le_succ _) rfl (.keep (maybeStartElection_silent _ _ _ _))
  | install => exact MovesCall.put c.bump (Nat.le_succ _) rfl (.keep (by simp))
  | crash | restart => exact MovesCall.put c (le_refl _) rfl .release
  | spawn => exact MovesCall.put { c with size := c.size + 1 } (le_refl _) rfl .release
  | ordinary ordinary =>
    cases a <;> first | cases ordinary; done | simp only [System.step] at moved
    case consume v q save => exact MovesCall.quiet Server.consume_quiet moved
    case beginCommit v =>
      refine MovesCall.act (fun done => ?_) moved
      unfold Server.beginCommit at done
      split_ifs at done with free
      cases done
      rw [System.threads, free.1]
      exact .enter (le_refl _) (Nat.lt_succ_self _) (.inl rfl)
    case prepare v data =>
      refine MovesCall.act (fun done => ?_) moved
      unfold Server.prepare at done
      split at done
      · rename_i call held
        split_ifs at done with opened
        cases done
        rw [System.threads, held]
        exact .prepare (.inl opened) (.inr ⟨_, _, rfl⟩)
      · cases done
    case cancel v =>
      refine MovesCall.act (fun done => ?_) moved
      unfold Server.cancel at done
      split at done
      · split_ifs at done
        cases done
        exact .release
      · cases done
    case beginRemove v id =>
      refine MovesCall.act (fun done => ?_) moved
      unfold Server.beginRemove at done
      dsimp only at done
      split_ifs at done with free
      cases done
      rw [System.threads, free.1]
      exact .enter (le_refl _) (Nat.lt_succ_self _) (.inr ⟨_, _, rfl⟩)
    case promote v j =>
      refine MovesCall.act (fun done => ?_) moved
      unfold Server.promote at done
      dsimp only at done
      split at done
      · split_ifs at done with free
        · cases done
          exact .keep (by simp)
        · cases done
          rw [System.threads, free.1]
          exact .enter (le_refl _) (Nat.lt_succ_self _) (.inr ⟨_, _, rfl⟩)
      · cases done
    case propose v =>
      refine MovesCall.act (fun done => ?_) moved
      unfold Server.propose at done
      split at done
      · rename_i call term purpose kind data held
        dsimp only at done
        rw [System.threads, held]
        split_ifs at done
        · cases done
          exact .refuse (.inr ⟨_, _, rfl⟩)
        · split at done
          · cases done
          · rename_i advanced
            cases done
            exact .append rfl (maybeAdvanceCommit_silent advanced)
      · cases done
    case wake v =>
      refine MovesCall.act (fun done => ?_) moved
      unfold Server.wake at done
      split at done
      · rename_i call term purpose idx held
        dsimp only at done
        rw [System.threads, held]
        split_ifs at done with applied own
        · cases done
          exact .succeed rfl rfl applied (.inr rfl)
        · cases done
          exact .succeed rfl rfl applied (.inl rfl)
        · cases done
          exact .give_up rfl
      · cases done
    case relinquish v =>
      refine MovesCall.act (fun done => ?_) moved
      unfold Server.relinquish at done
      split at done
      · split_ifs at done
        cases done
        exact .release
      · cases done
    -- The remaining steps replicate, add, transfer, apply or install.
    case beginAdd v id =>
      split_ifs at moved
      refine MovesCall.quiet (fun done => ?_) moved
      unfold Server.beginAdd at done
      dsimp only at done
      split_ifs at done
      cases done
      exact ⟨rfl, by simp⟩
    all_goals
      refine MovesCall.quiet (fun done => ?_) moved
      simp only [Server.replicate, Server.abandon, Server.scan, Server.ship, Server.pollAdd,
        Server.expireAdd, Server.beginTransfer, Server.pollTransfer, Server.abortTransfer,
        Server.fetch, Server.store, Server.finishApply] at done
      repeat' split at done
      all_goals cases done
      all_goals exact ⟨rfl, by simp [Event.Silent]⟩

end System

/-- What is recorded about the call that holds a node's commit lock. -/
structure Call.Recorded (call : Call) (v : NodeID) (limit : Nat) (events : List Event) : Prop where
  named : call.call < limit
  running : ∀ o, .returned v call.call o ∈ events → call.stage = .committed
  unsent : call.Unsent → ∀ idx e, .appended v call.call idx e ∉ events
  waiting : ∀ idx, call.stage = .waiting idx →
    ∃ e, .appended v call.call idx e ∈ events ∧ e.term = call.term

theorem Call.Unsent.not_committed {call : Call} (unsent : call.Unsent) : call.stage ≠ .committed := by
  rcases unsent with opened | ⟨kind, data, ready⟩
  · rw [opened]
    exact Stage.noConfusion
  · rw [ready]
    exact Stage.noConfusion

theorem Call.Recorded.silent {call : Call} {v : NodeID} {old limit : Nat}
    {events recorded : List Event} (x : call.Recorded v old events) (tags : old ≤ limit)
    (silent : ∀ e ∈ recorded, e.Silent) : call.Recorded v limit (recorded ++ events) := by
  refine ⟨lt_of_lt_of_le x.named tags, ?_, ?_, ?_⟩
  · intro o member
    rcases mem_append.mp member with fresh | earlier
    · exact (silent _ fresh).elim
    · exact x.running o earlier
  · intro unsent idx e member
    rcases mem_append.mp member with fresh | earlier
    · exact silent _ fresh
    · exact x.unsent unsent idx e earlier
  · intro idx waits
    obtain ⟨e, member, term⟩ := x.waiting idx waits
    exact ⟨e, mem_append_right _ member, term⟩

theorem CallStep.recorded {n : Node} {v : NodeID} {woken : Prop} {old limit : Nat} {held left : Option Call}
    {recorded events : List Event} (move : CallStep n woken old limit held left recorded) (id : n.id = v)
    (tags : old ≤ limit) (before : ∀ call, held = some call → call.Recorded v old events)
    (unused : ∀ k, old ≤ k → (∀ o, .returned v k o ∉ events) ∧ ∀ idx e, .appended v k idx e ∉ events) :
    ∀ call, left = some call → call.Recorded v limit (recorded ++ events) := by
  intro call after
  cases move with
  | keep silent => exact (before call after).silent tags silent
  | release | refuse | give_up => cases after
  -- A fresh tag has no records yet.
  | enter above below unsent =>
    cases after
    obtain ⟨unreturned, unappended⟩ := unused _ above
    refine ⟨below, fun o member => absurd member (unreturned o), fun _ => unappended, ?_⟩
    intro idx waits
    rcases unsent with opened | ⟨_, _, ready⟩
    · exact Stage.noConfusion (opened.symm.trans waits)
    · exact Stage.noConfusion (ready.symm.trans waits)
  | prepare unsent still =>
    cases after
    have x := before _ rfl
    refine ⟨lt_of_lt_of_le x.named tags, ?_, fun _ => x.unsent unsent, ?_⟩
    · intro o member
      exact absurd (x.running o member) unsent.not_committed
    · intro idx waits
      rcases still with opened | ⟨_, _, ready⟩
      · exact Stage.noConfusion (opened.symm.trans waits)
      · exact Stage.noConfusion (ready.symm.trans waits)
  | append ready silent =>
    cases after
    subst id
    have x := before _ rfl
    refine ⟨lt_of_lt_of_le x.named tags, ?_, ?_, ?_⟩
    · intro o member
      rcases mem_append.mp member with fresh | earlier
      · rcases mem_cons.mp fresh with equal | rest
        · cases equal
        · exact (silent _ rest).elim
      · exact Stage.noConfusion (ready.symm.trans (x.running o earlier))
    · rintro (opened | ⟨_, _, again⟩)
      · cases opened
      · cases again
    · intro idx waits
      cases waits
      exact ⟨_, mem_append_left _ mem_cons_self, rfl⟩
  | succeed now waiting applied rest =>
    have x := before _ rfl
    rcases rest with none | some
    · rw [none] at after
      cases after
    · rw [some] at after
      cases after
      refine ⟨lt_of_lt_of_le x.named tags, fun _ _ => rfl, ?_, fun _ waits => by cases waits⟩
      exact fun unsent => absurd rfl unsent.not_committed

structure Calls (c : System) (events : List Event) : Prop where
  held : ∀ v call, (c.threads v).proposer = some call → call.Recorded v c.nextTag events
  appended : ∀ {v k idx e}, .appended v k idx e ∈ events → k < c.nextTag
  returned : ∀ {v k o}, .returned v k o ∈ events → k < c.nextTag
  once : ∀ {v k idx e idx' e'}, .appended v k idx e ∈ events → .appended v k idx' e' ∈ events →
    idx = idx' ∧ e = e'
  refused : ∀ {v k idx e}, .returned v k .notLeader ∈ events → .appended v k idx e ∉ events
  succeeded : ∀ {v k}, .returned v k .nil ∈ events → ∃ idx e, .appended v k idx e ∈ events

namespace Calls

variable {c c' : System} {a : Action} {events new : List Event}

theorem init (settings : Settings) (founders : Nat) : Calls (System.init settings founders) [] :=
  { held := fun _ _ held => by simp [System.init, System.threads] at held
    appended := fun none => absurd none not_mem_nil
    returned := fun none => absurd none not_mem_nil
    once := fun none => absurd none not_mem_nil
    refused := fun none => absurd none not_mem_nil
    succeeded := fun none => absurd none not_mem_nil }

/-- Every step keeps what is recorded about proposals. -/
theorem step (x : Calls c events) (id : ∀ v, (c.node v).id = v)
    (moves : System.MovesCall c a c' new) : Calls c' (new ++ events) := by
  obtain ⟨tags, v, move, others⟩ := moves
  have appends : ∀ {w k idx e}, .appended w k idx e ∈ new → w = v ∧
      ∃ call, (c.threads v).proposer = some call ∧ k = call.call ∧ call.Unsent ∧
        (c'.threads v).proposer = some { call with stage := .waiting idx } := by
    intro w k idx e member
    obtain ⟨rfl, rest⟩ := move.of_appended member
    exact ⟨id v, rest⟩
  have returns : ∀ {w k o}, .returned w k o ∈ new → w = v ∧
      ∃ call, (c.threads v).proposer = some call ∧ k = call.call ∧ (o = .notLeader → call.Unsent) ∧
        (o = .nil → a = .wake v ∧ ∃ idx, call.stage = .waiting idx ∧ idx ≤ (c.node v).lastApplied) ∧
        ∀ call', (c'.threads v).proposer = some call' → call'.stage = .committed := by
    intro w k o member
    obtain ⟨rfl, rest⟩ := move.of_returned member
    exact ⟨id v, rest⟩
  refine ⟨?_, ?_, ?_, ?_, ?_, ?_⟩
  · intro w call holds
    by_cases same : w = v
    · subst same
      refine move.recorded (id w) tags (x.held w) (fun k unused => ⟨fun o member => ?_, ?_⟩) call holds
      · exact absurd (x.returned member) (not_lt.mpr unused)
      · exact fun idx e member => absurd (x.appended member) (not_lt.mpr unused)
    · -- Nothing about the calls of other nodes was recorded.
      rw [others w same] at holds
      have old := x.held w call holds
      refine ⟨lt_of_lt_of_le old.named tags, ?_, ?_, ?_⟩
      · intro o member
        rcases mem_append.mp member with fresh | earlier
        · exact absurd (returns fresh).1 same
        · exact old.running o earlier
      · intro unsent idx e member
        rcases mem_append.mp member with fresh | earlier
        · exact absurd (appends fresh).1 same
        · exact old.unsent unsent idx e earlier
      · intro idx waits
        obtain ⟨e, member, term⟩ := old.waiting idx waits
        exact ⟨e, mem_append_right _ member, term⟩
  · intro w k idx e member
    rcases mem_append.mp member with fresh | earlier
    · obtain ⟨_, call, holds, rfl, _⟩ := appends fresh
      exact lt_of_lt_of_le (x.held v call holds).named tags
    · exact lt_of_lt_of_le (x.appended earlier) tags
  · intro w k o member
    rcases mem_append.mp member with fresh | earlier
    · obtain ⟨_, call, holds, rfl, _⟩ := returns fresh
      exact lt_of_lt_of_le (x.held v call holds).named tags
    · exact lt_of_lt_of_le (x.returned earlier) tags
  · intro w k idx e idx' e' member member'
    rcases mem_append.mp member with fresh | earlier <;> rcases mem_append.mp member' with fresh' | earlier'
    · exact move.appended_once fresh fresh'
    · obtain ⟨rfl, call, holds, rfl, unsent, _⟩ := appends fresh
      exact absurd earlier' ((x.held _ call holds).unsent unsent _ _)
    · obtain ⟨rfl, call, holds, rfl, unsent, _⟩ := appends fresh'
      exact absurd earlier ((x.held _ call holds).unsent unsent _ _)
    · exact x.once earlier earlier'
  · intro w k idx e member member'
    rcases mem_append.mp member with fresh | earlier <;> rcases mem_append.mp member' with fresh' | earlier'
    · obtain ⟨_, _, _, _, _, _, finished⟩ := returns fresh
      obtain ⟨_, _, _, _, _, after⟩ := appends fresh'
      exact Stage.noConfusion (finished _ after)
    · obtain ⟨rfl, call, holds, rfl, refused, _⟩ := returns fresh
      exact absurd earlier' ((x.held _ call holds).unsent (refused rfl) _ _)
    · obtain ⟨rfl, call, holds, rfl, unsent, _⟩ := appends fresh'
      have finished := (x.held _ call holds).running _ earlier
      exact absurd finished unsent.not_committed
    · exact x.refused earlier earlier'
  · intro w k member
    rcases mem_append.mp member with fresh | earlier
    · obtain ⟨rfl, call, holds, rfl, _, waits, _⟩ := returns fresh
      obtain ⟨_, idx, waits, _⟩ := waits rfl
      obtain ⟨e, appended, _⟩ := (x.held _ call holds).waiting idx waits
      exact ⟨idx, e, mem_append_right _ appended⟩
    · obtain ⟨idx, e, appended⟩ := x.succeeded earlier
      exact ⟨idx, e, mem_append_right _ appended⟩

/-- Every run records its proposals. -/
theorem of_reach {settings : Settings} {founders : Nat} (positive : 0 < founders) {ok : System → Action → Prop}
    {past : List System} (run : Run.Reach System.step ok (System.init settings founders) c past events) :
    Calls c events := by
  induction run with
  | start => exact init settings founders
  | step a before _ moved ih =>
    have ballots := (Polls.of_reach positive before).ballots
    exact ih.step (fun v => (ballots.voter v).id) (step_call moved)

end Calls

end Cluster
