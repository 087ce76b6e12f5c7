import LittleDb.Cluster.IndexOrder

/-! One leader and one follower: when backing up over rejections brings their logs together. -/

namespace Cluster

open Function List

variable {l : RaftLog}

/-- Where the replication loop of a leader stands after a pass. -/
inductive Progress where
  /-- The peer is not caught up, and the loop goes on at once. -/
  | again (leader follower : Node)
  /-- The peer is caught up, and the loop waits for the next signal. -/
  | caughtUp (leader follower : Node)
  /-- The loop is left otherwise: leadership was lost, or a snapshot is due. -/
  | left (leader follower : Node)
  | panicked

/-- One pass of the replication loop, with a follower that answers. -/
def sendRound (settings : Settings) (now : Nat) (save : Save) (leader follower : Node) : Progress :=
  match leader.startRound follower.id 0 with
  | none => .panicked
  | some (.append term prevLogIndex count _, [⟨_, .appendEntries m, tag⟩]) =>
    let handled := follower.handleAppendEntries now m tag save
    match handled.sends.findSome? fun pkt => pkt.msg.response with
    | none => .left leader handled.node
    | some resp =>
      match leader.finishRound settings follower.id resp term prevLogIndex count save with
      | none => .panicked
      | some replied =>
        if replied.node.role ≠ .leader ∨ replied.node.currentTerm ≠ term then
          .left replied.node handled.node
        else if resp.success ∧ replied.node.log.lastIndex < replied.node.nextIndex follower.id then
          .caughtUp replied.node handled.node
        else .again replied.node handled.node
  | some _ => .left leader follower

/-- The replication loop, stopped after a number of passes. -/
def sendLoop (settings : Settings) (now : Nat) (save : Save) : Nat → Node → Node → Progress
  | 0, leader, follower => .again leader follower
  | rounds + 1, leader, follower =>
    match sendRound settings now save leader follower with
    | .again leader follower => sendLoop settings now save rounds leader follower
    | other => other

theorem RaftLog.Whole.matchesPrev_iff (whole : l.Whole) {prevLogIndex prevLogTerm : Nat} :
    l.matchesPrev prevLogIndex prevLogTerm = true ↔ l.term prevLogIndex = some prevLogTerm := by
  refine ⟨whole.matchesPrev, fun known => ?_⟩
  have inside := RaftLog.term_inside known
  unfold RaftLog.matchesPrev
  rw [whole.1, if_neg (Nat.not_lt_zero _)]
  split_ifs with zero
  · rw [zero, whole.term_zero] at known
    rw [whole.2, ← Option.some.inj known]
    rfl
  · simp [inside, known]

theorem RaftLog.Whole.term_known (whole : l.Whole) {idx : Nat}
    (inside : idx ≤ l.lastIndex) : ∃ t, l.term idx = some t :=
  RaftLog.term_known (by rw [whole.1]; exact Nat.zero_le _) inside

theorem RaftLog.Whole.ext {l' : RaftLog} (whole : l.Whole) (whole' : l'.Whole)
    (same : l.entries = l'.entries) : l = l' := by
  obtain ⟨base, term, entries⟩ := l
  obtain ⟨base', term', entries'⟩ := l'
  obtain ⟨rfl, rfl⟩ := whole
  obtain ⟨rfl, rfl⟩ := whole'
  obtain rfl := same
  rfl

namespace Node

variable {leader follower : Node} {settings : Settings}

/-- A leader and a follower of no higher term, with whole, matching logs. -/
structure Faces (leader follower : Node) : Prop where
  leads : leader.role = .leader
  member : follower.id ∈ leader.peers
  kept : leader.Kept
  whole : leader.log.Whole
  whole' : follower.log.Whole
  older : follower.currentTerm ≤ leader.currentTerm
  matching : Matching follower.log.entries leader.log.entries

theorem Faces.startRound (faces : leader.Faces follower) {prev t : Nat}
    (next : leader.nextIndex follower.id = prev + 1) (known : leader.log.term prev = some t) (tag : Nat) :
    leader.startRound follower.id tag =
      some (.append leader.currentTerm prev (leader.log.entriesAfter prev).length tag,
        [⟨follower.id, .appendEntries ⟨leader.id, leader.currentTerm, prev, t,
          leader.log.entriesAfter prev, leader.commitIndex⟩, tag⟩]) := by
  unfold Node.startRound
  rw [if_neg (not_not.mpr faces.leads), if_neg (by omega)]
  have low : ¬ leader.nextIndex follower.id - 1 < leader.log.baseIndex := by
    rw [faces.whole.1]
    omega
  rw [if_neg low]
  have same : leader.nextIndex follower.id - 1 = prev := by omega
  simp only [same, known]

theorem Faces.refuse (faces : leader.Faces follower) {prev t : Nat}
    (differs : follower.log.term prev ≠ some t) (entries : List Entry) (now tag commit : Nat) (save : Save) :
    ∃ follower', follower.handleAppendEntries now
        ⟨leader.id, leader.currentTerm, prev, t, entries, commit⟩ tag save =
          { node := follower'
            sends := [⟨leader.id, .appendResponse follower'.id leader.currentTerm false 0
              (follower.log.lastIndex + 1), tag⟩] } ∧
      follower'.log = follower.log ∧ follower'.currentTerm = leader.currentTerm ∧
      follower'.id = follower.id := by
  have log := (follower.log_catchUp leader.currentTerm save).1
  have adopted : (follower.catchUp leader.currentTerm save).currentTerm = leader.currentTerm ∧
      (follower.catchUp leader.currentTerm save).id = follower.id := by
    have older := faces.older
    unfold Node.catchUp Node.stepDown Node.persist
    split_ifs with higher saved
    · exact ⟨rfl, rfl⟩
    · exact ⟨rfl, rfl⟩
    · exact ⟨by omega, rfl⟩
  refine ⟨(follower.catchUp leader.currentTerm save).deferTo now, ?_, log, adopted.1, adopted.2⟩
  unfold Node.handleAppendEntries
  dsimp only
  rw [if_neg (not_lt.mpr faces.older), if_neg]
  · simp only [Node.deferTo, log, adopted.1]
  · simp only [Node.deferTo, log]
    rw [faces.whole'.matchesPrev_iff]
    exact differs

theorem Faces.accept (faces : leader.Faces follower) {prev t : Nat}
    (same : follower.log.term prev = some t) (entries : List Entry) (now tag commit : Nat) (save : Save) :
    ∃ follower' sender, follower.handleAppendEntries now
        ⟨leader.id, leader.currentTerm, prev, t, entries, commit⟩ tag save =
          { node := follower'
            sends := [⟨leader.id, .appendResponse sender leader.currentTerm true (prev + entries.length) 0, tag⟩] } ∧
      follower'.log = (follower.log.appendWindow (prev + 1) entries).1 := by
  have log := (follower.log_catchUp leader.currentTerm save).1
  have adopted : (follower.catchUp leader.currentTerm save).currentTerm = leader.currentTerm := by
    have older := faces.older
    unfold Node.catchUp Node.stepDown Node.persist
    split_ifs
    · rfl
    · rfl
    · omega
  have matched : ((follower.catchUp leader.currentTerm save).deferTo now).log.matchesPrev prev t = true := by
    simp only [Node.deferTo, log]
    exact faces.whole'.matchesPrev_iff.mpr same
  refine ⟨((follower.catchUp leader.currentTerm save).deferTo now).storeEntries
    ⟨leader.id, leader.currentTerm, prev, t, entries, commit⟩,
    ((follower.catchUp leader.currentTerm save).deferTo now).id, ?_, ?_⟩
  · unfold Node.handleAppendEntries
    dsimp only
    rw [if_neg (not_lt.mpr faces.older), if_pos matched]
    simp only [Node.storeEntries, Node.deferTo, adopted]
  · simp only [Node.storeEntries, Node.deferTo, log]

theorem maybeCompact_same {n n' : Node} (done : n.maybeCompact settings = some n') :
    n'.role = n.role ∧ n'.currentTerm = n.currentTerm ∧ n'.log.lastIndex = n.log.lastIndex ∧
      n'.nextIndex = n.nextIndex ∧ n'.matchIndex = n.matchIndex := by
  unfold Node.maybeCompact at done
  split_ifs at done
  · cases done
    exact ⟨rfl, rfl, rfl, rfl, rfl⟩
  · split at done
    · cases done
    · cases done
      exact ⟨rfl, rfl, by simp, rfl, rfl⟩

theorem Faces.succeed (faces : leader.Faces follower) (settings : Settings) (save : Save)
    {prev count : Nat} (reaches : prev + count = leader.log.lastIndex) :
    ∃ replied, leader.finishRound settings follower.id ⟨leader.currentTerm, true, 0⟩
        leader.currentTerm prev count save = some replied ∧ replied.node.role = .leader ∧ replied.node.currentTerm = leader.currentTerm ∧
      replied.node.log.lastIndex = leader.log.lastIndex ∧
      replied.node.nextIndex follower.id = leader.log.lastIndex + 1 ∧
      replied.node.matchIndex follower.id = leader.log.lastIndex := by
  have held := faces.kept.matchIndex_le faces.leads follower.id
  have best : max (prev + count) (leader.matchIndex follower.id) = leader.log.lastIndex := by omega
  have recorded := faces.kept.update faces.member (leader.log.lastIndex + 1) leader.log.lastIndex
    fun _ => ⟨Nat.succ_pos _, le_refl _, le_refl _⟩
  obtain ⟨n₁, events, tallied, moved⟩ := recorded.kept.maybeAdvanceCommit faces.leads
  obtain ⟨n₂, compacted, _⟩ := moved.kept.maybeCompact settings
  obtain ⟨role, current, last, next, known⟩ := maybeCompact_same compacted
  refine ⟨{ node := n₂, events := events }, ?_, ?_⟩
  · unfold Node.finishRound
    rw [if_neg (lt_irrefl _), if_neg (by simp [faces.leads]), if_pos rfl]
    simp only [Node.onAppendSuccess, best, tallied, Option.bind_eq_bind, Option.bind_some, compacted]
    rfl
  · simp only [role, current, last, next, known]
    rcases Node.maybeAdvanceCommit_cases tallied with ⟨rfl, _⟩ | ⟨_, _, _, rfl, _⟩
    · simp [faces.leads]
    · simp [faces.leads]

end Node

open Node

variable {leader follower : Node} {prev t : Nat} (settings : Settings) (now : Nat) (save : Save)

theorem sendRound_refused (faces : leader.Faces follower)
    (next : leader.nextIndex follower.id = prev + 1) (known : leader.log.term prev = some t)
    (differs : follower.log.term prev ≠ some t) :
    ∃ follower', sendRound settings now save leader follower =
        .again (leader.onAppendReject follower.id (follower.log.lastIndex + 1)) follower' ∧
      follower'.log = follower.log ∧ follower'.currentTerm = leader.currentTerm ∧
      follower'.id = follower.id := by
  obtain ⟨follower', handled, log, term, id⟩ :=
    faces.refuse differs (leader.log.entriesAfter prev) now 0 leader.commitIndex save
  refine ⟨follower', ?_, log, term, id⟩
  simp only [sendRound, faces.startRound next known, handled, findSome?_cons, Message.response]
  simp [Node.finishRound, faces.leads, Node.onAppendReject]

theorem sendRound_accepted (faces : leader.Faces follower) (next : leader.nextIndex follower.id = prev + 1)
    (known : leader.log.term prev = some t) (same : follower.log.term prev = some t) :
    ∃ leader' follower', sendRound settings now save leader follower = .caughtUp leader' follower' ∧
    follower'.log = (follower.log.appendWindow (prev + 1) (leader.log.entriesAfter prev)).1 ∧
    leader'.nextIndex follower.id = leader.log.lastIndex + 1 ∧
    leader'.matchIndex follower.id = leader.log.lastIndex := by
  obtain ⟨follower', sender, handled, log⟩ :=
    faces.accept same (leader.log.entriesAfter prev) now 0 leader.commitIndex save
  have reaches : prev + (leader.log.entriesAfter prev).length = leader.log.lastIndex := by
    have inside := RaftLog.term_inside known
    rw [faces.whole.lastIndex] at inside ⊢
    rw [RaftLog.entriesAfter, faces.whole.1, length_drop]
    omega
  obtain ⟨replied, finished, role, current, last, index, held⟩ :=
    faces.succeed settings save reaches
  refine ⟨replied.node, follower', ?_, log, index, held⟩
  simp only [sendRound, faces.startRound next known, handled, findSome?_cons, Message.response, finished]
  simp [role, current, last, index]

theorem sendRound_panics (leads : leader.role = .leader) (whole : leader.log.Whole)
    (beyond : leader.log.lastIndex + 1 < leader.nextIndex follower.id) :
    sendRound settings now save leader follower = .panicked := by
  have out : leader.log.term (leader.nextIndex follower.id - 1) = none := by
    cases known : leader.log.term (leader.nextIndex follower.id - 1) with
    | none => rfl
    | some t =>
      have inside := RaftLog.term_inside known
      omega
  have none : leader.startRound follower.id 0 = none := by
    unfold Node.startRound
    rw [if_neg (not_not.mpr leads), if_neg (by omega)]
    have low : ¬ leader.nextIndex follower.id - 1 < leader.log.baseIndex := by
      rw [whole.1]
      omega
    rw [if_neg low]
    simp only [out]
  simp only [sendRound, none]

section

variable (faces : leader.Faces follower)

include faces

theorem Node.Faces.again {follower' : Node}
    (inside : follower.log.lastIndex ≤ leader.log.lastIndex) (log : follower'.log = follower.log)
    (term : follower'.currentTerm = leader.currentTerm) (id : follower'.id = follower.id) :
    (leader.onAppendReject follower.id (follower.log.lastIndex + 1)).Faces follower' ∧
      (leader.onAppendReject follower.id (follower.log.lastIndex + 1)).nextIndex follower'.id =
        follower'.log.lastIndex + 1 := by
  have moved := faces.kept.update faces.member (follower.log.lastIndex + 1)
    (leader.matchIndex follower.id) fun leads =>
      ⟨Nat.succ_pos _, Nat.succ_le_succ inside, faces.kept.matchIndex_le leads _⟩
  rw [update_eq_self] at moved
  have same : max (follower.log.lastIndex + 1) 1 = follower.log.lastIndex + 1 := by omega
  refine ⟨⟨faces.leads, id ▸ faces.member, ?_, faces.whole, log ▸ faces.whole', term.le, log ▸ faces.matching⟩, ?_⟩
  · rw [Node.onAppendReject, same]
    exact moved.kept
  · rw [Node.onAppendReject, same, id, log]
    simp

theorem sendLoop_stuck (next : leader.nextIndex follower.id = follower.log.lastIndex + 1)
    (inside : follower.log.lastIndex ≤ leader.log.lastIndex)
    (differs : follower.log.term follower.log.lastIndex ≠ leader.log.term follower.log.lastIndex) (rounds : Nat) :
    ∃ leader' follower', sendLoop settings now save rounds leader follower = .again leader' follower' := by
  induction rounds generalizing leader follower with
  | zero => exact ⟨leader, follower, rfl⟩
  | succ rounds ih =>
    obtain ⟨t, known⟩ := faces.whole.term_known inside
    obtain ⟨follower', passed, log, term, id⟩ :=
      sendRound_refused settings now save faces next known (known ▸ differs)
    obtain ⟨faces', next'⟩ := faces.again inside log term id
    simp only [sendLoop, passed]
    exact ih faces' next' (log ▸ inside) (log ▸ differs)

theorem Node.Faces.agree {prev t : Nat} (known : leader.log.term prev = some t)
    (same : follower.log.term prev = some t) : follower.log.entries.take prev = leader.log.entries.take prev := by
  have inside := RaftLog.term_inside known
  rw [faces.whole.lastIndex] at inside
  refine faces.matching.prev faces.whole' inside same fun i y index found => ?_
  rw [index, faces.whole.term, found] at known
  exact Option.some.inj known

theorem Node.Faces.front (front : follower.log.entries <+: leader.log.entries) {t : Nat}
    (known : leader.log.term follower.log.lastIndex = some t) : follower.log.term follower.log.lastIndex = some t := by
  rw [faces.whole'.lastIndex] at known ⊢
  cases size : follower.log.entries.length with
  | zero =>
    rw [size, faces.whole.term_zero] at known
    rw [faces.whole'.term_zero, known]
  | succ i =>
    rw [size, faces.whole.term] at known
    rw [faces.whole'.term, ← known, ← Consensus.getElem?_of_pre front (by omega)]

theorem Node.Faces.completed (front : follower.log.entries <+: leader.log.entries) :
    (follower.log.appendWindow (follower.log.lastIndex + 1)
      (leader.log.entriesAfter follower.log.lastIndex)).1 = leader.log := by
  have inside := front.length_le
  rw [faces.whole'.lastIndex, RaftLog.entriesAfter, faces.whole.1, Nat.sub_zero]
  have agree : follower.log.entries.take follower.log.entries.length =
      leader.log.entries.take follower.log.entries.length := by
    rw [take_length]
    exact List.prefix_iff_eq_take.mp front
  obtain ⟨whole, entries⟩ := appendWindow_entries faces.whole' agree (le_refl _)
    (leader.log.entries.drop follower.log.entries.length) (List.prefix_refl _) faces.matching
  refine whole.ext faces.whole ?_
  have all : leader.log.entries.take (follower.log.entries.length +
      (leader.log.entries.drop follower.log.entries.length).length) = leader.log.entries := by
    refine take_of_length_le ?_
    rw [length_drop]
    omega
  rw [entries, all]
  split_ifs with longer
  · exact front.eq_of_length (le_antisymm inside longer.length_le)
  · rfl

theorem Node.Faces.front_of_end (inside : follower.log.lastIndex ≤ leader.log.lastIndex)
    (same : follower.log.term follower.log.lastIndex = leader.log.term follower.log.lastIndex) :
    follower.log.entries <+: leader.log.entries := by
  obtain ⟨t, known⟩ := faces.whole.term_known inside
  have agree := faces.agree known (same.trans known)
  rw [faces.whole'.lastIndex, take_length] at agree
  rw [agree]
  exact List.take_prefix ..

end

/--
Replication without losses catches a follower up exactly if its log is the front of the leader's.

Otherwise the loop goes round forever, leaves a longer log, or reads out of range.
-/
theorem catches_up_iff (faces : leader.Faces follower)
    (next : leader.nextIndex follower.id = leader.log.lastIndex + 1) :
    (∃ rounds leader' follower',
      sendLoop settings now save rounds leader follower = .caughtUp leader' follower' ∧
      follower'.log = leader.log ∧ leader'.nextIndex follower.id = leader.log.lastIndex + 1 ∧
      leader'.matchIndex follower.id = leader.log.lastIndex) ↔
    follower.log.entries <+: leader.log.entries := by
  obtain ⟨t, known⟩ := faces.whole.term_known (le_refl _)
  constructor
  · rintro ⟨rounds, leader', follower', ran, equal, _, _⟩
    by_contra other
    cases rounds with
    | zero => cases ran
    | succ rounds =>
      by_cases same : follower.log.term leader.log.lastIndex = some t
      · -- The first message is accepted, so the follower keeps all it has.
        have longer : leader.log.entries <+: follower.log.entries := by
          have agree := faces.agree known same
          rw [faces.whole.lastIndex, take_length] at agree
          rw [← agree]
          exact List.take_prefix ..
        obtain ⟨l, f, passed, log, _⟩ := sendRound_accepted settings now save faces next known same
        simp only [sendLoop, passed] at ran
        obtain ⟨rfl, rfl⟩ := Progress.caughtUp.inj ran
        have nothing : leader.log.entriesAfter leader.log.lastIndex = [] := by
          rw [RaftLog.entriesAfter, faces.whole.1, faces.whole.lastIndex, Nat.sub_zero, drop_length]
        rw [nothing] at log
        rw [← equal, log] at other
        exact other (List.prefix_refl _)
      · obtain ⟨f, passed, log, term, id⟩ := sendRound_refused settings now save faces next known same
        simp only [sendLoop, passed] at ran
        rcases lt_or_ge leader.log.lastIndex follower.log.lastIndex with longer | inside
        · -- The leader is sent behind the end of its own log.
          cases rounds with
          | zero => cases ran
          | succ rounds =>
            have beyond : leader.log.lastIndex + 1 <
                (leader.onAppendReject follower.id (follower.log.lastIndex + 1)).nextIndex f.id := by
              simp only [Node.onAppendReject, id, update_self]
              omega
            have leads : (leader.onAppendReject follower.id (follower.log.lastIndex + 1)).role = .leader :=
              faces.leads
            have out := sendRound_panics settings now save leads faces.whole beyond
            simp only [sendLoop, out] at ran
            cases ran
        · -- The leader asks for the end of the follower's log again and again.
          obtain ⟨faces', next'⟩ := faces.again inside log term id
          have differs : follower.log.term follower.log.lastIndex ≠
              leader.log.term follower.log.lastIndex := fun same => other (faces.front_of_end inside same)
          obtain ⟨_, _, stuck⟩ := sendLoop_stuck settings now save faces' next' (log ▸ inside)
            (log ▸ differs) rounds
          rw [stuck] at ran
          cases ran
  · intro front
    have inside : follower.log.lastIndex ≤ leader.log.lastIndex := by
      rw [faces.whole.lastIndex, faces.whole'.lastIndex]
      exact front.length_le
    rcases inside.lt_or_eq with shorter | equal
    · -- The first message is refused, and the second one fits.
      have lacks : follower.log.term leader.log.lastIndex ≠ some t := by
        intro has
        have := RaftLog.term_inside has
        omega
      obtain ⟨f, passed, log, term, id⟩ := sendRound_refused settings now save faces next known lacks
      obtain ⟨faces', next'⟩ := faces.again inside log term id
      have front' : f.log.entries <+: leader.log.entries := log ▸ front
      obtain ⟨t', known'⟩ := faces.whole.term_known inside
      obtain ⟨l, f', passed', log', index, held⟩ := sendRound_accepted settings now save faces' next'
        (log ▸ known') (faces'.front front' (log ▸ known'))
      refine ⟨2, l, f', ?_, ?_, id ▸ index, id ▸ held⟩
      · simp only [sendLoop, passed, passed']
      · rw [log']
        exact faces'.completed front'
    · obtain ⟨l, f, passed, log, index, held⟩ := sendRound_accepted settings now save faces next known
        (equal ▸ faces.front front (equal ▸ known))
      refine ⟨1, l, f, ?_, ?_, index, held⟩
      · simp only [sendLoop, passed]
      · rw [log, ← equal]
        exact faces.completed front

/-- A leader of two nodes with a log of given terms, just elected. -/
def leaderOf (term : Nat) (entries : List Entry) : Node :=
  { Node.fresh 0 [0, 1] (Members.fullConfig 2) with
    role := .leader, currentTerm := term, log := ⟨0, 0, entries⟩, nextIndex := fun _ => entries.length + 1 }

/-- A follower of two nodes with a log of given terms. -/
def followerOf (term : Nat) (entries : List Entry) : Node :=
  { Node.fresh 1 [0, 1] (Members.fullConfig 2) with currentTerm := term, log := ⟨0, 0, entries⟩ }

theorem faces_of {term term' : Nat} {entries entries' : List Entry} (older : term' ≤ term)
    (matching : Matching entries' entries) : (leaderOf term entries).Faces (followerOf term' entries') := by
  refine ⟨rfl, by simp [leaderOf, followerOf, Node.fresh], ⟨le_refl _, le_refl _, le_refl _, Nat.zero_le _, fun _ _ => rfl,
    fun _ p _ => ?_, nofun⟩, ⟨rfl, rfl⟩, ⟨rfl, rfl⟩, older, matching⟩
  simp [Node.Within, leaderOf, RaftLog.lastIndex, Node.fresh]

/-- A leader of the fourth term brings a follower without its last entry up. -/
theorem catches_up_iff_behind : ∃ rounds leader' follower',
    sendLoop ⟨0, 0⟩ 0 .ok rounds (leaderOf 4 [⟨1, .data, [1]⟩, ⟨2, .data, [2]⟩])
      (followerOf 3 [⟨1, .data, [1]⟩]) = .caughtUp leader' follower' ∧
    follower'.log = ⟨0, 0, [⟨1, .data, [1]⟩, ⟨2, .data, [2]⟩]⟩ := by
  have faces : (leaderOf 4 [⟨1, .data, [1]⟩, ⟨2, .data, [2]⟩]).Faces (followerOf 3 [⟨1, .data, [1]⟩]) := by
    refine faces_of (by decide) fun i x y found found' same => ?_
    rcases i with _ | i
    · rfl
    · simp at found
  obtain ⟨rounds, l, f, ran, log, _⟩ := (catches_up_iff ⟨0, 0⟩ 0 .ok faces rfl).mpr ⟨[⟨2, .data, [2]⟩], rfl⟩
  exact ⟨rounds, l, f, ran, log⟩

/-- The loop never ends if the conflicting log is as long, or panics. -/
theorem never_caught_up :
    (∀ rounds, ∃ leader' follower', sendLoop ⟨0, 0⟩ 0 .ok rounds
      (leaderOf 4 [⟨1, .data, [1]⟩, ⟨2, .data, [2]⟩]) (followerOf 3 [⟨1, .data, [1]⟩, ⟨3, .data, [3]⟩]) =
        .again leader' follower') ∧
    sendLoop ⟨0, 0⟩ 0 .ok 2 (leaderOf 4 [⟨1, .data, [1]⟩, ⟨2, .data, [2]⟩])
      (followerOf 3 [⟨1, .data, [1]⟩, ⟨3, .data, [3]⟩, ⟨3, .data, [4]⟩]) = .panicked := by
  have faces : (leaderOf 4 [⟨1, .data, [1]⟩, ⟨2, .data, [2]⟩]).Faces
      (followerOf 3 [⟨1, .data, [1]⟩, ⟨3, .data, [3]⟩]) := by
    refine faces_of (by decide) fun i x y found found' same => ?_
    rcases i with _ | _ | i
    · rfl
    · simp only [getElem?_cons_succ, getElem?_cons_zero, Option.some.injEq] at found found'
      subst found found'
      cases same
    · simp at found
  refine ⟨fun rounds => sendLoop_stuck ⟨0, 0⟩ 0 .ok faces rfl (by decide) (by decide) rounds, ?_⟩
  simp only [sendLoop]
  rfl

end Cluster
