import LittleDb.Lib.Consensus.Safety

/-! Turns of one node: what a sequence of its protocol steps leaves unchanged for everyone else. -/

namespace Consensus

open Quorum Function

variable {N E : Type} [DecidableEq N]

/-- One node took any number of steps; the other records are unchanged. -/
structure Turn (R : Rules N E) (v : N) (s s' : State N E) : Prop where
  reach : Reachable R s → Reachable R s'
  term : ∀ w, w ≠ v → s'.term w = s.term w
  log : ∀ w, w ≠ v → s'.log w = s.log w
  commit : ∀ w, w ≠ v → s'.commit w = s.commit w
  leads : ∀ w, w ≠ v → (s'.leads w ↔ s.leads w)
  stood : ∀ {n t l}, s.stood n t l → s'.stood n t l
  voted : ∀ {w t c l}, s.voted w t c l → s'.voted w t c l
  elected : ∀ {n t e q}, s.elected n t e q → s'.elected n t e q
  led : ∀ {n t l}, s.led n t l → s'.led n t l
  acked : ∀ {w t l}, s.acked w t l → s'.acked w t l
  committed : ∀ {n t k l}, s.committed n t k l → s'.committed n t k l
  voted_own : ∀ {w t c l}, w ≠ v → s'.voted w t c l → s.voted w t c l
  elected_own : ∀ {w t e q}, w ≠ v → s'.elected w t e q → s.elected w t e q
  acked_own : ∀ {w t l}, w ≠ v → s'.acked w t l → s.acked w t l

namespace Turn

variable {R : Rules N E} {v : N} {s s' s'' : State N E}

theorem refl (R : Rules N E) (v : N) (s : State N E) : Turn R v s s :=
  ⟨id, fun _ _ => rfl, fun _ _ => rfl, fun _ _ => rfl, fun _ _ => Iff.rfl, id, id, id, id, id, id,
    fun _ => id, fun _ => id, fun _ => id⟩

theorem trans (first : Turn R v s s') (second : Turn R v s' s'') : Turn R v s s'' where
  reach := second.reach ∘ first.reach
  term w other := (second.term w other).trans (first.term w other)
  log w other := (second.log w other).trans (first.log w other)
  commit w other := (second.commit w other).trans (first.commit w other)
  leads w other := (second.leads w other).trans (first.leads w other)
  stood := second.stood ∘ first.stood
  voted := second.voted ∘ first.voted
  elected := second.elected ∘ first.elected
  led := second.led ∘ first.led
  acked := second.acked ∘ first.acked
  committed := second.committed ∘ first.committed
  voted_own other := first.voted_own other ∘ second.voted_own other
  elected_own other := first.elected_own other ∘ second.elected_own other
  acked_own other := first.acked_own other ∘ second.acked_own other

variable {t k c : Nat} {n : N} {log l : List E} {q : Finset N} {x : E}

theorem follow (s : State N E) (below : s.term v ≤ t) : Turn R v s (s.follow v t) := by
  refine ⟨?_, ?_, fun _ _ => rfl, fun _ _ => rfl, ?_, id, id, id, id, id, id, fun _ => id, fun _ => id, fun _ => id⟩
  · intro reach
    rcases Nat.lt_or_eq_of_le below with higher | same
    · exact .step reach (.adopt v t higher)
    · -- In its own term the node only stops leading.
      have rest := Reachable.step reach (.rest v)
      subst same
      rwa [State.follow, update_eq_self]
  · exact fun w other => update_of_ne other ..
  · intro w other
    simp [State.follow, other]

theorem stand (s : State N E) (v : N) : Turn R v s (s.stand v) := by
  refine ⟨fun reach => .step reach (.stand v), ?_, fun _ _ => rfl, fun _ _ => rfl, ?_, .inl,
    .inl, id, id, id, id, ?_, fun _ => id, fun _ => id⟩
  · exact fun w other => update_of_ne other ..
  · intro w other
    simp [State.stand, other]
  · rintro w t c l other (old | ⟨same, _⟩)
    · exact old
    · exact absurd same other

theorem grant {c : N} (asked : s.stood c (s.term v) log)
    (free : ∀ c' l, s.voted v (s.term v) c' l → c' = c) (fresh : R.UpToDate log (s.log v)) : Turn R v s (s.grant v c) := by
  refine ⟨fun reach => .step reach (.grant v c log asked free fresh), fun _ _ => rfl,
    fun _ _ => rfl, fun _ _ => rfl, fun _ _ => Iff.rfl, id, .inl, id, id, id, id, ?_, fun _ => id,
    fun _ => id⟩
  rintro w t c l other (old | ⟨same, _⟩)
  · exact old
  · exact absurd same other

theorem win (asked : s.stood v (s.term v) (s.log v))
    (once : ∀ e q', ¬ s.elected v (s.term v) e q') (quorum : Majority (R.members (s.log v)) q)
    (votes : ∀ w ∈ q, ∃ l, s.voted w (s.term v) v l) : Turn R v s (s.win v q) := by
  refine ⟨fun reach => .step reach (.win v q asked once quorum votes), fun _ _ => rfl,
    fun _ _ => rfl, fun _ _ => rfl, ?_, id, id, .inl, .inl, id, id, fun _ => id, ?_,
    fun _ => id⟩
  · intro w other
    simp [State.win, other]
  · rintro w t e q' other (old | ⟨same, _⟩)
    · exact old
    · exact absurd same other

theorem append (leading : s.leads v) (own : R.term x = s.term v)
    (gate : ∀ set, R.reconf x = some set → Near (R.members (s.log v)) set ∧
      ∃ k l, s.Opened R v (s.term v) k l ∧ l <+: s.log v ∧
        ∀ pos, k ≤ pos → ¬ R.ReconfAt (s.log v) pos) : Turn R v s (s.append v x) := by
  refine ⟨fun reach => .step reach (.append v x leading own gate), fun _ _ => rfl, ?_,
    fun _ _ => rfl, fun _ _ => Iff.rfl, id, id, id, .inl, id, id, fun _ => id, fun _ => id,
    fun _ => id⟩
  exact fun w other => update_of_ne other ..

theorem store (source : s.led n (s.term v) l) (other : n ≠ v) (merged : log = s.log v ∨ (¬ l <+: s.log v ∧ log <+: l ∧
      ∀ x, x <+: s.log v → x <+: l → x <+: log)) : Turn R v s (s.store v log) := by
  refine ⟨fun reach => .step reach (.accept v n l log source other merged), fun _ _ => rfl, ?_,
    fun _ _ => rfl, ?_, id, id, id, id, id, id, fun _ => id, fun _ => id, fun _ => id⟩
  · exact fun w away => update_of_ne away ..
  · intro w away
    simp [State.store, away]

theorem ack (source : s.led n (s.term v) l) (holds : l <+: s.log v) : Turn R v s (s.ack v l) := by
  refine ⟨fun reach => .step reach (.ack v n l source holds), fun _ _ => rfl, fun _ _ => rfl,
    fun _ _ => rfl, fun _ _ => Iff.rfl, id, id, id, id, .inl, id, fun _ => id, fun _ => id, ?_⟩
  rintro w t l' other (old | ⟨same, _⟩)
  · exact old
  · exact absurd same other

theorem settle (leading : s.leads v) (present : (s.log v)[k]? = some x) (own : R.term x = s.term v)
    (quorum : Majority (R.members (s.log v)) q)
    (stored : ∀ w ∈ q, ∃ l, s.acked w (s.term v) l ∧ k < l.length) : Turn R v s (s.settle v k) := by
  refine ⟨fun reach => .step reach (.settle v k x q leading present own quorum stored),
    fun _ _ => rfl, fun _ _ => rfl, ?_, fun _ _ => Iff.rfl, id, id, id, id, id, .inl,
    fun _ => id, fun _ => id, fun _ => id⟩
  exact fun w other => update_of_ne other ..

theorem learn (source : s.committed n t k l)
    (reached : t ≤ s.term v) (below : c ≤ k) (shared : (s.log v).take c = l.take c) : Turn R v s (s.learn v c) := by
  refine ⟨fun reach => .step reach (.learn v n t k c l source reached below shared),
    fun _ _ => rfl, fun _ _ => rfl, ?_, fun _ _ => Iff.rfl, id, id, id, id, id, id,
    fun _ => id, fun _ => id, fun _ => id⟩
  exact fun w other => update_of_ne other ..

theorem forget (s : State N E) (below : c ≤ s.commit v) : Turn R v s (s.learn v c) := by
  refine ⟨fun reach => .step reach (.forget v c below), fun _ _ => rfl, fun _ _ => rfl, ?_,
    fun _ _ => Iff.rfl, id, id, id, id, id, id, fun _ => id, fun _ => id, fun _ => id⟩
  exact fun w other => update_of_ne other ..

end Turn

end Consensus
