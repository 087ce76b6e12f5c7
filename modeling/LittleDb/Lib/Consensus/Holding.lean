import LittleDb.Lib.Consensus.Completeness

/-! What a node that acknowledged a leader's log still holds later, and when it votes. -/

namespace Consensus

open Quorum Function

variable {N E : Type} {R : Rules N E} {s s' : State N E}

/-- A leader of a term in this range was elected without the given prefix. -/
def Overtaken (s : State N E) (low high : Nat) (x : List E) : Prop :=
  ∃ n t e q, s.elected n t e q ∧ low < t ∧ t ≤ high ∧ ¬ x <+: e

theorem Overtaken.mono {low high high' : Nat} {x : List E} (gone : Overtaken s low high x)
    (more : ∀ n t e q, s.elected n t e q → s'.elected n t e q) (wider : high ≤ high') : Overtaken s' low high' x := by
  obtain ⟨n, t, e, q, won, above, below, missing⟩ := gone
  exact ⟨n, t, e, q, more n t e q won, above, le_trans below wider, missing⟩

/-- A node drops an acknowledged log only for a later leader without it. -/
structure Holding (s : State N E) : Prop where
  acked_led : ∀ {v t l}, s.acked v t l → ∃ n, s.led n t l
  acked_le : ∀ {v t l}, s.acked v t l → t ≤ s.term v
  acked_kept : ∀ {v t l}, s.acked v t l → ∀ x, x <+: l →
    x <+: s.log v ∨ Overtaken s t (s.term v) x
  voted_kept : ∀ {v t' c lv t l}, s.voted v t' c lv → s.acked v t l → t < t' →
    ∀ x, x <+: l → x <+: lv ∨ Overtaken s t t' x
  elected_kept : ∀ {n t' e q}, s.elected n t' e q → ∀ v ∈ q, ∃ lv, s.voted v t' n lv ∧
    ∀ {t l}, s.acked v t l → t < t' → ∀ x, x <+: l → x <+: lv ∨ Overtaken s t (t' - 1) x

namespace Holding

theorem init (R : Rules N E) : Holding (State.init R) := by
  exact {
    acked_led := fun h => h.elim
    acked_le := fun h => h.elim
    acked_kept := fun h => h.elim
    voted_kept := fun h => h.elim
    elected_kept := by
      rintro n t e q ⟨_, _, _, rfl⟩ v member
      simp at member }

theorem grow (hold : Holding s) (term : ∀ v, s.term v ≤ s'.term v) (led : ∀ n t l, s.led n t l → s'.led n t l)
    (acked : s'.acked = s.acked) (elected : s'.elected = s.elected)
    (voted : ∀ v t c l, s.voted v t c l → s'.voted v t c l)
    (fresh : ∀ v t c l, s'.voted v t c l → s.voted v t c l ∨ (l = s.log v ∧ s.term v ≤ t))
    (kept : ∀ v t l x, s.acked v t l → x <+: l → x <+: s.log v → x <+: s'.log v ∨ Overtaken s t (s.term v) x) :
    Holding s' := by
  have more : ∀ n t e q, s.elected n t e q → s'.elected n t e q := by simp [elected]
  exact {
    acked_led := by
      rw [acked]
      intro v t l ack
      obtain ⟨n, source⟩ := hold.acked_led ack
      exact ⟨n, led n t l source⟩
    acked_le := by
      rw [acked]
      exact fun {v t l} ack => le_trans (hold.acked_le ack) (term v)
    acked_kept := by
      rw [acked]
      intro v t l ack x pre
      rcases hold.acked_kept ack x pre with held | gone
      · exact (kept v t l x ack pre held).imp_right fun gone => gone.mono more (term v)
      · exact .inr (gone.mono more (term v))
    voted_kept := by
      rw [acked]
      intro v t' c lv t l vote ack later x pre
      -- A new vote was cast with the log that still holds the prefix.
      rcases fresh v t' c lv vote with old | ⟨rfl, reached⟩
      · exact (hold.voted_kept old ack later x pre).imp_right fun gone =>
          gone.mono more (le_refl _)
      · exact (hold.acked_kept ack x pre).imp_right fun gone => gone.mono more reached
    elected_kept := by
      rw [acked, elected]
      intro n t' e q won v member
      obtain ⟨lv, vote, held⟩ := hold.elected_kept won v member
      refine ⟨lv, voted _ _ _ _ vote, ?_⟩
      intro t l ack later x pre
      exact (held ack later x pre).imp_right fun gone => gone.mono more (le_refl _) }

theorem ack (hold : Holding s) (known : Records R s) {v n : N} {l : List E}
    (source : s.led n (s.term v) l) (holds : l <+: s.log v) : Holding (s.ack v l) := by
  exact {
    acked_led := by
      rintro u t l' (old | ⟨rfl, rfl, rfl⟩)
      · exact hold.acked_led old
      · exact ⟨n, source⟩
    acked_le := by
      rintro u t l' (old | ⟨rfl, rfl, rfl⟩)
      · exact hold.acked_le old
      · exact le_refl _
    acked_kept := by
      rintro u t l' (old | ⟨rfl, rfl, rfl⟩) x pre
      · exact hold.acked_kept old x pre
      · exact .inl (pre.trans holds)
    voted_kept := by
      rintro u t' c lv t l' vote (old | ⟨rfl, rfl, rfl⟩) later x pre
      · exact hold.voted_kept vote old later x pre
      · -- The node has not voted in any term above its own.
        have reached := known.voted_le vote
        omega
    elected_kept := by
      intro m t' e q won u member
      obtain ⟨lv, vote, held⟩ := hold.elected_kept won u member
      refine ⟨lv, vote, ?_⟩
      rintro t l' (old | ⟨rfl, rfl, rfl⟩) later x pre
      · exact held old later x pre
      · have reached := known.voted_le vote
        omega }

theorem merge_kept (hold : Holding s) (known : Records R s) (one : OneLeader s) {v n : N} {l log : List E}
    (source : s.led n (s.term v) l)
    (merged : log = s.log v ∨ (¬ l <+: s.log v ∧ log <+: l ∧ ∀ x, x <+: s.log v → x <+: l → x <+: log)) {t : Nat}
    {l' x : List E} (ack : s.acked v t l') (pre : x <+: l') (held : x <+: s.log v) : x <+: log ∨
    Overtaken s t (s.term v) x := by
  rcases merged with rfl | ⟨lacking, _, common⟩
  · exact .inl held
  by_cases shared : x <+: l
  · exact .inl (common x held shared)
  rcases lt_or_ge t (s.term v) with earlier | same
  · -- The leader of the node's own term was elected without the prefix.
    obtain ⟨e, q, won, extends_, _⟩ := known.led_elected source
    exact .inr ⟨n, _, e, q, won, earlier, le_refl _, fun inner =>
      shared (inner.trans extends_)⟩
  · -- In one term the leader's logs extend each other, so the node already held this one.
    have equal : t = s.term v := le_antisymm (hold.acked_le ack) same
    subst equal
    obtain ⟨m, source'⟩ := hold.acked_led ack
    rcases one.chain known source source' with longer | shorter
    · rcases List.prefix_or_prefix_of_prefix pre longer with inner | inner
      · exact absurd inner shared
      · exact absurd (inner.trans held) lacking
    · exact absurd (pre.trans shorter) shared

variable [DecidableEq N]

theorem win (hold : Holding s) {n : N} {q : Finset N} (sole : ∀ m e q', ¬ s.elected m (s.term n) e q')
    (votes : ∀ v ∈ q, ∃ l, s.voted v (s.term n) n l) : Holding (s.win n q) := by
  have more : ∀ m t e q', s.elected m t e q' → (s.win n q).elected m t e q' := fun _ _ _ _ => .inl
  exact {
    acked_led := by
      intro v t l ack
      obtain ⟨m, source⟩ := hold.acked_led ack
      exact ⟨m, .inl source⟩
    acked_le := hold.acked_le
    acked_kept := fun ack x pre =>
      (hold.acked_kept ack x pre).imp_right fun gone => gone.mono more (le_refl _)
    voted_kept := fun vote ack later x pre =>
      (hold.voted_kept vote ack later x pre).imp_right fun gone => gone.mono more (le_refl _)
    elected_kept := by
      rintro m t' e q' (old | ⟨rfl, rfl, rfl, rfl⟩) v member
      · obtain ⟨lv, vote, held⟩ := hold.elected_kept old v member
        refine ⟨lv, vote, ?_⟩
        intro t l ack later x pre
        exact (held ack later x pre).imp_right fun gone => gone.mono more (le_refl _)
      · obtain ⟨lv, vote⟩ := votes v member
        refine ⟨lv, vote, ?_⟩
        intro t l ack later x pre
        refine (hold.voted_kept vote ack later x pre).imp_right ?_
        -- No other leader of this term can have overtaken the prefix.
        rintro ⟨m', t'', e', q'', won, above, below, missing⟩
        refine ⟨m', t'', e', q'', .inl won, above, ?_, missing⟩
        rcases lt_or_ge t'' (s.term m) with strict | same
        · exact Nat.le_pred_of_lt strict
        · have equal : t'' = s.term m := le_antisymm below same
          subst equal
          exact absurd won (sole m' e' q'') }

/-- Every step keeps the promises, if each term still has one leader. -/
theorem step (hold : Holding s) (known : Records R s) (one : OneLeader s)
    (one' : OneLeader s') (move : Step R s s') : Holding s' := by
  have term := move.term_le
  cases move with
  | adopt v t higher | rest v | settle n k x q leading present own quorum stored
  | learn v n t k c l source reached below shared | forget v c below =>
    exact hold.grow term (fun _ _ _ => id) rfl rfl (fun _ _ _ _ => id) (fun _ _ _ _ => .inl) fun _ _ _ _ _ _ => .inl
  | stand v =>
    refine hold.grow term (fun _ _ _ => id) rfl rfl (fun _ _ _ _ => .inl) ?_ fun _ _ _ _ _ _ => .inl
    rintro u t c l (old | ⟨rfl, rfl, rfl, rfl⟩)
    · exact .inl old
    · exact .inr ⟨rfl, by omega⟩
  | grant v c log asked free fresh =>
    refine hold.grow term (fun _ _ _ => id) rfl rfl (fun _ _ _ _ => .inl) ?_ fun _ _ _ _ _ _ => .inl
    rintro u t c' l (old | ⟨rfl, rfl, rfl, rfl⟩)
    · exact .inl old
    · exact .inr ⟨rfl, le_refl _⟩
  | win n q asked once quorum votes =>
    refine hold.win ?_ votes
    intro m e q' won
    -- A second win of the term would be the same election.
    have same : m = n := one' (.inl won) (.inr ⟨rfl, rfl, rfl, rfl⟩)
    subst same
    exact once e q' won
  | append n x leading own gate =>
    refine hold.grow term (fun _ _ _ => .inl) rfl rfl (fun _ _ _ _ => id) (fun _ _ _ _ => .inl) ?_
    intro u t l x' ack pre held
    by_cases same : u = n
    · subst same
      refine .inl ?_
      dsimp only
      rw [update_self]
      exact held.trans (List.prefix_append _ _)
    · exact .inl (by simpa [same] using held)
  | accept v n l log source other merged =>
    refine hold.grow term (fun _ _ _ => id) rfl rfl (fun _ _ _ _ => id) (fun _ _ _ _ => .inl) ?_
    intro u t l' x ack pre held
    by_cases same : u = v
    · subst same
      dsimp only
      rw [update_self]
      -- The leader whose log is stored holds what was acknowledged.
      exact hold.merge_kept known one source merged ack pre held
    · exact .inl (by simpa [same] using held)
  | ack v n l source holds => exact hold.ack known source holds

end Holding

end Consensus
