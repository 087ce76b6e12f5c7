import LittleDb.Lib.Consensus.Holding

/-! Safety of the replicated log: one leader per term, matching logs and lasting commits. -/

namespace Consensus

open Quorum Function List

variable {N E : Type} [DecidableEq N] {R : Rules N E} {s s' : State N E}

structure Safe (R : Rules N E) (s : State N E) : Prop extends Basis R s where
  hold : Holding s
  complete : ∀ {n t k l n' t' e q}, s.committed n t k l → s.elected n' t' e q → t < t' →
    l.take k <+: e
  commit_ok : ∀ v, s.commit v = 0 ∨ ∃ n t k l, s.committed n t k l ∧ t ≤ s.term v ∧
    s.commit v ≤ k ∧ (s.log v).take (s.commit v) = l.take (s.commit v)

theorem Basis.of_same (b : Basis R s) (known : Records R s') (elected : s'.elected = s.elected) (led : s'.led = s.led)
    (committed : s'.committed = s.committed) (acked : ∀ v t l, s.acked v t l → s'.acked v t l) : Basis R s' := by
  exact {
    known := known
    one := by
      unfold OneLeader
      rw [elected]
      exact b.one
    gated := by
      unfold Gated
      unfold State.Opened
      rw [elected, led, committed]
      exact b.gated
    laws := {
      led := by
        rw [led, committed]
        exact b.laws.led
      own := by
        rw [committed]
        exact b.laws.own
      stored := by
        rw [committed]
        intro n t k l commit
        obtain ⟨q, quorum, each⟩ := b.laws.stored commit
        refine ⟨q, quorum, ?_⟩
        intro v member
        obtain ⟨l', ack, long⟩ := each v member
        exact ⟨l', acked v t l' ack, long⟩ } }

theorem Basis.commit_pre (b : Basis R s) {m n : N} {t k : Nat} {l l' : List E} (commit : s.committed m t k l)
    (source : s.led n t l') (long : k ≤ l'.length) : l.take k <+: l' := by
  rcases b.one.chain b.known (b.laws.led commit) source with shorter | longer
  · exact ( List.take_prefix k l).trans shorter
  · exact take_pre_of_le (List.prefix_refl l) longer (b.commit_length commit).2 long

namespace Safe

variable {n m n' v : N} {q : Finset N} {t k t' k' i : Nat} {l l' : List E} {x : E}

theorem winner_complete (safe : Safe R s) (asked : s.stood n (s.term n) (s.log n))
    (quorum : Majority (R.members (s.log n)) q) (votes : ∀ v ∈ q, ∃ l, s.voted v (s.term n) n l)
    (commit : s.committed m t k l) (earlier : t < s.term n) : l.take k <+: s.log n := by
  -- Induction on the term of the commit: the contest needs the still earlier commits.
  induction t using Nat.strong_induction_on generalizing m k l with
  | _ t ih =>
    have contest : Contest R s t (s.log n) q := {
      safe.toBasis with
      from_ := (safe.known.log_from n).1
      quorum := quorum
      between := fun later _ _ _ won _ _ _ commit' => safe.complete commit' won later
      before := fun commit' below _ _ _ won => safe.complete commit' won below
      earlier := fun commit' below => ih _ below commit' (by omega)
      voters := by
        intro v member
        obtain ⟨lv, vote⟩ := votes v member
        obtain ⟨lc, stood, fresh⟩ := safe.known.voted_fit vote
        rw [safe.known.stood_unique stood asked] at fresh
        refine ⟨lv, fresh, safe.known.ascending (safe.known.voted_from vote), ?_⟩
        intro m' k' l' l'' commit' ack long
        obtain ⟨_, source⟩ := safe.hold.acked_led ack
        have pre := safe.commit_pre commit' source long
        rcases safe.hold.voted_kept vote ack earlier _ pre with held | gone
        · exact held
        · obtain ⟨_, _, _, _, won, above, _, missing⟩ := gone
          exact absurd (safe.complete commit' won above) missing }
    exact contest.holds commit

theorem winner_sole (safe : Safe R s) (asked : s.stood n (s.term n) (s.log n))
    (once : ∀ e q', ¬ s.elected n (s.term n) e q') (quorum : Majority (R.members (s.log n)) q)
    (votes : ∀ v ∈ q, ∃ l, s.voted v (s.term n) n l) : ∀ m e q', ¬ s.elected m (s.term n) e q' := by
  intro m e q' won
  have above := safe.known.stood_above asked
  rcases safe.known.elected_how won with ⟨_, first, _⟩ | ⟨stood, quorum', votes'⟩
  · omega
  -- Both winning logs hold all earlier commits, so their members are near.
  have near : Near (R.members e) (R.members (s.log n)) := by
    refine safe.near_of_shared (safe.known.stood_from stood) (safe.known.log_from n).1 ?_ ?_
    · intro p x found m' k l commit
      exact safe.winner_complete asked quorum votes commit (safe.known.elected_above won found)
    · intro p x found m' k l commit
      have below := (safe.known.ascending (safe.known.log_from n).1).le_lastTerm found
      exact safe.complete commit won (by omega)
  obtain ⟨v, first, second⟩ := Majority.meet near quorum' quorum
  obtain ⟨_, vote⟩ := votes' v first
  obtain ⟨_, vote'⟩ := votes v second
  have same := safe.known.voted_unique vote vote'
  subst same
  exact once e q' won

theorem win_basis (safe : Safe R s) (sole : ∀ m e q', ¬ s.elected m (s.term n) e q') (known : Records R (s.win n q)) :
    Basis R (s.win n q) := by
  exact {
    known := known
    one := by
      rintro m t e q' m' e' q'' (old | ⟨left, rfl, _⟩) (old' | ⟨right, term, _⟩)
      · exact safe.one old old'
      · subst term
        exact absurd old (sole _ _ _)
      · exact absurd old' (sole _ _ _)
      · exact left.trans right.symm
    gated := by
      rintro m t l e q' p x set (old | ⟨rfl, rfl, rfl⟩) (old' | ⟨_, term, equal, _⟩) past found reconf
      · exact safe.gated old old' past found reconf
      · obtain ⟨e', q'', won, _⟩ := safe.known.led_elected old
        subst term
        exact absurd won (sole _ _ _)
      · exact absurd old' (sole _ _ _)
      · -- The new leader has appended nothing yet.
        have inside := (List.getElem?_eq_some_iff.mp found).1
        rw [equal] at past
        omega
    laws := {
      led := fun commit => .inl (safe.laws.led commit)
      own := safe.laws.own
      stored := safe.laws.stored } }

theorem append_gated (b : Basis R s) (leading : s.leads n)
    (gate : ∀ set, R.reconf x = some set → Near (R.members (s.log n)) set ∧
      ∃ k l, s.Opened R n (s.term n) k l ∧ l <+: s.log n ∧ ∀ pos, k ≤ pos → ¬ R.ReconfAt (s.log n) pos) :
    Gated R (s.append n x) := by
  rintro m t l e q p y set (old | ⟨rfl, rfl, rfl⟩) won past found reconf
  · exact b.gated old won past found reconf
  have pre : s.log m <+: s.log m ++ [x] := List.prefix_append _ _
  have inside := (List.getElem?_eq_some_iff.mp found).1
  simp only [List.length_append, List.length_singleton] at inside
  rcases lt_or_ge p (s.log m).length with before | last
  · -- The entry was there before, and so was everything below it.
    rw [← getElem?_of_pre pre before] at found
    obtain ⟨near, k, l', commit, inner, plain⟩ :=
      b.gated (b.known.led_top leading).1 won past found reconf
    have cut : (s.log m ++ [x]).take p = (s.log m).take p :=
      List.take_append_of_le_length (le_of_lt before)
    rw [cut]
    refine ⟨near, k, l', commit, inner, ?_⟩
    intro i low high
    rw [← R.reconfAt_pre pre (by omega)]
    exact plain i low high
  · have position : p = (s.log m).length := by omega
    subst position
    rw [List.getElem?_append_right (le_refl _), Nat.sub_self, List.getElem?_cons_zero, Option.some.injEq] at found
    subst found
    obtain ⟨near, k, l', commit, inner, plain⟩ := gate set reconf
    rw [List.take_left]
    refine ⟨near, k, l', commit, inner, ?_⟩
    intro i low high
    rw [← R.reconfAt_pre pre high]
    exact plain i low

theorem settle_basis (b : Basis R s)
    (leading : s.leads n) (present : (s.log n)[k]? = some x) (own : R.term x = s.term n)
    (quorum : Majority (R.members (s.log n)) q) (stored : ∀ v ∈ q, ∃ l, s.acked v (s.term n) l ∧ k < l.length)
    (known : Records R (s.settle n k)) : Basis R (s.settle n k) := by
  exact {
    known := known
    one := b.one
    gated := by
      intro m t l e q' p y set led won past found reconf
      obtain ⟨near, k', l', commit, inner, plain⟩ := b.gated led won past found reconf
      exact ⟨near, k', l', commit.imp_left .inl, inner, plain⟩
    laws := {
      led := by
        rintro m t k' l (old | ⟨rfl, rfl, rfl, rfl⟩)
        · exact b.laws.led old
        · exact (b.known.led_top leading).1
      own := by
        rintro m t k' l (old | ⟨rfl, rfl, rfl, rfl⟩)
        · exact b.laws.own old
        · exact ⟨k, x, rfl, present, own⟩
      stored := by
        rintro m t k' l (old | ⟨rfl, rfl, rfl, rfl⟩)
        · exact b.laws.stored old
        · exact ⟨q, quorum, stored⟩ } }

theorem settled_complete (safe : Safe R s) (b : Basis R (s.settle n k)) {e : List E}
    (won : s.elected n' t' e q) (later : s.term n < t') (commit : s.committed m (s.term n) k' l ∨ (m = n ∧ k' = k + 1 ∧ l = s.log n)) :
    l.take k' <+: e := by
  -- Induction on the term of the election: leaders in between already hold the commit.
  induction t' using Nat.strong_induction_on generalizing n' e q m k' l with
  | _ t' ih =>
    have own : ∀ {m k' l}, (s.settle n k).committed m (s.term n) k' l →
        s.committed m (s.term n) k' l ∨ (m = n ∧ k' = k + 1 ∧ l = s.log n) := by
      intro m k' l either
      exact either.imp_right fun ⟨a, _, c⟩ => ⟨a, c⟩
    have old : ∀ {m t k' l}, (s.settle n k).committed m t k' l → t < s.term n → s.committed m t k' l := by
      rintro m t k' l (old | ⟨_, rfl, _⟩) below
      · exact old
      · omega
    rcases safe.known.elected_how won with ⟨_, rfl, _⟩ | ⟨stood, quorum, _⟩
    · have := safe.known.term_ge n
      omega
    have contest : Contest R _ (s.term n) e q := {
      b with
      from_ := b.known.stood_from stood
      quorum := quorum
      between := fun above _ _ _ won' _ _ _ commit' =>
        ih _ (safe.known.lastTerm_lt won (List.prefix_refl e) (by omega)) won' above (own commit')
      before := fun commit' below _ _ _ won' => safe.complete (old commit' below) won' below
      earlier := fun commit' below => safe.complete (old commit' below) won (by omega)
      voters := by
        intro v member
        obtain ⟨lv, vote, held⟩ := safe.hold.elected_kept won v member
        obtain ⟨lc, stood', fresh⟩ := safe.known.voted_fit vote
        rw [safe.known.stood_unique stood' stood] at fresh
        refine ⟨lv, fresh, safe.known.ascending (safe.known.voted_from vote), ?_⟩
        intro m' k'' l' l'' commit' ack long
        obtain ⟨_, source⟩ := safe.hold.acked_led ack
        have pre := b.commit_pre commit' source long
        rcases held ack later _ pre with kept | ⟨_, t'', _, _, won', above, below, missing⟩
        · exact kept
        · exact absurd (ih t'' (by omega) won' above (own commit')) missing }
    exact contest.holds (commit.imp_right fun ⟨a, c⟩ => ⟨a, rfl, c⟩)

theorem merge_commit (safe : Safe R s) {log : List E} {c : Nat} (source : s.led n (s.term v) l)
    (merged : log = s.log v ∨ (¬ l <+: s.log v ∧ log <+: l ∧ ∀ x, x <+: s.log v → x <+: l → x <+: log))
    (commit : s.committed m t k l') (reached : t ≤ s.term v) (below : c ≤ k) (shared : (s.log v).take c = l'.take c) :
    log.take c = l'.take c := by
  rcases merged with rfl | ⟨lacking, _, common⟩
  · exact shared
  have long := (safe.commit_length commit).2
  have held : l'.take c <+: s.log v := by
    rw [← shared]
    exact List.take_prefix c _
  have length : (l'.take c).length = c := by
    rw [length_take]
    omega
  -- The leader's log holds the committed prefix too, so taking it over keeps that prefix.
  have inLeader : l'.take c <+: l := by
    rcases lt_or_ge t (s.term v) with earlier | same
    · obtain ⟨e, q, won, extends_, _⟩ := safe.known.led_elected source
      have pre : l'.take c <+: l'.take k := List.take_prefix_take_left below
      exact pre.trans ((safe.complete commit won earlier).trans extends_)
    · have equal : t = s.term v := le_antisymm reached same
      subst equal
      rcases safe.one.chain safe.known (safe.laws.led commit) source with shorter | longer
      · exact ( List.take_prefix c l').trans shorter
      · rcases List.prefix_or_prefix_of_prefix ( List.take_prefix c l') longer with inner | inner
        · exact inner
        · exact absurd (inner.trans held) lacking
  have kept := take_length_of_pre (common _ held inLeader)
  rwa [length] at kept

theorem init (R : Rules N E) : Safe R (State.init R) := by
  exact {
    known := Records.init R
    one := by
      rintro n t e q n' e' q' ⟨rfl, _⟩ ⟨rfl, _⟩
      rfl
    gated := by
      rintro n t l e q p x set ⟨_, _, rfl⟩ _ _ found
      simp at found
    laws := {
      led := fun h => h.elim
      own := fun h => h.elim
      stored := fun h => h.elim }
    hold := Holding.init R
    complete := fun h => h.elim
    commit_ok := fun _ => .inl rfl }

theorem of_same (safe : Safe R s) (move : Step R s s') (basis : Basis R s')
    (elected : s'.elected = s.elected) (committed : s'.committed = s.committed)
    (commit : ∀ v, s'.commit v = 0 ∨ (∃ n t k l, s.committed n t k l ∧ t ≤ s.term v ∧
        s'.commit v ≤ k ∧ (s.log v).take (s'.commit v) = l.take (s'.commit v)))
    (kept : ∀ v n t k l, s.committed n t k l → t ≤ s.term v → s'.commit v ≤ k →
      (s.log v).take (s'.commit v) = l.take (s'.commit v) →
      (s'.log v).take (s'.commit v) = l.take (s'.commit v)) : Safe R s' := by
  exact {
    basis with
    hold := safe.hold.step safe.known safe.one basis.one move
    complete := by
      rw [elected, committed]
      exact safe.complete
    commit_ok := by
      intro v
      rw [committed]
      rcases commit v with zero | ⟨n, t, k, l, source, reached, below, shared⟩
      · exact .inl zero
      · exact .inr ⟨n, t, k, l, source, le_trans reached (move.term_le v), below,
          kept v n t k l source reached below shared⟩ }

/-- Every step of a safe state leads to a safe state. -/
theorem step (safe : Safe R s) (move : Step R s s') : Safe R s' := by
  have known := safe.known.step move
  have moved := move
  cases move with
  | adopt v t higher | rest v | stand v | grant v c log asked free fresh =>
    exact safe.of_same moved (safe.toBasis.of_same known rfl rfl rfl fun _ _ _ => id) rfl rfl
      safe.commit_ok fun _ _ _ _ _ _ _ _ => id
  | win n q asked once quorum votes =>
    have sole := safe.winner_sole asked once quorum votes
    have basis := safe.win_basis sole known
    exact {
      basis with
      hold := safe.hold.step safe.known safe.one basis.one moved
      complete := by
        rintro m t k l n' t' e q' commit (old | ⟨rfl, rfl, rfl, rfl⟩) later
        · exact safe.complete commit old later
        · exact safe.winner_complete asked quorum votes commit later
      commit_ok := safe.commit_ok }
  | append n x leading own gate =>
    have basis : Basis R _ := {
      known := known
      one := safe.one
      gated := append_gated safe.toBasis leading gate
      laws := {
        led := fun commit => .inl (safe.laws.led commit)
        own := safe.laws.own
        stored := safe.laws.stored } }
    refine safe.of_same moved basis rfl rfl safe.commit_ok ?_
    intro u m t k l commit reached below shared
    dsimp only at below shared ⊢
    by_cases same : u = n
    · -- A leader only appends past its committed prefix.
      subst same
      have long := (safe.commit_length commit).2
      have lengths := congrArg List.length shared
      simp only [length_take] at lengths
      rw [update_self, List.take_append_of_le_length (by omega), shared]
    · rw [update_of_ne same, shared]
  | accept v n l log source other merged =>
    refine safe.of_same moved (safe.toBasis.of_same known rfl rfl rfl fun _ _ _ => id) rfl rfl safe.commit_ok ?_
    intro u m t k l' commit reached below shared
    dsimp only at below shared ⊢
    by_cases same : u = v
    · subst same
      rw [update_self]
      exact safe.merge_commit source merged commit reached below shared
    · rw [update_of_ne same, shared]
  | ack v n l source holds =>
    exact safe.of_same moved (safe.toBasis.of_same known rfl rfl rfl fun _ _ _ => .inl) rfl rfl
      safe.commit_ok fun _ _ _ _ _ _ _ _ => id
  | settle n k x q leading present own quorum stored =>
    have basis := settle_basis safe.toBasis leading present own quorum stored known
    exact {
      basis with
      hold := safe.hold.step safe.known safe.one basis.one moved
      complete := by
        rintro m t k' l n' t' e q' (old | ⟨rfl, rfl, rfl, rfl⟩) won later
        · exact safe.complete old won later
        · exact safe.settled_complete basis won later (.inr ⟨rfl, rfl, rfl⟩)
      commit_ok := by
        intro u
        by_cases same : u = n
        · subst same
          exact .inr ⟨u, s.term u, k + 1, s.log u, .inr ⟨rfl, rfl, rfl, rfl⟩, le_refl _, by simp, rfl⟩
        · dsimp only
          rw [update_of_ne same]
          rcases safe.commit_ok u with zero | ⟨m, t, k', l, commit, rest⟩
          · exact .inl zero
          · exact .inr ⟨m, t, k', l, .inl commit, rest⟩ }
  | learn v n t k c l source reached below shared =>
    refine safe.of_same moved (safe.toBasis.of_same known rfl rfl rfl fun _ _ _ => id) rfl rfl ?_
      fun _ _ _ _ _ _ _ _ => id
    intro u
    dsimp only
    by_cases same : u = v
    · subst same
      rw [update_self]
      exact .inr ⟨n, t, k, l, source, reached, below, shared⟩
    · rw [update_of_ne same]
      exact safe.commit_ok u
  | forget v c below =>
    refine safe.of_same moved (safe.toBasis.of_same known rfl rfl rfl fun _ _ _ => id) rfl rfl ?_
      fun _ _ _ _ _ _ _ _ => id
    intro u
    dsimp only
    by_cases same : u = v
    · subst same
      rw [update_self]
      rcases safe.commit_ok u with zero | ⟨n, t, k, l, commit, reached, inside, shared⟩
      · exact .inl (by omega)
      · refine .inr ⟨n, t, k, l, commit, reached, by omega, ?_⟩
        have cut := congrArg (List.take c) shared
        rwa [take_take, take_take, min_eq_left below] at cut
    · rw [update_of_ne same]
      exact safe.commit_ok u

theorem of_reachable (reach : Reachable R s) : Safe R s := by
  induction reach with
  | init => exact Safe.init R
  | step _ move ih => exact ih.step move

theorem commits_agree (safe : Safe R s) (commit : s.committed n t k l) (commit' : s.committed n' t' k' l')
    (inside : i < k) (inside' : i < k') : l[i]? = l'[i]? := by
  -- The commit of the lower term is a prefix of the other leader's log.
  have ordered : ∀ {n n' t t' k l k' l'}, s.committed n t k l → s.committed n' t' k' l' → t < t' →
      i < k → l[i]? = l'[i]? := by
    intro n n' t t' k l k' l' commit commit' later inside
    obtain ⟨e, q, won, extends_, _⟩ := safe.known.led_elected (safe.laws.led commit')
    have pre := (safe.complete commit won later).trans extends_
    have long := (safe.commit_length commit).2
    rw [← getElem?_of_pre pre (by rw [length_take]; omega), getElem?_take_of_lt inside]
  rcases Nat.lt_trichotomy t t' with later | rfl | later
  · exact ordered commit commit' later inside
  · have long := (safe.commit_length commit).2
    have long' := (safe.commit_length commit').2
    rcases safe.one.chain safe.known (safe.laws.led commit) (safe.laws.led commit') with pre | pre
    · exact getElem?_of_pre pre (by omega)
    · exact (getElem?_of_pre pre (by omega)).symm
  · exact (ordered commit' commit later inside').symm

theorem logs_match (safe : Safe R s) {w : N} {y : E} (left : (s.log v)[i]? = some x)
    (right : (s.log w)[i]? = some y) (same : R.term x = R.term y) : (s.log v).take (i + 1) = (s.log w).take (i + 1) :=
  safe.one.matching safe.known (safe.known.log_from v).1 (safe.known.log_from w).1 left right same

end Safe

end Consensus
