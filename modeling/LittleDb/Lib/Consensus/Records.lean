import LittleDb.Lib.Consensus.Log

/-! What the records of stands, votes, elections and leader logs say in every reachable state. -/

namespace Consensus

open Quorum Function List

variable {N E : Type} {R : Rules N E} {s s' : State N E}

/-- The log is empty or a prefix of one of the leader of its last term. -/
def Origin (R : Rules N E) (s : State N E) (log : List E) : Prop :=
  log = [] ∨ ∃ n l, s.led n (R.lastTerm log) l ∧ log <+: l

/-- The basic laws of the records, which need no argument about majorities. -/
structure Records (R : Rules N E) (s : State N E) : Prop where
  term_ge : ∀ v, R.firstTerm ≤ s.term v
  stood_le : ∀ {n t l}, s.stood n t l → t ≤ s.term n
  stood_unique : ∀ {n t l l'}, s.stood n t l → s.stood n t l' → l = l'
  stood_above : ∀ {n t l}, s.stood n t l → R.lastTerm l < t ∧ R.firstTerm < t
  voted_le : ∀ {v t c l}, s.voted v t c l → t ≤ s.term v
  voted_unique : ∀ {v t c l c' l'}, s.voted v t c l → s.voted v t c' l' → c = c'
  voted_fit : ∀ {v t c l}, s.voted v t c l → ∃ lc, s.stood c t lc ∧ R.UpToDate lc l
  elected_le : ∀ {n t e q}, s.elected n t e q → t ≤ s.term n
  elected_how : ∀ {n t e q}, s.elected n t e q →
    (n = R.first ∧ t = R.firstTerm ∧ e = []) ∨
      (s.stood n t e ∧ Majority (R.members e) q ∧ ∀ v ∈ q, ∃ l, s.voted v t n l)
  elected_once : ∀ {n t e q e' q'}, s.elected n t e q → s.elected n t e' q' → e = e' ∧ q = q'
  led_elected : ∀ {n t l}, s.led n t l →
    ∃ e q, s.elected n t e q ∧ e <+: l ∧ ∀ x ∈ l.drop e.length, R.term x = t
  led_chain : ∀ {n t l l'}, s.led n t l → s.led n t l' → l <+: l' ∨ l' <+: l
  led_top : ∀ {n}, s.leads n →
    s.led n (s.term n) (s.log n) ∧ ∀ l, s.led n (s.term n) l → l <+: s.log n
  led_up : ∀ {n t l}, s.led n t l → R.Ascending l ∧ ∀ x ∈ l, R.term x ≤ t
  log_from : ∀ v, Origin R s (s.log v) ∧ R.lastTerm (s.log v) ≤ s.term v
  stood_from : ∀ {n t l}, s.stood n t l → Origin R s l
  voted_from : ∀ {v t c l}, s.voted v t c l → Origin R s l

theorem Origin.mono {log : List E} (from_ : Origin R s log)
    (more : ∀ n t l, s.led n t l → s'.led n t l) : Origin R s' log := by
  rcases from_ with rfl | ⟨n, l, led, pre⟩
  · exact .inl rfl
  · exact .inr ⟨n, l, more _ _ _ led, pre⟩

namespace Records

variable {n v : N} {t i : Nat} {l x log e : List E} {q : Finset N}

section

variable (known : Records R s)

include known

theorem lastTerm_le (led : s.led n t l) (pre : x <+: l) : R.lastTerm x ≤ t := by
  rcases Nat.eq_zero_or_pos x.length with empty | occupied
  · rw [length_eq_zero_iff] at empty
    subst empty
    simp
  · obtain ⟨y, last⟩ := Rules.exists_getElem? x (x.length - 1) (by omega)
    rw [R.lastTerm_of_getElem? (by omega) last]
    exact (known.led_up led).2 y (pre.subset (mem_of_getElem? last))

theorem ascending (from_ : Origin R s log) : R.Ascending log := by
  rcases from_ with rfl | ⟨n, l, led, pre⟩
  · exact List.Pairwise.nil
  · exact (known.led_up led).1.of_pre pre

theorem elected_above (won : s.elected n t e q) {x : E} (found : e[i]? = some x) : R.term x < t := by
  rcases known.elected_how won with ⟨_, _, rfl⟩ | ⟨stood, _⟩
  · simp at found
  · have top := (known.ascending (known.stood_from stood)).le_lastTerm found
    exact lt_of_le_of_lt top (known.stood_above stood).1

theorem lastTerm_lt (won : s.elected n t e q) (pre : x <+: e) (positive : 0 < t) : R.lastTerm x < t := by
  rcases Nat.eq_zero_or_pos x.length with empty | occupied
  · rw [length_eq_zero_iff] at empty
    subst empty
    exact positive
  · obtain ⟨y, last⟩ := Rules.exists_getElem? x (x.length - 1) (by omega)
    rw [R.lastTerm_of_getElem? (by omega) last]
    rw [getElem?_of_pre pre (by omega)] at last
    exact known.elected_above won last

theorem led_own (led : s.led n t l) (won : s.elected n t e q) {x : E} (found : l[i]? = some x)
    (past : e.length ≤ i) : R.term x = t := by
  obtain ⟨e', q', won', _, own⟩ := known.led_elected led
  obtain ⟨rfl, _⟩ := known.elected_once won won'
  refine own x (mem_of_getElem? (i := i - e.length) ?_)
  rw [getElem?_drop, show e.length + (i - e.length) = i by omega, found]

theorem pre_from (led : s.led n t l) (pre : x <+: l) : Origin R s x := by
  -- Inside the log the leader was elected with, an earlier leader is responsible.
  induction t using Nat.strong_induction_on generalizing n l with
  | _ t ih =>
    obtain ⟨e, q, won, extends_, own⟩ := known.led_elected led
    rcases lt_or_ge e.length x.length with longer | shorter
    · obtain ⟨y, last⟩ := Rules.exists_getElem? x (x.length - 1) (by omega)
      have term : R.lastTerm x = t := by
        rw [R.lastTerm_of_getElem? (by omega) last]
        refine known.led_own led won (i := x.length - 1) ?_ (by omega)
        rw [← getElem?_of_pre pre (by omega), last]
      exact .inr ⟨n, l, by rw [term]; exact led, pre⟩
    · have inner : x <+: e := List.prefix_of_prefix_length_le pre extends_ shorter
      rcases known.elected_how won with ⟨_, _, rfl⟩ | ⟨stood, _⟩
      · exact .inl (List.prefix_nil.mp inner)
      · rcases known.stood_from stood with rfl | ⟨m, l', led', pre'⟩
        · exact .inl (List.prefix_nil.mp inner)
        · exact ih _ (known.stood_above stood).1 led' (inner.trans pre')

theorem origin_pre (from_ : Origin R s log) (pre : x <+: log) : Origin R s x := by
  rcases from_ with rfl | ⟨n, l, led, inner⟩
  · exact .inl (List.prefix_nil.mp pre)
  · exact known.pre_from led (pre.trans inner)

theorem entry_from (from_ : Origin R s log) {x : E}
    (found : log[i]? = some x) : ∃ n l, s.led n (R.term x) l ∧ log.take (i + 1) <+: l := by
  have inside : i < log.length := (List.getElem?_eq_some_iff.mp found).1
  have last : (log.take (i + 1))[i]? = some x := by
    rw [getElem?_take_of_lt (by omega), found]
  have length : (log.take (i + 1)).length = i + 1 := by
    rw [length_take]
    omega
  have term : R.lastTerm (log.take (i + 1)) = R.term x := R.lastTerm_of_getElem? length.symm last
  rcases known.origin_pre from_ ( List.take_prefix (i + 1) log) with empty | ⟨n, l, led, pre⟩
  · rw [empty] at length
    simp at length
  · exact ⟨n, l, by rw [← term]; exact led, pre⟩

theorem of_same (term : ∀ v, s.term v ≤ s'.term v) (log : s'.log = s.log)
    (stood : s'.stood = s.stood) (voted : s'.voted = s.voted) (elected : s'.elected = s.elected)
    (led : s'.led = s.led) (leads : ∀ n, s'.leads n → s.leads n ∧ s'.term n = s.term n) : Records R s' := by
  -- The records grow only by what the terms allow.
  have origin : ∀ l, Origin R s l → Origin R s' l := fun l from_ =>
    from_.mono fun n t l' h => by rw [led]; exact h
  exact {
    term_ge := fun v => le_trans (known.term_ge v) (term v)
    stood_le := fun h => le_trans (known.stood_le (by rwa [stood] at h)) (term _)
    stood_unique := fun h h' => known.stood_unique (by rwa [stood] at h) (by rwa [stood] at h')
    stood_above := fun h => known.stood_above (by rwa [stood] at h)
    voted_le := fun h => le_trans (known.voted_le (by rwa [voted] at h)) (term _)
    voted_unique := fun h h' => known.voted_unique (by rwa [voted] at h) (by rwa [voted] at h')
    voted_fit := fun h => by rw [stood]; exact known.voted_fit (by rwa [voted] at h)
    elected_le := fun h => le_trans (known.elected_le (by rwa [elected] at h)) (term _)
    elected_how := fun h => by
      rw [stood, voted]
      exact known.elected_how (by rwa [elected] at h)
    elected_once := fun h h' =>
      known.elected_once (by rwa [elected] at h) (by rwa [elected] at h')
    led_elected := fun h => by rw [elected]; exact known.led_elected (by rwa [led] at h)
    led_chain := fun h h' => known.led_chain (by rwa [led] at h) (by rwa [led] at h')
    led_top := fun {n} h => by
      obtain ⟨before, same⟩ := leads n h
      rw [led, log, same]
      exact known.led_top before
    led_up := fun h => known.led_up (by rwa [led] at h)
    log_from := fun v => by
      rw [log]
      exact ⟨origin _ (known.log_from v).1, le_trans (known.log_from v).2 (term v)⟩
    stood_from := fun h => origin _ (known.stood_from (by rwa [stood] at h))
    voted_from := fun h => origin _ (known.voted_from (by rwa [voted] at h)) }

end

theorem init (R : Rules N E) : Records R (State.init R) := by
  exact {
    term_ge := fun _ => le_refl _
    stood_le := fun h => h.elim
    stood_unique := fun h => h.elim
    stood_above := fun h => h.elim
    voted_le := fun h => h.elim
    voted_unique := fun h => h.elim
    voted_fit := fun h => h.elim
    elected_le := by rintro n t e q ⟨_, rfl, _⟩; exact le_refl _
    elected_how := by rintro n t e q ⟨rfl, rfl, rfl, _⟩; exact .inl ⟨rfl, rfl, rfl⟩
    elected_once := by
      rintro n t e q e' q' ⟨_, _, rfl, rfl⟩ ⟨_, _, rfl, rfl⟩
      exact ⟨rfl, rfl⟩
    led_elected := by
      rintro n t l ⟨rfl, rfl, rfl⟩
      exact ⟨[], ∅, ⟨rfl, rfl, rfl, rfl⟩, List.prefix_refl _, by simp⟩
    led_chain := by rintro n t l l' ⟨_, _, rfl⟩ ⟨_, _, rfl⟩; exact .inl (List.prefix_refl _)
    led_top := by
      rintro n rfl
      refine ⟨⟨rfl, rfl, rfl⟩, ?_⟩
      rintro l ⟨_, _, rfl⟩
      exact List.prefix_refl _
    led_up := by rintro n t l ⟨_, _, rfl⟩; exact ⟨List.Pairwise.nil, by simp⟩
    log_from := fun _ => ⟨.inl rfl, by simp [State.init]⟩
    stood_from := fun h => h.elim
    voted_from := fun h => h.elim }

theorem grant (known : Records R s) {c : N} (asked : s.stood c (s.term v) log)
    (free : ∀ c' l, s.voted v (s.term v) c' l → c' = c) (fresh : R.UpToDate log (s.log v)) :
    Records R (s.grant v c) := by
  exact { known with
    voted_le := by
      rintro n t c' l (old | ⟨rfl, rfl, _, rfl⟩)
      · exact known.voted_le old
      · exact le_refl _
    voted_unique := by
      -- An earlier vote of the same term went to the same candidate.
      rintro n t a l b l' (old | ⟨rfl, rfl, rfl, rfl⟩) (old' | ⟨same, term, rfl, rfl⟩)
      · exact known.voted_unique old old'
      · subst same; subst term
        exact free _ _ old
      · exact (free _ _ old').symm
      · rfl
    voted_fit := by
      rintro n t c' l (old | ⟨rfl, rfl, rfl, rfl⟩)
      · exact known.voted_fit old
      · exact ⟨log, asked, fresh⟩
    elected_how := by
      intro n t e q won
      rcases known.elected_how won with first | ⟨stood, quorum, votes⟩
      · exact .inl first
      · refine .inr ⟨stood, quorum, fun u member => ?_⟩
        obtain ⟨l, vote⟩ := votes u member
        exact ⟨l, .inl vote⟩
    voted_from := by
      rintro n t c' l (old | ⟨rfl, rfl, _, rfl⟩)
      · exact known.voted_from old
      · exact (known.log_from n).1 }

variable [DecidableEq N]

theorem leads_of_update (leads : update s.leads v False n) : n ≠ v ∧ s.leads n := by
  rcases eq_or_ne n v with rfl | other
  · simp at leads
  · exact ⟨other, by rwa [update_of_ne other] at leads⟩

variable (known : Records R s)

include known

theorem stand (v : N) : Records R (s.stand v) := by
  have grown : ∀ u, s.term u ≤ (s.stand v).term u := (Step.stand (R := R) v).term_le
  exact { known with
    term_ge := fun u => le_trans (known.term_ge u) (grown u)
    stood_le := by
      rintro n t l (old | ⟨rfl, rfl, rfl⟩)
      · exact le_trans (known.stood_le old) (grown n)
      · simp [State.stand]
    stood_unique := by
      -- The new stand is for a term the node had not reached.
      rintro n t l l' (old | ⟨rfl, rfl, rfl⟩) (old' | ⟨same, term, rfl⟩)
      · exact known.stood_unique old old'
      · subst same
        have := known.stood_le old
        omega
      · have := known.stood_le old'
        omega
      · rfl
    stood_above := by
      rintro n t l (old | ⟨rfl, rfl, rfl⟩)
      · exact known.stood_above old
      · have := (known.log_from n).2
        have := known.term_ge n
        omega
    voted_le := by
      rintro n t c l (old | ⟨rfl, rfl, _, rfl⟩)
      · exact le_trans (known.voted_le old) (grown n)
      · simp [State.stand]
    voted_unique := by
      rintro n t c l c' l' (old | ⟨rfl, rfl, rfl, rfl⟩) (old' | ⟨same, term, rfl, rfl⟩)
      · exact known.voted_unique old old'
      · subst same
        have := known.voted_le old
        omega
      · have := known.voted_le old'
        omega
      · rfl
    voted_fit := by
      rintro n t c l (old | ⟨rfl, rfl, rfl, rfl⟩)
      · obtain ⟨lc, stood, fresh⟩ := known.voted_fit old
        exact ⟨lc, .inl stood, fresh⟩
      · exact ⟨_, .inr ⟨rfl, rfl, rfl⟩, .inr ⟨rfl, le_refl _⟩⟩
    elected_le := fun h => le_trans (known.elected_le h) (grown _)
    elected_how := by
      intro n t e q won
      rcases known.elected_how won with first | ⟨stood, quorum, votes⟩
      · exact .inl first
      · refine .inr ⟨.inl stood, quorum, fun u member => ?_⟩
        obtain ⟨l, vote⟩ := votes u member
        exact ⟨l, .inl vote⟩
    led_top := by
      intro n leads
      obtain ⟨other, led⟩ := leads_of_update leads
      simpa only [State.stand, update_of_ne other] using known.led_top led
    log_from := fun u => ⟨(known.log_from u).1, le_trans (known.log_from u).2 (grown u)⟩
    stood_from := by
      rintro n t l (old | ⟨rfl, rfl, rfl⟩)
      · exact known.stood_from old
      · exact (known.log_from n).1
    voted_from := by
      rintro n t c l (old | ⟨rfl, rfl, _, rfl⟩)
      · exact known.voted_from old
      · exact (known.log_from n).1 }

theorem win (asked : s.stood n (s.term n) (s.log n)) (once : ∀ e q', ¬ s.elected n (s.term n) e q')
    (quorum : Majority (R.members (s.log n)) q) (votes : ∀ v ∈ q, ∃ l, s.voted v (s.term n) n l) :
    Records R (s.win n q) := by
  -- Before winning, the node has no leader log in its term.
  have unled : ∀ l, ¬ s.led n (s.term n) l := by
    intro l led
    obtain ⟨e, q', won, _⟩ := known.led_elected led
    exact once e q' won
  have bound : ∀ x ∈ s.log n, R.term x ≤ s.term n := by
    intro x member
    obtain ⟨i, found⟩ := getElem?_of_mem member
    exact le_trans ((known.ascending (known.log_from n).1).le_lastTerm found) (known.log_from n).2
  exact { known with
    elected_le := by
      rintro m t e q' (old | ⟨rfl, rfl, rfl, rfl⟩)
      · exact known.elected_le old
      · exact le_refl _
    elected_how := by
      rintro m t e q' (old | ⟨rfl, rfl, rfl, rfl⟩)
      · exact known.elected_how old
      · exact .inr ⟨asked, quorum, votes⟩
    elected_once := by
      rintro m t e q1 e' q2 (old | ⟨rfl, rfl, rfl, rfl⟩) (old' | ⟨same, term, rfl, rfl⟩)
      · exact known.elected_once old old'
      · subst same; subst term
        exact absurd old (once _ _)
      · exact absurd old' (once _ _)
      · exact ⟨rfl, rfl⟩
    led_elected := by
      rintro m t l (old | ⟨rfl, rfl, rfl⟩)
      · obtain ⟨e, q', won, pre, own⟩ := known.led_elected old
        exact ⟨e, q', .inl won, pre, own⟩
      · exact ⟨_, q, .inr ⟨rfl, rfl, rfl, rfl⟩, List.prefix_refl _, by simp⟩
    led_chain := by
      rintro m t l l' (old | ⟨rfl, rfl, rfl⟩) (old' | ⟨same, term, rfl⟩)
      · exact known.led_chain old old'
      · subst same; subst term
        exact absurd old (unled _)
      · exact absurd old' (unled _)
      · exact .inl (List.prefix_refl _)
    led_top := by
      intro m leads
      by_cases same : m = n
      · subst same
        refine ⟨.inr ⟨rfl, rfl, rfl⟩, ?_⟩
        rintro l (old | ⟨_, _, rfl⟩)
        · exact absurd old (unled l)
        · exact List.prefix_refl _
      · simp only [State.win, update_of_ne same] at leads
        obtain ⟨led, top⟩ := known.led_top leads
        refine ⟨.inl led, ?_⟩
        rintro l (old | ⟨rfl, _, _⟩)
        · exact top l old
        · exact absurd rfl same
    led_up := by
      rintro m t l (old | ⟨rfl, rfl, rfl⟩)
      · exact known.led_up old
      · exact ⟨known.ascending (known.log_from m).1, bound⟩
    log_from := fun v =>
      ⟨(known.log_from v).1.mono fun _ _ _ h => .inl h, (known.log_from v).2⟩
    stood_from := fun h => (known.stood_from h).mono fun _ _ _ h => .inl h
    voted_from := fun h => (known.voted_from h).mono fun _ _ _ h => .inl h }

theorem append {x : E} (leading : s.leads n) (own : R.term x = s.term n) : Records R (s.append n x) := by
  obtain ⟨led, top⟩ := known.led_top leading
  have extended : s.log n <+: s.log n ++ [x] := List.prefix_append _ _
  exact { known with
    led_elected := by
      rintro m t l (old | ⟨rfl, rfl, rfl⟩)
      · exact known.led_elected old
      · -- The appended entry joins those of the leader's own term.
        obtain ⟨e, q, won, pre, ownTerm⟩ := known.led_elected led
        refine ⟨e, q, won, pre.trans extended, ?_⟩
        intro y member
        rw [drop_append_of_le_length pre.length_le, mem_append, mem_singleton] at member
        rcases member with member | rfl
        · exact ownTerm y member
        · exact own
    led_chain := by
      rintro m t l l' (old | ⟨rfl, rfl, rfl⟩) (old' | ⟨same, term, rfl⟩)
      · exact known.led_chain old old'
      · subst same; subst term
        exact .inl ((top l old).trans extended)
      · exact .inr ((top l' old').trans extended)
      · exact .inl (List.prefix_refl _)
    led_top := by
      intro m leads
      by_cases same : m = n
      · subst same
        dsimp only [State.append]
        rw [update_self]
        refine ⟨.inr ⟨rfl, rfl, rfl⟩, ?_⟩
        rintro l (old | ⟨_, _, rfl⟩)
        · exact (top l old).trans extended
        · exact List.prefix_refl _
      · simp only [State.append, update_of_ne same]
        obtain ⟨led', top'⟩ := known.led_top leads
        refine ⟨.inl led', ?_⟩
        rintro l (old | ⟨rfl, _, _⟩)
        · exact top' l old
        · exact absurd rfl same
    led_up := by
      rintro m t l (old | ⟨rfl, rfl, rfl⟩)
      · exact known.led_up old
      · obtain ⟨up, bound⟩ := known.led_up led
        refine ⟨up.append fun y member => by rw [own]; exact bound y member, ?_⟩
        intro y member
        rw [mem_append, mem_singleton] at member
        rcases member with member | rfl
        · exact bound y member
        · exact le_of_eq own
    log_from := by
      intro v
      by_cases same : v = n
      · subst same
        simp only [State.append, update_self, R.lastTerm_append]
        refine ⟨.inr ⟨v, s.log v ++ [x], ?_, List.prefix_refl _⟩, le_of_eq own⟩
        rw [R.lastTerm_append]
        exact .inr ⟨rfl, own, rfl⟩
      · simp only [State.append, update_of_ne same]
        exact ⟨(known.log_from v).1.mono fun _ _ _ h => .inl h, (known.log_from v).2⟩
    stood_from := fun h => (known.stood_from h).mono fun _ _ _ h => .inl h
    voted_from := fun h => (known.voted_from h).mono fun _ _ _ h => .inl h }

theorem accept (source : s.led n (s.term v) l) (merged : log = s.log v ∨ log <+: l) : Records R (s.store v log) := by
  exact { known with
    led_top := by
      intro m leads
      obtain ⟨other, led⟩ := leads_of_update leads
      simpa only [State.store, update_of_ne other] using known.led_top led
    log_from := by
      intro u
      by_cases same : u = v
      · subst same
        simp only [State.store, update_self]
        rcases merged with rfl | pre
        · exact known.log_from u
        · exact ⟨known.pre_from source pre, known.lastTerm_le source pre⟩
      · simp only [State.store, update_of_ne same]
        exact known.log_from u }

/-- Every step of the protocol keeps the laws. -/
theorem step (move : Step R s s') : Records R s' := by
  cases move with
  | adopt v t higher =>
    refine known.of_same (Step.adopt (R := R) v t higher).term_le rfl rfl rfl rfl rfl fun n leads => ?_
    obtain ⟨other, led⟩ := leads_of_update leads
    exact ⟨led, update_of_ne other ..⟩
  | rest v =>
    exact known.of_same (fun _ => le_refl _) rfl rfl rfl rfl rfl fun n leads => ⟨(leads_of_update leads).2, rfl⟩
  | stand v => exact known.stand v
  | grant v c log asked free fresh => exact known.grant asked free fresh
  | win n q asked once quorum votes => exact known.win asked once quorum votes
  | append n x leading own gate => exact known.append leading own
  | accept v n l log source other merged =>
    exact known.accept source (merged.imp_right fun h => h.2.1)
  | ack v n l source holds | settle n k x q leading present own quorum stored
  | learn v n t k c l source reached below shared | forget v c below =>
    exact known.of_same (fun _ => le_refl _) rfl rfl rfl rfl rfl fun _ h => ⟨h, rfl⟩

end Records

end Consensus
