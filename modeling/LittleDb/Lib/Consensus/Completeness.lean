import LittleDb.Lib.Consensus.Records

/-! A log that wins a term holds everything committed in earlier terms. -/

namespace Consensus

open Quorum List

variable {N E : Type} {R : Rules N E} {s : State N E}

def OneLeader (s : State N E) : Prop :=
  ∀ ⦃n t e q n' e' q'⦄, s.elected n t e q → s.elected n' t e' q' → n = n'

theorem OneLeader.chain (one : OneLeader s) (known : Records R s) {n n' : N} {t : Nat}
    {l l' : List E} (led : s.led n t l) (led' : s.led n' t l') : l <+: l' ∨ l' <+: l := by
  obtain ⟨e, q, won, _⟩ := known.led_elected led
  obtain ⟨e', q', won', _⟩ := known.led_elected led'
  have same := one won won'
  subst same
  exact known.led_chain led led'

theorem OneLeader.matching (one : OneLeader s) (known : Records R s) {a b : List E}
    (fromA : Origin R s a) (fromB : Origin R s b) {i : Nat} {x y : E} (atA : a[i]? = some x)
    (atB : b[i]? = some y) (same : R.term x = R.term y) : a.take (i + 1) = b.take (i + 1) := by
  -- Both prefixes lie in logs of the one leader of the shared term.
  obtain ⟨n, l, led, preA⟩ := known.entry_from fromA atA
  obtain ⟨m, l', led', preB⟩ := known.entry_from fromB atB
  rw [← same] at led'
  have insideA : i < a.length := (List.getElem?_eq_some_iff.mp atA).1
  have insideB : i < b.length := (List.getElem?_eq_some_iff.mp atB).1
  have lengths : (a.take (i + 1)).length = (b.take (i + 1)).length := by
    simp only [length_take]
    omega
  rcases one.chain known led led' with inner | inner
  · exact (List.prefix_of_prefix_length_le (preA.trans inner) preB lengths.le).eq_of_length lengths
  · exact (List.prefix_of_prefix_length_le preA (preB.trans inner) lengths.le).eq_of_length lengths

theorem members_of_commit {log l : List E} {k p : Nat} (pre : l <+: log.take p) (long : k ≤ l.length)
    (plain : ∀ i, k ≤ i → i < p → ¬ R.ReconfAt log i) : R.members (log.take p) = R.members l := by
  have short : l.length ≤ p := by
    have := pre.length_le
    rw [length_take] at this
    omega
  have cut : l = log.take l.length := by
    have inner : l <+: log := pre.trans ( List.take_prefix p log)
    exact (take_length_of_pre inner).symm
  rw [R.members_take_eq short fun i low high => plain i (by omega) high, ← cut]

variable [DecidableEq N]

/-- A configuration entry lies behind an own commit, or in the first term. -/
def Gated (R : Rules N E) (s : State N E) : Prop :=
  ∀ ⦃n t l e q p x set⦄, s.led n t l → s.elected n t e q → e.length ≤ p → l[p]? = some x →
    R.reconf x = some set → Near (R.members (l.take p)) set ∧
      ∃ k l', s.Opened R n t k l' ∧ l' <+: l.take p ∧ ∀ i, k ≤ i → i < p → ¬ R.ReconfAt l i

/-- A term that begins in a log before a position, or the first one. -/
def Begun (R : Rules N E) (log : List E) (d t : Nat) : Prop :=
  t = R.firstTerm ∨ ∃ i y, i < d ∧ log[i]? = some y ∧ R.term y = t

/-- A commit covers an own-term entry that a majority of members stored. -/
structure CommitLaws (R : Rules N E) (s : State N E) : Prop where
  led : ∀ {n t k l}, s.committed n t k l → s.led n t l
  own : ∀ {n t k l}, s.committed n t k l → ∃ i x, k = i + 1 ∧ l[i]? = some x ∧ R.term x = t
  stored : ∀ {n t k l}, s.committed n t k l →
    ∃ q, Majority (R.members l) q ∧ ∀ v ∈ q, ∃ l', s.acked v t l' ∧ k ≤ l'.length

/-- The laws of the records with those of leaders, configurations and commits. -/
structure Basis (R : Rules N E) (s : State N E) : Prop where
  known : Records R s
  one : OneLeader s
  gated : Gated R s
  laws : CommitLaws R s

namespace Basis

theorem commit_length (b : Basis R s) {m : N} {t k : Nat} {l : List E}
    (commit : s.committed m t k l) : 0 < k ∧ k ≤ l.length := by
  obtain ⟨i, x, rfl, found, _⟩ := b.laws.own commit
  have inside : i < l.length := (List.getElem?_eq_some_iff.mp found).1
  omega

variable {p d : Nat} {log other : List E} {x : E} {set : Finset N}

theorem gate_of_origin (b : Basis R s) (from_ : Origin R s log) (found : log[p]? = some x)
    (reconf : R.reconf x = some set) : Near (R.members (log.take p)) set ∧ ∃ n k l, s.Opened R n (R.term x) k l ∧
      l <+: log.take p ∧ ∀ i, k ≤ i → i < p → ¬ R.ReconfAt log i := by
  obtain ⟨n, l, led, pre⟩ := b.known.entry_from from_ found
  obtain ⟨e, q, won, _⟩ := b.known.led_elected led
  have inside : p < log.length := (List.getElem?_eq_some_iff.mp found).1
  have length : (log.take (p + 1)).length = p + 1 := by
    rw [length_take]
    omega
  have there : l[p]? = some x := by
    rw [← getElem?_of_pre pre (by omega), getElem?_take_of_lt (by omega), found]
  -- The entry is of the leader's own term, so it lies past the log it was elected with.
  have past : e.length ≤ p := by
    by_contra early
    obtain ⟨e', q', won', extends_, _⟩ := b.known.led_elected led
    obtain ⟨rfl, _⟩ := b.known.elected_once won won'
    have inElected : e[p]? = some x := by
      rw [getElem?_of_pre extends_ (by omega), there]
    exact lt_irrefl _ (b.known.elected_above won inElected)
  obtain ⟨near, k, l', commit, inner, plain⟩ := b.gated led won past there reconf
  have cut : l.take p = log.take p := by
    have := take_eq_of_pre pre (k := p) (by omega)
    rw [← this, take_take, show min p (p + 1) = p by omega]
  rw [cut] at near inner
  refine ⟨near, n, k, l', commit, inner, ?_⟩
  intro i low high
  have shift := R.reconfAt_pre ( List.take_prefix (p + 1) log) (show i < _ by omega)
  rw [← shift, R.reconfAt_pre pre (by omega)]
  exact plain i low high

theorem gate_at_fork (b : Basis R s) (from_ : Origin R s log) (part : ∀ y, log[d]? = some y → other[d]? ≠ some y)
    (low : d ≤ p) (found : log[p]? = some x) (reconf : R.reconf x = some set)
    (shared : ∀ {m k l}, s.committed m (R.term x) k l → l.take k <+: other) : Near (R.members (log.take d)) set ∧
    (∀ i, d ≤ i → i < p → ¬ R.ReconfAt log i) ∧ Begun R log d (R.term x) := by
  obtain ⟨near, m, k, l, commit | ⟨first, rfl, rfl⟩, inner, plain⟩ := b.gate_of_origin from_ found reconf
  swap
  · -- Nothing was changed before the entry at all.
    have clear : ∀ i, d ≤ i → i < p → ¬ R.ReconfAt log i := fun i _ => plain i (Nat.zero_le i)
    rw [R.members_take_eq low clear] at near
    exact ⟨near, clear, .inl first⟩
  have inside := (b.commit_length commit).2
  have pre : l <+: log := inner.trans ( List.take_prefix p log)
  -- Both logs hold the commit of the gate, so it ends before they part.
  have short : k ≤ d := by
    have := length_le_of_fork part (( List.take_prefix k l).trans pre) (shared commit)
    rw [length_take] at this
    omega
  have clear : ∀ i, d ≤ i → i < p → ¬ R.ReconfAt log i := fun i above =>
    plain i (by omega)
  rw [R.members_take_eq low clear] at near
  obtain ⟨i, y, rfl, at_, term⟩ := b.laws.own commit
  refine ⟨near, clear, .inr ⟨i, y, by omega, ?_, term⟩⟩
  rw [← getElem?_of_pre pre (by omega), at_]

theorem near_fork (b : Basis R s) (from_ : Origin R s log)
    (short : d ≤ log.length) (part : ∀ y, log[d]? = some y → other[d]? ≠ some y)
    (shared : ∀ {p : Nat} {x}, log[p]? = some x → ∀ {m k l}, s.committed m (R.term x) k l →
      l.take k <+: other) : Near (R.members (log.take d)) (R.members log) := by
  have whole : log.take log.length = log := take_length
  rcases R.reconf_from log d with none | ⟨p, low, ⟨x, set, found, reconf⟩, first⟩
  · have same := R.members_take_eq short fun i atLeast _ => none i atLeast
    rw [whole] at same
    rw [same]
    exact Near.refl _
  have near := (b.gate_at_fork from_ part low found reconf (shared found)).1
  have inside : p < log.length := (List.getElem?_eq_some_iff.mp found).1
  -- A second configuration entry would have needed a clear stretch back to the fork.
  have clear : ∀ i, p < i → i < log.length → ¬ R.ReconfAt log i := by
    rintro i after _ ⟨y, set', found', reconf'⟩
    have plain := (b.gate_at_fork from_ part (by omega) found' reconf' (shared found')).2.1
    exact plain p low after ⟨x, set, found, reconf⟩
  have same := R.members_take_reconf found reconf inside clear
  rw [whole] at same
  rw [same]
  exact near

theorem first_le (b : Basis R s) (from_ : Origin R s log) (found : log[p]? = some x) : R.firstTerm ≤ R.term x := by
  obtain ⟨n, l, led, -⟩ := b.known.entry_from from_ found
  obtain ⟨e, q, won, -⟩ := b.known.led_elected led
  rcases b.known.elected_how won with ⟨-, first, -⟩ | ⟨stood, -⟩
  · exact first.ge
  · exact (b.known.stood_above stood).2.le

theorem begun_le (b : Basis R s) (from' : Origin R s other) {t : Nat} {z : E} (begun : Begun R log d t)
    (agree : log.take d = other.take d) (at_ : other[d]? = some z) : t ≤ R.term z := by
  rcases begun with rfl | ⟨i, y, before, found, rfl⟩
  · exact b.first_le from' at_
  · -- The entry that began the term is in both logs.
    have shared : other[i]? = some y := by
      rw [← getElem?_take_of_lt before, ← agree, getElem?_take_of_lt before, found]
    exact (b.known.ascending from').le before.le shared at_

theorem not_both (b : Basis R s) (from_ : Origin R s log) (from' : Origin R s other) {p' : Nat} {x' : E}
    (agree : log.take d = other.take d) (part : ∀ z, log[d]? = some z → other[d]? ≠ some z)
    (begun : Begun R log d (R.term x)) (after : d ≤ p) (found : log[p]? = some x)
    (begun' : Begun R other d (R.term x')) (after' : d ≤ p') (found' : other[p']? = some x') : False := by
  have inside : p < log.length := (List.getElem?_eq_some_iff.mp found).1
  have inside' : p' < other.length := (List.getElem?_eq_some_iff.mp found').1
  obtain ⟨z, atZ⟩ := Rules.exists_getElem? log d (by omega)
  obtain ⟨z', atZ'⟩ := Rules.exists_getElem? other d (by omega)
  -- Both logs go on in the same term, and one leader fixes the entry there.
  have same : R.term z = R.term z' := by
    have low := b.begun_le from' begun agree atZ'
    have low' := b.begun_le from_ begun' agree.symm atZ
    have high := (b.known.ascending from_).le after atZ found
    have high' := (b.known.ascending from').le after' atZ' found'
    omega
  have matching := b.one.matching b.known from_ from' atZ atZ' same
  have entry : (log.take (d + 1))[d]? = (other.take (d + 1))[d]? := by rw [matching]
  rw [getElem?_take_of_lt (by omega), getElem?_take_of_lt (by omega)] at entry
  exact part z atZ (by rw [← entry, atZ])

theorem near_of_shared (b : Basis R s) (from_ : Origin R s log) (from' : Origin R s other)
    (shared : ∀ {p : Nat} {x}, log[p]? = some x → ∀ {m k l}, s.committed m (R.term x) k l →
      l.take k <+: other) (shared' : ∀ {p : Nat} {x}, other[p]? = some x → ∀ {m k l}, s.committed m (R.term x) k l →
      l.take k <+: log) : Near (R.members log) (R.members other) := by
  obtain ⟨d, short, short', agree, part⟩ := exists_fork log other
  have part' : ∀ y, other[d]? = some y → log[d]? ≠ some y := fun y right left => part y left right
  have near := b.near_fork from_ short part shared
  have near' := b.near_fork from' short' part' shared'
  rcases R.reconf_from log d with none | ⟨p, low, ⟨x, set, found, reconf⟩, _⟩
  · have same := R.members_take_eq short fun i atLeast _ => none i atLeast
    rw [take_length, agree] at same
    rw [same]
    exact near'
  rcases R.reconf_from other d with none | ⟨p', low', ⟨x', set', found', reconf'⟩, _⟩
  · have same := R.members_take_eq short' fun i atLeast _ => none i atLeast
    rw [take_length, ← agree] at same
    rw [same]
    exact near.symm
  · -- Only one of the two logs changed its members after the fork.
    obtain ⟨_, _, begun⟩ := b.gate_at_fork from_ part low found reconf (shared found)
    obtain ⟨_, _, begun'⟩ := b.gate_at_fork from' part' low' found' reconf' (shared' found')
    exact (b.not_both from_ from' agree part begun low found begun' low' found').elim

end Basis

/-- A log that won a term, facing the commits of one earlier term. -/
structure Contest (R : Rules N E) (s : State N E) (t : Nat) (e : List E) (q : Finset N) :
    Prop extends Basis R s where
  from_ : Origin R s e
  quorum : Majority (R.members e) q
  between : t < R.lastTerm e → ∀ {n e' q'}, s.elected n (R.lastTerm e) e' q' →
    ∀ {m k l}, s.committed m t k l → l.take k <+: e'
  before : ∀ {m t' k l}, s.committed m t' k l → t' < t →
    ∀ {n e' q'}, s.elected n t e' q' → l.take k <+: e'
  earlier : ∀ {m t' k l}, s.committed m t' k l → t' < t → l.take k <+: e
  voters : ∀ v ∈ q, ∃ lv, R.UpToDate e lv ∧ R.Ascending lv ∧
    ∀ {m k l l'}, s.committed m t k l → s.acked v t l' → k ≤ l'.length → l.take k <+: lv

namespace Contest

variable {t : Nat} {e : List E} {q : Finset N}

variable {n : N} {k : Nat} {l : List E}

variable (c : Contest R s t e q)

include c

theorem not_near {m : N} (commit : s.committed m t k l) (near : Near (R.members e) (R.members l)) :
    t < R.lastTerm e ∨ (R.lastTerm e = t ∧ k ≤ e.length) := by
  -- A common member of the two majorities acknowledged the commit and then voted.
  obtain ⟨acks, stored, each⟩ := c.laws.stored commit
  obtain ⟨v, voted, acked⟩ := Majority.meet near c.quorum stored
  obtain ⟨l', ack, long⟩ := each v acked
  obtain ⟨lv, fresh, up, held⟩ := c.voters v voted
  have pre := held commit ack long
  obtain ⟨i, x, rfl, found, term⟩ := c.laws.own commit
  have inside : i < l.length := (List.getElem?_eq_some_iff.mp found).1
  have length : (l.take (i + 1)).length = i + 1 := by
    rw [length_take]
    omega
  have there : lv[i]? = some x := by
    rw [← getElem?_of_pre pre (by omega), getElem?_take_of_lt (by omega), found]
  have last := up.le_lastTerm there
  have reach : i < lv.length := (List.getElem?_eq_some_iff.mp there).1
  rcases fresh with later | ⟨same, longer⟩
  · exact .inl (by omega)
  · rcases lt_or_ge t (R.lastTerm e) with above | below
    · exact .inl above
    · exact .inr ⟨by omega, by omega⟩

theorem same_term (last : R.lastTerm e = t) (commit : s.committed n t k l) : l.take k <+: e := by
  have led := c.laws.led commit
  obtain ⟨e', q', won, extends_, _⟩ := c.known.led_elected led
  -- Both logs end inside the one leader's term, so one extends the other.
  have compare : e <+: l ∨ l <+: e := by
    rcases c.from_ with rfl | ⟨m, l', led', pre⟩
    · exact .inl ( List.nil_prefix)
    · rw [last] at led'
      rcases c.one.chain c.known led led' with inner | inner
      · exact List.prefix_or_prefix_of_prefix pre inner
      · exact .inl (pre.trans inner)
  rcases compare with pre | pre
  swap
  · exact ( List.take_prefix k l).trans pre
  by_contra missing
  have short : e.length < k := by
    by_contra long
    exact missing (take_pre_of_le (List.prefix_refl l) pre (c.commit_length commit).2 (by omega))
  -- Everything past the winning log was appended in the committing term.
  have past : e'.length ≤ e.length := by
    by_contra early
    rcases Nat.eq_zero_or_pos e.length with empty | occupied
    · obtain ⟨x, found⟩ := Rules.exists_getElem? e' 0 (by omega)
      have := c.known.elected_above won found
      rw [length_eq_zero_iff] at empty
      rw [empty] at last
      simp at last
      omega
    · obtain ⟨x, found⟩ := Rules.exists_getElem? e (e.length - 1) (by omega)
      have term := R.lastTerm_of_getElem? (by omega) found
      have inElected : e'[e.length - 1]? = some x := by
        rw [getElem?_of_pre extends_ (by omega), ← getElem?_of_pre pre (by omega), found]
      have := c.known.elected_above won inElected
      omega
  have cut : l.take e.length = e := take_length_of_pre pre
  have whole : l.take l.length = l := take_length
  have above : e.length ≤ l.length := pre.length_le
  rcases R.reconf_from l e.length with none | ⟨p, low, ⟨x, set, found, reconf⟩, first⟩
  · -- Without configuration entries since then, the members are the same.
    have same := R.members_take_eq above fun i atLeast _ => none i atLeast
    rw [cut, whole] at same
    rcases c.not_near commit (by rw [same]; exact Near.refl _) with late | ⟨_, long⟩ <;> omega
  have near := (c.gated led won (by omega) found reconf).1
  rw [R.members_take_eq low first, cut] at near
  have inside : p < l.length := (List.getElem?_eq_some_iff.mp found).1
  rcases R.reconf_from l (p + 1) with none | ⟨p', low', ⟨x', set', found', reconf'⟩, first'⟩
  · -- One configuration entry since then leaves the two member sets near.
    have same := R.members_take_reconf found reconf inside fun i after _ => none i (by omega)
    rw [whole] at same
    rcases c.not_near commit (by rw [same]; exact near) with late | ⟨_, long⟩ <;> omega
  · -- A second one needed a commit past the first, made under a near member set.
    obtain ⟨_, k', l', opened, inner, plain⟩ := c.gated led won (by omega) found' reconf'
    have longer : p < k' := by
      by_contra early
      exact plain p (by omega) (by omega) ⟨x, set, found, reconf⟩
    have commit' := opened.resolve_right fun first => by omega
    have same := members_of_commit inner (c.commit_length commit').2 plain
    rw [R.members_take_reconf found reconf (by omega) fun i after below =>
      first' i (by omega) below] at same
    rcases c.not_near commit' (by rw [← same]; exact near) with late | ⟨_, long⟩ <;> omega

theorem later_term (last : t < R.lastTerm e) (commit : s.committed n t k l) : l.take k <+: e := by
  rcases c.from_ with rfl | ⟨m, l', led, pre⟩
  · simp at last
  obtain ⟨e', q', won, extends_, _⟩ := c.known.led_elected led
  -- The leader of the last entry's term held the commit before it appended that entry.
  refine (c.between last won commit).trans ?_
  rcases List.prefix_or_prefix_of_prefix extends_ pre with inner | inner
  · exact inner
  · exact absurd (c.known.lastTerm_lt won inner (by omega)) (lt_irrefl _)

theorem earlier_term (last : R.lastTerm e < t) (commit : s.committed n t k l) : l.take k <+: e := by
  have led := c.laws.led commit
  have fromL : Origin R s l := c.known.pre_from led (List.prefix_refl l)
  obtain ⟨d, shortE, shortL, agree, part⟩ := exists_fork e l
  obtain ⟨e', q', won, extends_, _⟩ := c.known.led_elected led
  have shared : ∀ {p x}, e[p]? = some x → ∀ {m k l'}, s.committed m (R.term x) k l' →
      l'.take k <+: l := fun at_ _ _ _ commit' =>
    (c.before commit' (lt_of_le_of_lt ((c.known.ascending c.from_).le_lastTerm at_) last) won).trans extends_
  have nearE := c.near_fork c.from_ shortE part shared
  have part' : ∀ y, l[d]? = some y → e[d]? ≠ some y := fun y atL atE => part y atE atL
  have whole : l.take l.length = l := take_length
  -- No commit of the term was made under members near to those of the winning log.
  have far : ∀ {m k' l'}, s.committed m t k' l' → ¬ Near (R.members e) (R.members l') := by
    intro m k' l' commit' near
    rcases c.not_near commit' near with late | ⟨same, _⟩ <;> omega
  exfalso
  rcases R.reconf_from l d with none | ⟨p, low, ⟨x, set, found, reconf⟩, first⟩
  · have same := R.members_take_eq shortL fun i atLeast _ => none i atLeast
    rw [whole, ← agree] at same
    exact far commit (by rw [same]; exact nearE.symm)
  have top : ∀ {p x}, l[p]? = some x → R.term x ≤ t := fun at_ =>
    (c.known.led_up led).2 _ (mem_of_getElem? at_)
  -- A change in the committing term was made behind a commit, or before anything else.
  have sinceGate : ∀ {p' x' set'}, l[p']? = some x' → R.reconf x' = some set' → R.term x' = t →
      (∃ m k' l', s.committed m t k' l' ∧ R.members (l.take p') = R.members l') ∨
        t = R.firstTerm ∧ ∀ i, i < p' → ¬ R.ReconfAt l i := by
    intro p' x' set' at_ reconf' term
    obtain ⟨_, m, k', l', opened, inner, plain⟩ := c.gate_of_origin fromL at_ reconf'
    rw [term] at opened
    rcases opened with commit' | ⟨first, rfl, rfl⟩
    · exact .inl ⟨m, k', l', commit', members_of_commit inner (c.commit_length commit').2 plain⟩
    · exact .inr ⟨first, fun i => plain i (Nat.zero_le i)⟩
  have near : Near (R.members e) set := by
    rcases lt_or_ge (R.term x) t with early | late
    · obtain ⟨near, _, begun⟩ := c.gate_at_fork fromL part' low found reconf fun commit' => c.earlier commit' early
      -- The committing log changed its members in an earlier term, so the winning log did not.
      have plainE : ∀ i, d ≤ i → ¬ R.ReconfAt e i := by
        rintro i atLeast ⟨x', set', found', reconf'⟩
        obtain ⟨_, _, begun'⟩ := c.gate_at_fork c.from_ part atLeast found' reconf' (shared found')
        exact c.not_both c.from_ fromL agree part begun' atLeast found' begun low found
      have same := R.members_take_eq shortE fun i atLeast _ => plainE i atLeast
      rw [take_length, agree] at same
      rw [same]
      exact near
    · have own := le_antisymm (top found) late
      rcases sinceGate found reconf own with ⟨m, k', l', commit', same⟩ | ⟨founding, _⟩
      · -- The gate of the committing term itself saw the members of the fork.
        rw [R.members_take_eq low first, ← agree] at same
        exact absurd (by rw [← same]; exact nearE.symm) (far commit')
      · -- The winning log ends before the first term, so it is empty.
        have empty : e = [] := by
          by_contra some_
          have occupied := length_pos_iff.mpr some_
          obtain ⟨y, at_⟩ := Rules.exists_getElem? e 0 occupied
          have low := c.first_le c.from_ at_
          have high := (c.known.ascending c.from_).le_lastTerm at_
          omega
        have near := (c.gate_of_origin fromL found reconf).1
        rw [R.members_take_eq low first, ← agree, empty, take_nil] at near
        rw [empty]
        exact near
  have inside : p < l.length := (List.getElem?_eq_some_iff.mp found).1
  rcases R.reconf_from l (p + 1) with none | ⟨p', low', ⟨x', set', found', reconf'⟩, first'⟩
  · have single := R.members_take_reconf found reconf inside fun i after _ => none i (by omega)
    rw [whole] at single
    exact far commit (by rw [single]; exact near)
  rcases lt_or_ge (R.term x') t with early' | late'
  · have clear := (c.gate_at_fork fromL part' (by omega) found' reconf' fun commit' =>
      c.earlier commit' early').2.1
    exact clear p low (by omega) ⟨x, set, found, reconf⟩
  · rcases sinceGate found' reconf' (le_antisymm (top found') late') with
      ⟨m, k', l', commit', single⟩ | ⟨_, plain⟩
    · rw [R.members_take_reconf found reconf (by omega) fun i after below =>
        first' i (by omega) below] at single
      exact far commit' (by rw [← single]; exact near)
    · exact plain p (by omega) ⟨x, set, found, reconf⟩

theorem holds (commit : s.committed n t k l) : l.take k <+: e := by
  rcases Nat.lt_trichotomy (R.lastTerm e) t with last | last | last
  · exact c.earlier_term last commit
  · exact c.same_term last commit
  · exact c.later_term last commit

end Contest

end Consensus
