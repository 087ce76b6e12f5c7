import Mathlib.Data.List.Infix
import LittleDb.Lib.Quorum

/-! An abstract replicated log: terms, votes, leaders' logs, acknowledgements and commits. -/

namespace Consensus

open Quorum Function

/-- What the protocol needs to know about entries and the founders. -/
structure Rules (N E : Type) where
  term : E → Nat
  /-- The member set an entry installs, when it is a configuration entry. -/
  reconf : E → Option (Finset N)
  /-- The member set in force before any configuration entry. -/
  founders : Finset N
  /-- The node that leads the first term without an election. -/
  first : N
  firstTerm : Nat

namespace Rules

variable {N E : Type} (R : Rules N E)

/-- The term of the last entry, or zero for an empty log. -/
def lastTerm (log : List E) : Nat :=
  (log.getLast?.map R.term).getD 0

/-- The member set a log implies: that of its last configuration entry. -/
def members (log : List E) : Finset N :=
  (log.reverse.findSome? R.reconf).getD R.founders

/-- The entry at this position installs a member set. -/
def ReconfAt (log : List E) (pos : Nat) : Prop :=
  ∃ entry set, log[pos]? = some entry ∧ R.reconf entry = some set

/-- The candidate's log is at least as up to date as the voter's. -/
def UpToDate (candidate voter : List E) : Prop :=
  -- A later last term wins, and equal last terms are decided by length.
  R.lastTerm voter < R.lastTerm candidate ∨
    (R.lastTerm voter = R.lastTerm candidate ∧ voter.length ≤ candidate.length)

def Ascending (log : List E) : Prop :=
  log.Pairwise fun earlier later => R.term earlier ≤ R.term later

end Rules

/--
The state of every node, and a record of everything that ever happened.

The records only grow, so a fact about the past stays available to every later argument.
-/
structure State (N E : Type) where
  term : N → Nat
  log : N → List E
  commit : N → Nat
  leads : N → Prop
  stood : N → Nat → List E → Prop
  /-- A voter granted its vote to a candidate, holding this log. -/
  voted : N → Nat → N → List E → Prop
  /-- A node won a term with this log and these voters. -/
  elected : N → Nat → List E → Finset N → Prop
  /-- The leader of a term held this log at some moment of the term. -/
  led : N → Nat → List E → Prop
  /-- A node stored this whole leader log while in the leader's term. -/
  acked : N → Nat → List E → Prop
  /-- The leader of a term committed up to this index while holding this log. -/
  committed : N → Nat → Nat → List E → Prop

/-- A leader may change the members behind an own commit, or first in the first term. -/
def State.Opened {N E : Type} (R : Rules N E) (s : State N E) (n : N) (t k : Nat) (l : List E) : Prop :=
  s.committed n t k l ∨ (t = R.firstTerm ∧ k = 0 ∧ l = [])

variable {N E : Type} [DecidableEq N]

/-- One step of the protocol moves one node and records what it did. -/
inductive Step (R : Rules N E) (s : State N E) : State N E → Prop where
  | adopt (v : N) (t : Nat) (higher : s.term v < t) :
      Step R s { s with
        term := update s.term v t
        leads := update s.leads v False }
  | rest (v : N) :
      Step R s { s with leads := update s.leads v False }
  /-- A node moves to the next term, votes for itself and asks for votes. -/
  | stand (v : N) :
      Step R s { s with
        term := update s.term v (s.term v + 1)
        leads := update s.leads v False
        stood := fun n t l => s.stood n t l ∨ (n = v ∧ t = s.term v + 1 ∧ l = s.log v)
        voted := fun n t c l => s.voted n t c l ∨
          (n = v ∧ t = s.term v + 1 ∧ c = v ∧ l = s.log v) }
  /-- A node votes for a candidate of its current term whose log is up to date. -/
  | grant (v c : N) (log : List E) (asked : s.stood c (s.term v) log)
      (free : ∀ c' l, s.voted v (s.term v) c' l → c' = c)
      (fresh : R.UpToDate log (s.log v)) :
      Step R s { s with
        voted := fun n t c' l => s.voted n t c' l ∨
          (n = v ∧ t = s.term v ∧ c' = c ∧ l = s.log v) }
  /-- A candidate with the votes of a majority of its members leads. -/
  | win (n : N) (q : Finset N) (asked : s.stood n (s.term n) (s.log n))
      (once : ∀ e q', ¬ s.elected n (s.term n) e q')
      (quorum : Majority (R.members (s.log n)) q)
      (votes : ∀ v ∈ q, ∃ l, s.voted v (s.term n) n l) :
      Step R s { s with
        leads := update s.leads n True
        elected := fun m t e q' => s.elected m t e q' ∨
          (m = n ∧ t = s.term n ∧ e = s.log n ∧ q' = q)
        led := fun m t l => s.led m t l ∨ (m = n ∧ t = s.term n ∧ l = s.log n) }
  /-- A leader appends an own-term entry; a configuration has to pass the gate. -/
  | append (n : N) (x : E) (leading : s.leads n) (own : R.term x = s.term n)
      (gate : ∀ set, R.reconf x = some set →
        Near (R.members (s.log n)) set ∧
        ∃ k l, s.Opened R n (s.term n) k l ∧ l <+: s.log n ∧
          ∀ pos, k ≤ pos → ¬ R.ReconfAt (s.log n) pos) :
      Step R s { s with
        log := update s.log n (s.log n ++ [x])
        led := fun m t l => s.led m t l ∨ (m = n ∧ t = s.term n ∧ l = s.log n ++ [x]) }
  /--
  A follower takes over part of a leader's log.

  It changes nothing when it already holds the leader's log.
  Otherwise it ends up with a prefix of that log and keeps what the two had in common.
  -/
  | accept (v n : N) (l log : List E) (source : s.led n (s.term v) l) (other : n ≠ v)
      (merged : log = s.log v ∨ (¬ l <+: s.log v ∧ log <+: l ∧
        ∀ x, x <+: s.log v → x <+: l → x <+: log)) :
      Step R s { s with
        log := update s.log v log
        leads := update s.leads v False }
  /-- A node that holds a whole leader log of its term acknowledges it. -/
  | ack (v n : N) (l : List E) (source : s.led n (s.term v) l) (holds : l <+: s.log v) :
      Step R s { s with
        acked := fun m t l' => s.acked m t l' ∨ (m = v ∧ t = s.term v ∧ l' = l) }
  /-- A leader commits an own-term entry that a majority acknowledged. -/
  | settle (n : N) (k : Nat) (x : E) (q : Finset N) (leading : s.leads n)
      (present : (s.log n)[k]? = some x) (own : R.term x = s.term n)
      (quorum : Majority (R.members (s.log n)) q)
      (stored : ∀ v ∈ q, ∃ l, s.acked v (s.term n) l ∧ k < l.length) :
      Step R s { s with
        commit := update s.commit n (k + 1)
        committed := fun m t k' l => s.committed m t k' l ∨
          (m = n ∧ t = s.term n ∧ k' = k + 1 ∧ l = s.log n) }
  /-- A node raises its commit index inside a prefix of a committed log. -/
  | learn (v n : N) (t k c : Nat) (l : List E) (source : s.committed n t k l)
      (reached : t ≤ s.term v) (below : c ≤ k) (shared : (s.log v).take c = l.take c) :
      Step R s { s with commit := update s.commit v c }
  | forget (v : N) (c : Nat) (below : c ≤ s.commit v) :
      Step R s { s with commit := update s.commit v c }

namespace State

def follow (s : State N E) (v : N) (t : Nat) : State N E :=
  { s with term := update s.term v t, leads := update s.leads v False }

def stand (s : State N E) (v : N) : State N E :=
  { s with
    term := update s.term v (s.term v + 1)
    leads := update s.leads v False
    stood := fun n t l => s.stood n t l ∨ (n = v ∧ t = s.term v + 1 ∧ l = s.log v)
    voted := fun n t c l => s.voted n t c l ∨ (n = v ∧ t = s.term v + 1 ∧ c = v ∧ l = s.log v) }

def grant (s : State N E) (v c : N) : State N E :=
  { s with voted := fun n t c' l => s.voted n t c' l ∨
      (n = v ∧ t = s.term v ∧ c' = c ∧ l = s.log v) }

def win (s : State N E) (n : N) (q : Finset N) : State N E :=
  { s with
    leads := update s.leads n True
    elected := fun m t e q' => s.elected m t e q' ∨
      (m = n ∧ t = s.term n ∧ e = s.log n ∧ q' = q)
    led := fun m t l => s.led m t l ∨ (m = n ∧ t = s.term n ∧ l = s.log n) }

def append (s : State N E) (n : N) (x : E) : State N E :=
  { s with
    log := update s.log n (s.log n ++ [x])
    led := fun m t l => s.led m t l ∨ (m = n ∧ t = s.term n ∧ l = s.log n ++ [x]) }

def store (s : State N E) (v : N) (log : List E) : State N E :=
  { s with log := update s.log v log, leads := update s.leads v False }

def ack (s : State N E) (v : N) (l : List E) : State N E :=
  { s with acked := fun m t l' => s.acked m t l' ∨ (m = v ∧ t = s.term v ∧ l' = l) }

def settle (s : State N E) (n : N) (k : Nat) : State N E :=
  { s with
    commit := update s.commit n (k + 1)
    committed := fun m t k' l => s.committed m t k' l ∨
      (m = n ∧ t = s.term n ∧ k' = k + 1 ∧ l = s.log n) }

def learn (s : State N E) (v : N) (c : Nat) : State N E :=
  { s with commit := update s.commit v c }

end State

theorem Step.term_le {R : Rules N E} {s s' : State N E} (move : Step R s s') (u : N) : s.term u ≤ s'.term u := by
  cases move
  case adopt v t higher =>
    dsimp only
    rcases eq_or_ne u v with rfl | other
    · rw [update_self]
      exact le_of_lt higher
    · rw [update_of_ne other]
  case stand v =>
    dsimp only
    rcases eq_or_ne u v with rfl | other
    · rw [update_self]
      exact Nat.le_succ _
    · rw [update_of_ne other]
  all_goals exact le_refl _

/-- Before the first step only the first node leads, and every log is empty. -/
def State.init (R : Rules N E) : State N E where
  term _ := R.firstTerm
  log _ := []
  commit _ := 0
  leads n := n = R.first
  stood _ _ _ := False
  voted _ _ _ _ := False
  elected n t e q := n = R.first ∧ t = R.firstTerm ∧ e = [] ∧ q = ∅
  led n t l := n = R.first ∧ t = R.firstTerm ∧ l = []
  acked _ _ _ := False
  committed _ _ _ _ := False

inductive Reachable (R : Rules N E) : State N E → Prop where
  | init : Reachable R (State.init R)
  /-- Every step of a reachable state leads to a reachable state. -/
  | step {s s' : State N E} (from_ : Reachable R s) (move : Step R s s') : Reachable R s'

end Consensus
