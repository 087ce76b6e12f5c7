import LittleDb.Lib.Run
import LittleDb.Lincheck.Verdict
import Mathlib.Data.Set.Card

/-! The search ends without following a missing link, and linearizes no frontier twice. -/

namespace Lincheck

open Linearize List

variable {ops : List Op} {s s' : Search} {ids : List Nat}

/-- The operations in a set of ids, as a finite set. -/
def members (ops : List Op) (set : Bitset) : Finset Nat := (Finset.range ops.length).filter fun i => set.has i

/-- The frontier behind a lifted call: the operations and the register. -/
def Search.lifts (ops : List Op) (s : Search) : List (Finset Nat × RegState) :=
  match s.entry with
  | some (.event (.call i)) => (s.choose ops i).toList.map fun pick => (members ops pick.2, pick.1)
  | _ => []

/-- A turn after which the loop goes on, with the frontier it lifts for. -/
def Search.move (ops : List Op) (s : Search) (_ : Unit) : Option (Search × List (Finset Nat × RegState)) :=
  match s.step ops with
  | some (.again s') => some (s', s.lifts ops)
  | _ => none

/-- The frontiers: some operations, and the register after them in some order. -/
def frontiers (ops : List Op) : Set (Finset Nat × RegState) :=
  { p | ∃ ids : List Nat, ids.Nodup ∧ (∀ i ∈ ids, i < ops.length) ∧ p.1 = ids.toFinset ∧
    stateAfter ops ids = some p.2 }

theorem members_eq {set : Bitset} (holds : set.Holds ops.length ids)
    (known : ∀ i ∈ ids, i < ops.length) : members ops set = ids.toFinset := by
  ext i
  simp only [members, Finset.mem_filter, Finset.mem_range, holds.bits, decide_eq_true_eq, List.mem_toFinset]
  exact ⟨And.right, fun listed => ⟨known i listed, listed⟩⟩

/-- The registers that puts and deletes of a history can leave. -/
def registers (ops : List Op) : Finset RegState := insert .absent (ops.map fun op => ⟨op.value, true⟩).toFinset

theorem stateAfter_mem {st : RegState} (after : stateAfter ops ids = some st) : st ∈ registers ops := by
  induction ids generalizing st with
  | nil =>
    cases after
    simp [registers]
  | cons i ids ih =>
    obtain ⟨before, earlier, moved⟩ := Option.bind_eq_some_iff.mp after
    obtain ⟨op, found, legal⟩ := Option.bind_eq_some_iff.mp moved
    have listed := List.mem_of_getElem? found
    unfold stepRegister at legal
    split at legal
    · cases legal
      simp only [registers, Finset.mem_insert, List.mem_toFinset, List.mem_map]
      exact .inr ⟨op, listed, rfl⟩
    · cases legal
      simp [registers]
    · split_ifs at legal
      cases legal
      exact ih earlier

theorem frontiers_finite (ops : List Op) : (frontiers ops).Finite := by
  refine ((Finset.range ops.length).powerset ×ˢ registers ops).finite_toSet.subset ?_
  rintro ⟨set, st⟩ ⟨ids, -, known, rfl, after⟩
  simp only [Finset.coe_product, Set.mem_prod, Finset.mem_coe, Finset.mem_powerset]
  refine ⟨fun i listed => ?_, stateAfter_mem after⟩
  exact Finset.mem_range.mpr (known i (List.mem_toFinset.mp listed))

theorem Search.again_cases (moved : s.step ops = some (.again s')) : (s.lifts ops = [] ∧ s'.cache = s.cache) ∨
    ∃ i st set, s.entry = some (.event (.call i)) ∧ s.choose ops i = some (st, set) ∧
    s'.cache = cacheAdd s.cache set st ∧ s'.state = st := by
  unfold Search.step at moved
  split at moved
  · cases moved
  · split at moved
    · next i entry =>
      split at moved
      · next st set chosen =>
        obtain ⟨links, -, same⟩ := Option.bind_eq_some_iff.mp moved
        cases same
        exact .inr ⟨i, st, set, entry, chosen, rfl, rfl⟩
      · next declined =>
        cases moved
        exact .inl ⟨by simp [Search.lifts, entry, declined], rfl⟩
    · next j entry =>
      split at moved
      · cases moved
      · split at moved
        · obtain ⟨links, -, same⟩ := Option.bind_eq_some_iff.mp moved
          cases same
          exact .inl ⟨by simp [Search.lifts, entry], rfl⟩
        · cases moved
    · cases moved

theorem Search.At.behind {before rest : List (Event Nat)} {owed : Nat} {e : Event Nat}
    (spot : Search.At ops s ids before rest owed) (entry : s.entry = some (.event e)) :
    ∃ rest', rest = e :: rest' := by
  rw [spot.entry] at entry
  cases rest with
  | nil => cases entry
  | cons e' rest => exact ⟨rest, by simpa using entry⟩

/-- The calls lifted so far, each for a frontier of its own. -/
structure Search.Counted (ops : List Op) (s : Search) (lifts : List (Finset Nat × RegState)) : Prop where
  spot : ∃ ids before rest owed, Search.At ops s ids before rest owed
  distinct : lifts.Nodup
  known : ∀ p ∈ lifts, p ∈ frontiers ops
  cached : ∀ p ∈ lifts, ∃ set ids, set.Holds ops.length ids ∧ p.1 = ids.toFinset ∧ cacheHas s.cache set p.2 = true

theorem Search.Counted.start (ops : List Op) : (Search.start ops).Counted ops [] :=
  ⟨⟨_, _, _, _, .start ops⟩, .nil, nofun, nofun⟩

/-- Every turn lifts for a frontier that is new. -/
theorem Search.Counted.step {lifts : List (Finset Nat × RegState)} (counted : s.Counted ops lifts)
    (moved : s.step ops = some (.again s')) : s'.Counted ops (s.lifts ops ++ lifts) := by
  obtain ⟨⟨ids, before, rest, owed, spot⟩, distinct, known, cached⟩ := counted
  have spot' : ∃ ids before rest owed, Search.At ops s' ids before rest owed := by
    rcases spot.turn with ⟨b, done, -⟩ | ⟨t, ids', before', rest', owed', again, spot', -⟩
    · cases done.symm.trans moved
    · cases again.symm.trans moved
      exact ⟨ids', before', rest', owed', spot'⟩
  rcases Search.again_cases moved with ⟨none_lifted, same⟩ | ⟨i, st, set, entry, chosen, grown, rfl⟩
  · rw [none_lifted, nil_append]
    exact ⟨spot', distinct, known, same ▸ cached⟩
  · obtain ⟨rest, rfl⟩ := spot.behind entry
    obtain ⟨next, again, placed⟩ := spot.choose chosen
    cases again.symm.trans moved
    obtain ⟨single, small⟩ := placed.chosen.ids_spec
    obtain ⟨-, rfl, fresh⟩ := Search.choose_some chosen
    have holds := spot.holds.set (small i (by simp))
    have lifted : s.lifts ops = [((i :: ids).toFinset, s'.state)] := by
      rw [Search.lifts, entry]
      simp [chosen, members_eq holds small]
    rw [lifted]
    refine ⟨spot', nodup_cons.mpr ⟨fun old => ?_, distinct⟩, ?_, ?_⟩
    · obtain ⟨set, js, held, same, found⟩ := cached _ old
      -- A frontier lifted before would be in the cache.
      have equal := holds.unique held fun j => by
        have members := congrArg (j ∈ ·) same
        simpa using members
      rw [equal] at fresh
      cases fresh.symm.trans found
    · rintro p (_ | ⟨_, old⟩)
      · exact ⟨i :: ids, single, small, rfl, placed.chosen.state_eq⟩
      · exact known p old
    · rw [grown]
      rintro p (_ | ⟨_, old⟩)
      · exact ⟨_, _, holds, rfl, (cacheHas_cacheAdd ..).mpr (.inr ⟨rfl, rfl⟩)⟩
      · obtain ⟨set, js, held, same, found⟩ := cached p old
        exact ⟨set, js, held, same, (cacheHas_cacheAdd ..).mpr (.inl found)⟩

/-- The search ends, follows no missing link, and lifts every call for a frontier of its own, whatever ties there
are. -/
theorem search_ends_safely (ops : List Op) :
    (∃ enough, ∀ fuel ≥ enough, ∃ b, linearizableRegister fuel ops = some b) ∧
    ∀ s past lifts, Run.Reach (Search.move ops) (fun _ _ => True) (Search.start ops) s past lifts →
      (s.links.next .head ≠ none → ∃ e, s.entry = some (.event e)) ∧ s.step ops ≠ none ∧
      (∀ i pick, s.entry = some (.event (.call i)) → s.choose ops i = some pick →
        lift s.links (.event (.call i)) ≠ none) ∧
      lifts.Nodup ∧ lifts.length ≤ (frontiers ops).ncard := by
  refine ⟨⟨bound ops.length + 1, fun fuel ample => ?_⟩, fun s past lifts run => ?_⟩
  · obtain ⟨b, returns, -⟩ := linearizableRegister_places ops (show bound ops.length < fuel by omega)
    exact ⟨b, returns⟩
  -- Each lift is a new frontier, and there are finitely many.
  have counted : s.Counted ops lifts := by
    refine run.invariant (P := fun s _ lifts => s.Counted ops lifts) (.start ops) ?_
    intro s a s' past lifts new _ _ moved counted
    unfold Search.move at moved
    split at moved
    · next again =>
      cases moved
      exact counted.step again
    · cases moved
  obtain ⟨⟨ids, before, rest, owed, spot⟩, distinct, known, -⟩ := counted
  refine ⟨fun busy => ?_, ?_, fun i pick entry chosen => ?_, distinct, ?_⟩
  · cases rest with
    | nil => exact absurd spot.exhausted.2 busy
    | cons e rest => exact ⟨e, by simpa using spot.entry⟩
  · rcases spot.turn with ⟨b, done, -⟩ | ⟨t, _, _, _, _, again, -⟩
    · rw [done]
      nofun
    · rw [again]
      nofun
  · obtain ⟨rest, rfl⟩ := spot.behind entry
    obtain ⟨k, lifted, -⟩ := lift_spec (spot.split ▸ spot.chosen.threads) (spot.split ▸ nodup_remaining ops ids)
      (spot.dead.ret_mem spot.split)
    rw [lifted]
    nofun
  · rw [← toFinset_card_of_nodup distinct, ← Set.ncard_coe_finset]
    refine Set.ncard_le_ncard (fun p listed => known p ?_) (frontiers_finite ops)
    simpa using listed

/-- A write that returns at the tick at which a read of its value is called. -/
def tied : List Op := [⟨0, .put, [], [7], false, 0, 2⟩, ⟨1, .get, [], [7], true, 2, 4⟩]

/-- The search lifts both calls, and there are at least two frontiers. -/
theorem search_ends_safely_tied : ∃ s past lifts,
    Run.Reach (Search.move tied) (fun _ _ => True) (Search.start tied) s past lifts ∧ lifts.length = 2 ∧
      s.step tied ≠ none ∧ 2 ≤ (frontiers tied).ncard := by
  obtain ⟨s, past, lifts, run, passed⟩ := Run.exec_exists (Search.move tied) (fun _ _ => true) (Search.start tied)
    [(), ()] (fun r => r.2.2.length = 2) (by decide +kernel)
  have run := run.weaken fun _ _ _ => trivial
  have both : lifts.length = 2 := of_decide_eq_true passed
  obtain ⟨-, safe, -, -, few⟩ := (search_ends_safely tied).2 s past lifts run
  exact ⟨s, past, lifts, run, both, safe, both ▸ few⟩

end Lincheck
