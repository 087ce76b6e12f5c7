import LittleDb.Lincheck.Frontier

/-! The verdict: the search returns, and it accepts exactly the linearizable histories. -/

namespace Lincheck

open Linearize Function List

variable {fuel : Nat}

section Turns

variable {ops : List Op} {s : Search} {ids : List Nat} {before rest : List (Event Nat)} {owed : Nat}

theorem cacheHas_cacheAdd (cache : Cache) (set set' : Bitset) (st st' : RegState) :
    cacheHas (cacheAdd cache set st) set' st' = true ↔ cacheHas cache set' st' = true ∨ (set' = set ∧ st' = st) := by
  simp only [cacheHas, cacheAdd, update_apply]
  by_cases bucket : set'.hash = set.hash
  · simp only [bucket, if_true, any_append, any_cons, any_nil, Bool.or_false,
      Bool.or_eq_true, Bool.and_eq_true, decide_eq_true_eq, Bitset.equal_iff]
    tauto
  · -- A frontier in another bucket has another set.
    have apart : set' ≠ set := fun same => bucket (by rw [same])
    simp [bucket, apart]

/-- What the search knows between two turns, the cursor behind dead calls. -/
structure Search.At (ops : List Op) (s : Search) (ids : List Nat) (before rest : List (Event Nat))
    (owed : Nat) : Prop where
  chosen : Chosen ops s.calls ids s.state s.links owed
  holds : s.linearized.Holds ops.length ids
  split : remaining ops ids = before ++ rest
  dead : Dead ops ids s.state before
  entry : s.entry = rest.head?.map .event
  cached : ∀ set st, cacheHas s.cache set st = true → ∃ js, set.Holds ops.length js ∧
    ((js <:+ ids ∧ stateAfter ops js = some st) ∨ ¬ Places (stepAt ops) (remaining ops js) st)

def owes (ops : List Op) (ids : List Nat) (rest : List (Event Nat)) (owed : Nat) : Nat :=
  owed + rest.length * weight ops ids.length

theorem Search.At.start (ops : List Op) : Search.At ops (Search.start ops) [] [] (events ops) 0 where
  chosen := .start
  holds := Bitset.holds_newBitset _
  split := by simp
  dead := by simp [Dead]
  entry := by
    have chosen : Chosen ops [] [] .absent (buildEventList ops) 0 := .start
    have first := chosen.threads.next_eq
    rw [remaining_nil, head?_map] at first
    exact first
  cached set st found := by simp [cacheHas, Search.start] at found

theorem Search.At.exhausted (spot : Search.At ops s ids before [] owed) :
    remaining ops ids = [] ∧ s.links.next .head = none := by
  -- Only calls were passed over, and a pending call would have its return somewhere.
  have nothing : remaining ops ids = [] := by
    have split := spot.split
    rw [append_nil] at split
    cases before with
    | nil => exact split
    | cons e front =>
      obtain ⟨j, rfl, _⟩ := spot.dead e (by simp)
      have calls : .call j ∈ remaining ops ids := by simp [split]
      have returns : .ret j ∈ remaining ops ids := by simpa using calls
      obtain ⟨k, same, _⟩ := spot.dead _ (split ▸ returns)
      cases same
  exact ⟨nothing, by simpa [nothing] using spot.chosen.threads.next_eq⟩

theorem Search.At.finish (spot : Search.At ops s ids before [] owed) :
    s.step ops = some (.verdict true) ∧ Places (stepAt ops) (events ops) .absent := by
  obtain ⟨nothing, empty⟩ := spot.exhausted
  refine ⟨by simp [Search.step, empty], spot.chosen.places ?_⟩
  rw [nothing]
  exact .done _

theorem Search.At.pending {e : Event Nat} (spot : Search.At ops s ids before (e :: rest) owed) :
    ∃ n, s.links.next .head = some n := by
  rw [spot.chosen.threads.next_eq, spot.split]
  cases before <;> simp

variable {i j : Nat} {s' : RegState} {set : Bitset}

theorem Search.At.refuted (spot : Search.At ops s ids before (.call i :: rest) owed)
    (declined : s.choose ops i = none) : ∀ s', stepAt ops s.state i = some s' → ¬ Places (stepAt ops)
    (remaining ops (i :: ids)) s' := by
  intro s' moved
  obtain ⟨inside, fresh⟩ := fresh_of_split spot.split
  have legal : stepRegister s.state ops[i] = some s' := by
    simpa [stepAt, inside] using moved
  have found : cacheHas s.cache (s.linearized.set i) s' = true := by
    simpa [Search.choose, inside, legal] using declined
  obtain ⟨js, holds, known⟩ := spot.cached _ _ found
  -- The cached frontier has the same operations linearized as the one considered here.
  have same : ∀ j, j ∈ js ↔ j ∈ i :: ids := by
    intro j
    have bits := (holds.bits j).symm.trans ((spot.holds.set inside).bits j)
    exact decide_eq_decide.mp bits
  rcases known with ⟨below, _⟩ | refuted
  · -- It cannot be on the stack, where this operation is not linearized.
    exact absurd (below.subset ((same i).mpr (by simp))) fresh
  · rwa [remaining_congr ops same] at refuted

theorem Search.At.pass (spot : Search.At ops s ids before (.call i :: rest) owed) (declined : s.choose ops i = none) :
    ∃ s', s.step ops = some (.again s') ∧ Search.At ops s' ids (before ++ [.call i]) rest owed := by
  obtain ⟨n, busy⟩ := spot.pending
  have entry : s.entry = some (.event (.call i)) := by simpa using spot.entry
  refine ⟨{ s with entry := s.links.next (.event (.call i)) }, by simp [Search.step, busy, entry, declined], ?_⟩
  exact
    { chosen := spot.chosen
      holds := spot.holds
      split := by simpa using spot.split
      dead := by
        intro e within
        rcases mem_append.mp within with earlier | last
        · exact spot.dead e earlier
        · exact ⟨i, by simpa using last, spot.refuted declined⟩
      entry := by
        have threads := spot.chosen.threads
        rw [spot.split, map_append, map_cons] at threads
        simpa using threads.next_mid
      cached := spot.cached }

theorem Search.choose_some (chosen : s.choose ops i = some (s', set)) :
    stepAt ops s.state i = some s' ∧ s.linearized.set i = set ∧ cacheHas s.cache set s' = false := by
  obtain ⟨op, found, rest⟩ := Option.bind_eq_some_iff.mp chosen
  obtain ⟨t, legal, rest⟩ := Option.bind_eq_some_iff.mp rest
  simp only at rest
  split_ifs at rest with old
  cases rest
  exact ⟨by simp [stepAt, found, legal], rfl, by simpa using old⟩

theorem Search.At.choose (spot : Search.At ops s ids before (.call i :: rest) owed)
    (chosen : s.choose ops i = some (s', set)) : ∃ next, s.step ops = some (.again next) ∧
    Search.At ops next (i :: ids) [] (remaining ops (i :: ids)) (owed + rest.length * weight ops ids.length) := by
  obtain ⟨n, busy⟩ := spot.pending
  obtain ⟨inside, fresh⟩ := fresh_of_split spot.split
  have entry : s.entry = some (.event (.call i)) := by simpa using spot.entry
  obtain ⟨moved, rfl, -⟩ := Search.choose_some chosen
  have returns := spot.dead.ret_mem spot.split
  obtain ⟨k, lifted, threads, _⟩ := lift_spec (spot.split ▸ spot.chosen.threads)
    (spot.split ▸ nodup_remaining ops ids) returns
  have pushed := Chosen.push spot.chosen spot.split spot.dead moved lifted
  refine ⟨{
    links := k
    linearized := s.linearized.set i
    cache := cacheAdd s.cache (s.linearized.set i) s'
    calls := ⟨.event (.call i), s.state⟩ :: s.calls
    state := s'
    entry := k.next .head }, by simp [Search.step, busy, entry, chosen, lifted], ?_⟩
  exact
    { chosen := pushed
      holds := spot.holds.set inside
      split := by simp
      dead := by simp [Dead]
      entry := by simpa using pushed.threads.next_eq
      cached := by
        intro set st found
        rcases (cacheHas_cacheAdd _ _ _ _ _).mp found with earlier | ⟨rfl, rfl⟩
        · obtain ⟨js, holds, below | refuted⟩ := spot.cached set st earlier
          · exact ⟨js, holds, .inl ⟨below.1.trans (List.suffix_cons i ids), below.2⟩⟩
          · exact ⟨js, holds, .inr refuted⟩
        · -- The frontier just recorded is the top of the stack.
          exact ⟨i :: ids, spot.holds.set inside, .inl ⟨List.suffix_refl _, pushed.state_eq⟩⟩ }

theorem Search.At.fail (spot : Search.At ops s ids before (.ret j :: rest) owed) (none_chosen : s.calls = []) :
    s.step ops = some (.verdict false) ∧ ¬ Places (stepAt ops) (events ops) .absent := by
  obtain ⟨n, busy⟩ := spot.pending
  have entry : s.entry = some (.event (.ret j)) := by simpa using spot.entry
  refine ⟨by simp [Search.step, busy, entry, none_chosen], ?_⟩
  have stuck := spot.dead.not_places spot.split
  have chosen := spot.chosen
  rw [none_chosen] at chosen
  generalize s.state = st at chosen stuck
  generalize s.links = k at chosen
  cases chosen
  simpa using stuck

theorem Search.At.undo {top : Frame} {calls : List Frame} (spot : Search.At ops s ids before (.ret j :: rest) owed)
    (some_chosen : s.calls = top :: calls) : ∃ s' ids' before' rest' owed', s.step ops = some (.again s') ∧
    Search.At ops s' ids' before' rest' owed' ∧ owes ops ids' rest' owed' ≤ owed := by
  obtain ⟨n, busy⟩ := spot.pending
  have entry : s.entry = some (.event (.ret j)) := by simpa using spot.entry
  have stuck := spot.dead.not_places spot.split
  have chosen := spot.chosen
  have cached := spot.cached
  have holds := spot.holds
  rw [some_chosen] at chosen
  generalize links : s.links = k at chosen
  generalize state : s.state = st at chosen stuck
  cases chosen with
  | @push _ ids s₀ _ k₀ _ owed i front back below split dead moved lifted =>
    obtain ⟨inside, fresh⟩ := fresh_of_split split
    obtain ⟨k', lifted', _, undone⟩ := lift_spec (split ▸ below.threads)
      (split ▸ nodup_remaining ops ids) (dead.ret_mem split)
    obtain rfl : k' = k := by simpa [lifted'] using lifted
    subst links
    refine ⟨{
      s with
      links := k₀
      linearized := s.linearized.clear i
      calls := calls
      state := s₀
      entry := k₀.next (.event (.call i)) }, ids, front ++ [.call i], back, owed,
      by simp [Search.step, busy, entry, some_chosen, undone], ?_, le_refl _⟩
    exact
      { chosen := below
        holds := holds.clear fresh
        split := by simpa using split
        dead := by
          intro e within
          rcases mem_append.mp within with earlier | last
          · exact dead e earlier
          · refine ⟨i, by simpa using last, fun s' legal => ?_⟩
            obtain rfl : s' = st := by simpa [moved] using legal.symm
            exact stuck
        entry := by
          have threads := below.threads
          rw [split, map_append, map_cons] at threads
          simpa using threads.next_mid
        cached := by
          intro set st' found
          obtain ⟨js, held, ⟨above, leads⟩ | refuted⟩ := cached set st' found
          · rcases List.suffix_cons_iff.mp above with rfl | above
            · -- The frontier undone is the one just found to be a dead end.
              refine ⟨_, held, .inr ?_⟩
              have same : stateAfter ops (i :: ids) = some st :=
                (Chosen.push below split dead moved lifted).state_eq
              obtain rfl : st' = st := by simpa [leads] using same
              exact stuck
            · exact ⟨js, held, .inl ⟨above, leads⟩⟩
          · exact ⟨js, held, .inr refuted⟩ }

theorem owes_choose (inside : i < ops.length) (fresh : i ∉ ids) (distinct : ids.Nodup)
    (known : ∀ j ∈ ids, j < ops.length) : owes ops (i :: ids) (remaining ops (i :: ids))
    (owed + rest.length * weight ops ids.length) < owes ops ids (.call i :: rest) owed := by
  -- Fewer operations than there are have been chosen, so one level of weight is left.
  have shallow : ids.length < ops.length := by
    have within : i :: ids ⊆ List.range ops.length := by
      intro j member
      rcases mem_cons.mp member with rfl | member
      · exact mem_range.mpr inside
      · exact mem_range.mpr (known j member)
    have small := (subperm_of_subset (nodup_cons.mpr ⟨fresh, distinct⟩) within).length_le
    simp only [length_cons, length_range] at small
    omega
  have level : weight ops ids.length = (2 * ops.length + 1) * weight ops (ids.length + 1) := by
    rw [weight, weight, ← pow_succ']
    congr 1
    omega
  have light : (remaining ops (i :: ids)).length * weight ops (ids.length + 1) <
      weight ops ids.length := by
    rw [level]
    refine Nat.mul_lt_mul_of_pos_right ?_ (Nat.pow_pos (by omega))
    exact Nat.lt_succ_of_le (length_remaining ops (i :: ids))
  simp only [owes, length_cons, Nat.add_mul]
  omega

theorem Search.At.turn (spot : Search.At ops s ids before rest owed) :
    (∃ b, s.step ops = some (.verdict b) ∧ (b = true ↔ Places (stepAt ops) (events ops) .absent)) ∨
    ∃ s' ids' before' rest' owed', s.step ops = some (.again s') ∧ Search.At ops s' ids' before' rest' owed' ∧
    owes ops ids' rest' owed' < owes ops ids rest owed := by
  have heavy : 0 < weight ops ids.length := Nat.pow_pos (by omega)
  cases rest with
  | nil =>
    obtain ⟨done, placed⟩ := spot.finish
    exact .inl ⟨true, done, by simpa using placed⟩
  | cons e rest =>
    cases e with
    | call i =>
      obtain ⟨inside, fresh⟩ := fresh_of_split spot.split
      obtain ⟨distinct, known⟩ := spot.chosen.ids_spec
      cases choice : s.choose ops i with
      -- A call that is passed over shortens what is ahead.
      | none =>
        obtain ⟨s', moved, spot'⟩ := spot.pass choice
        refine .inr ⟨s', _, _, _, _, moved, spot', ?_⟩
        simp only [owes, length_cons, Nat.add_mul]
        omega
      | some pick =>
        obtain ⟨s', moved, spot'⟩ := spot.choose choice
        exact .inr ⟨s', _, _, _, _, moved, spot', owes_choose inside fresh distinct known⟩
    | ret j =>
      cases stack : s.calls with
      | nil =>
        obtain ⟨done, stuck⟩ := spot.fail stack
        exact .inl ⟨false, done, by simpa using stuck⟩
      -- A return in front: the last choice was wrong.
      | cons top calls =>
        obtain ⟨s', ids', before', rest', owed', moved, spot', less⟩ := spot.undo stack
        refine .inr ⟨s', ids', before', rest', owed', moved, spot', lt_of_le_of_lt less ?_⟩
        simp only [owes, length_cons, Nat.add_mul]
        omega

theorem Search.At.run (spot : Search.At ops s ids before rest owed) (enough : owes ops ids rest owed < fuel) :
    ∃ b, s.run ops fuel = some b ∧ (b = true ↔ Places (stepAt ops) (events ops) .absent) := by
  induction fuel generalizing s ids before rest owed with
  | zero => omega
  | succ fuel ih =>
    rcases spot.turn with ⟨b, done, right⟩ | ⟨s', ids', before', rest', owed', moved, spot', less⟩
    · exact ⟨b, by simp [Search.run, done], right⟩
    · obtain ⟨b, runs, right⟩ := ih spot' (by omega)
      exact ⟨b, by simp [Search.run, moved, runs], right⟩

end Turns

section Orders

variable {ops : List Op}

/-- Ids and the operations they stand for, position by position. -/
def Listed (ops : List Op) : List Op → List Nat → Prop :=
  List.Forall₂ fun a i => ops[i]? = some a

theorem listed_range (ops : List Op) : Listed ops ops (List.range ops.length) := by
  refine forall₂_iff_get.mpr ⟨by simp, fun i left right => ?_⟩
  simp

theorem Listed.realTime {order : List Op} {ids : List Nat} (listed : Listed ops order ids) :
    RealTime (opened ops) (closed ops) ids ↔ RealTime Op.call Op.ret order := by
  induction listed with
  | nil => simp [RealTime]
  | @cons a i order ids head tail ih =>
    simp only [RealTime, pairwise_cons] at ih ⊢
    refine and_congr ?_ ih
    have first : opened ops i = a.call := by simp [opened, head]
    rw [first]
    clear ih
    -- The later operations close when their ids do.
    induction tail with
    | nil => simp
    | @cons b j order ids next tail ih =>
      have second : closed ops j = b.ret := by simp [closed, next]
      simp only [forall_mem_cons, second, ih]

theorem Listed.accepts {order : List Op} {ids : List Nat} (listed : Listed ops order ids)
    (s : RegState) : Accepts (stepAt ops) s ids ↔ Accepts stepRegister s order := by
  induction listed generalizing s with
  | nil => simp
  | cons head tail ih => simp [stepAt, head, ih]

theorem places_iff (timed : Timed ops) : Places (stepAt ops) (events ops) .absent ↔ ∃ order :
    List Op, order.Perm ops ∧ RealTime Op.call Op.ret order ∧ Accepts stepRegister .absent order := by
  constructor
  · intro placed
    obtain ⟨ids, distinct, listed, respects, accepted⟩ := placed.order timed.timeline
    have all : ids.Perm (List.range ops.length) :=
      (perm_ext_iff_of_nodup distinct nodup_range).mpr (by simp [listed])
    -- Reading the ids off the history reorders it the same way.
    obtain ⟨order, matched, whole⟩ := perm_comp_forall₂ all (listed_range ops).flip
    have names : Listed ops order ids := matched.flip
    exact ⟨order, whole, names.realTime.mp respects, (names.accepts _).mp accepted⟩
  · rintro ⟨order, whole, respects, accepted⟩
    obtain ⟨ids, names, all⟩ := perm_comp_forall₂ whole (listed_range ops)
    refine Places.of_order timed.timeline (all.nodup_iff.mpr nodup_range) (fun i => ?_)
      ((Listed.realTime names).mpr respects) ((Listed.accepts names _).mpr accepted)
    simp [all.mem_iff]

/-- More turns than any search over a number of operations takes. -/
def bound (n : Nat) : Nat := 2 * n * (2 * n + 1) ^ n

theorem linearizableRegister_places (ops : List Op) (enough : bound ops.length < fuel) :
    ∃ b, linearizableRegister fuel ops = some b ∧ (b = true ↔ Places (stepAt ops) (events ops) .absent) := by
  by_cases empty : ops.length = 0
  · -- The empty history is accepted without a search.
    obtain rfl := length_eq_zero_iff.mp empty
    exact ⟨true, by simp [linearizableRegister], by simpa [events] using Places.done _⟩
  · have owing : owes ops [] (events ops) 0 ≤ bound ops.length := by
      have few := length_remaining ops []
      rw [remaining_nil] at few
      simp only [owes, bound, weight, length_nil, zero_add, Nat.sub_zero]
      exact Nat.mul_le_mul_right _ few
    obtain ⟨b, runs, right⟩ := (Search.At.start ops).run (lt_of_le_of_lt owing enough)
    exact ⟨b, by simp [linearizableRegister, empty, runs], right⟩

/-- With enough turns the search returns whether there is an order. -/
theorem linearizableRegister_spec (timed : Timed ops) (enough : bound ops.length < fuel) :
    ∃ b, linearizableRegister fuel ops = some b ∧
      (b = true ↔ ∃ order : List Op, order.Perm ops ∧ RealTime Op.call Op.ret order ∧
        Accepts stepRegister .absent order) := by
  rw [← places_iff timed]
  exact linearizableRegister_places ops enough

end Orders

section History

variable {history : List Op}

theorem byKey_eq (history : List Op) (k : List UInt8) : byKey history k = history.filter fun op => op.key = k := by
  -- The loop appends each operation behind those of its key that came before.
  have general : ∀ (history : List Op) (parts : List UInt8 → List Op),
      history.foldl (fun parts op => update parts op.key (parts op.key ++ [op])) parts k =
        parts k ++ history.filter fun op => op.key = k := by
    intro history
    induction history with
    | nil => simp
    | cons op history ih =>
      intro parts
      rw [foldl_cons, ih]
      by_cases same : op.key = k
      · subst same
        simp
      · simp [same, update_of_ne (Ne.symm same)]
  simpa [byKey] using general history fun _ => []

theorem mem_keys {k : List UInt8} : k ∈ keys history ↔ ∃ op ∈ history, op.key = k := by
  simp [keys]

theorem Timed.filter (timed : Timed history) (k : List UInt8) : Timed (history.filter fun op => op.key = k) where
  window a within := timed.window a (mem_filter.mp within).1
  apart a within b within' :=
    timed.apart a (mem_filter.mp within).1 b (mem_filter.mp within').1

theorem bound_mono {m n : Nat} (le : m ≤ n) : bound m ≤ bound n := by
  refine Nat.mul_le_mul (Nat.mul_le_mul_left 2 le) ?_
  calc (2 * m + 1) ^ m ≤ (2 * n + 1) ^ m := Nat.pow_le_pow_left (by omega) m
    _ ≤ (2 * n + 1) ^ n := Nat.pow_le_pow_right (by omega) le

/-- The verdict is positive exactly when every key's search accepts. -/
theorem checkKeys_spec {parts : List UInt8 → List Op} {P : List UInt8 → Prop}
    (each : ∀ k, ∃ b, linearizableRegister fuel (parts k) = some b ∧ (b = true ↔ P k)) (ks : List (List UInt8)) :
    ∃ r, checkKeys fuel parts ks = some r ∧ (r.linearizable = true ↔ ∀ k ∈ ks, P k) := by
  induction ks with
  | nil => exact ⟨_, rfl, by simp⟩
  | cons k ks ih =>
    obtain ⟨b, runs, right⟩ := each k
    cases b with
    | true =>
      obtain ⟨r, rest, verdict⟩ := ih
      refine ⟨r, by simp [checkKeys, runs, rest], ?_⟩
      simpa [right.mp rfl] using verdict
    | false =>
      -- The first key without an order decides.
      refine ⟨⟨false, k, sortedByCall (parts k)⟩, by simp [checkKeys, runs], ?_⟩
      have fails : ¬ P k := fun holds => by simpa using right.mpr holds
      simp [fails]

/-- What an operation leaves at a key that held something. -/
def leaves (k : List UInt8) (held : Option (List UInt8)) (op : Op) : Option (List UInt8) :=
  if op.key = k then
    match op.kind with
    | .put => some op.value
    | .delete => none
    | .get => held
  else held

/-- What a read observed: a value, or the absence of one. -/
def Op.observed (op : Op) : Option (List UInt8) := if op.found then some op.value else none

/-- Every read observes what the operations before it leave at its key. -/
def ReadsLast (order : List Op) : Prop :=
  ∀ before op after, order = before ++ op :: after → op.kind = .get →
    op.observed = before.foldl (leaves op.key) none

/-- Some total order respects real time, and reads observe the last write. -/
def Linearizable (history : List Op) : Prop :=
  ∃ order : List Op, order.Perm history ∧ RealTime Op.call Op.ret order ∧ ReadsLast order

/-- What the register shows: its value if the key is present. -/
def RegState.held (s : RegState) : Option (List UInt8) := if s.present then some s.value else none

theorem stepRegister_exists {s : RegState} {op : Op}
    (sees : op.kind = .get → op.observed = s.held) : ∃ s', stepRegister s op = some s' := by
  obtain ⟨value, present⟩ := s
  cases kind : op.kind with
  | put => simp [stepRegister, kind]
  | delete => simp [stepRegister, kind]
  | get =>
    have same := sees kind
    -- The four cases of what was observed and what is there.
    cases found : op.found <;> cases present <;> simp_all [stepRegister, RegState.held, Op.observed]

theorem stepRegister_held {s s' : RegState} {op : Op} (moved : stepRegister s op = some s') :
    (op.kind = .get → op.observed = s.held) ∧ s'.held = leaves op.key s.held op := by
  obtain ⟨value, present⟩ := s
  cases kind : op.kind with
  | put =>
    simp only [stepRegister, kind, Option.some.injEq] at moved
    subst moved
    simp [leaves, kind, RegState.held]
  | delete =>
    simp only [stepRegister, kind, Option.some.injEq] at moved
    subst moved
    simp [leaves, kind, RegState.held, RegState.absent]
  | get =>
    simp only [stepRegister, kind] at moved
    split_ifs at moved with missing other
    cases moved
    cases found : op.found <;> cases present <;> simp_all [leaves, RegState.held, Op.observed]

theorem reads_iff_accepts (order : List Op) (regs : List UInt8 → RegState) :
    (∀ before op after, order = before ++ op :: after → op.kind = .get →
        op.observed = before.foldl (leaves op.key) (regs op.key).held) ↔
      ∀ k, Accepts stepRegister (regs k) (order.filter fun op => op.key = k) := by
  induction order generalizing regs with
  | nil => simp
  | cons a order ih =>
    -- Only the register of the first operation's key moves, and all show what it leaves.
    have shows : ∀ {s'}, stepRegister (regs a.key) a = some s' →
        ∀ k, (update regs a.key s' k).held = leaves k (regs k).held a := by
      intro s' moved k
      by_cases same : a.key = k
      · subst same
        simpa using (stepRegister_held moved).2
      · simp [leaves, same, update_of_ne (Ne.symm same)]
    constructor
    · intro reads k
      obtain ⟨s', moved⟩ := stepRegister_exists (reads [] a order rfl)
      have rest := (ih (update regs a.key s')).mp fun before op after split get => by
        rw [shows moved]
        exact reads (a :: before) op after (by rw [split]; rfl) get
      by_cases same : a.key = k
      · subst same
        simpa [moved] using rest a.key
      · simpa [same, update_of_ne (Ne.symm same)] using rest k
    · intro accepted before op after split get
      have first := accepted a.key
      simp only [decide_true, filter_cons_of_pos, accepts_cons] at first
      obtain ⟨s', moved, tail⟩ := first
      have rest := (ih (update regs a.key s')).mpr fun k => by
        by_cases same : a.key = k
        · subst same
          simpa using tail
        · simpa [same, update_of_ne (Ne.symm same)] using accepted k
      cases before with
      | nil =>
        -- The first operation reads the register as it stands.
        obtain ⟨rfl, -⟩ := List.cons.inj split
        exact (stepRegister_held moved).1 get
      | cons b before =>
        obtain ⟨rfl, behind⟩ := List.cons.inj split
        have later := rest before op after behind get
        rwa [shows moved] at later

/--
The checker is sound and complete.

Its verdict is whether the history has a total order that respects real time and in which reads observe the last write.
-/
theorem check_iff_linearizable (history : List Op)
    (window : ∀ a ∈ history, a.call < a.ret)
    (apart : ∀ a ∈ history, ∀ b ∈ history, a.ret ≠ b.call) :
    ∃ enough, ∀ fuel ≥ enough, ∃ r, check fuel history = some r ∧
      (r.linearizable = true ↔ Linearizable history) := by
  refine ⟨bound history.length + 1, fun fuel ample => ?_⟩
  have timed : Timed history := ⟨window, apart⟩
  -- One key at a time, the search decides whether the key's own operations have an order.
  have each : ∀ k, ∃ b, linearizableRegister fuel (byKey history k) = some b ∧
      (b = true ↔ ∃ order : List Op, order.Perm (history.filter fun op => op.key = k) ∧
        RealTime Op.call Op.ret order ∧ Accepts stepRegister .absent order) := by
    intro k
    rw [byKey_eq]
    refine linearizableRegister_spec (timed.filter k) ?_
    have fewer := bound_mono (length_filter_le (fun op : Op => decide (op.key = k)) history)
    omega
  obtain ⟨r, checked, verdict⟩ := checkKeys_spec each (keys history)
  refine ⟨r, checked, verdict.trans ?_⟩
  -- A key without operations has the empty order, so checking the keys that occur is enough.
  have occurring : (∀ k ∈ keys history, ∃ order : List Op,
        order.Perm (history.filter fun op => op.key = k) ∧
        RealTime Op.call Op.ret order ∧ Accepts stepRegister .absent order) ↔
      ∀ k, ∃ order : List Op, order.Perm (history.filter fun op => op.key = k) ∧
        RealTime Op.call Op.ret order ∧ Accepts stepRegister .absent order := by
    refine ⟨fun some_key k => ?_, fun every k _ => every k⟩
    by_cases occurs : k ∈ keys history
    · exact some_key k occurs
    · have nothing : (history.filter fun op => op.key = k) = [] := by
        refine filter_eq_nil_iff.mpr fun op within => ?_
        simpa using fun same => occurs (mem_keys.mpr ⟨op, within, same⟩)
      exact ⟨[], by rw [nothing], .nil, by simp⟩
  -- The orders of the keys merge into an order of the whole history.
  rw [occurring, ← locality Op.key Op.call Op.ret stepRegister .absent history
    fun a within => (window a within).le]
  refine exists_congr fun order => and_congr_right fun _ => and_congr_right fun _ => ?_
  exact (reads_iff_accepts order fun _ => .absent).symm

/-- Overlapping writes of a key, reads that pin them, and another read. -/
theorem check_iff_linearizable_overlap :
    let history : List Op :=
      [⟨0, .put, [1], [7], false, 0, infinity⟩, ⟨1, .put, [1], [8], false, 1, 8⟩,
        ⟨2, .get, [1], [7], true, 2, 3⟩, ⟨3, .get, [1], [8], true, 6, 7⟩,
        ⟨2, .get, [2], [], false, 4, 5⟩]
    (check 200 history).map (·.linearizable) = some true ∧
      ∃ enough, ∀ fuel ≥ enough, ∃ r, check fuel history = some r ∧
        (r.linearizable = true ↔ Linearizable history) :=
  ⟨by rfl, check_iff_linearizable _ (by decide) (by decide)⟩

end History

end Lincheck
