import LittleDb.Lib.Trail
import LittleDb.Store.MvccKey
import Mathlib.Logic.Function.Basic

/-! The skip list under the write buffer: whatever heights are drawn, it is a sorted map. -/

namespace Store

open Function List Option SortedMap

variable {h : Nat}

/-- Where a node lies; the sentinel is the first of all nodes. -/
abbrev Addr := Nat

structure SkipNode where
  key : Key
  value : Value
  /-- How many levels the node is on: the length of its array of links. -/
  height : Nat

structure Skiplist where
  nodes : Addr → SkipNode
  next : Nat → Addr → Option Addr
  fresh : Addr
  height : Nat
  length : Nat

namespace Skiplist

def maxHeight : Nat := 32

def head : Addr := 0

def new : Skiplist := ⟨fun _ => ⟨[], [], maxHeight⟩, fun _ _ => none, 1, 1, 0⟩

def len (s : Skiplist) : Nat := s.length

/-- Reads a link; nothing where the array of the node ends before the level. -/
def load (s : Skiplist) (a : Addr) (i : Nat) : Option (Option Addr) :=
  if i < (s.nodes a).height then some (s.next i a) else none

/-- Writes a link; nothing where the array of the node ends before the level. -/
def store (s : Skiplist) (a : Addr) (i : Nat) (target : Option Addr) : Option Skiplist :=
  if i < (s.nodes a).height then
    some { s with next := update s.next i (update (s.next i) a target) }
  else none

/-- Goes forward at a level while the next key is smaller, within a bound. -/
def advance (s : Skiplist) (key : Key) (i : Nat) : Nat → Addr → Option Addr
  | 0, _ => none
  | fuel + 1, cur => do
    match ← s.load cur i with
    | none => some cur
    | some n => if (s.nodes n).key < key then s.advance key i fuel n else some cur

/-- The last node before a key at each of the lowest levels, from one above. -/
def predecessors (s : Skiplist) (key : Key) : Nat → Addr → Option (List Addr)
  | 0, _ => some []
  | i + 1, cur => do
    let cur ← s.advance key i s.fresh cur
    let below ← s.predecessors key i cur
    some (below ++ [cur])

/-- The last node before a key at each level in use. -/
def findPredecessors (s : Skiplist) (key : Key) : Option (List Addr) := s.predecessors key s.height head

/-- The height that coin flips give: one more for each success in a row. -/
def randomHeight (flips : List Bool) : Nat := min maxHeight (1 + (flips.takeWhile id).length)

/-- Puts a node between its predecessor at a level and what follows it. -/
def link (prev : List Addr) (n : Addr) (s : Skiplist) (i : Nat) : Option Skiplist := do
  let p ← prev[i]?
  let s ← s.store n i (← s.load p i)
  s.store p i (some n)

/-- Takes a node out behind its predecessor at a level. -/
def unlink (prev : List Addr) (target : Addr) (s : Skiplist) (i : Nat) : Option Skiplist := do
  let p ← prev[i]?
  s.store p i (← s.load target i)

/-- A new node, not linked yet; the levels in use grow to its height. -/
def alloc (s : Skiplist) (key : Key) (value : Value) (h : Nat) : Skiplist :=
  { s with
    nodes := update s.nodes s.fresh ⟨key, value, h⟩
    next := fun i => update (s.next i) s.fresh none
    fresh := s.fresh + 1
    height := if s.height < h then h else s.height }

def insert (s : Skiplist) (prev : List Addr) (key : Key) (value : Value) (h : Nat) : Option Skiplist := do
  -- Levels that were not in use begin at the sentinel.
  let prev := if s.height < h then prev ++ List.replicate (h - s.height) head else prev
  let s ← (List.range h).foldlM (link prev s.fresh) (s.alloc key value h)
  some { s with length := s.length + 1 }

def put (s : Skiplist) (key : Key) (value : Value) (flips : List Bool) : Option Skiplist := do
  let prev ← s.findPredecessors key
  match ← s.load (← prev[0]?) 0 with
  | some cand =>
    if (s.nodes cand).key = key then
      some { s with nodes := update s.nodes cand { s.nodes cand with value := value } }
    else s.insert prev key value (randomHeight flips)
  | none => s.insert prev key value (randomHeight flips)

/-- The number of levels in use once empty ones at the top are dropped. -/
def lowered (s : Skiplist) : Nat → Option Nat
  | 0 => some 0
  | h + 1 =>
    if 0 < h then do
      match ← s.load head h with
      | none => s.lowered h
      | some _ => some (h + 1)
    else some (h + 1)

/-- Removes an entry, and says whether there was one. -/
def delete (s : Skiplist) (key : Key) : Option (Skiplist × Bool) := do
  let prev ← s.findPredecessors key
  match ← s.load (← prev[0]?) 0 with
  | none => some (s, false)
  | some target =>
    if (s.nodes target).key = key then do
      let s ← (List.range (s.nodes target).height).foldlM (unlink prev target) s
      let height ← s.lowered s.height
      some ({ s with height := height, length := s.length - 1 }, true)
    else some (s, false)

/-- The last node before a key on the lowest level. -/
def descend (s : Skiplist) (key : Key) : Nat → Addr → Option Addr
  | 0, cur => some cur
  | i + 1, cur => do s.descend key i (← s.advance key i s.fresh cur)

def seekGE (s : Skiplist) (target : Key) : Option (Option Addr) := do
  s.load (← s.descend target s.height head) 0

def nodeNext (s : Skiplist) : Option Addr → Option (Option Addr)
  | none => some none
  | some a => s.load a 0

/-- The node that is reached by going forward some number of times. -/
def forward (s : Skiplist) : Nat → Option Addr → Option (Option Addr)
  | 0, a => some a
  | n + 1, a => do s.forward n (← s.nodeNext a)

def get (s : Skiplist) (key : Key) : Option (Option Value) := do
  match ← s.load (← s.descend key s.height head) 0 with
  | some cand => if (s.nodes cand).key = key then some (some (s.nodes cand).value) else some none
  | none => some none

def entry (s : Skiplist) (a : Addr) : Key × Value := ((s.nodes a).key, (s.nodes a).value)

/-- What a callback is given from a node on until it returns false. -/
def iterateFrom (s : Skiplist) (fn : Key → Value → Bool) : Nat → Option Addr → Option (List (Key × Value))
  | 0, _ => none
  | _ + 1, none => some []
  | fuel + 1, some cur =>
    if fn (s.nodes cur).key (s.nodes cur).value then do
      let rest ← s.iterateFrom fn fuel (← s.load cur 0)
      some (s.entry cur :: rest)
    else some [s.entry cur]

/-- What a callback is given, in the order of the keys. -/
def iterate (s : Skiplist) (fn : Key → Value → Bool) : Option (List (Key × Value)) := do
  s.iterateFrom fn s.fresh (← s.load head 0)

/-- The nodes of a level, in the order of its links. -/
def level (s : Skiplist) (i : Nat) : List Addr := Trail.walk (s.next i) s.fresh head

/-! ### What holds between operations -/

def lane (s : Skiplist) (i : Nat) (nodes : List Addr) : List Addr := nodes.filter fun a => i < (s.nodes a).height

/-- The live nodes in key order, each level those that reach it. -/
structure Holds (s : Skiplist) (order : List Addr) : Prop where
  top : (s.nodes head).height = maxHeight
  low : 1 ≤ s.height
  high : s.height ≤ maxHeight
  tall : ∀ a ∈ order, 1 ≤ (s.nodes a).height ∧ (s.nodes a).height ≤ s.height
  known : ∀ a ∈ order, a ≠ head ∧ a < s.fresh
  ascending : order.Pairwise fun a b => (s.nodes a).key < (s.nodes b).key
  lanes : ∀ i < maxHeight, Trail (s.next i) head (s.lane i order)
  count : s.length = order.length
  enough : order.length < s.fresh

/-- The last node of a level among those before a key. -/
def pred (s : Skiplist) (before : List Addr) (i : Nat) : Addr := (s.lane i before).getLast?.getD head

variable {s : Skiplist} {k : Key} {before after order : List Addr} {i : Nat}

theorem lane_append (s : Skiplist) (i : Nat) (before after : List Addr) :
    s.lane i (before ++ after) = s.lane i before ++ s.lane i after :=
  filter_append ..

theorem lane_cons (s : Skiplist) (i : Nat) (a : Addr) (after : List Addr) :
    s.lane i (a :: after) = if i < (s.nodes a).height then a :: s.lane i after else s.lane i after := by
  simp [lane, filter_cons]

theorem mem_lane {a : Addr} : a ∈ s.lane i order ↔ a ∈ order ∧ i < (s.nodes a).height := by
  simp [lane]

theorem lane_congr {s' : Skiplist} (same : ∀ a ∈ order, (s'.nodes a).height = (s.nodes a).height) :
    s'.lane i order = s.lane i order :=
  filter_congr fun a listed => by rw [same a listed]

theorem lane_sublist (s : Skiplist) (i : Nat) (order : List Addr) : (s.lane (i + 1) order).Sublist (s.lane i order) := by
  refine monotone_filter_right order fun a reached => ?_
  simp only [decide_eq_true_eq] at reached ⊢
  omega

theorem pred_mem (s : Skiplist) (before : List Addr) (i : Nat) : s.pred before i ∈ head :: s.lane i before :=
  Trail.last_mem head _

theorem advance_eq {cur : Addr} {rest : List Addr} {fuel : Nat} (trail : Trail (s.next i) cur (before ++ rest))
    (reach : ∀ a ∈ cur :: before, i < (s.nodes a).height) (smaller : ∀ a ∈ before, (s.nodes a).key < k)
    (larger : ∀ a ∈ rest, ¬ (s.nodes a).key < k) (enough : before.length < fuel) :
    s.advance k i fuel cur = some (before.getLast?.getD cur) := by
  obtain ⟨fuel, rfl⟩ := Nat.exists_eq_succ_of_ne_zero (Nat.ne_of_gt (Nat.lt_of_le_of_lt (Nat.zero_le _) enough))
  induction before generalizing cur fuel with
  | nil =>
    have next := trail.next_eq
    rw [nil_append] at next
    rw [advance, load, if_pos (reach cur (by simp)), next]
    cases rest with
    | nil => rfl
    | cons x rest => simp [larger x (by simp)]
  | cons x before ih =>
    obtain ⟨forward, tail⟩ := trail
    rw [advance, load, if_pos (reach cur (by simp)), forward, getLast?_cons]
    simp only [bind_eq_bind, bind_some, smaller x (by simp), if_true, getD_some]
    obtain ⟨fuel, rfl⟩ : ∃ n, fuel = n + 1 := ⟨fuel - 1, by simp at enough; omega⟩
    exact ih tail (fun a listed => reach a (mem_cons_of_mem _ listed))
      (fun a listed => smaller a (mem_cons_of_mem _ listed)) fuel (by simpa using enough)

namespace Holds

theorem empty : new.Holds [] :=
  ⟨rfl, by decide, by decide, by simp, by simp, .nil, fun i _ => rfl, rfl, by decide⟩

theorem head_known (holds : s.Holds order) : head < s.fresh := Nat.lt_of_le_of_lt (Nat.zero_le _) holds.enough

theorem nodup_lane (holds : s.Holds order) (i : Nat) : (head :: s.lane i order).Nodup := by
  refine nodup_cons.mpr ⟨fun listed => (holds.known _ (mem_lane.mp listed).1).1 rfl, ?_⟩
  refine (holds.ascending.filter _).imp fun less same => ?_
  rw [same] at less
  exact lt_irrefl _ less

theorem reach (holds : s.Holds order) (inside : i < maxHeight) : ∀ a ∈ head :: s.lane i order, i < (s.nodes a).height := by
  intro a listed
  rcases mem_cons.mp listed with rfl | within
  · rwa [holds.top]
  · exact (mem_lane.mp within).2

theorem pred_reach (holds : s.Holds (before ++ after)) (inside : i < maxHeight) :
    i < (s.nodes (s.pred before i)).height := by
  refine holds.reach inside _ ?_
  rw [lane_append]
  exact cons_subset_cons head (subset_append_left ..) (s.pred_mem before i)

theorem pred_top (holds : s.Holds (before ++ after)) (outside : s.height ≤ i) : s.pred before i = head := by
  have none : s.lane i before = [] := by
    refine filter_eq_nil_iff.mpr fun a listed => ?_
    have reached := (holds.tall a (mem_append_left _ listed)).2
    simp only [decide_eq_true_eq]
    omega
  rw [pred, none]
  rfl

end Holds

/-- The nodes parted at a key: those with smaller keys and the others. -/
structure Parts (s : Skiplist) (before after : List Addr) (k : Key) : Prop extends s.Holds (before ++ after) where
  smaller : ∀ a ∈ before, (s.nodes a).key < k
  larger : ∀ a ∈ after, ¬ (s.nodes a).key < k

theorem Holds.parts (holds : s.Holds order) (k : Key) :
    ∃ before after, order = before ++ after ∧ s.Parts before after k := by
  have split : ∀ order : List Addr, order.Pairwise (fun a b => (s.nodes a).key < (s.nodes b).key) →
      ∃ before after, order = before ++ after ∧ (∀ a ∈ before, (s.nodes a).key < k) ∧
        ∀ a ∈ after, ¬ (s.nodes a).key < k := by
    intro order sorted
    induction order with
    | nil => exact ⟨[], [], rfl, by simp, by simp⟩
    | cons a order ih =>
      obtain ⟨first, rest⟩ := pairwise_cons.mp sorted
      by_cases less : (s.nodes a).key < k
      · obtain ⟨before, after, rfl, smaller, larger⟩ := ih rest
        exact ⟨a :: before, after, rfl, forall_mem_cons.mpr ⟨less, smaller⟩, larger⟩
      · -- The first one that is not smaller is smaller than all behind it.
        refine ⟨[], a :: order, rfl, by simp, forall_mem_cons.mpr ⟨less, fun b later below => ?_⟩⟩
        exact less ((first b later).trans below)
  obtain ⟨before, after, rfl, smaller, larger⟩ := split order holds.ascending
  exact ⟨before, after, rfl, holds, smaller, larger⟩

namespace Parts

section

variable (parts : s.Parts before after k)

include parts

theorem advance (inside : i < maxHeight) : s.advance k i s.fresh (s.pred before (i + 1)) = some (s.pred before i) := by
  have trail := parts.lanes i inside
  have reach := parts.reach inside
  have few : (s.lane i before).length < s.fresh := by
    refine lt_of_le_of_lt ((length_filter_le _ _).trans ?_) parts.enough
    rw [length_append]
    exact Nat.le_add_right _ _
  have smaller : ∀ a ∈ s.lane i before, (s.nodes a).key < k := fun a listed => parts.smaller a (mem_lane.mp listed).1
  have larger : ∀ a ∈ s.lane i after, ¬ (s.nodes a).key < k := fun a listed => parts.larger a (mem_lane.mp listed).1
  rw [lane_append] at trail reach
  unfold pred
  cases last : (s.lane (i + 1) before).getLast? with
  | none =>
    refine advance_eq trail (fun a listed => reach a ?_) smaller larger few
    exact cons_subset_cons head (subset_append_left ..) listed
  | some cur =>
    -- The node reached above is on this level too, with the rest of the level behind it.
    obtain ⟨front, back, shape⟩ := append_of_mem ((lane_sublist s i before).subset (mem_of_getLast? last))
    rw [shape] at trail reach smaller few
    rw [shape, getLast?_append, getLast?_cons]
    have behind : Trail (s.next i) ((front ++ [cur]).getLast?.getD head) (back ++ s.lane i after) :=
      Trail.behind (by simpa using trail)
    refine advance_eq (by simpa using behind) (fun a listed => reach a ?_)
      (fun a listed => smaller a (by simp [listed])) larger ?_
    · rcases mem_cons.mp listed with rfl | within
      · simp
      · simp [within]
    · simp only [length_append, length_cons] at few
      omega

theorem findPredecessors : s.findPredecessors k = some ((List.range s.height).map (s.pred before)) := by
  have each : ∀ n ≤ s.height, s.predecessors k n (s.pred before n) = some ((List.range n).map (s.pred before)) := by
    intro n
    induction n with
    | zero => exact fun _ => rfl
    | succ n ih =>
      intro inside
      have down := parts.advance (lt_of_lt_of_le inside parts.high)
      simp [predecessors, down, ih (by omega), range_succ]
  rw [Skiplist.findPredecessors, ← parts.pred_top (le_refl _)]
  exact each s.height (le_refl _)

theorem descend : s.descend k s.height head = some (s.pred before 0) := by
  have each : ∀ n ≤ s.height, s.descend k n (s.pred before n) = some (s.pred before 0) := by
    intro n
    induction n with
    | zero => exact fun _ => rfl
    | succ n ih =>
      intro inside
      have down := parts.advance (lt_of_lt_of_le inside parts.high)
      simp [Skiplist.descend, down, ih (by omega)]
  rw [← parts.pred_top (le_refl s.height)]
  exact each s.height (le_refl _)

theorem seek : SortedMap.seek k ((before ++ after).map s.entry) = after.map s.entry := by
  rw [map_append, seek_append_of_lt (forall_mem_map.mpr parts.smaller)]
  refine seek_of_head fun e first => ?_
  obtain ⟨a, listed, rfl⟩ := mem_map.mp (mem_of_mem_head? first)
  exact parts.larger a listed

end

theorem above {a : Addr} (parts : s.Parts before (a :: after) k) (other : (s.nodes a).key ≠ k) :
    ∀ b ∈ a :: after, k < (s.nodes b).key := by
  have less : k < (s.nodes a).key := lt_of_le_of_ne (not_lt.mp (parts.larger a mem_cons_self)) other.symm
  obtain ⟨first, -⟩ := pairwise_cons.mp (pairwise_append.mp parts.ascending).2.1
  exact forall_mem_cons.mpr ⟨less, fun b later => less.trans (first b later)⟩

end Parts

namespace Holds

theorem lane_zero (holds : s.Holds order) {nodes : List Addr} (listed : nodes ⊆ order) : s.lane 0 nodes = nodes :=
  filter_eq_self.mpr fun a member => decide_eq_true (holds.tall a (listed member)).1

theorem bottom (holds : s.Holds order) : Trail (s.next 0) head order :=
  holds.lane_zero (List.Subset.refl _) ▸ holds.lanes 0 (by decide)

theorem load_pred (holds : s.Holds (before ++ after)) : s.load (s.pred before 0) 0 = some after.head? := by
  rw [load, if_pos (holds.pred_reach (by decide)), pred, holds.lane_zero (subset_append_left ..),
    holds.bottom.behind.next_eq]

end Holds

/-! ### Insertion and removal -/

def rewired (s : Skiplist) (f : Nat → Addr → Option Addr) (h : Nat) : Skiplist :=
  { s with next := fun j => if j < h then f j else s.next j }

theorem rewired_succ (s : Skiplist) (f : Nat → Addr → Option Addr) (i : Nat) :
    { s.rewired f i with next := update (s.rewired f i).next i (f i) } = s.rewired f (i + 1) := by
  refine congrArg (fun next => { s with next := next }) (funext fun j => ?_)
  by_cases here : j = i
  · simp [here]
  · have lower : j < i + 1 ↔ j < i := by omega
    simp [here, rewired, lower]

theorem foldlM_rewired {body : Skiplist → Nat → Option Skiplist} {f : Nat → Addr → Option Addr}
    (each : ∀ i < h, body (s.rewired f i) i = some (s.rewired f (i + 1))) :
    (List.range h).foldlM body s = some (s.rewired f h) := by
  induction h with
  | zero => simp [rewired]
  | succ h ih =>
    rw [range_succ, foldlM_append, ih fun i inside => each i (by omega)]
    simp [each h (Nat.lt_succ_self h)]

/-- The links with a node put in behind its predecessors. -/
def spliced (s : Skiplist) (before : List Addr) (n : Addr) (j : Nat) : Addr → Option Addr :=
  update (update (s.next j) n (s.next j (s.pred before j))) (s.pred before j) (some n)

/-- The links with a node taken out behind its predecessors. -/
def skipped (s : Skiplist) (before : List Addr) (t : Addr) (j : Nat) : Addr → Option Addr :=
  update (s.next j) (s.pred before j) (s.next j t)

namespace Holds

theorem splice (holds : s.Holds (before ++ after)) {n : Addr} (known : n ≠ head ∧ n < s.fresh)
    (absent : n ∉ before ++ after) (tall : 1 ≤ (s.nodes n).height ∧ (s.nodes n).height ≤ s.height)
    (smaller : ∀ a ∈ before, (s.nodes a).key < (s.nodes n).key)
    (larger : ∀ a ∈ after, (s.nodes n).key < (s.nodes a).key) (room : (before ++ after).length + 1 < s.fresh) :
    Holds { s.rewired (s.spliced before n) (s.nodes n).height with length := s.length + 1 } (before ++ n :: after) := by
  have either : ∀ {a}, a ∈ before ++ n :: after → a = n ∨ a ∈ before ++ after := fun listed => by
    simp only [mem_append, mem_cons] at listed ⊢
    tauto
  obtain ⟨front, back, across⟩ := pairwise_append.mp holds.ascending
  refine ⟨holds.top, holds.low, holds.high, fun a listed => ?_, fun a listed => ?_, ?_, fun j inside => ?_, ?_, ?_⟩
  · rcases either listed with rfl | old
    · exact tall
    · exact holds.tall a old
  · rcases either listed with rfl | old
    · exact known
    · exact holds.known a old
  · refine pairwise_append.mpr ⟨front, pairwise_cons.mpr ⟨larger, back⟩, fun a first => ?_⟩
    exact forall_mem_cons.mpr ⟨smaller a first, across a first⟩
  · have trail := holds.lanes j inside
    have distinct := holds.nodup_lane j
    have missing : n ∉ head :: s.lane j (before ++ after) := by
      rintro (_ | ⟨_, listed⟩)
      · exact known.1 rfl
      · exact absent (mem_lane.mp listed).1
    rw [lane_append] at trail distinct missing
    change Trail (if j < _ then s.spliced before n j else s.next j) head (s.lane j (before ++ n :: after))
    rw [lane_append, lane_cons]
    -- Only the levels that the node reaches are relinked.
    split_ifs
    · have apart : n ≠ s.pred before j := fun same => missing <| by
        rw [same]
        exact cons_subset_cons head (subset_append_left ..) (s.pred_mem before j)
      refine trail.insert distinct missing (update_self ..) ?_ fun a foreign other => ?_
      · exact (update_of_ne apart ..).trans (update_self ..)
      · exact (update_of_ne other ..).trans (update_of_ne foreign ..)
    · exact trail
  · change s.length + 1 = _
    rw [holds.count, length_append, length_append]
    rfl
  · rw [length_append, length_cons]
    rwa [length_append, add_assoc] at room

theorem skip {t : Addr} (holds : s.Holds (before ++ t :: after)) :
    Holds { s.rewired (s.skipped before t) (s.nodes t).height with length := s.length - 1 } (before ++ after) := by
  have fewer : (before ++ after).Sublist (before ++ t :: after) := (sublist_cons_self ..).append_left before
  refine ⟨holds.top, holds.low, holds.high, fun a listed => holds.tall a (fewer.subset listed),
    fun a listed => holds.known a (fewer.subset listed), holds.ascending.sublist fewer, fun j inside => ?_, ?_,
    lt_of_le_of_lt fewer.length_le holds.enough⟩
  · have trail := holds.lanes j inside
    have distinct := holds.nodup_lane j
    rw [lane_append, lane_cons] at trail distinct
    change Trail (if j < _ then s.skipped before t j else s.next j) head (s.lane j (before ++ after))
    rw [lane_append]
    split_ifs at trail distinct ⊢
    · exact trail.remove distinct (update_self ..) fun a other => update_of_ne other ..
    · exact trail
  · change s.length - 1 = _
    rw [holds.count, length_append, length_append]
    rfl

section

variable (holds : s.Holds order)
include holds

theorem congr {s' : Skiplist} (nodes : ∀ a ∈ head :: order,
      (s'.nodes a).key = (s.nodes a).key ∧ (s'.nodes a).height = (s.nodes a).height)
    (next : ∀ i, ∀ a ∈ head :: order, s'.next i a = s.next i a) (fresh : s.fresh ≤ s'.fresh)
    (height : s.height ≤ s'.height ∧ s'.height ≤ maxHeight) (length : s'.length = s.length) : s'.Holds order := by
  have listed : ∀ a ∈ order, a ∈ head :: order := fun a => mem_cons_of_mem head
  refine ⟨(nodes head mem_cons_self).2.trans holds.top, holds.low.trans height.1, height.2, fun a within => ?_,
    fun a within => (holds.known a within).imp_right fun known => lt_of_lt_of_le known fresh,
    holds.ascending.imp_of_mem fun {a b} first second less => ?_, fun j inside => ?_, length.trans holds.count,
    lt_of_lt_of_le holds.enough fresh⟩
  · rw [(nodes a (listed a within)).2]
    exact (holds.tall a within).imp_right fun low => low.trans height.1
  · rwa [(nodes a (listed a first)).1, (nodes b (listed b second)).1]
  · rw [lane_congr fun a within => (nodes a (listed a within)).2]
    refine (holds.lanes j inside).congr fun a within => next j a ?_
    exact cons_subset_cons head (filter_subset_self _) within

theorem ne_fresh : ∀ a ∈ head :: order, a ≠ s.fresh :=
  forall_mem_cons.mpr ⟨holds.head_known.ne, fun a listed => (holds.known a listed).2.ne⟩

theorem alloc (key : Key) (value : Value) (high : h ≤ maxHeight) : (s.alloc key value h).Holds order := by
  have kept : ∀ a ∈ head :: order, (s.alloc key value h).nodes a = s.nodes a :=
    fun a listed => update_of_ne (holds.ne_fresh a listed) ..
  have low := holds.high
  refine holds.congr (fun a listed => ?_) (fun i a listed => update_of_ne (holds.ne_fresh a listed) ..)
    (Nat.le_succ _) ?_ rfl
  · rw [kept a listed]
    exact ⟨rfl, rfl⟩
  · simp only [Skiplist.alloc]
    split_ifs <;> omega

theorem replace (c : Addr) (value : Value) :
    Holds { s with nodes := update s.nodes c { s.nodes c with value := value } } order := by
  refine holds.congr (fun a _ => ?_) (fun _ _ _ => rfl) (le_refl _) ⟨le_refl _, holds.high⟩ rfl
  by_cases here : a = c
  · simp [here]
  · simp [here]

end

theorem lowered_length (s : Skiplist) (length h : Nat) : Skiplist.lowered { s with length := length } h = s.lowered h := by
  induction h with
  | zero => rfl
  | succ h ih => simp only [Skiplist.lowered, load, ih]

theorem lowered (holds : s.Holds order) (low : 1 ≤ h) (high : h ≤ maxHeight)
    (all : ∀ a ∈ order, (s.nodes a).height ≤ h) : ∃ h', s.lowered h = some h' ∧ Holds { s with height := h' } order := by
  induction h with
  | zero => cases low
  | succ h ih =>
    have stay : Holds { s with height := h + 1 } order :=
      { holds with low := low, high := high, tall := fun a listed => ⟨(holds.tall a listed).1, all a listed⟩ }
    rw [Skiplist.lowered]
    split_ifs with more
    · have reach : h < (s.nodes head).height := holds.top ▸ high
      rw [load, if_pos reach, (holds.lanes h high).next_eq]
      cases first : (s.lane h order).head? with
      | some a => exact ⟨h + 1, rfl, stay⟩
      | none =>
        refine ih more (Nat.le_of_succ_le high) fun a listed => Nat.le_of_not_lt fun reached => ?_
        have member := mem_lane.mpr ⟨listed, reached⟩
        rw [head?_eq_none_iff.mp first] at member
        exact not_mem_nil member
    · exact ⟨h + 1, rfl, stay⟩

end Holds

theorem link_rewired {prev : List Addr} {n : Addr} (found : prev[i]? = some (s.pred before i))
    (low : i < (s.nodes (s.pred before i)).height) (own : i < (s.nodes n).height) :
    link prev n (s.rewired (s.spliced before n) i) i = some (s.rewired (s.spliced before n) (i + 1)) := by
  rw [← rewired_succ]
  simp [link, load, store, rewired, spliced, found, low, own]

theorem unlink_rewired {prev : List Addr} {t : Addr} (found : prev[i]? = some (s.pred before i))
    (low : i < (s.nodes (s.pred before i)).height) (own : i < (s.nodes t).height) :
    unlink prev t (s.rewired (s.skipped before t) i) i = some (s.rewired (s.skipped before t) (i + 1)) := by
  rw [← rewired_succ]
  simp [unlink, load, store, rewired, skipped, found, low, own]

namespace Holds

theorem insert (holds : s.Holds (before ++ after)) (value : Value) (positive : 1 ≤ h) (high : h ≤ maxHeight)
    (smaller : ∀ a ∈ before, (s.nodes a).key < k) (larger : ∀ a ∈ after, k < (s.nodes a).key) :
    ∃ s', s.insert ((List.range s.height).map (s.pred before)) k value h = some s' ∧
      s'.Holds (before ++ s.fresh :: after) ∧
      (before ++ s.fresh :: after).map s'.entry = before.map s.entry ++ (k, value) :: after.map s.entry := by
  have grown := holds.alloc k value high
  have own : (s.alloc k value h).nodes s.fresh = ⟨k, value, h⟩ := update_self ..
  have kept : ∀ a ∈ before ++ after, (s.alloc k value h).nodes a = s.nodes a :=
    fun a listed => update_of_ne (holds.known a listed).2.ne ..
  have keptFront : ∀ a ∈ before, (s.alloc k value h).nodes a = s.nodes a :=
    fun a listed => kept a (mem_append_left _ listed)
  have keptBack : ∀ a ∈ after, (s.alloc k value h).nodes a = s.nodes a :=
    fun a listed => kept a (mem_append_right _ listed)
  have same : (s.alloc k value h).pred before = s.pred before := funext fun i => by
    rw [pred, lane_congr fun a listed => congrArg SkipNode.height (keptFront a listed)]
    rfl
  refine ⟨_, ?_, grown.splice (n := s.fresh) ⟨holds.head_known.ne', Nat.lt_succ_self _⟩ ?_ ?_ ?_ ?_
    (Nat.succ_lt_succ holds.enough), ?_⟩
  · rw [Skiplist.insert, foldlM_rewired (f := (s.alloc k value h).spliced before s.fresh) fun i inside => ?_, own]
    · rfl
    · have found : (if s.height < h then (List.range s.height).map (s.pred before) ++
          List.replicate (h - s.height) head else (List.range s.height).map (s.pred before))[i]? =
          some ((s.alloc k value h).pred before i) := by
        rw [same]
        by_cases old : i < s.height
        · split_ifs <;> simp [getElem?_append, old]
        · -- A level that was not in use begins at the sentinel.
          rw [if_pos (by omega), getElem?_append_right (by simpa using old), holds.pred_top (Nat.le_of_not_lt old)]
          refine getElem?_replicate_of_lt ?_
          rw [length_map, length_range]
          omega
      exact link_rewired found (grown.pred_reach (lt_of_lt_of_le inside high)) (own ▸ inside)
  · exact fun listed => (holds.known _ listed).2.ne rfl
  · rw [own]
    refine ⟨positive, ?_⟩
    simp only [Skiplist.alloc]
    split_ifs <;> omega
  · intro a listed
    rw [keptFront a listed, own]
    exact smaller a listed
  · intro a listed
    rw [keptBack a listed, own]
    exact larger a listed
  · rw [map_append, map_cons]
    congr 1
    · exact map_congr_left fun a listed => congrArg (fun n => (n.key, n.value)) (keptFront a listed)
    · congr 1
      · exact congrArg (fun n => (n.key, n.value)) own
      · exact map_congr_left fun a listed => congrArg (fun n => (n.key, n.value)) (keptBack a listed)

section

variable (holds : s.Holds order)
include holds

theorem prev_zero (before : List Addr) :
    ((List.range s.height).map (s.pred before))[0]? = some (s.pred before 0) := by
  simp [show 0 < s.height from holds.low]

theorem put (k : Key) (value : Value) (flips : List Bool) : ∃ s' order', s.put k value flips = some s' ∧
    s'.Holds order' ∧ order'.map s'.entry = SortedMap.put k value (order.map s.entry) := by
  obtain ⟨before, after, rfl, parts⟩ := holds.parts k
  have tall : 1 ≤ randomHeight flips ∧ randomHeight flips ≤ maxHeight := by
    unfold randomHeight maxHeight
    omega
  rw [map_append, put_append (forall_mem_map.mpr parts.smaller)]
  rw [Skiplist.put, parts.findPredecessors]
  simp only [bind_eq_bind, bind_some, holds.prev_zero, holds.load_pred]
  cases after with
  | nil =>
    obtain ⟨s', inserted, holds', entries⟩ := holds.insert value tall.1 tall.2 parts.smaller (by simp)
    exact ⟨s', _, inserted, holds', entries⟩
  | cons c rest =>
    rw [map_cons, entry, put_cons, if_neg (parts.larger c mem_cons_self)]
    simp only [head?_cons]
    split_ifs with same
    · -- The keys on both sides differ, so only one entry changes.
      obtain ⟨first, -⟩ := pairwise_cons.mp (pairwise_append.mp holds.ascending).2.1
      have others : ∀ a, (s.nodes a).key ≠ k → a ≠ c := by
        rintro a different rfl
        exact different same
      refine ⟨_, before ++ c :: rest, rfl, holds.replace c value, ?_⟩
      rw [map_append, map_cons]
      congr 1
      · refine map_congr_left fun a listed => ?_
        simp [entry, others a (parts.smaller a listed).ne]
      · congr 1
        · simp [entry, same]
        · refine map_congr_left fun a listed => ?_
          simp [entry, others a (same ▸ first a listed).ne']
    · obtain ⟨s', inserted, holds', entries⟩ := holds.insert value tall.1 tall.2 parts.smaller (parts.above same)
      exact ⟨s', _, inserted, holds', entries⟩

theorem delete (k : Key) : ∃ s' order', s.delete k = some (s', (SortedMap.get k (order.map s.entry)).isSome) ∧
    s'.Holds order' ∧ order'.map s'.entry = SortedMap.erase k (order.map s.entry) := by
  obtain ⟨before, after, rfl, parts⟩ := holds.parts k
  have front : ∀ e ∈ before.map s.entry, e.1 ≠ k := forall_mem_map.mpr fun a listed => (parts.smaller a listed).ne
  rw [SortedMap.get, parts.seek, map_append, SortedMap.erase, filter_append, ← SortedMap.erase,
    ← SortedMap.erase, erase_eq_self front]
  rw [Skiplist.delete, parts.findPredecessors]
  simp only [bind_eq_bind, bind_some, holds.prev_zero, holds.load_pred]
  cases after with
  | nil => exact ⟨s, before ++ [], rfl, holds, by simp [SortedMap.erase]⟩
  | cons t rest =>
    simp only [head?_cons, map_cons, entry]
    by_cases same : (s.nodes t).key = k
    · obtain ⟨first, -⟩ := pairwise_cons.mp (pairwise_append.mp holds.ascending).2.1
      have back : SortedMap.erase k (rest.map s.entry) = rest.map s.entry :=
        erase_eq_self (forall_mem_map.mpr fun a listed => (same ▸ first a listed).ne')
      have tall := holds.tall t (by simp)
      have found : ∀ i < (s.nodes t).height, ((List.range s.height).map (s.pred before))[i]? = some (s.pred before i) :=
        fun i inside => by simp [lt_of_lt_of_le inside tall.2]
      -- The node is unlinked on every level that it reaches.
      have done := foldlM_rewired fun i inside => unlink_rewired (found i inside)
        (holds.pred_reach (lt_of_lt_of_le inside (tall.2.trans holds.high))) inside
      have gone := holds.skip
      obtain ⟨h, lowered, holds'⟩ := gone.lowered gone.low gone.high fun a listed => (gone.tall a listed).2
      rw [lowered_length] at lowered
      have kept : SortedMap.erase k (s.entry t :: rest.map s.entry) = rest.map s.entry :=
        (filter_cons_of_neg (by simp [entry, same])).trans back
      refine ⟨_, before ++ rest, ?_, holds', map_append.trans (congrArg _ kept.symm)⟩
      rw [if_pos same, if_pos same, done]
      exact congrArg (Option.bind · _) lowered
    · refine ⟨s, before ++ t :: rest, by simp [same], holds, ?_⟩
      rw [map_append]
      refine congrArg _ (erase_eq_self ?_).symm
      exact forall_mem_map.mpr fun a listed => (parts.above same a listed).ne'

theorem get (k : Key) : s.get k = some (SortedMap.get k (order.map s.entry)) := by
  obtain ⟨before, after, rfl, parts⟩ := holds.parts k
  rw [SortedMap.get, parts.seek, Skiplist.get, parts.descend]
  simp only [bind_eq_bind, bind_some, holds.load_pred]
  cases after with
  | nil => rfl
  | cons c rest =>
    simp only [head?_cons, map_cons, entry]
    split_ifs <;> rfl

end

theorem forward_eq {p : Addr} {l : List Addr} (trail : Trail (s.next 0) p l) (reach : ∀ a ∈ l, 0 < (s.nodes a).height)
    (n : Nat) : s.forward n l.head? = some l[n]? := by
  induction n generalizing p l with
  | zero => cases l <;> rfl
  | succ n ih =>
    cases l with
    | nil => exact ih trail reach
    | cons a l =>
      have behind := trail.2.next_eq
      simpa [forward, nodeNext, load, reach a, behind] using ih trail.2 (forall_mem_cons.mp reach).2

theorem seekGE (holds : s.Holds order) (k : Key) (n : Nat) : ((s.seekGE k).bind (s.forward n)).map (Option.map s.entry) =
    some (SortedMap.seek k (order.map s.entry))[n]? := by
  obtain ⟨before, after, rfl, parts⟩ := holds.parts k
  have forward := forward_eq holds.bottom.behind (fun a listed => (holds.tall a (mem_append_right before listed)).1) n
  rw [parts.seek, Skiplist.seekGE, parts.descend]
  simp only [bind_eq_bind, bind_some, holds.load_pred, forward, map_some, getElem?_map]

end Holds

/-- What a callback is given until it returns false. -/
def visited (fn : Key → Value → Bool) : List (Key × Value) → List (Key × Value)
  | [] => []
  | e :: m => if fn e.1 e.2 then e :: visited fn m else [e]

namespace Holds

theorem iterateFrom_eq {fn : Key → Value → Bool} {p : Addr} {l : List Addr} {fuel : Nat}
    (trail : Trail (s.next 0) p l) (reach : ∀ a ∈ l, 0 < (s.nodes a).height) (enough : l.length < fuel) :
    s.iterateFrom fn fuel l.head? = some (visited fn (l.map s.entry)) := by
  obtain ⟨fuel, rfl⟩ := Nat.exists_eq_succ_of_ne_zero (Nat.ne_of_gt (Nat.lt_of_le_of_lt (Nat.zero_le _) enough))
  induction l generalizing p fuel with
  | nil => rfl
  | cons a l ih =>
    obtain ⟨fuel, rfl⟩ : ∃ n, fuel = n + 1 := ⟨fuel - 1, by simp at enough; omega⟩
    have rest := ih trail.2 (forall_mem_cons.mp reach).2 fuel (by simpa using enough)
    have behind := trail.2.next_eq
    by_cases more : fn (s.nodes a).key (s.nodes a).value
    · simp [iterateFrom, visited, load, entry, more, reach a, behind, rest]
    · simp [iterateFrom, visited, entry, more]

theorem iterate (holds : s.Holds order) (fn : Key → Value → Bool) :
    s.iterate fn = some (visited fn (order.map s.entry)) := by
  have reach : 0 < (s.nodes head).height := holds.top ▸ (by decide)
  rw [Skiplist.iterate, load, if_pos reach, holds.bottom.next_eq]
  exact iterateFrom_eq holds.bottom (fun a listed => (holds.tall a listed).1) holds.enough

theorem level (holds : s.Holds order) (inside : i < maxHeight) : s.level i = s.lane i order :=
  (holds.lanes i inside).walk_eq ((length_filter_le _ _).trans holds.enough.le)

end Holds

/-! ### Whole runs -/

/-- A write, with the coin flips of the node it may need. -/
inductive Op where
  | put (key : Key) (value : Value) (flips : List Bool)
  | delete (key : Key)

def exec (s : Skiplist) : Op → Option Skiplist
  | .put key value flips => s.put key value flips
  | .delete key => (s.delete key).map Prod.fst

/-- A write to the sorted map that the list stands for. -/
def reference (m : List (Key × Value)) : Op → List (Key × Value)
  | .put key value _ => SortedMap.put key value m
  | .delete key => SortedMap.erase key m

theorem Holds.exec (holds : s.Holds order) (op : Op) : ∃ s' order', s.exec op = some s' ∧ s'.Holds order' ∧
    order'.map s'.entry = reference (order.map s.entry) op := by
  cases op with
  | put key value flips => exact holds.put key value flips
  | delete key =>
    obtain ⟨s', order', deleted, holds', entries⟩ := holds.delete key
    exact ⟨s', order', by rw [Skiplist.exec, deleted]; rfl, holds', entries⟩

theorem Holds.run (holds : s.Holds order) (ops : List Op) : ∃ s' order', ops.foldlM Skiplist.exec s = some s' ∧
    s'.Holds order' ∧ order'.map s'.entry = ops.foldl reference (order.map s.entry) := by
  induction ops generalizing s order with
  | nil => exact ⟨s, order, rfl, holds, rfl⟩
  | cons op ops ih =>
    obtain ⟨s₁, order₁, moved, holds₁, entries₁⟩ := holds.exec op
    obtain ⟨s', order', done, holds', entries⟩ := ih holds₁
    refine ⟨s', order', by rw [foldlM_cons, moved]; exact done, holds', ?_⟩
    rw [entries, entries₁, foldl_cons]

/--
The skip list is a sorted map.

No link outside a node is used; levels ascend, each a sublist of the one below; reads, seeks, iterations and the
length agree with the sorted map of the same writes.
-/
theorem sorted_map (ops : List Op) : ∃ s, ops.foldlM exec new = some s ∧
    (∀ i < maxHeight, SortedMap.Sorted ((s.level i).map s.entry)) ∧
    (∀ i, i + 1 < maxHeight → (s.level (i + 1)).Sublist (s.level i)) ∧
    (s.level 0).map s.entry = ops.foldl reference [] ∧
    (∀ k, s.get k = some (SortedMap.get k (ops.foldl reference []))) ∧
    (∀ k n, ((s.seekGE k).bind (s.forward n)).map (Option.map s.entry) =
      some (SortedMap.seek k (ops.foldl reference []))[n]?) ∧
    (∀ fn, s.iterate fn = some (visited fn (ops.foldl reference []))) ∧
    s.len = (ops.foldl reference []).length := by
  obtain ⟨s, order, done, holds, entries⟩ := Holds.empty.run ops
  change _ = ops.foldl reference [] at entries
  rw [← entries]
  refine ⟨s, done, fun i inside => ?_, fun i inside => ?_, ?_, holds.get, holds.seekGE, holds.iterate, ?_⟩
  · rw [holds.level inside]
    exact pairwise_map.mpr (holds.ascending.filter _)
  · rw [holds.level inside, holds.level (Nat.lt_of_succ_lt inside)]
    exact lane_sublist s i order
  · rw [holds.level (by decide), holds.lane_zero (List.Subset.refl _)]
  · exact holds.count.trans (length_map _).symm

end Skiplist

end Store
