import LittleDb.Store.Engine
import LittleDb.Store.Layers

/-! What a record of engine events says: the history of commits, and what a transaction should read. -/

namespace Store

open Versioned List SortedMap

def commitVersions (commitTS : Nat) (writes : Writes) : Set (Version Key Value) :=
  { v | ∃ e ∈ writes, v = ⟨e.1, commitTS, payload e.2.1 e.2.2⟩ }

def history (events : List Event) : Set (Version Key Value) :=
  { v | ∃ id ts writes, .committed id ts writes ∈ events ∧ v ∈ commitVersions ts writes }

/-- The value of a key after the commits on record, over the first. -/
def valueOf (base : Key → Option Value) (key : Key) : List Event → Option Value
  | [] => base key
  | .committed _ _ writes :: older =>
    match SortedMap.get key writes with
    | some (op, value) => payload op value
    | none => valueOf base key older
  | _ :: older => valueOf base key older

def before (id : Nat) : List Event → List Event
  | [] => []
  | .began id' :: older => if id' = id then older else before id older
  | _ :: older => before id older

def ownWrite (id : Nat) (key : Key) : List Event → Option (Op × Value)
  | [] => none
  | .wrote id' key' op value :: older =>
    if id' = id ∧ key' = key then some (op, value) else ownWrite id key older
  | _ :: older => ownWrite id key older

/-- What a transaction should read: its own write, or the value from before. -/
def expected (base : Key → Option Value) (events : List Event) (id : Nat) (key : Key) : Option Value :=
  match ownWrite id key events with
  | some (op, value) => payload op value
  | none => valueOf base key (before id events)

@[simp] theorem commitVersions_nil (ts : Nat) : commitVersions ts [] = ∅ := by
  ext v
  simp [commitVersions]

theorem commitVersions_snoc (ts : Nat) (writes : Writes) (e : Key × (Op × Value)) :
    commitVersions ts (writes ++ [e]) = {⟨e.1, ts, payload e.2.1 e.2.2⟩} ∪ commitVersions ts writes := by
  ext v
  simp only [commitVersions, mem_append, mem_singleton, or_and_right, exists_or,
    exists_eq_left, Set.mem_ofPred_eq, Set.mem_union, Set.mem_singleton_iff]
  exact or_comm

theorem history_committed (id ts : Nat) (writes : Writes) (events : List Event) :
    history (.committed id ts writes :: events) = commitVersions ts writes ∪ history events := by
  ext v
  constructor
  · rintro ⟨id', ts', writes', listed, stored⟩
    rcases mem_cons.mp listed with same | older
    · simp only [Event.committed.injEq] at same
      obtain ⟨rfl, rfl, rfl⟩ := same
      exact .inl stored
    · exact .inr ⟨id', ts', writes', older, stored⟩
  · rintro (stored | ⟨id', ts', writes', older, stored⟩)
    · exact ⟨id, ts, writes, by simp, stored⟩
    · exact ⟨id', ts', writes', by simp [older], stored⟩

/-- An event that is not a successful commit with writes. -/
def Event.Quiet : Event → Prop
  | .committed _ _ writes => writes = []
  | _ => True

variable {e : Event} {id s : Nat} {key : Key} {base : Key → Option Value} {H : Set (Version Key Value)}
  {events : List Event}

theorem history_quiet (quiet : e.Quiet) (events : List Event) : history (e :: events) = history events := by
  cases e with
  | committed id ts writes =>
    obtain rfl : writes = [] := quiet
    rw [history_committed, commitVersions_nil, Set.empty_union]
  | _ =>
    ext v
    simp only [history, mem_cons, reduceCtorEq, false_or, Set.mem_ofPred_eq]

theorem before_cons (other : e ≠ .began id) (events : List Event) : before id (e :: events) = before id events := by
  cases e with
  | began id' =>
    have away : id' ≠ id := fun same => other (congrArg Event.began same)
    simp [before, away]
  | _ => rfl

theorem ownWrite_cons (other : ∀ op value, e ≠ .wrote id key op value) (events : List Event) :
    ownWrite id key (e :: events) = ownWrite id key events := by
  cases e with
  | wrote id' key' op value =>
    have away : ¬ (id' = id ∧ key' = key) := by
      rintro ⟨rfl, rfl⟩
      exact other op value rfl
    simp [ownWrite, away]
  | _ => rfl

theorem valueOf_quiet (quiet : e.Quiet)
    (events : List Event) : valueOf base key (e :: events) = valueOf base key events := by
  cases e with
  | committed id ts writes =>
    obtain rfl : writes = [] := quiet
    rfl
  | _ => rfl

/-- What a history shows at a time is what the commits on record leave. -/
def Agrees (base : Key → Option Value) (H : Set (Version Key Value)) (s : Nat) (events : List Event) : Prop :=
  ∀ k r, Shows H k s r ↔ r = valueOf base k events

theorem Agrees.commit {ts : Nat} {writes : Writes} (agrees : Agrees base H s events)
    (sorted : SortedMap.Sorted writes) (past : ∀ v ∈ H, v.ts ≤ s) (later : s < ts) :
    Agrees base (commitVersions ts writes ∪ H) ts (.committed id ts writes :: events) := by
  -- The versions of the commit lie over the whole history.
  have atop : Over (commitVersions ts writes) H := over_of_lt (by
    rintro u ⟨e, _, rfl⟩ v old
    exact lt_of_le_of_lt (past v old) later)
  have settled : ∀ k r, Shows H k ts r ↔ Shows H k s r := by
    intro k r
    constructor
    · rintro (⟨v, visible, rfl⟩ | ⟨rfl, none_below⟩)
      · exact .inl ⟨v, ⟨visible.stored, visible.key, past v visible.stored,
          fun w stored key low => visible.newest w stored key (low.trans later.le)⟩, rfl⟩
      · exact .inr ⟨rfl, fun w stored key => later.trans (none_below w stored key)⟩
    · rintro (⟨v, visible, rfl⟩ | ⟨rfl, none_below⟩)
      · exact .inl ⟨v, ⟨visible.stored, visible.key, visible.below.trans later.le,
          fun w stored key _ => visible.newest w stored key (past w stored)⟩, rfl⟩
      · exact .inr ⟨rfl, fun w stored key =>
          absurd (past w stored) (not_le.mpr (none_below w stored key))⟩
  intro k r
  rw [shows_union atop, valueOf]
  cases found : SortedMap.get k writes with
  | none =>
    -- The commit does not touch this key.
    have away : ∀ w ∈ commitVersions ts writes, w.key ≠ k := by
      rintro w ⟨⟨k', op, value⟩, listed, rfl⟩ rfl
      rw [(get_eq_some sorted).mpr listed] at found
      cases found
    rw [settled, agrees k r]
    constructor
    · rintro (⟨v, visible, _⟩ | ⟨_, same⟩)
      · exact absurd visible.key (away v visible.stored)
      · exact same
    · exact fun same => .inr ⟨fun w stored key => absurd key (away w stored), same⟩
  | some hit =>
    obtain ⟨op, value⟩ := hit
    have listed := (get_eq_some sorted).mp found
    have stored : (⟨k, ts, payload op value⟩ : Version Key Value) ∈ commitVersions ts writes :=
      ⟨_, listed, rfl⟩
    have visible : Visible (commitVersions ts writes) k ts ⟨k, ts, payload op value⟩ :=
      ⟨stored, rfl, le_refl _, by rintro w ⟨e, _, rfl⟩ _ _; exact le_refl _⟩
    constructor
    · rintro (⟨v, visible', rfl⟩ | ⟨miss, _⟩)
      · obtain ⟨⟨k', op', value'⟩, listed', rfl⟩ := visible'.stored
        obtain rfl : k' = k := visible'.key
        have same := (get_eq_some sorted).mpr listed'
        rw [found] at same
        cases same
        rfl
      · exact absurd (miss _ stored rfl) (lt_irrefl _)
    · rintro rfl
      exact .inl ⟨_, visible, rfl⟩

theorem Agrees.later {N : Set (Version Key Value)} (agrees : Agrees base H s events) (high : ∀ v ∈ N, s < v.ts) :
    Agrees base (N ∪ H) s events := by
  intro k r
  rw [← agrees k r]
  refine shows_congr fun v _ below => ⟨fun stored => ?_, .inr⟩
  rcases stored with new | old
  · exact absurd below (not_le.mpr (high v new))
  · exact old

end Store
