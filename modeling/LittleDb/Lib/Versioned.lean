import Mathlib.Data.Set.Basic
import Mathlib.Data.Nat.Find
import Mathlib.Order.Lattice

/-! Multi-version maps: what a snapshot shows, layers of versions, and garbage collection. -/

/-- One version of a key: when it was written, and the value or deletion. -/
@[ext] structure Version (κ β : Type) where
  key : κ
  ts : Nat
  payload : Option β
  deriving DecidableEq

namespace Versioned

variable {κ β : Type} {v : Version κ β} {T' : Set (Version κ β)}

/-- The newest version of a key at or below a snapshot. -/
structure Visible (V : Set (Version κ β)) (k : κ) (s : Nat) (v : Version κ β) : Prop where
  stored : v ∈ V
  key : v.key = k
  below : v.ts ≤ s
  newest : ∀ w ∈ V, w.key = k → w.ts ≤ s → w.ts ≤ v.ts

/-- What a read at a snapshot shows: the newest value, or nothing. -/
def Shows (V : Set (Version κ β)) (k : κ) (s : Nat) (r : Option β) : Prop :=
  (∃ v, Visible V k s v ∧ v.payload = r) ∨ (r = none ∧ ∀ w ∈ V, w.key = k → s < w.ts)

/-- A key has at most one version for each timestamp. -/
def Functional (V : Set (Version κ β)) : Prop :=
  ∀ v ∈ V, ∀ w ∈ V, v.key = w.key → v.ts = w.ts → v = w

/--
One layer lies over another: of a key it holds, it also holds what the lower one has of the same age
or newer.
-/
def Over (U T : Set (Version κ β)) : Prop :=
  ∀ u ∈ U, ∀ t ∈ T, u.key = t.key → u.ts ≤ t.ts → t ∈ U

variable {V V' U T H : Set (Version κ β)} {k : κ} {s floor : Nat} {r : Option β}

theorem exists_visible {w : Version κ β} (stored : w ∈ V) (key : w.key = k) (below : w.ts ≤ s) :
    ∃ v, Visible V k s v := by
  classical
  -- Among the bounded timestamps of such versions there is a largest one.
  let P : Nat → Prop := fun t => ∃ v ∈ V, v.key = k ∧ v.ts = t
  have found : ∃ t ≤ s, P t := ⟨w.ts, below, w, stored, key, rfl⟩
  obtain ⟨v, vStored, vKey, vTs⟩ : P (Nat.findGreatest P s) := by
    obtain ⟨t, bounded, holds⟩ := found
    exact Nat.findGreatest_spec bounded holds
  refine ⟨v, vStored, vKey, vTs ▸ Nat.findGreatest_le s, fun u uStored uKey uBelow => ?_⟩
  rw [vTs]
  exact Nat.le_findGreatest uBelow ⟨u, uStored, uKey, rfl⟩

theorem exists_shows (V : Set (Version κ β)) (k : κ) (s : Nat) : ∃ r, Shows V k s r := by
  by_cases some_version : ∃ w ∈ V, w.key = k ∧ w.ts ≤ s
  · obtain ⟨w, stored, key, below⟩ := some_version
    obtain ⟨v, visible⟩ := exists_visible stored key below
    exact ⟨v.payload, .inl ⟨v, visible, rfl⟩⟩
  · refine ⟨none, .inr ⟨rfl, fun w stored key => ?_⟩⟩
    by_contra low
    exact some_version ⟨w, stored, key, not_lt.mp low⟩

theorem Visible.unique {w : Version κ β} (functional : Functional V) (left : Visible V k s v)
    (right : Visible V k s w) : v = w := by
  refine functional v left.stored w right.stored (left.key.trans right.key.symm) ?_
  exact le_antisymm (right.newest v left.stored left.key left.below) (left.newest w right.stored right.key right.below)

theorem Shows.unique {r' : Option β} (functional : Functional V) (left : Shows V k s r)
    (right : Shows V k s r') : r = r' := by
  rcases left with ⟨v, visible, rfl⟩ | ⟨rfl, none_below⟩
  · rcases right with ⟨w, visible', rfl⟩ | ⟨_, none_below⟩
    · rw [visible.unique functional visible']
    · exact absurd visible.below (not_le.mpr (none_below v visible.stored visible.key))
  · rcases right with ⟨w, visible, rfl⟩ | ⟨rfl, _⟩
    · exact absurd visible.below (not_le.mpr (none_below w visible.stored visible.key))
    · rfl

theorem Shows.congr (same : ∀ v, v.key = k → v.ts ≤ s → (v ∈ V ↔ v ∈ V')) (shows : Shows V k s r) :
    Shows V' k s r := by
  rcases shows with ⟨v, visible, rfl⟩ | ⟨rfl, none_below⟩
  · refine .inl ⟨v, ⟨(same v visible.key visible.below).mp visible.stored, visible.key,
      visible.below, fun w stored key below => ?_⟩, rfl⟩
    exact visible.newest w ((same w key below).mpr stored) key below
  · refine .inr ⟨rfl, fun w stored key => ?_⟩
    by_contra low
    have below : w.ts ≤ s := not_lt.mp low
    exact low (none_below w ((same w key below).mpr stored) key)

theorem shows_congr (same : ∀ v, v.key = k → v.ts ≤ s → (v ∈ V ↔ v ∈ V')) : Shows V k s r ↔ Shows V' k s r :=
  ⟨.congr same, .congr fun v key below => (same v key below).symm⟩

@[simp] theorem shows_empty : Shows (∅ : Set (Version κ β)) k s r ↔ r = none := by
  constructor
  · rintro (⟨v, visible, _⟩ | ⟨rfl, _⟩)
    · exact visible.stored.elim
    · rfl
  · rintro rfl
    exact .inr ⟨rfl, fun w stored => stored.elim⟩

theorem shows_top {s' : Nat} (top : ∀ v ∈ V, v.key = k → v.ts ≤ s) (le : s ≤ s') : Shows V k s r ↔ Shows V k s' r := by
  constructor
  · rintro (⟨v, visible, rfl⟩ | ⟨rfl, none_below⟩)
    · exact .inl ⟨v, ⟨visible.stored, visible.key, visible.below.trans le,
        fun w stored key _ => visible.newest w stored key (top w stored key)⟩, rfl⟩
    · exact .inr ⟨rfl, fun w stored key =>
        absurd (top w stored key) (not_le.mpr (none_below w stored key))⟩
  · rintro (⟨v, visible, rfl⟩ | ⟨rfl, none_below⟩)
    · exact .inl ⟨v, ⟨visible.stored, visible.key, top v visible.stored visible.key,
        fun w stored key below => visible.newest w stored key (below.trans le)⟩, rfl⟩
    · exact .inr ⟨rfl, fun w stored key => le.trans_lt (none_below w stored key)⟩

theorem Over.functional (atop : Over U T) (upper : Functional U) (lower : Functional T) : Functional (U ∪ T) := by
  rintro v (vUp | vLow) w (wUp | wLow) key ts
  · exact upper v vUp w wUp key ts
  · exact upper v vUp w (atop v vUp w wLow key ts.le) key ts
  · exact upper v (atop w wUp v vLow key.symm ts.ge) w wUp key ts
  · exact lower v vLow w wLow key ts

theorem over_of_lt (newer : ∀ u ∈ U, ∀ t ∈ T, t.ts < u.ts) : Over U T :=
  fun u upper t lower _ order => absurd (newer u upper t lower) (not_lt.mpr order)

theorem Over.mono (atop : Over U T) (sub : T' ⊆ T) : Over U T' :=
  fun u upper t lower => atop u upper t (sub lower)

theorem Over.union (atop : Over U T) (over' : Over U T') : Over U (T ∪ T') := by
  rintro u upper t (left | right)
  · exact atop u upper t left
  · exact over' u upper t right

theorem Visible.atop (atop : Over U T) (visible : Visible U k s v) : Visible (U ∪ T) k s v where
  stored := .inl visible.stored
  key := visible.key
  below := visible.below
  newest w stored key below := by
    rcases stored with upper | lower
    · exact visible.newest w upper key below
    · -- A newer version below would also stand in the upper layer.
      by_contra high
      have order : v.ts ≤ w.ts := (not_le.mp high).le
      have upper := atop v visible.stored w lower (visible.key.trans key.symm) order
      exact high (visible.newest w upper key below)

theorem shows_union (atop : Over U T) : Shows (U ∪ T) k s r ↔ (∃ v, Visible U k s v ∧ v.payload = r) ∨
    ((∀ w ∈ U, w.key = k → s < w.ts) ∧ Shows T k s r) := by
  by_cases hit : ∃ w ∈ U, w.key = k ∧ w.ts ≤ s
  · -- The upper layer has a version, so its newest one decides.
    obtain ⟨w, stored, key, below⟩ := hit
    obtain ⟨v, visible⟩ := exists_visible stored key below
    constructor
    · rintro (⟨v', visible', rfl⟩ | ⟨rfl, none_below⟩)
      · refine .inl ⟨v', ⟨?_, visible'.key, visible'.below, fun u uStored uKey uBelow => ?_⟩, rfl⟩
        · rcases visible'.stored with upper | lower
          · exact upper
          · exact atop v visible.stored v' lower (visible.key.trans visible'.key.symm)
              (visible'.newest v (.inl visible.stored) visible.key visible.below)
        · exact visible'.newest u (.inl uStored) uKey uBelow
      · exact absurd below (not_le.mpr (none_below w (.inl stored) key))
    · rintro (⟨v', visible', rfl⟩ | ⟨none_below, _⟩)
      · exact .inl ⟨v', visible'.atop atop, rfl⟩
      · exact absurd below (not_le.mpr (none_below w stored key))
  · -- The upper layer has none, so only the lower one counts.
    have miss : ∀ w ∈ U, w.key = k → s < w.ts := by
      intro w stored key
      by_contra low
      exact hit ⟨w, stored, key, not_lt.mp low⟩
    have same : Shows (U ∪ T) k s r ↔ Shows T k s r := by
      refine shows_congr fun v key below => ⟨fun stored => ?_, .inr⟩
      rcases stored with upper | lower
      · exact absurd below (not_le.mpr (miss v upper key))
      · exact lower
    rw [same]
    constructor
    · exact fun shows => .inr ⟨miss, shows⟩
    · rintro (⟨v, visible, _⟩ | ⟨_, shows⟩)
      · exact absurd visible.below (not_le.mpr (miss v visible.stored visible.key))
      · exact shows

theorem shows_union_congr (atop : Over U T) (over' : Over U T')
    (same : ∀ r, Shows T k s r ↔ Shows T' k s r) : Shows (U ∪ T) k s r ↔ Shows (U ∪ T') k s r := by
  rw [shows_union atop, shows_union over', same]

/-- A store of versions of a history, with all of those above a floor. -/
structure Keeps (floor : Nat) (H V : Set (Version κ β)) : Prop where
  sub : V ⊆ H
  above : ∀ v ∈ H, floor < v.ts → v ∈ V

/-- A store that also shows at the floor what the history shows there. -/
structure Follows (floor : Nat) (H V : Set (Version κ β)) : Prop extends Keeps floor H V where
  shows : ∀ k r, Shows V k floor r ↔ Shows H k floor r

theorem Keeps.refl (floor : Nat) (H : Set (Version κ β)) : Keeps floor H H :=
  ⟨subset_rfl, fun _ stored _ => stored⟩

variable {floor' w : Nat}

theorem Keeps.raise (keeps : Keeps floor H V) (le : floor ≤ floor') : Keeps floor' H V :=
  ⟨keeps.sub, fun v written high => keeps.above v written (lt_of_le_of_lt le high)⟩

theorem Keeps.write (keeps : Keeps floor H V) (N : Set (Version κ β)) : Keeps floor (N ∪ H) (N ∪ V) where
  sub := Set.union_subset_union_right N keeps.sub
  above v written high := written.imp id fun old => keeps.above v old high

theorem Keeps.collect {O : Set (Version κ β)} (keeps : Keeps floor H (U ∪ T))
    (collected : Keeps w T O) : Keeps (max floor w) H (U ∪ O) := by
  refine ⟨(Set.union_subset_union_right U collected.sub).trans keeps.sub, fun v written high => ?_⟩
  rcases keeps.above v written (lt_of_le_of_lt (le_max_left floor w) high) with upper | lower
  · exact .inl upper
  · exact .inr (collected.above v lower (lt_of_le_of_lt (le_max_right floor w) high))

theorem Follows.refl (floor : Nat) (H : Set (Version κ β)) : Follows floor H H :=
  ⟨.refl floor H, fun _ _ => Iff.rfl⟩

theorem Follows.shows_above (follows : Follows floor H V) (above : floor ≤ s) : Shows V k s r ↔ Shows H k s r := by
  by_cases later : ∃ w ∈ H, w.key = k ∧ floor < w.ts ∧ w.ts ≤ s
  · -- The newest version is above the floor, where store and history agree.
    obtain ⟨w, written, key, high, below⟩ := later
    have decide_by : ∀ {X Y : Set (Version κ β)}, w ∈ X →
        (∀ v, floor < v.ts → (v ∈ X ↔ v ∈ Y)) → Shows X k s r → Shows Y k s r := by
      intro X Y wX same shows
      rcases shows with ⟨v, visible, rfl⟩ | ⟨rfl, none_below⟩
      · have top := visible.newest w wX key below
        refine .inl ⟨v, ⟨(same v (by omega)).mp visible.stored, visible.key, visible.below,
          fun u uStored uKey uBelow => ?_⟩, rfl⟩
        by_cases uHigh : floor < u.ts
        · exact visible.newest u ((same u uHigh).mpr uStored) uKey uBelow
        · omega
      · exact absurd below (not_le.mpr (none_below w wX key))
    have same : ∀ v : Version κ β, floor < v.ts → (v ∈ V ↔ v ∈ H) := fun v vHigh =>
      ⟨fun stored => follows.sub stored, fun written => follows.above v written vHigh⟩
    exact ⟨decide_by (follows.above w written high) same, decide_by written fun v vHigh => (same v vHigh).symm⟩
  · -- Nothing was written between the floor and the snapshot.
    have quiet : ∀ w ∈ H, w.key = k → w.ts ≤ s → w.ts ≤ floor := by
      intro w written key below
      by_contra high
      exact later ⟨w, written, key, not_le.mp high, below⟩
    have lower : ∀ {X : Set (Version κ β)}, X ⊆ H → (Shows X k s r ↔ Shows X k floor r) := by
      intro X sub
      constructor
      · rintro (⟨v, visible, rfl⟩ | ⟨rfl, none_below⟩)
        · refine .inl ⟨v, ⟨visible.stored, visible.key, quiet v (sub visible.stored) visible.key visible.below,
            fun u uStored uKey uBelow => visible.newest u uStored uKey (uBelow.trans above)⟩, rfl⟩
        · exact .inr ⟨rfl, fun w stored key => lt_of_le_of_lt above (none_below w stored key)⟩
      · rintro (⟨v, visible, rfl⟩ | ⟨rfl, none_below⟩)
        · refine .inl ⟨v, ⟨visible.stored, visible.key, visible.below.trans above,
            fun u uStored uKey uBelow =>
              visible.newest u uStored uKey (quiet u (sub uStored) uKey uBelow)⟩, rfl⟩
        · refine .inr ⟨rfl, fun w stored key => ?_⟩
          by_contra low
          have bounded := quiet w (sub stored) key (not_lt.mp low)
          exact absurd (none_below w stored key) (not_lt.mpr bounded)
    rw [lower follows.sub, lower subset_rfl, follows.shows]

theorem Follows.raise (follows : Follows floor H V) (le : floor ≤ floor') : Follows floor' H V :=
  ⟨follows.toKeeps.raise le, fun _ _ => follows.shows_above le⟩

theorem Follows.write {N : Set (Version κ β)} (follows : Follows floor H V)
    (high : ∀ v ∈ N, floor < v.ts) : Follows floor (N ∪ H) (N ∪ V) where
  toKeeps := follows.toKeeps.write N
  shows k r := by
    -- The new versions are out of sight at the floor.
    have unseen : ∀ {X : Set (Version κ β)}, Shows (N ∪ X) k floor r ↔ Shows X k floor r := by
      intro X
      refine shows_congr fun v _ below => ⟨fun stored => ?_, .inr⟩
      rcases stored with new | old
      · exact absurd (high v new) (not_lt.mpr below)
      · exact old
    rw [unseen, unseen, follows.shows]

theorem Follows.collect {O : Set (Version κ β)} (follows : Follows floor H (U ∪ T))
    (atop : Over U T) (collected : Follows w T O) : Follows (max floor w) H (U ∪ O) where
  toKeeps := follows.toKeeps.collect collected.toKeeps
  shows k r := by
    rw [← (follows.raise (le_max_left floor w)).shows]
    exact shows_union_congr (atop.mono collected.sub) atop fun r => collected.shows_above (le_max_right floor w)

/--
The versions garbage collection keeps: all above a watermark, and the one a read at it shows.

A deletion that is the newest version of its key and lies at or below the watermark goes too.
-/
structure Kept (w : Nat) (T : Set (Version κ β)) (v : Version κ β) : Prop where
  stored : v ∈ T
  needed : ∀ u ∈ T, u.key = v.key → v.ts < u.ts → w < u.ts
  alive : ¬ (v.payload = none ∧ v.ts ≤ w ∧ ∀ u ∈ T, u.key = v.key → u.ts ≤ v.ts)

theorem follows_kept (functional : Functional T) : Follows w T { v | Kept w T v } where
  sub _ kept := kept.stored
  above v stored high :=
    ⟨stored, fun _ _ _ newer => lt_trans high newer, fun dead => absurd dead.2.1 (not_le.mpr high)⟩
  shows k r := by
    -- The version a read at the watermark shows is kept, unless it is a deletion and the newest.
    have needed : ∀ {v}, Visible T k w v → ∀ u ∈ T, u.key = v.key → v.ts < u.ts → w < u.ts := by
      intro v visible u stored key newer
      by_contra low
      have bound := visible.newest u stored (key.trans visible.key) (not_lt.mp low)
      exact absurd newer (not_lt.mpr bound)
    constructor
    · rintro (⟨v, visible, rfl⟩ | ⟨rfl, none_below⟩)
      · refine .inl ⟨v, ⟨visible.stored.stored, visible.key, visible.below, fun u stored key below => ?_⟩, rfl⟩
        by_contra newer
        have high := visible.stored.needed u stored (key.trans visible.key.symm) (not_le.mp newer)
        exact absurd below (not_le.mpr high)
      · by_cases hit : ∃ u ∈ T, u.key = k ∧ u.ts ≤ w
        · obtain ⟨u, stored, key, below⟩ := hit
          obtain ⟨v, visible⟩ := exists_visible stored key below
          refine .inl ⟨v, visible, ?_⟩
          by_contra live
          have kept : Kept w T v := ⟨visible.stored, needed visible, fun dead => live dead.1⟩
          exact absurd visible.below (not_le.mpr (none_below v kept visible.key))
        · refine .inr ⟨rfl, fun u stored key => ?_⟩
          by_contra low
          exact hit ⟨u, stored, key, not_lt.mp low⟩
    · rintro (⟨v, visible, rfl⟩ | ⟨rfl, none_below⟩)
      · by_cases dead : v.payload = none ∧ v.ts ≤ w ∧ ∀ u ∈ T, u.key = v.key → u.ts ≤ v.ts
        · -- Nothing of the key is left.
          refine .inr ⟨dead.1, fun u kept key => ?_⟩
          have bound := dead.2.2 u kept.stored (key.trans visible.key.symm)
          rcases bound.lt_or_eq with older | same
          · have high := kept.needed v visible.stored (visible.key.trans key.symm) older
            exact absurd dead.2.1 (not_le.mpr high)
          · obtain rfl := functional u kept.stored v visible.stored (key.trans visible.key.symm) same
            exact absurd dead kept.alive
        · exact .inl ⟨v, ⟨⟨visible.stored, needed visible, dead⟩, visible.key, visible.below,
            fun u kept => visible.newest u kept.stored⟩, rfl⟩
      · exact .inr ⟨rfl, fun u kept => none_below u kept.stored⟩

/--
A store retains the view of another at a snapshot.

It has the same version of the key in sight, except that a deletion may be missing altogether.
-/
def Retains (T O : Set (Version κ β)) (k : κ) (s : Nat) : Prop :=
  ∀ v, (Visible O k s v → Visible T k s v) ∧
    (Visible T k s v → Visible O k s v ∨ (v.payload = none ∧ ∀ u ∈ O, u.key = k → s < u.ts))

theorem Retains.refl (T : Set (Version κ β)) (k : κ) (s : Nat) : Retains T T k s :=
  fun _ => ⟨id, .inl⟩

theorem retains_kept (functional : Functional T) (above : w ≤ s) : Retains T { v | Kept w T v } k s := by
  -- What is in sight has only versions above the watermark over it.
  have needed : ∀ {v}, Visible T k s v → ∀ u ∈ T, u.key = v.key → v.ts < u.ts → w < u.ts := by
    intro v visible u stored key newer
    by_contra low
    have bound := visible.newest u stored (key.trans visible.key) ((not_lt.mp low).trans above)
    exact absurd newer (not_lt.mpr bound)
  refine fun v => ⟨fun visible => ?_, fun visible => ?_⟩
  · obtain ⟨t, top⟩ := exists_visible visible.stored.stored visible.key visible.below
    by_cases dead : t.payload = none ∧ t.ts ≤ w ∧ ∀ u ∈ T, u.key = t.key → u.ts ≤ t.ts
    · -- Were the top version a dropped deletion, nothing of its key would be kept.
      rcases (top.newest v visible.stored.stored visible.key visible.below).lt_or_eq with older | same
      · have high := visible.stored.needed t top.stored (top.key.trans visible.key.symm) older
        exact absurd dead.2.1 (not_le.mpr high)
      · obtain rfl := functional v visible.stored.stored t top.stored (visible.key.trans top.key.symm) same
        exact absurd dead visible.stored.alive
    · have kept : Kept w T t := ⟨top.stored, needed top, dead⟩
      have bound := visible.newest t kept top.key top.below
      have same := le_antisymm bound (top.newest v visible.stored.stored visible.key visible.below)
      obtain rfl := functional t top.stored v visible.stored.stored (top.key.trans visible.key.symm) same
      exact top
  · by_cases dead : v.payload = none ∧ v.ts ≤ w ∧ ∀ u ∈ T, u.key = v.key → u.ts ≤ v.ts
    · refine .inr ⟨dead.1, fun u kept key => ?_⟩
      rcases (dead.2.2 u kept.stored (key.trans visible.key.symm)).lt_or_eq with older | same
      · have high := kept.needed v visible.stored (visible.key.trans key.symm) older
        exact absurd dead.2.1 (not_le.mpr high)
      · obtain rfl := functional u kept.stored v visible.stored (key.trans visible.key.symm) same
        exact absurd dead kept.alive
    · exact .inl ⟨⟨visible.stored, needed visible, dead⟩, visible.key, visible.below,
        fun u kept => visible.newest u kept.stored⟩

structure Newest (V : Set (Version κ β)) (k : κ) (v : Version κ β) : Prop where
  stored : v ∈ V
  key : v.key = k
  newest : ∀ u ∈ V, u.key = k → u.ts ≤ v.ts

/-- A key whose newest version is a deletion at or below a watermark. -/
def Dead (w : Nat) (V : Set (Version κ β)) (k : κ) : Prop :=
  ∃ v, Newest V k v ∧ v.payload = none ∧ v.ts ≤ w

theorem visible_iff_newest (top : ∀ v ∈ V, v.key = k → v.ts ≤ s) : Visible V k s v ↔ Newest V k v :=
  ⟨fun visible => ⟨visible.stored, visible.key, fun u stored key => visible.newest u stored key (top u stored key)⟩,
    fun newest => ⟨newest.stored, newest.key, top v newest.stored newest.key,
      fun u stored key _ => newest.newest u stored key⟩⟩

theorem Newest.kept (newest : Newest T k v) (alive : ¬ Dead w T k) : Kept w T v := by
  refine ⟨newest.stored, fun u stored key newer => ?_, fun dead => alive ⟨v, newest, dead.1, dead.2.1⟩⟩
  exact absurd newer (not_lt.mpr (newest.newest u stored (key.trans newest.key)))

end Versioned
