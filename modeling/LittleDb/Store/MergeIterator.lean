import LittleDb.Lib.Merge
import LittleDb.Store.MvccKey

/-! The iterator that merges the cursors of all layers, with a heap of the cursors by their heads. -/

namespace Store

open List Merge SortedMap

structure VersionCursor where
  entries : Layer
  /-- Whether reading on behind the last of them fails. -/
  broken : Bool

namespace VersionCursor

def valid (c : VersionCursor) : Bool := !c.entries.isEmpty

def advance (c : VersionCursor) : VersionCursor := { c with entries := c.entries.tail }

def err (c : VersionCursor) : Bool := c.entries.isEmpty && c.broken

end VersionCursor

/-- A cursor and the priority of its layer: the lower one is the newer layer. -/
structure HeapCursor where
  cur : VersionCursor
  priority : Nat

namespace HeapCursor

def entry (c : HeapCursor) : List UInt8 × (Op × Value) := c.cur.entries.headD ([], .put, [])

/-- The order of the heap: by encoded key, and the newer layer first. -/
def less (c d : HeapCursor) : Bool :=
  if c.entry.1 ≠ d.entry.1 then decide (c.entry.1 < d.entry.1) else decide (c.priority < d.priority)

theorem not_less_iff {c d : HeapCursor} :
    ¬ c.less d ↔ d.entry.1 < c.entry.1 ∨ (d.entry.1 = c.entry.1 ∧ d.priority ≤ c.priority) := by
  rw [less]
  split_ifs with apart
  · rw [decide_eq_true_eq, not_lt, or_iff_left fun tie => apart tie.1.symm]
    exact ⟨fun order => lt_of_le_of_ne order (Ne.symm apart), le_of_lt⟩
  · have same := not_not.mp apart
    rw [decide_eq_true_eq, not_lt, same, or_iff_right (lt_irrefl _), and_iff_right rfl]

theorem not_less_trans {c d e : HeapCursor} (first : ¬ c.less d) (second : ¬ d.less e) : ¬ c.less e := by
  rw [not_less_iff] at first second ⊢
  rcases first with below | ⟨same, order⟩
  · rcases second with below' | ⟨same', -⟩
    · exact .inl (below'.trans below)
    · exact .inl (same' ▸ below)
  · rw [← same]
    exact second.imp_right fun tie => ⟨tie.1, tie.2.trans order⟩

theorem not_less_of_less {c d : HeapCursor} (order : c.less d) : ¬ d.less c := by
  rw [less] at order
  split_ifs at order with apart
  · exact not_less_iff.mpr (.inl (of_decide_eq_true order))
  · exact not_less_iff.mpr (.inr ⟨not_not.mp apart, (of_decide_eq_true order).le⟩)

end HeapCursor

/-- What the heap package provides: the cursors, the least one first. -/
structure CursorHeap where
  Ordered : List HeapCursor → Prop
  init : List HeapCursor → List HeapCursor
  /-- Restores the order when the first cursor has changed. -/
  fix : List HeapCursor → List HeapCursor
  /-- Takes the first cursor out, which may be at its end. -/
  pop : List HeapCursor → List HeapCursor
  init_spec : ∀ h, (init h).Perm h ∧ Ordered (init h)
  fix_spec : ∀ top top' rest, Ordered (top :: rest) →
    (fix (top' :: rest)).Perm (top' :: rest) ∧ Ordered (fix (top' :: rest))
  pop_spec : ∀ top top' rest, Ordered (top :: rest) →
    (pop (top' :: rest)).Perm rest ∧ Ordered (pop (top' :: rest))
  least : ∀ top rest, Ordered (top :: rest) → ∀ c ∈ rest, ¬ c.less top

structure MergeIterator where
  h : List HeapCursor
  entry : List UInt8 × (Op × Value)
  valid : Bool
  err : Bool
  /-- The encoded key given out last; a copy of no bytes is the same as none. -/
  lastEnc : List UInt8

/-- Moves the first cursor on: it sinks to its place, or leaves the heap. -/
def CursorHeap.moveFirst (heap : CursorHeap) (moved : HeapCursor) (rest : List HeapCursor) : List HeapCursor :=
  if moved.cur.valid then heap.fix (moved :: rest) else heap.pop (moved :: rest)

def HeapCursor.advance (c : HeapCursor) : HeapCursor := { c with cur := c.cur.advance }

namespace MergeIterator

variable (heap : CursorHeap)

/-- Takes records until one has not the key given out last. -/
def advanceLoop : Nat → MergeIterator → MergeIterator
  | 0, m => m
  | fuel + 1, m =>
    match m.h with
    | [] => { m with valid := false }
    | top :: rest =>
      if top.advance.cur.err then { m with h := top.advance :: rest, err := true, valid := false }
      else
        let h := heap.moveFirst top.advance rest
        -- The same version was given out, from a newer layer.
        if m.lastEnc ≠ [] ∧ top.entry.1 = m.lastEnc then advanceLoop fuel { m with h := h }
        else { m with h := h, lastEnc := top.entry.1, entry := top.entry, valid := true }

def left (h : List HeapCursor) : Nat := (h.map fun c => c.cur.entries.length).sum

/-- Moves to the next record; the number of records is fuel enough. -/
def advance (m : MergeIterator) : MergeIterator := advanceLoop heap (left m.h + 1) m

/-- The cursors that stand on a record, with their places as priorities. -/
def heapOf (cursors : List VersionCursor) : List HeapCursor :=
  (cursors.zipIdx.filter fun c => c.1.valid).map fun c => ⟨c.1, c.2⟩

/-- An iterator over the merged records, on the first one. -/
def newMergeIterator (cursors : List VersionCursor) : MergeIterator :=
  advance heap ⟨heap.init (heapOf cursors), ([], .put, []), false, false, []⟩

/-- Moves on while the iterator is valid: the records, and where it stops. -/
def drain : Nat → MergeIterator → List (List UInt8 × (Op × Value)) × MergeIterator
  | 0, m => ([], m)
  | fuel + 1, m =>
    if m.valid then
      let (entries, stop) := drain fuel (m.advance heap)
      (m.entry :: entries, stop)
    else ([], m)

/-- The heap holds the sources that are not empty, each with its place. -/
structure Tracks (h : List HeapCursor) (sources : List Layer) : Prop where
  unique : (h.map HeapCursor.priority).Nodup
  held : ∀ c ∈ h, sources[c.priority]? = some c.cur.entries ∧ c.cur.entries ≠ []
  every : ∀ (i : Nat) (source : Layer), sources[i]? = some source → source ≠ [] → ∃ c ∈ h, c.priority = i
  sound : ∀ c ∈ h, c.cur.broken = false

variable {heap} {h rest : List HeapCursor} {top : HeapCursor} {sources : List Layer}

theorem Tracks.perm (tracks : Tracks h sources) {h' : List HeapCursor} (same : h'.Perm h) : Tracks h' sources where
  unique := (same.map _).nodup_iff.mpr tracks.unique
  held c listed := tracks.held c (same.mem_iff.mp listed)
  every i source there filled := by
    obtain ⟨c, listed, place⟩ := tracks.every i source there filled
    exact ⟨c, same.mem_iff.mpr listed, place⟩
  sound c listed := tracks.sound c (same.mem_iff.mp listed)

section

variable (tracks : Tracks (top :: rest) sources)
include tracks

theorem Tracks.entries : top.cur.entries = top.entry :: top.advance.cur.entries := by
  obtain ⟨e, tail, split⟩ := exists_cons_of_ne_nil (tracks.held top List.mem_cons_self).2
  rw [HeapCursor.entry, HeapCursor.advance, VersionCursor.advance, split]
  rfl

theorem Tracks.pop (ordered : heap.Ordered (top :: rest)) :
    Merge.pop sources = some (top.entry, sources.set top.priority top.advance.cur.entries) := by
  have split := tracks.entries
  have here := (tracks.held top List.mem_cons_self).1
  rw [split] at here
  refine pop_of_least here fun j e tail there => ?_
  obtain ⟨c, listed, rfl⟩ := tracks.every j _ there (by simp)
  have own : c.entry = e := by
    have same := (tracks.held c listed).1.symm.trans there
    rw [HeapCursor.entry, Option.some.inj same]
    rfl
  subst own
  rcases mem_cons.mp listed with rfl | later
  · exact .inr ⟨rfl, le_refl _⟩
  · exact HeapCursor.not_less_iff.mp (heap.least top rest ordered c later)

/-- Moving the first cursor on takes its head from the sources. -/
theorem Tracks.step (ordered : heap.Ordered (top :: rest)) : Tracks (heap.moveFirst top.advance rest)
    (sources.set top.priority top.advance.cur.entries) ∧ heap.Ordered (heap.moveFirst top.advance rest) ∧
    left (heap.moveFirst top.advance rest) + 1 = left (top :: rest) := by
  have size : top.cur.entries.length = top.advance.cur.entries.length + 1 := by
    rw [tracks.entries, length_cons]
  have range : top.priority < sources.length :=
    (List.getElem?_eq_some_iff.mp (tracks.held top List.mem_cons_self).1).1
  -- The other cursors and their sources are where they were.
  have held : ∀ c ∈ rest, (sources.set top.priority top.advance.cur.entries)[c.priority]? = some c.cur.entries ∧
      c.cur.entries ≠ [] := by
    intro c listed
    have apart : c.priority ≠ top.priority := fun same =>
      (nodup_cons.mp tracks.unique).1 (same ▸ mem_map_of_mem listed)
    rw [getElem?_set_ne (Ne.symm apart)]
    exact tracks.held c (mem_cons_of_mem top listed)
  have elsewhere : ∀ (i : Nat) (source : Layer), i ≠ top.priority →
      (sources.set top.priority top.advance.cur.entries)[i]? = some source → source ≠ [] →
      ∃ c ∈ rest, c.priority = i := by
    intro i source apart there filled
    rw [getElem?_set_ne (Ne.symm apart)] at there
    obtain ⟨c, listed, rfl⟩ := tracks.every i source there filled
    rcases mem_cons.mp listed with rfl | later
    · exact absurd rfl apart
    · exact ⟨c, later, rfl⟩
  have sound : ∀ c ∈ rest, c.cur.broken = false := fun c listed =>
    tracks.sound c (mem_cons_of_mem top listed)
  unfold CursorHeap.moveFirst
  by_cases ended : top.advance.cur.entries = []
  · -- The cursor is at its end and leaves the heap.
    rw [if_neg (by simp [VersionCursor.valid, ended])]
    obtain ⟨same, next⟩ := heap.pop_spec top top.advance rest ordered
    refine ⟨Tracks.perm ⟨(nodup_cons.mp tracks.unique).2, held, ?_, sound⟩ same, next, ?_⟩
    · intro i source there filled
      refine elsewhere i source (fun here => ?_) there filled
      rw [here, getElem?_set_self range, Option.some.injEq] at there
      exact filled (there.symm.trans ended)
    · rw [left, (same.map _).sum_nat, left, map_cons, sum_cons, size, ended, length_nil]
      omega
  · rw [if_pos (by simp [VersionCursor.valid, ended])]
    obtain ⟨same, next⟩ := heap.fix_spec top top.advance rest ordered
    have unique : ((top.advance :: rest).map HeapCursor.priority).Nodup := tracks.unique
    refine ⟨Tracks.perm ⟨unique, ?_, ?_, ?_⟩ same, next, ?_⟩
    · exact forall_mem_cons.mpr ⟨⟨getElem?_set_self range, ended⟩, held⟩
    · intro i source there filled
      by_cases here : i = top.priority
      · exact ⟨_, List.mem_cons_self, here.symm⟩
      · obtain ⟨c, listed, place⟩ := elsewhere i source here there filled
        exact ⟨c, mem_cons_of_mem _ listed, place⟩
    · exact forall_mem_cons.mpr ⟨tracks.sound top List.mem_cons_self, sound⟩
    · rw [left, (same.map _).sum_nat, left, map_cons, map_cons, sum_cons, sum_cons, size]
      omega

end

/-- The iterator gave out what comes up to a key, the sources hold the rest. -/
structure Behind (heap : CursorHeap) (m : MergeIterator) (last : Option (List UInt8)) (sources : List Layer) :
    Prop where
  tracks : Tracks m.h sources
  ordered : heap.Ordered m.h
  sorted : ∀ source ∈ sources, SortedMap.Sorted source
  encoded : ∀ source ∈ sources, ∀ e ∈ source, e.1 ≠ []
  lastEnc : m.lastEnc = last.getD []
  named : last ≠ some []
  sound : m.err = false

def pending (last : Option (List UInt8)) (sources : List Layer) : Layer :=
  Merge.merge (Merge.total sources) last sources

variable {m : MergeIterator} {last : Option (List UInt8)}

section

variable (behind : Behind heap m last sources)
include behind

theorem Behind.pending_nil (empty : m.h = []) : pending last sources = [] := by
  have none_left : Merge.total sources = 0 := by
    rw [Merge.total, ← length_flatten, length_eq_zero_iff, flatten_eq_nil_iff]
    intro source listed
    by_contra filled
    obtain ⟨i, there⟩ := getElem?_of_mem listed
    obtain ⟨c, held, -⟩ := behind.tracks.every i source there filled
    rw [empty] at held
    cases held
  rw [pending, none_left]
  rfl

theorem Behind.advanceLoop {fuel : Nat} (enough : left m.h < fuel) :
    ∃ m', advanceLoop heap fuel m = m' ∧ m'.err = false ∧
      ((m'.valid = false ∧ pending last sources = []) ∨
        (m'.valid = true ∧ ∃ sources', Merge.total sources' < Merge.total sources ∧
          pending last sources = m'.entry :: pending (some m'.entry.1) sources' ∧
          Behind heap m' (some m'.entry.1) sources')) := by
  refine ⟨_, rfl, ?_⟩
  induction fuel generalizing m sources with
  | zero => omega
  | succ fuel ih =>
    rw [MergeIterator.advanceLoop]
    cases shape : m.h with
    | nil => exact ⟨behind.sound, .inl ⟨rfl, behind.pending_nil shape⟩⟩
    | cons top others =>
      have tracks := shape ▸ behind.tracks
      have ordered := shape ▸ behind.ordered
      have taken := tracks.pop ordered
      obtain ⟨popped, -⟩ := pop_some behind.sorted taken
      obtain ⟨tracks', ordered', fewer⟩ := tracks.step ordered
      have working : top.advance.cur.err = false := by
        have sound : top.advance.cur.broken = false := tracks.sound top List.mem_cons_self
        rw [VersionCursor.err, sound, Bool.and_false]
      have own : ∃ source ∈ sources, top.entry ∈ source := by
        obtain ⟨source, listed, found⟩ := exists_of_findSome?_eq_some popped.first
        exact ⟨source, listed, (get_eq_some (behind.sorted source listed)).mp found⟩
      obtain ⟨source, listed, within⟩ := own
      have named := behind.encoded source listed _ within
      have encoded : ∀ source ∈ sources.set top.priority top.advance.cur.entries, ∀ e ∈ source, e.1 ≠ [] := by
        intro source' listed' e within'
        rcases mem_or_eq_of_mem_set listed' with old | rfl
        · exact behind.encoded source' old e within'
        · refine behind.encoded _ (mem_of_getElem? (tracks.held top List.mem_cons_self).1) e ?_
          rw [tracks.entries]
          exact mem_cons_of_mem _ within'
      -- The merge takes the same record, and leaves it out for the same reason.
      have unfolded : pending last sources =
          if last = some top.entry.1 then pending last (sources.set top.priority top.advance.cur.entries)
          else top.entry :: pending (some top.entry.1) (sources.set top.priority top.advance.cur.entries) := by
        rw [pending, ← popped.count, Merge.merge, taken]
        by_cases repeated : last = some top.entry.1
        · simp only [if_pos repeated, pending]
        · simp only [if_neg repeated, pending]
      have again : (m.lastEnc ≠ [] ∧ top.entry.1 = m.lastEnc) ↔ last = some top.entry.1 := by
        rw [behind.lastEnc]
        cases last with
        | none => simp
        | some key =>
          have known : key ≠ [] := fun none => behind.named (congrArg some none)
          simp [known, eq_comm]
      simp only [working, Bool.false_eq_true, if_false, again, unfolded]
      split_ifs with repeated
      · have next : Behind heap { m with h := heap.moveFirst top.advance others } last
            (sources.set top.priority top.advance.cur.entries) :=
          ⟨tracks', ordered', popped.sorted, encoded, behind.lastEnc, behind.named, behind.sound⟩
        obtain ⟨sound, ended | ⟨valid, sources', less, rest⟩⟩ :=
          ih next (by rw [shape] at enough; show left (heap.moveFirst top.advance others) < fuel; omega)
        · exact ⟨sound, .inl ended⟩
        · have count := popped.count
          exact ⟨sound, .inr ⟨valid, sources', by omega, rest⟩⟩
      · have count := popped.count
        refine ⟨behind.sound, .inr ⟨rfl, _, by omega, rfl, ?_⟩⟩
        exact ⟨tracks', ordered', popped.sorted, encoded, rfl, fun none => named (Option.some.inj none), behind.sound⟩

theorem Behind.drain (valid : m.valid = true) {fuel : Nat} (enough : Merge.total sources + 1 < fuel) :
    ∃ m', drain heap fuel m = (m.entry :: pending last sources, m') ∧ m'.valid = false ∧ m'.err = false := by
  induction fuel generalizing m last sources with
  | zero => omega
  | succ fuel ih =>
    obtain ⟨m', moved, sound, ends⟩ := behind.advanceLoop (Nat.lt_succ_self (left m.h))
    rw [MergeIterator.drain, if_pos valid, advance, moved]
    rcases ends with ⟨invalid, nothing⟩ | ⟨valid', sources', less, first, next⟩
    · cases fuel with
      | zero => omega
      | succ fuel =>
        rw [MergeIterator.drain, invalid, nothing]
        exact ⟨m', rfl, invalid, sound⟩
    · obtain ⟨stop, drained, ended⟩ := ih next valid' (by omega)
      rw [drained, first]
      exact ⟨stop, rfl, ended⟩

end

theorem tracks_heapOf {cursors : List VersionCursor} (sound : ∀ c ∈ cursors, c.broken = false) :
    Tracks (heapOf cursors) (cursors.map VersionCursor.entries) := by
  have listed : ∀ c : HeapCursor, c ∈ heapOf cursors ↔ cursors[c.priority]? = some c.cur ∧ c.cur.entries ≠ [] := by
    intro c
    rw [heapOf, mem_map]
    constructor
    · rintro ⟨p, found, rfl⟩
      rw [mem_filter, mem_zipIdx_iff_getElem?] at found
      exact ⟨found.1, by simpa [VersionCursor.valid] using found.2⟩
    · rintro ⟨place, filled⟩
      refine ⟨(c.cur, c.priority), mem_filter.mpr ⟨?_, ?_⟩, rfl⟩
      · exact mem_zipIdx_iff_getElem?.mpr place
      · simpa [VersionCursor.valid] using filled
  refine ⟨?_, fun c own => ?_, fun i source there filled => ?_, fun c own => ?_⟩
  · have places : (heapOf cursors).map HeapCursor.priority = (cursors.zipIdx.filter fun c => c.1.valid).map Prod.snd := by
      rw [heapOf, map_map]
      rfl
    rw [places]
    refine List.Nodup.sublist (filter_sublist.map Prod.snd) ?_
    rw [zipIdx_map_snd]
    exact nodup_range'
  · obtain ⟨place, filled⟩ := (listed c).mp own
    exact ⟨by rw [getElem?_map, place]; rfl, filled⟩
  · rw [getElem?_map, Option.map_eq_some_iff] at there
    obtain ⟨cur, place, rfl⟩ := there
    exact ⟨⟨cur, i⟩, (listed ⟨cur, i⟩).mpr ⟨place, filled⟩, rfl⟩
  · exact sound c.cur (mem_of_getElem? ((listed c).mp own).1)

/-- Drained to its end, the iterator gives out the whole merge. -/
theorem drain_newMergeIterator (heap : CursorHeap) (cursors : List VersionCursor)
    (sorted : ∀ c ∈ cursors, SortedMap.Sorted c.entries) (encoded : ∀ c ∈ cursors, ∀ e ∈ c.entries, e.1 ≠ [])
    (sound : ∀ c ∈ cursors, c.broken = false) :
    ∃ stop, drain heap ((cursors.map fun c => c.entries.length).sum + 2) (newMergeIterator heap cursors) =
      (Merge.all (cursors.map VersionCursor.entries), stop) ∧ stop.valid = false ∧ stop.err = false := by
  have start : Behind heap ⟨heap.init (heapOf cursors), ([], .put, []), false, false, []⟩ none
      (cursors.map VersionCursor.entries) :=
    ⟨(tracks_heapOf sound).perm (heap.init_spec _).1, (heap.init_spec _).2, forall_mem_map.mpr sorted,
      forall_mem_map.mpr encoded, rfl, by simp, rfl⟩
  have size : Merge.total (cursors.map VersionCursor.entries) = (cursors.map fun c => c.entries.length).sum := by
    rw [Merge.total, map_map]
    rfl
  obtain ⟨m, moved, fine, ends⟩ := start.advanceLoop (Nat.lt_succ_self _)
  rw [newMergeIterator, advance, moved, Merge.all]
  rcases ends with ⟨invalid, nothing⟩ | ⟨valid, sources', less, first, next⟩
  · rw [pending] at nothing
    rw [MergeIterator.drain, invalid, nothing]
    exact ⟨m, rfl, invalid, fine⟩
  · have enough : Merge.total sources' + 1 < (cursors.map fun c => c.entries.length).sum + 2 := by omega
    obtain ⟨stop, all, ended⟩ := next.drain valid enough
    rw [pending] at first
    exact ⟨stop, by rw [all, first], ended⟩

/--
The iterator merges its cursors.

It gives out all encoded keys in strictly ascending order, each with the operation and value of the first cursor
that holds it, and is then invalid without an error.
-/
theorem merged (heap : CursorHeap) (cursors : List VersionCursor)
    (sorted : ∀ c ∈ cursors, SortedMap.Sorted c.entries) (encoded : ∀ c ∈ cursors, ∀ e ∈ c.entries, e.1 ≠ [])
    (sound : ∀ c ∈ cursors, c.broken = false) :
    ∃ entries stop, drain heap ((cursors.map fun c => c.entries.length).sum + 2) (newMergeIterator heap cursors) =
        (entries, stop) ∧ stop.valid = false ∧ stop.err = false ∧
      SortedMap.Sorted entries ∧
      (∀ k, (∃ e ∈ entries, e.1 = k) ↔ ∃ c ∈ cursors, ∃ e ∈ c.entries, e.1 = k) ∧
      ∀ e ∈ entries, ∃ front c back, cursors = front ++ c :: back ∧ e ∈ c.entries ∧
        ∀ newer ∈ front, ∀ e' ∈ newer.entries, e'.1 ≠ e.1 := by
  have sorted' : ∀ source ∈ cursors.map VersionCursor.entries, SortedMap.Sorted source :=
    forall_mem_map.mpr sorted
  obtain ⟨stop, drained, invalid, fine⟩ := drain_newMergeIterator heap cursors sorted encoded sound
  have shown : ∀ {e}, e ∈ Merge.all (cursors.map VersionCursor.entries) ↔
      ∃ front c back, cursors = front ++ c :: back ∧ SortedMap.get e.1 c.entries = some e.2 ∧
        ∀ newer ∈ front, SortedMap.get e.1 newer.entries = none := by
    intro e
    rw [mem_all sorted', Merge.lookup, findSome?_map, findSome?_eq_some_iff]
    rfl
  have mem_of_get : ∀ c ∈ cursors, ∀ k v, SortedMap.get k c.entries = some v → (k, v) ∈ c.entries :=
    fun c listed k v found => (get_eq_some (sorted c listed)).mp found
  refine ⟨_, stop, drained, invalid, fine, sorted_all sorted', fun k => ⟨?_, ?_⟩, fun e within => ?_⟩
  · rintro ⟨e, within, rfl⟩
    obtain ⟨front, c, back, split, found, -⟩ := shown.mp within
    have listed : c ∈ cursors := by simp [split]
    exact ⟨c, listed, e, mem_of_get c listed _ _ found, rfl⟩
  · rintro ⟨c, listed, e, within, rfl⟩
    -- Some cursor holds the key, so a first one does.
    have some_cursor : (Merge.lookup e.1 (cursors.map VersionCursor.entries)).isSome := by
      rw [Merge.lookup, findSome?_isSome_iff]
      exact ⟨c.entries, mem_map_of_mem listed, by rw [(get_eq_some (sorted c listed)).mpr within]; rfl⟩
    obtain ⟨v, found⟩ := Option.isSome_iff_exists.mp some_cursor
    exact ⟨(e.1, v), (mem_all sorted').mpr found, rfl⟩
  · obtain ⟨front, c, back, split, found, unheld⟩ := shown.mp within
    refine ⟨front, c, back, split, mem_of_get c (by simp [split]) _ _ found, fun newer listed e' within' same => ?_⟩
    have held := (get_eq_some (sorted newer (by simp [split, listed]))).mpr within'
    rw [same, unheld newer listed] at held
    cases held

def leastFirst : List HeapCursor → List HeapCursor
  | [] => []
  | c :: rest =>
    match leastFirst rest with
    | [] => [c]
    | d :: others => if d.less c then d :: c :: others else c :: d :: others

theorem leastFirst_perm (h : List HeapCursor) : (leastFirst h).Perm h := by
  induction h with
  | nil => exact .nil
  | cons c rest ih =>
    rw [leastFirst]
    cases found : leastFirst rest with
    | nil =>
      rw [found] at ih
      exact ih.cons c
    | cons d others =>
      rw [found] at ih
      simp only
      split_ifs
      · exact (List.Perm.swap ..).trans (ih.cons c)
      · exact ih.cons c

theorem leastFirst_least {h rest : List HeapCursor} {top : HeapCursor} (first : leastFirst h = top :: rest) :
    ∀ c ∈ rest, ¬ c.less top := by
  induction h generalizing top rest with
  | nil => cases first
  | cons c rest' ih =>
    rw [leastFirst] at first
    cases found : leastFirst rest' with
    | nil =>
      rw [found] at first
      cases first
      intro c listed
      cases listed
    | cons d others =>
      have least := ih found
      rw [found] at first
      simp only at first
      split_ifs at first with below
      · cases first
        exact forall_mem_cons.mpr ⟨HeapCursor.not_less_of_less below, least⟩
      · cases first
        refine forall_mem_cons.mpr ⟨below, fun c' listed => ?_⟩
        exact HeapCursor.not_less_trans (least c' listed) below

/-- A heap that keeps no order but the least cursor first. -/
def leastFirstHeap : CursorHeap where
  Ordered h := ∀ top rest, h = top :: rest → ∀ c ∈ rest, ¬ c.less top
  init := leastFirst
  fix := leastFirst
  pop h := leastFirst h.tail
  init_spec h := ⟨leastFirst_perm h, fun _ _ => leastFirst_least⟩
  fix_spec _ top' rest _ := ⟨leastFirst_perm (top' :: rest), fun _ _ => leastFirst_least⟩
  pop_spec _ _ rest _ := ⟨leastFirst_perm rest, fun _ _ => leastFirst_least⟩
  least top rest ordered := ordered top rest rfl

/-- Three cursors, the first of which hides a key of the last. -/
def overlapping : List VersionCursor :=
  [⟨[([2], .put, [20])], false⟩, ⟨[], false⟩, ⟨[([1], .put, [11]), ([2], .delete, [])], false⟩]

theorem merged_overlapping : ∃ stop, drain leastFirstHeap 5 (newMergeIterator leastFirstHeap overlapping) =
      ([([1], .put, [11]), ([2], .put, [20])], stop) ∧ stop.valid = false := by
  obtain ⟨entries, stop, drained, invalid, -⟩ := merged leastFirstHeap overlapping
    (by simp only [SortedMap.Sorted]; decide) (by decide) (by decide)
  have given : (drain leastFirstHeap 5 (newMergeIterator leastFirstHeap overlapping)).1 =
      [([1], .put, [11]), ([2], .put, [20])] := by decide +kernel
  rw [show 5 = (overlapping.map fun c => c.entries.length).sum + 2 from rfl, drained] at given ⊢
  exact ⟨stop, congrArg (Prod.mk · stop) given, invalid⟩

end MergeIterator

end Store
