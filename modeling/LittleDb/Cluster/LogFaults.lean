import LittleDb.Cluster.LogFile

/-! The persistent Raft log while its file operations may fail: what loading the file gives afterwards. -/

namespace Cluster

open List Option Bool Framing

inductive TruncateFault where
  | truncate
  | sync
  /-- The file is cut and synced, but the handle does not move. -/
  | seek
  deriving DecidableEq, Repr

namespace LogFile

/-- An append of which some bytes reach the file, or all, unsynced. -/
def failAppend (lf : LogFile) (e : Entry) (n : Nat) : LogFile :=
  { lf with bytes := lf.tornAppend e n, pos := lf.pos + n }

/-- A truncation that fails, or none when it has nothing to drop. -/
def failTruncate (lf : LogFile) (index : Nat) (fault : TruncateFault) : Option LogFile :=
  if index ≤ lf.baseIndex then none
  else
    (lf.offsets[index - lf.baseIndex - 1]?).map fun off =>
      match fault with
      | .truncate => lf
      | .sync => { lf with bytes := lf.bytes.take off }
      | .seek =>
        { lf with
          bytes := lf.bytes.take off
          offsets := lf.offsets.take (index - lf.baseIndex - 1)
          size := off }

end LogFile

/-- The log in memory and on disk, where a failed compaction may leave two files. -/
structure FaultyLog where
  file : LogFile
  /-- What the path holds, when it is not the open file any more. -/
  path : Option (List UInt8)
  log : RaftLog

/-- What a node does to its log, and how it can fail. -/
inductive FaultyLogOp where
  | append (e : Entry)
  /-- Fails to append an entry when some bytes of its frame were written. -/
  | failAppend (e : Entry) (n : Nat)
  | truncateFrom (index : Nat)
  | failTruncate (index : Nat) (fault : TruncateFault)
  | compact (safe : Nat)
  /-- Fails to compact, before the new file is renamed or behind that. -/
  | failCompact (safe : Nat) (renamed : Bool)
  | restart
  deriving DecidableEq, Repr

namespace FaultyLog

def fresh : FaultyLog := ⟨LogFile.writeFreshHeader 0 0, none, {}⟩

def onDisk (s : FaultyLog) : List UInt8 := s.path.getD s.file.bytes

/-- One operation; the memory changes only when the file call succeeded. -/
def step (s : FaultyLog) : FaultyLogOp → Option (FaultyLog × List Unit)
  | .append e => some ({ s with file := s.file.append e, log := s.log.append e }, [])
  | .failAppend e n =>
    if n ≤ (encodeFrame e).length then some ({ s with file := s.file.failAppend e n }, []) else none
  | .truncateFrom index =>
    some ({ s with file := s.file.truncateFrom index, log := s.log.truncateFrom index }, [])
  | .failTruncate index fault => (s.file.failTruncate index fault).map fun file => ({ s with file := file }, [])
  | .compact safe =>
    if safe ≤ s.log.baseIndex then none
    else
      (s.log.term safe).map fun newBaseTerm =>
        (⟨LogFile.compact safe newBaseTerm (s.log.entriesAfter safe), none, s.log.compactTo safe newBaseTerm⟩, [])
  | .failCompact safe renamed =>
    if safe ≤ s.log.baseIndex then none
    else
      (s.log.term safe).map fun newBaseTerm =>
        -- The handle stays on the old file, which has no name any more behind the rename.
        (if renamed then
          { s with path := some (LogFile.compact safe newBaseTerm (s.log.entriesAfter safe)).bytes }
        else s, [])
  | .restart => (LogPair.reopen s.onDisk).map fun opened => (⟨opened.file, none, opened.log⟩, [])

/-- The entry fits its frame, and its index fits too. -/
def room (s : FaultyLog) (e : Entry) : Bool := decide (e.Fits ∧ s.log.lastIndex + 1 < 2 ^ 64)

/--
The failures a log survives.

A failed append leaves no whole frame and nothing is appended behind it; a truncation fails before its cut and a
compaction before its rename.
-/
def sound (s : FaultyLog) : FaultyLogOp → Bool
  | .append e => decide (s.file.pos = s.file.size) && s.room e
  | .failAppend e n =>
    decide (s.file.pos = s.file.size) && s.room e && decide (n < (encodeFrame e).length)
  | .failTruncate _ fault => decide (fault = .truncate)
  | .failCompact _ renamed => !renamed
  | .truncateFrom _ | .compact _ | .restart => true

/-- The open file mirrors the log, but for a torn frame at its end. -/
structure Stained (s : FaultyLog) (clean : LogFile) (tail : List UInt8) : Prop where
  attached : s.path = none
  synced : LogPair.Synced ⟨clean, s.log⟩
  file : s.file = { clean with bytes := clean.bytes ++ tail, pos := clean.pos + tail.length }
  torn : tail = [] ∨ ∃ e : Entry, e.Fits ∧ Framing.Torn encodeFrame e tail

variable {s s' : FaultyLog} {clean : LogFile} {tail : List UInt8}

theorem stained_nil {file : LogFile} {log : RaftLog} (synced : LogPair.Synced ⟨file, log⟩) :
    Stained ⟨file, none, log⟩ file [] :=
  ⟨rfl, synced, by simp, .inl rfl⟩

section

variable (stained : s.Stained clean tail)

include stained

theorem Stained.unstained (settled : s.file.pos = s.file.size) : s.file = clean ∧ tail = [] := by
  have same := stained.file
  have pos : clean.pos = clean.size := stained.synced.mirrors.pos
  have none : tail.length = 0 := by
    rw [same] at settled
    simp only at settled
    omega
  have empty := eq_nil_of_length_eq_zero none
  subst empty
  exact ⟨by simpa using same, rfl⟩

theorem Stained.loads : LogPair.reopen s.onDisk = some ⟨clean, s.log⟩ := by
  have bytes : s.onDisk = clean.bytes ++ tail := by rw [onDisk, stained.attached, stained.file]; rfl
  rw [bytes]
  exact stained.synced.reopen (stained.synced.mirrors.load stained.synced.fits stained.torn)

theorem Stained.truncateFrom (index : Nat) : s.file.truncateFrom index = clean.truncateFrom index ∨
      (s.file.truncateFrom index = s.file ∧ clean.truncateFrom index = clean) := by
  rw [stained.file]
  unfold LogFile.truncateFrom
  dsimp only
  by_cases compacted : index ≤ clean.baseIndex
  · rw [if_pos compacted, if_pos compacted]
    exact .inr ⟨rfl, rfl⟩
  rw [if_neg compacted, if_neg compacted]
  cases found : clean.offsets[index - clean.baseIndex - 1]? with
  | none => exact .inr ⟨rfl, rfl⟩
  | some off =>
    left
    -- The dropped suffix starts within the mirror, so the cut takes the tail away.
    have framed : clean.Framed s.log.entries := stained.synced.mirrors.toFramed
    have inside : index - clean.baseIndex - 1 < s.log.entries.length := by
      have bound := (List.getElem?_eq_some_iff.mp found).1
      rwa [framed.offsets, length_starts] at bound
    obtain ⟨start, kept⟩ := framed.truncate inside
    have place : off = raftLogHeaderSize +
        (Framing.log encodeFrame (s.log.entries.take (index - clean.baseIndex - 1))).length :=
      Option.some.inj (found.symm.trans start)
    have within : off ≤ clean.bytes.length := by
      have cut := congrArg List.length kept
      rw [← place, length_take, length_append, length_encodeHeader, ← place] at cut
      omega
    simp only [take_append_of_le_length within]

/-- Every survived operation leaves at most a torn frame behind. -/
theorem Stained.step {op : FaultyLogOp} {new : List Unit}
    (sound : s.sound op = true) (moved : s.step op = some (s', new)) : ∃ clean' tail', s'.Stained clean' tail' := by
  cases op with
  | append e =>
    simp only [FaultyLog.sound, room, and_eq_true, decide_eq_true_eq] at sound
    obtain ⟨settled, room⟩ := sound
    cases moved
    obtain ⟨same, -⟩ := stained.unstained settled
    have appended : LogPair.Synced ⟨clean.append e, s.log.append e⟩ :=
      stained.synced.step (.append e) room rfl
    rw [same, stained.attached]
    exact ⟨_, [], stained_nil appended⟩
  | failAppend e n =>
    simp only [FaultyLog.sound, room, and_eq_true, decide_eq_true_eq] at sound
    obtain ⟨⟨settled, room⟩, short⟩ := sound
    rw [FaultyLog.step, ite_none_right_eq_some] at moved
    obtain ⟨rfl, -⟩ := Prod.mk.inj (Option.some.inj moved.2)
    obtain ⟨same, -⟩ := stained.unstained settled
    -- The bytes that were written are the new tail.
    have mirrors := stained.synced.mirrors
    refine ⟨clean, (encodeFrame e).take n, stained.attached, stained.synced, ?_, ?_⟩
    · have pos : clean.pos = clean.bytes.length := mirrors.pos.trans mirrors.size
      show s.file.failAppend e n = _
      rw [same, LogFile.failAppend, LogFile.tornAppend, length_take, min_eq_left short.le]
      conv_lhs => rw [pos, Bytes.writeAt_length, ← pos]
    · exact (torn_take short).imp_right fun torn => ⟨e, room.1, torn⟩
  | truncateFrom index =>
    cases moved
    have truncated : LogPair.Synced ⟨clean.truncateFrom index, s.log.truncateFrom index⟩ :=
      stained.synced.step (.truncateFrom index) trivial rfl
    rcases stained.truncateFrom index with same | ⟨same, nothing⟩
    · rw [same, stained.attached]
      exact ⟨_, [], stained_nil truncated⟩
    · rw [nothing] at truncated
      exact ⟨clean, tail, stained.attached, truncated, same.trans stained.file, stained.torn⟩
  | failTruncate index fault =>
    have first := of_decide_eq_true sound
    subst first
    obtain ⟨file, failed, same⟩ := map_eq_some_iff.mp moved
    cases same
    have unchanged : file = s.file := by
      unfold LogFile.failTruncate at failed
      split_ifs at failed
      obtain ⟨off, -, equal⟩ := map_eq_some_iff.mp failed
      exact equal.symm
    subst unchanged
    exact ⟨clean, tail, stained⟩
  | compact safe =>
    rw [FaultyLog.step] at moved
    split_ifs at moved with compacted
    obtain ⟨newBaseTerm, held, same⟩ := map_eq_some_iff.mp moved
    cases same
    have rewritten : LogPair.Synced ⟨LogFile.compact safe newBaseTerm (s.log.entriesAfter safe),
        s.log.compactTo safe newBaseTerm⟩ := by
      have moved : LogPair.step ⟨clean, s.log⟩ (.compact safe) =
          some (⟨LogFile.compact safe newBaseTerm (s.log.entriesAfter safe), s.log.compactTo safe newBaseTerm⟩,
            []) := by
        rw [LogPair.step, if_neg compacted, held]
        rfl
      exact stained.synced.step (.compact safe) trivial moved
    exact ⟨_, [], stained_nil rewritten⟩
  | failCompact safe renamed =>
    rw [FaultyLog.sound, not_eq_true'] at sound
    subst sound
    rw [FaultyLog.step, ite_none_left_eq_some] at moved
    obtain ⟨newBaseTerm, -, same⟩ := map_eq_some_iff.mp moved.2
    cases same
    exact ⟨clean, tail, stained⟩
  | restart =>
    rw [FaultyLog.step, stained.loads] at moved
    cases moved
    exact ⟨clean, [], stained_nil stained.synced⟩

end

/-- Loading gives the base and entries in memory, through survived failures. -/
theorem file_loads {s : FaultyLog} {past : List FaultyLog} {events : List Unit}
    (run : Run.Reach step (fun s op => s.sound op = true) fresh s past events) :
    ∃ file, LogPair.reopen s.onDisk = some ⟨file, s.log⟩ := by
  have stained : ∃ clean tail, s.Stained clean tail := by
    refine run.invariant (P := fun s _ _ => ∃ clean tail, s.Stained clean tail) ?_ ?_
    · exact ⟨_, [], stained_nil LogPair.synced_fresh⟩
    · rintro s op s' past events new _ sound moved ⟨clean, tail, stained⟩
      exact stained.step sound moved
  obtain ⟨clean, tail, stained⟩ := stained
  exact ⟨clean, stained.loads⟩

/-- An append fails within its payload, a compaction too; a truncation repairs. -/
theorem file_loads_repaired : ∃ s past events,
    Run.Reach step (fun s op => s.sound op = true) fresh s past events ∧
    s.log = ⟨0, 0, [⟨1, .data, [5]⟩, ⟨2, .data, [7]⟩]⟩ ∧ ∃ file, LogPair.reopen s.onDisk = some ⟨file, s.log⟩ := by
  obtain ⟨s, past, events, run, test⟩ := Run.exec_exists step sound fresh
    [.append ⟨1, .data, [5]⟩, .append ⟨1, .data, [6]⟩, .failAppend ⟨1, .data, [8, 9]⟩ 14,
      .failCompact 1 false, .truncateFrom 2, .append ⟨2, .data, [7]⟩]
    (fun r => decide (r.1.log = ⟨0, 0, [⟨1, .data, [5]⟩, ⟨2, .data, [7]⟩]⟩)) (by rfl)
  exact ⟨s, past, events, run, of_decide_eq_true test, file_loads run⟩

/-- One byte of a frame is written, and the next append lands behind it. -/
theorem append_misplaced : ∃ s past events, Run.Reach step (fun _ _ => True) fresh s past events ∧
    s.log = ⟨0, 0, [⟨1, .data, []⟩]⟩ ∧ ∀ file, LogPair.reopen s.onDisk ≠ some ⟨file, s.log⟩ := by
  obtain ⟨s, past, events, run, test⟩ := Run.exec_exists step (fun _ _ => true) fresh
    [.failAppend ⟨1, .data, [5]⟩ 1, .append ⟨1, .data, []⟩]
    (fun r => decide (r.1.log = ⟨0, 0, [⟨1, .data, []⟩]⟩ ∧
      (LogPair.reopen r.1.onDisk).map LogPair.log ≠ some r.1.log)) (by rfl)
  obtain ⟨held, other⟩ := of_decide_eq_true test
  refine ⟨s, past, events, run.weaken fun _ _ _ => trivial, held, fun file loaded => other ?_⟩
  rw [loaded]
  rfl

end FaultyLog

end Cluster
