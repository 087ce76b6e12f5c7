import LittleDb.Store.TableFile

/-! Table files with arbitrary bytes: when opening and reading one stays within the file. -/

namespace Store

open List

variable {target : List UInt8}

/-- Whether an error is a panic, or a buffer that the file never fills. -/
def ReadError.faults : ReadError → Bool
  | .alloc _ | .outOfRange | .decode .outOfRange => true
  | _ => false

/-- What a call still wants: it skips some keys, then takes those before a bound. -/
structure Wants where
  /-- The keys below this one are passed over. -/
  target : Option (List UInt8)
  endUser : Option Key
  /-- How many entries are taken behind the first; all if there is no number. -/
  moves : Option Nat

/-- What a call wants behind a key, or nothing if it reads no further. -/
def Wants.after (w : Wants) (enc : List UInt8) : Option Wants :=
  if w.target.any (fun target => enc < target) then some w
  else if Cursor.inRange w.endUser enc then
    match w.moves with
    | none => some { w with target := none }
    | some 0 => none
    | some (moves + 1) => some { w with target := none, moves := some moves }
  else none

/-- The records that a call reads lead to one whose key ends past 32 bits. -/
inductive Wraps : Wants → List UInt8 → Prop where
  | here {w : Wants} {buf : List UInt8} (past : decode buf = .error .outOfRange) : Wraps w buf
  | later {w w' : Wants} {buf : List UInt8} {rec : Record} {n : Nat} (read : decode buf = .ok (rec, n))
      (on : w.after rec.key = some w') (rest : Wraps w' (buf.drop n)) : Wraps w buf

/-- A block a call can read: a size of the file, and no panic in decoding. -/
structure Reader.Sized (r : Reader) (w : Wants) (e : IndexEntry) : Prop where
  positive : 0 ≤ e.blockSize
  inside : e.blockSize ≤ r.file.length
  unwrapped : ∀ buf, r.loadBlock e = .ok buf → ¬ Wraps w buf

/-- Reads a block's records: what is still wanted, or nothing after a stop. -/
def Wants.through : Nat → Wants → List UInt8 → Except ReadError (Option Wants)
  | 0, w, _ => .ok (some w)
  | fuel + 1, w, buf =>
    if buf.isEmpty then .ok (some w)
    else
      match decode buf with
      | .error e => .error (.decode e)
      | .ok (rec, n) =>
        match w.after rec.key with
        | none => .ok none
        | some w' => through fuel w' (buf.drop n)

/-- Reads blocks as far as a call wants; a cursor wants none empty. -/
def Reader.walk (r : Reader) (cursor : Bool) : Bool → Wants → List IndexEntry → Except ReadError (Option Wants)
  | _, w, [] => .ok (some w)
  | crossed, w, e :: rest =>
    match r.loadBlock e with
    | .error why => .error why
    | .ok buf =>
      if crossed && buf.isEmpty then .error (.decode .eof)
      else
        match Wants.through (buf.length + 1) w buf with
        | .error why => .error why
        | .ok none => .ok none
        | .ok (some w') => r.walk cursor cursor w' rest

inductive ReadCall where
  | getAsOf (userKey : Key) (snapshot : Nat)
  | newestVersionTS (userKey : Key)
  | iterate
  /-- A cursor over a range, moved on a number of times. -/
  | newIterator (start end_ : Option Key) (moves : Nat)

/-- The error that a computation ends with, if it has no result. -/
def failureOf {α : Type} : Except ReadError α → Option ReadError
  | .error why => some why
  | .ok _ => none

/-- The error that a call ends with, if it has no result. -/
def ReadCall.failure (r : Reader) : ReadCall → Option ReadError
  | .getAsOf userKey snapshot => failureOf (r.getAsOf userKey snapshot)
  | .newestVersionTS userKey => failureOf (r.newestVersionTS userKey)
  | .iterate => failureOf r.iterate
  | .newIterator start end_ moves => (Cursor.advance^[moves] (r.newIterator start end_)).err

namespace ReadCall

def wants : ReadCall → Wants
  | .getAsOf userKey snapshot => ⟨some (encodeKey userKey snapshot), none, some 0⟩
  | .newestVersionTS userKey => ⟨some (encodeKey userKey maxUint64), none, some 0⟩
  | .iterate => ⟨none, none, none⟩
  | .newIterator start end_ moves => ⟨start.map fun k => encodeKey k maxUint64, end_, some moves⟩

/-- The blocks a call may read: two for a point read, from the start on for a cursor. -/
def blocks (r : Reader) : ReadCall → List IndexEntry
  | .getAsOf userKey snapshot => sought userKey (encodeKey userKey snapshot)
  | .newestVersionTS userKey => sought userKey (encodeKey userKey maxUint64)
  | .iterate => r.index
  | .newIterator start _ _ => r.index.drop ((start.map fun k => r.startBlock (encodeKey k maxUint64)).getD 0)
where
  sought (userKey : Key) (target : List UInt8) : List IndexEntry :=
    if r.filter.any (fun f => !f.mayContain userKey) then [] else (r.index.drop (r.startBlock target)).take 2

def isCursor : ReadCall → Bool
  | .newIterator _ _ _ => true
  | _ => false

/-- A call comes to a block: it has read the blocks before and wants more. -/
def ComesTo (call : ReadCall) (r : Reader) (w : Wants) (e : IndexEntry) : Prop :=
  ∃ front back, call.blocks r = front ++ e :: back ∧ r.walk call.isCursor false call.wants front = .ok (some w)

end ReadCall

/-- An accepted footer: the magic number, index and filter in the file. -/
def FooterAccepted (file : List UInt8) : Prop :=
  footerSize ≤ file.length ∧ footerNumber file 6 = tableMagic ∧ footerPasses file 0 = true ∧
    footerPasses file 2 = true

/-- An accepted footer is safe although its sums may have wrapped around. -/
structure FooterSound (file : List UInt8) : Prop where
  index : toInt64 (footerNumber file 1) ≤ file.length
  entries : ∀ buf, readAt file (toInt64 (footerNumber file 0)) (toInt64 (footerNumber file 1)) = .ok buf →
    parseIndex (buf.length + 1) buf ≠ .error (.decode .outOfRange)
  bloom : ∀ buf entries, readAt file (toInt64 (footerNumber file 0)) (toInt64 (footerNumber file 1)) = .ok buf →
    parseIndex (buf.length + 1) buf = .ok entries → toInt64 (footerNumber file 3) ≤ file.length

variable {b buf : List UInt8} {fuel : Nat} {why : ReadError} {r : Reader} {f : Bloom}

theorem decode_bounds {rec : Record} {n : Nat} (read : decode b = .ok (rec, n)) : 0 < n ∧ n ≤ b.length := by
  unfold decode at read
  simp only at read
  split_ifs at read with _ _ short
  · split at read <;> cases read
  split at read
  · cases read
  · obtain ⟨-, rfl⟩ := Prod.mk.inj (Except.ok.inj read)
    exact ⟨by unfold headerSize; omega, not_lt.mp short⟩

theorem not_isEmpty_of_decode (read : decode b ≠ .error .eof) : b.isEmpty = false := by
  cases b with
  | nil => exact absurd rfl read
  | cons => rfl

theorem faults_decode {e : DecodeError} (faults : (ReadError.decode e).faults = true) : e = .outOfRange := by
  cases e <;> first | rfl | cases faults

namespace Wants

variable {w : Wants}

/-- Fuel that lasts for the bytes left makes no difference. -/
theorem through_fuel {fuel' : Nat} (enough : buf.length < fuel) (enough' : buf.length < fuel') :
    through fuel w buf = through fuel' w buf := by
  induction fuel generalizing fuel' w buf with
  | zero => omega
  | succ fuel ih =>
    obtain ⟨fuel', rfl⟩ : ∃ less, fuel' = less + 1 := ⟨fuel' - 1, by omega⟩
    rw [through, through]
    split_ifs
    · rfl
    · cases read : decode buf with
      | error e => rfl
      | ok pair =>
        obtain ⟨some_bytes, within⟩ := decode_bounds (n := pair.2) read
        have fewer : (buf.drop pair.2).length < fuel ∧ (buf.drop pair.2).length < fuel' := by
          rw [List.length_drop]
          omega
        cases on : w.after pair.1.key with
        | none => simp only [on]
        | some w' =>
          simp only [on]
          exact ih fewer.1 fewer.2

theorem through_cons {rec : Record} {n : Nat} (read : decode buf = .ok (rec, n)) :
    through (buf.length + 1) w buf = match w.after rec.key with
      | none => .ok none
      | some w' => through ((buf.drop n).length + 1) w' (buf.drop n) := by
  obtain ⟨some_bytes, within⟩ := decode_bounds read
  have fewer : (buf.drop n).length < buf.length := by
    rw [List.length_drop]
    omega
  rw [through, not_isEmpty_of_decode (by simp [read]), read, if_neg Bool.false_ne_true]
  dsimp only
  cases w.after rec.key with
  | none => rfl
  | some w' => exact through_fuel fewer (Nat.lt_succ_self _)

theorem wraps_of_through (stopped : through fuel w buf = .error why) (faults : why.faults = true) : Wraps w buf := by
  induction fuel generalizing w buf with
  | zero => cases stopped
  | succ fuel ih =>
    rw [through] at stopped
    split_ifs at stopped
    cases read : decode buf with
    | error e =>
      rw [read] at stopped
      cases stopped
      exact .here (faults_decode faults ▸ read)
    | ok pair =>
      rw [read] at stopped
      cases on : w.after pair.1.key with
      | none => simp [on] at stopped
      | some w' =>
        simp only [on] at stopped
        exact .later read on (ih stopped)

theorem through_of_wraps (wraps : Wraps w buf) (enough : buf.length < fuel) :
    through fuel w buf = .error (.decode .outOfRange) := by
  induction wraps generalizing fuel with
  | @here w buf past =>
    obtain ⟨fuel, rfl⟩ : ∃ less, fuel = less + 1 := ⟨fuel - 1, by omega⟩
    simp [through, not_isEmpty_of_decode (b := buf) (by simp [past]), past]
  | @later w w' buf rec n read on rest ih =>
    obtain ⟨fuel, rfl⟩ : ∃ less, fuel = less + 1 := ⟨fuel - 1, by omega⟩
    obtain ⟨some_bytes, within⟩ := decode_bounds read
    have below := ih (show (buf.drop n).length < fuel by rw [List.length_drop]; omega)
    simp [through, not_isEmpty_of_decode (b := buf) (by simp [read]), read, on, below]

theorem not_wraps_nil : ¬ Wraps w [] := fun wraps => by
  cases through_of_wraps wraps (Nat.lt_succ_self _)

end Wants

section Reader

variable {e : IndexEntry} {es : List IndexEntry} {w : Wants} {cursor crossed : Bool}

theorem readAt_faults {file : List UInt8} {offset size : Int} {why : ReadError}
    (stopped : readAt file offset size = .error why) : why.faults = true ↔ size < 0 ∨ file.length < size := by
  unfold readAt at stopped
  split_ifs at stopped with beyond <;> cases stopped
  · exact iff_of_true rfl beyond
  · exact iff_of_false Bool.false_ne_true beyond

theorem Reader.loadBlock_length (load : r.loadBlock e = .ok buf) : buf.length ≤ e.blockSize.toNat := by
  simp only [loadBlock, readAt] at load
  split_ifs at load
  cases load
  exact length_take_le ..

/-- A block is sized and read, to its end or so far, or reading it fails. -/
theorem Reader.walk_cons (r : Reader) (cursor crossed : Bool) (w : Wants) (e : IndexEntry) :
    (r.Sized w e ∧ ((∀ rest, r.walk cursor crossed w (e :: rest) = .ok none) ∨
      ∃ w', ∀ rest, r.walk cursor crossed w (e :: rest) = r.walk cursor cursor w' rest)) ∨
    ∃ why, (∀ rest, r.walk cursor crossed w (e :: rest) = .error why) ∧ (why.faults = true ↔ ¬ r.Sized w e) := by
  cases load : r.loadBlock e with
  | error why =>
    refine .inr ⟨why, fun rest => by simp only [walk, load], ?_⟩
    rw [readAt_faults load]
    constructor
    · rintro beyond ⟨positive, inside, -⟩
      omega
    · refine fun unsized => by_contra fun inside => unsized ?_
      push Not at inside
      exact ⟨inside.1, inside.2, fun buf loaded => by rw [load] at loaded; cases loaded⟩
  | ok buf =>
    have inside : 0 ≤ e.blockSize ∧ e.blockSize ≤ r.file.length := by
      simp only [loadBlock, readAt] at load
      split_ifs at load
      omega
    -- The block can be read, so only its records can fault.
    have sized : r.Sized w e ↔ ¬ Wraps w buf :=
      ⟨fun sized => sized.unwrapped buf load, fun calm =>
        ⟨inside.1, inside.2, fun other loaded => by rw [load] at loaded; cases loaded; exact calm⟩⟩
    rw [sized, not_not]
    by_cases empty : (crossed && buf.isEmpty) = true
    · refine .inr ⟨.decode .eof, fun rest => by simp only [walk, load, empty, if_true], ?_⟩
      rw [List.isEmpty_iff.mp (Bool.and_eq_true_iff.mp empty).2]
      exact iff_of_false Bool.false_ne_true Wants.not_wraps_nil
    · have calm : ∀ {found}, Wants.through (buf.length + 1) w buf = .ok found → ¬ Wraps w buf := by
        intro found read wraps
        rw [Wants.through_of_wraps wraps (Nat.lt_succ_self _)] at read
        cases read
      cases read : Wants.through (buf.length + 1) w buf with
      | error why =>
        refine .inr ⟨why, fun rest => by simp only [walk, load, empty, read]; rfl, Wants.wraps_of_through read, ?_⟩
        intro wraps
        rw [Wants.through_of_wraps wraps (Nat.lt_succ_self _)] at read
        cases read
        rfl
      | ok found =>
        refine .inl ⟨calm read, ?_⟩
        cases found with
        | none => exact .inl fun rest => by simp only [walk, load, empty, read]; rfl
        | some w' => exact .inr ⟨w', fun rest => by simp only [walk, load, empty, read]; rfl⟩

/-- Reading faults exactly at the first block come to that is not sized. -/
theorem Reader.walk_faults : (∃ why, r.walk cursor crossed w es = .error why ∧ why.faults = true) ↔
    ∃ front e back w', es = front ++ e :: back ∧ r.walk cursor crossed w front = .ok (some w') ∧ ¬ r.Sized w' e := by
  induction es generalizing w crossed with
  | nil => simp [walk]
  | cons e es ih =>
    rcases r.walk_cons cursor crossed w e with ⟨sized, stops | ⟨w', through⟩⟩ | ⟨why, fails, exact_⟩
    · -- The call stops inside this block.
      refine ⟨fun ⟨why, stopped, _⟩ => ?_, fun ⟨front, bad, back, w', split_, before, unsized⟩ => ?_⟩
      · rw [stops] at stopped
        cases stopped
      · cases front with
        | nil => cases split_; cases before; exact absurd sized unsized
        | cons first front => cases split_; rw [stops] at before; cases before
    · -- The block is read through, so the fault is behind it.
      rw [through, ih]
      constructor
      · rintro ⟨front, bad, back, w'', rfl, before, unsized⟩
        exact ⟨e :: front, bad, back, w'', rfl, (through front).trans before, unsized⟩
      · rintro ⟨front, bad, back, w'', split_, before, unsized⟩
        cases front with
        | nil => cases split_; cases before; exact absurd sized unsized
        | cons first front =>
          cases split_
          rw [through] at before
          exact ⟨front, bad, back, w'', rfl, before, unsized⟩
    · -- Nothing is read behind the block.
      refine ⟨fun ⟨other, stopped, faults⟩ => ?_, fun ⟨front, bad, back, w', split_, before, unsized⟩ => ?_⟩
      · rw [fails] at stopped
        cases stopped
        exact ⟨[], e, es, w, rfl, rfl, exact_.mp faults⟩
      · cases front with
        | nil => cases split_; cases before; exact ⟨why, fails es, exact_.mpr unsized⟩
        | cons first front => cases split_; rw [fails] at before; cases before

/-- A point read stops at the first key that is not below its target. -/
theorem Wants.after_seek (target enc : List UInt8) :
    after ⟨some target, none, some 0⟩ enc = if enc < target then some ⟨some target, none, some 0⟩ else none := by
  simp [after, Cursor.inRange]

theorem seekBlock_through : Wants.through fuel ⟨some target, none, some 0⟩ buf =
    (seekBlock target fuel buf).map fun found => if found.isSome then none else some ⟨some target, none, some 0⟩ := by
  induction fuel generalizing buf with
  | zero => rfl
  | succ fuel ih =>
    rw [Wants.through, seekBlock]
    split_ifs
    · rfl
    · cases read : decode buf with
      | error e => rfl
      | ok pair =>
        simp only [Wants.after_seek]
        split_ifs
        · exact ih
        · rfl

theorem Reader.seekBlocks_walk : r.walk false false ⟨some target, none, some 0⟩ es =
    (r.seekBlocks target es).map fun found => if found.isSome then none else some ⟨some target, none, some 0⟩ := by
  induction es with
  | nil => rfl
  | cons e es ih =>
    rw [walk, seekBlocks]
    cases r.loadBlock e with
    | error why => rfl
    | ok buf =>
      simp only [Bool.false_and, Bool.false_eq_true, if_false, seekBlock_through]
      cases seekBlock target (buf.length + 1) buf with
      | error why => rfl
      | ok found =>
        cases found with
        | none => exact ih
        | some rec => rfl

theorem blockRecords_through : Wants.through fuel ⟨none, none, none⟩ buf =
    (blockRecords fuel buf).map fun _ => some ⟨none, none, none⟩ := by
  induction fuel generalizing buf with
  | zero => rfl
  | succ fuel ih =>
    rw [Wants.through, blockRecords]
    split_ifs
    · rfl
    · cases read : decode buf with
      | error e => rfl
      | ok pair =>
        show Wants.through fuel ⟨none, none, none⟩ (buf.drop pair.2) = _
        rw [ih]
        dsimp only
        cases blockRecords fuel (buf.drop pair.2) <;> rfl

theorem Reader.readBlocks_walk : r.walk false false ⟨none, none, none⟩ es =
    (r.readBlocks es).map fun _ => some ⟨none, none, none⟩ := by
  induction es with
  | nil => rfl
  | cons e es ih =>
    rw [walk, readBlocks]
    cases r.loadBlock e with
    | error why => rfl
    | ok buf =>
      simp only [Bool.false_and, Bool.false_eq_true, if_false, blockRecords_through]
      cases blockRecords (buf.length + 1) buf with
      | error why => rfl
      | ok records =>
        show r.walk false false ⟨none, none, none⟩ es = _
        rw [ih]
        dsimp only
        cases r.readBlocks es <;> rfl

theorem Reader.startBlock_lt (filled : r.index.isEmpty = false) : r.startBlock target < r.index.length := by
  have some_block : 0 < r.index.length := length_pos_iff.mpr (by simpa using filled)
  have found : Search.search r.index.length (fun i => (r.index[i]?).any fun e => decide (target < e.firstKey)) ≤
      r.index.length := Search.search_le
  unfold startBlock
  omega

end Reader

namespace Cursor

variable {it it' : Cursor} {w : Wants}

/-- What a call reads from a cursor on: its block's rest, and those behind. -/
def ahead (it : Cursor) (w : Wants) : Except ReadError (Option Wants) :=
  match Wants.through ((it.buf.drop it.offset).length + 1) w (it.buf.drop it.offset) with
  | .error why => .error why
  | .ok none => .ok none
  | .ok (some w') => it.r.walk true true w' (it.r.index.drop (it.blockIdx + 1))

/-- The bytes before a cursor, if every block has its size. -/
def left (it : Cursor) : Nat :=
  (it.buf.drop it.offset).length + ((it.r.index.drop (it.blockIdx + 1)).map fun e => e.blockSize.toNat).sum

/-- A cursor moves without an error: what it reads and where it stands. -/
structure Moves (it it' : Cursor) (enc : List UInt8) : Prop where
  clean : it'.err = none
  endUser : it'.endUser = it.endUser
  left : it'.left < it.left
  ahead : ∀ w, it.ahead w = match w.after enc with
    | none => .ok none
    | some w' => it'.ahead w'

/-- A cursor without a further record: at the end, or with an error. -/
def Ends (it it' : Cursor) : Prop :=
  (it'.err = none ∧ ∀ w, it.ahead w = .ok (some w)) ∨ ∃ why, it'.err = some why ∧ ∀ w, it.ahead w = .error why

theorem decodeNext_cases (clean : it.err = none) (crossed : it.buf.drop it.offset ≠ []) :
    (∃ it' e, it.decodeNext = (it', some e) ∧ it.Moves it' e.1) ∨ ∃ it', it.decodeNext = (it', none) ∧ it.Ends it' := by
  have filled : (it.buf.drop it.offset).isEmpty = false := by simpa using crossed
  unfold decodeNext
  cases read : decode (it.buf.drop it.offset) with
  | error e =>
    refine .inr ⟨_, rfl, .inr ⟨_, rfl, fun w => ?_⟩⟩
    simp [ahead, Wants.through, filled, read]
  | ok pair =>
    obtain ⟨rec, n⟩ := pair
    obtain ⟨some_bytes, within⟩ := decode_bounds read
    refine .inl ⟨_, _, rfl, clean, rfl, ?_, fun w => ?_⟩
    · simp only [Cursor.left, ← drop_drop, List.length_drop (i := n)]
      omega
    · simp only [ahead, Wants.through_cons read, Reader.entryOf, ← drop_drop]
      cases w.after rec.key <;> rfl

theorem nextRaw_cases (clean : it.err = none) :
    (∃ it' e, it.nextRaw = (it', some e) ∧ it.Moves it' e.1) ∨ ∃ it', it.nextRaw = (it', none) ∧ it.Ends it' := by
  unfold nextRaw
  by_cases inside : it.offset < it.buf.length
  · rw [if_neg (not_le.mpr inside)]
    exact decodeNext_cases clean (ne_nil_of_length_pos (by rw [List.length_drop]; omega))
  · rw [if_pos (not_lt.mp inside)]
    -- Nothing is left of this block.
    have spent : it.buf.drop it.offset = [] := drop_of_length_le (not_lt.mp inside)
    have crosses : ∀ w, it.ahead w = it.r.walk true true w (it.r.index.drop (it.blockIdx + 1)) := by
      intro w
      simp [ahead, spent, Wants.through]
    split_ifs with last
    · refine .inr ⟨it, rfl, .inl ⟨clean, fun w => ?_⟩⟩
      rw [crosses, drop_of_length_le last]
      rfl
    · have low := not_le.mp last
      have next : it.r.index.drop (it.blockIdx + 1) =
          it.r.index[it.blockIdx + 1] :: it.r.index.drop (it.blockIdx + 1 + 1) := drop_eq_getElem_cons low
      unfold loadBlock
      rw [getElem?_eq_getElem low]
      dsimp only
      cases load : it.r.loadBlock it.r.index[it.blockIdx + 1] with
      | error why =>
        refine .inr ⟨_, rfl, .inr ⟨why, rfl, fun w => ?_⟩⟩
        rw [crosses, next, Reader.walk, load]
      | ok buf =>
        dsimp only
        rw [clean]
        dsimp only [Option.isSome]
        rw [if_neg Bool.false_ne_true]
        by_cases empty : buf = []
        · subst empty
          refine .inr ⟨_, rfl, .inr ⟨.decode .eof, rfl, fun w => ?_⟩⟩
          rw [crosses, next, Reader.walk, load]
          rfl
        · -- The new block is read as if the cursor had stood in front of it.
          have filled : buf.isEmpty = false := by simpa using empty
          let there : Cursor := { it with blockIdx := it.blockIdx + 1, buf := buf, offset := 0, err := none }
          have same : ∀ w, it.ahead w = there.ahead w := by
            intro w
            rw [crosses, next, Reader.walk, load]
            simp [ahead, there, filled]
          have fits := Reader.loadBlock_length load
          have fewer : there.left ≤ it.left := by
            simp only [Cursor.left, there, spent, next, drop_zero, map_cons, sum_cons, length_nil]
            omega
          have crossed : there.buf.drop there.offset ≠ [] := by simpa [there] using empty
          rcases decodeNext_cases rfl crossed with
            ⟨it', e, moved, moves⟩ | ⟨it', ended, ends⟩
          · refine .inl ⟨it', e, moved, moves.clean, moves.endUser, moves.left.trans_le fewer, fun w => ?_⟩
            rw [same, moves.ahead]
          · refine .inr ⟨it', ended, ?_⟩
            simpa only [Ends, same] using ends

theorem advance_rests (rests : it.current = none) (moves : Nat) : advance^[moves] it = it :=
  Function.iterate_fixed (by simp [advance, rests]) moves

theorem Ends.err (ends : it.Ends it') (w : Wants) (moves : Nat) :
    (advance^[moves] { it' with current := none }).err = failureOf (it.ahead w) := by
  rw [advance_rests rfl]
  rcases ends with ⟨clean, stops⟩ | ⟨why, error, stops⟩
  · rw [stops]
    exact clean
  · rw [stops]
    exact error

/-- A cursor that is moved on: its error is that of reading as many entries. -/
theorem advance_err (clean : it.err = none) (on : it.current.isSome) (moves : Nat) :
    (advance^[moves + 1] it).err = failureOf (it.ahead ⟨none, it.endUser, some moves⟩) := by
  have standing : ¬ it.current.isNone = true := by simpa [Option.isSome_iff_ne_none] using on
  induction moves generalizing it with
  | zero =>
    show it.advance.err = _
    rw [advance, if_neg standing]
    rcases nextRaw_cases clean with ⟨it', e, moved, moves⟩ | ⟨it', ended, ends⟩
    · rw [moved, moves.ahead, ← moves.endUser]
      simp only [Wants.after, Option.any_none, Bool.false_eq_true, if_false, ite_self]
      split_ifs <;> exact moves.clean
    · rw [ended]
      exact ends.err _ 0
  | succ moves ih =>
    rw [Function.iterate_succ_apply, advance, if_neg standing]
    rcases nextRaw_cases clean with ⟨it', e, moved, moves'⟩ | ⟨it', ended, ends⟩
    · rw [moved, moves'.ahead, ← moves'.endUser]
      simp only [Wants.after, Option.any_none, Bool.false_eq_true, if_false]
      split_ifs
      · exact @ih { it' with current := some e } moves'.clean rfl Bool.false_ne_true
      · rw [advance_rests rfl]
        exact moves'.clean
    · rw [ended]
      exact ends.err ..

/-- Positioning and moving on: the error is that of reading on. -/
theorem position_err (clean : it.err = none) {startTarget : Option (List UInt8)} {fuel : Nat}
    (enough : it.left < fuel) (moves : Nat) : (advance^[moves] (it.position startTarget fuel)).err =
      failureOf (it.ahead ⟨startTarget, it.endUser, some moves⟩) := by
  induction fuel generalizing it with
  | zero => omega
  | succ fuel ih =>
    rw [position]
    rcases nextRaw_cases clean with ⟨it', e, moved, moves'⟩ | ⟨it', ended, ends⟩
    · have shorter := moves'.left
      rw [moved, moves'.ahead, ← moves'.endUser]
      dsimp only [Wants.after]
      split_ifs
      · exact ih moves'.clean (by omega)
      · cases moves with
        | zero => exact moves'.clean
        | succ moves => exact @advance_err { it' with current := some e } moves'.clean rfl moves
      · rw [advance_rests rfl]
        exact moves'.clean
    · rw [ended]
      exact ends.err ..

end Cursor

/-- The error of a range cursor is that of walking from its start. -/
theorem Reader.newIterator_err (r : Reader) (start end_ : Option Key) (moves : Nat) :
    (Cursor.advance^[moves] (r.newIterator start end_)).err =
      failureOf (r.walk true false (ReadCall.newIterator start end_ moves).wants
        ((ReadCall.newIterator start end_ moves).blocks r)) := by
  have first : ((start.map fun k => encodeKey k maxUint64).map r.startBlock).getD 0 =
      (start.map fun k => r.startBlock (encodeKey k maxUint64)).getD 0 := by cases start <;> rfl
  unfold newIterator
  dsimp only [ReadCall.wants, ReadCall.blocks]
  by_cases empty : r.index.isEmpty = true
  · rw [if_pos empty, Cursor.advance_rests rfl, List.isEmpty_iff.mp empty, drop_nil]
    rfl
  · rw [if_neg empty, first]
    generalize at_ : (start.map fun k => r.startBlock (encodeKey k maxUint64)).getD 0 = i
    have low : i < r.index.length := by
      rw [← at_]
      cases start with
      | none => exact length_pos_iff.mpr (by simpa using empty)
      | some k => exact startBlock_lt (by simpa using empty)
    rw [drop_eq_getElem_cons low, walk]
    cases load : r.loadBlock r.index[i] with
    | error why =>
      have failed : Cursor.loadBlock ⟨r, end_, 0, [], 0, none, none⟩ i = ⟨r, end_, 0, [], 0, none, some why⟩ := by
        simp [Cursor.loadBlock, getElem?_eq_getElem low, load]
      rw [failed, if_pos (show (some why).isSome = true from rfl), Cursor.advance_rests rfl]
      rfl
    | ok buf =>
      have loaded : Cursor.loadBlock ⟨r, end_, 0, [], 0, none, none⟩ i = ⟨r, end_, i, buf, 0, none, none⟩ := by
        simp [Cursor.loadBlock, getElem?_eq_getElem low, load]
      -- The number of bytes in all blocks is fuel enough.
      have whole := congrArg List.sum (congrArg (List.map fun e => e.blockSize.toNat) (take_append_drop i r.index))
      rw [drop_eq_getElem_cons low, map_append, sum_append, map_cons, sum_cons] at whole
      have fits := loadBlock_length load
      rw [loaded, if_neg (by simp), Cursor.position_err rfl (by simp only [Cursor.left, drop_zero]; omega)]
      simp [Cursor.ahead]

theorem failureOf_eq {α : Type} {result : Except ReadError α} : failureOf result = some why ↔ result = .error why := by
  cases result <;> simp [failureOf]

theorem failureOf_map {α β : Type} (f : α → β) (result : Except ReadError α) :
    failureOf (result.map f) = failureOf result := by
  cases result <;> rfl

theorem Reader.find_failure (r : Reader) (userKey : Key) (target : List UInt8) : failureOf (r.find userKey target) =
    failureOf (r.walk false false ⟨some target, none, some 0⟩ (ReadCall.blocks.sought r userKey target)) := by
  unfold find ReadCall.blocks.sought
  split_ifs with empty
  · rfl
  · rw [List.isEmpty_iff.mp empty, drop_nil, take_nil]
    rfl
  · rfl
  · rw [seekBlocks_walk, failureOf_map]

/-- A call faults exactly if walking through its blocks does. -/
theorem ReadCall.failure_faults (call : ReadCall) : (∃ why, call.failure r = some why ∧ why.faults = true) ↔
    ∃ why, r.walk call.isCursor false call.wants (call.blocks r) = .error why ∧ why.faults = true := by
  simp only [← failureOf_eq]
  -- What a point read finds can only be malformed, which is an error that is returned.
  have point : ∀ {α : Type} {found : Except ReadError (Option Record)} {result : Except ReadError α},
      (∀ why, found = .error why → result = .error why) →
      (∀ why, result = .error why → found = .error why ∨ why = .malformed) →
      ((∃ why, failureOf result = some why ∧ why.faults = true) ↔
        ∃ why, failureOf found = some why ∧ why.faults = true) := by
    simp only [failureOf_eq]
    intro α found result there back
    refine ⟨fun ⟨why, failed, faults⟩ => ⟨why, (back why failed).resolve_right ?_, faults⟩,
      fun ⟨why, failed, faults⟩ => ⟨why, there why failed, faults⟩⟩
    rintro rfl
    cases faults
  cases call with
  | getAsOf userKey snapshot =>
    refine (point (fun why failed => ?_) fun why failed => ?_).trans
      (iff_of_eq (by rw [r.find_failure userKey (encodeKey userKey snapshot)]; rfl))
    · rw [Reader.getAsOf, failed]
    · unfold Reader.getAsOf at failed
      grind
  | newestVersionTS userKey =>
    refine (point (fun why failed => ?_) fun why failed => ?_).trans
      (iff_of_eq (by rw [r.find_failure userKey (encodeKey userKey maxUint64)]; rfl))
    · rw [Reader.newestVersionTS, failed]
    · unfold Reader.newestVersionTS at failed
      grind
  | iterate =>
    have same : failureOf (r.walk false false ⟨none, none, none⟩ r.index) = failureOf r.iterate := by
      rw [Reader.readBlocks_walk, failureOf_map]
      rfl
    rw [failure, ← same]
    exact Iff.rfl
  | newIterator start end_ moves => exact iff_of_eq (by rw [ReadCall.failure, r.newIterator_err start end_ moves]; rfl)

theorem Bloom.load_positions {hash : List UInt8 → BitVec 64} {data key : List UInt8} {pos : Nat}
    (loaded : Bloom.load data = some f) (some_bits : f.m ≠ 0) (looked : pos ∈ f.positionsBy hash key) :
    pos >>> 3 < f.bits.length := by
  cases data with
  | nil => cases loaded
  | cons k bits =>
    simp only [Bloom.load] at loaded
    split_ifs at loaded
    cases loaded
    simp only [positionsBy, mem_map, mem_range] at looked
    obtain ⟨i, -, rfl⟩ := looked
    dsimp only at some_bits
    have low := Nat.mod_lt ((hashPair hash key).1 + i * (hashPair hash key).2) (Nat.pos_of_ne_zero some_bits)
    rw [Nat.shiftRight_eq_div_pow, length_map]
    omega

theorem openReader_filter {file : List UInt8} (opened : openReader file = .ok r)
    (held : r.filter = some f) : ∃ data, Bloom.load data = some f := by
  unfold openReader at opened
  dsimp only at opened
  repeat' split at opened
  all_goals cases opened
  all_goals first | cases held; exact ⟨_, ‹_›⟩ | cases held

theorem parseIndex_faults
    (stopped : parseIndex fuel buf = .error why) (faults : why.faults = true) : why = .decode .outOfRange := by
  induction fuel generalizing buf with
  | zero => cases stopped
  | succ fuel ih =>
    rw [parseIndex] at stopped
    split_ifs at stopped
    cases read : decode buf with
    | error e =>
      rw [read] at stopped
      cases stopped
      rw [faults_decode faults]
    | ok pair =>
      simp only [read] at stopped
      split_ifs at stopped
      · cases stopped
        cases faults
      · cases later : parseIndex fuel (buf.drop pair.2) with
        | error e =>
          simp only [later] at stopped
          cases stopped
          exact ih later
        | ok rest => simp only [later] at stopped; cases stopped

theorem openReader_safe_iff (file : List UInt8) :
    (∀ why, openReader file = .error why → why.faults = false) ↔ (FooterAccepted file → FooterSound file) := by
  constructor
  · rintro safe ⟨long, magic, index, bloom⟩
    -- Each buffer that is too big would be a fault of its own.
    have tooBig : ∀ {offset size : Int}, file.length < size → readAt file offset size = .error (.alloc size) :=
      fun big => if_pos (.inr big)
    have unfolded := openReader.eq_1 file
    simp only [if_neg (not_lt.mpr long), magic, index, bloom, ne_eq, not_true_eq_false, Bool.not_true,
      Bool.or_self, Bool.false_eq_true, if_false] at unfolded
    refine ⟨by_contra fun big => ?_, fun buf read past => ?_, fun buf entries read parsed => by_contra fun big => ?_⟩
    · rw [tooBig (not_le.mp big)] at unfolded
      cases safe _ unfolded
    · simp only [read, past] at unfolded
      cases safe _ unfolded
    · have positive : 0 < toInt64 (footerNumber file 3) := by omega
      simp only [read, parsed, if_pos positive, tooBig (not_le.mp big)] at unfolded
      cases safe _ unfolded
  · intro sound why stopped
    by_contra bad
    have faults : why.faults = true := by simpa using bad
    unfold openReader at stopped
    split_ifs at stopped with short magic outside
    · cases stopped; cases faults
    · cases stopped; cases faults
    · cases stopped; cases faults
    · simp only [Bool.or_eq_true, Bool.not_eq_true', not_or, Bool.not_eq_false] at outside
      have within := sound ⟨not_lt.mp short, not_not.mp magic, outside.1, outside.2⟩
      have nonneg : ∀ {i : Nat}, footerPasses file i = true → 0 ≤ toInt64 (footerNumber file (i + 1)) := by
        intro i passes
        simp only [footerPasses, decide_eq_true_eq] at passes
        exact passes.2.1
      -- The reads in the order of the source: index, entries, filter.
      dsimp only at stopped
      split at stopped
      · rename_i other read
        cases stopped
        rcases (readAt_faults read).mp faults with negative | big
        · exact absurd (nonneg outside.1) (not_le.mpr negative)
        · exact absurd within.index (not_le.mpr big)
      · rename_i buf read
        split at stopped
        · rename_i other parsed
          cases stopped
          exact within.entries buf read (parseIndex_faults parsed faults ▸ parsed)
        · rename_i entries parsed
          split_ifs at stopped
          split at stopped
          · rename_i other bloom
            cases stopped
            rcases (readAt_faults bloom).mp faults with negative | big
            · exact absurd (nonneg outside.2) (not_le.mpr negative)
            · exact absurd (within.bloom buf entries read parsed) (not_le.mpr big)
          · split at stopped
            · cases stopped; cases faults
            · cases stopped

/--
When opening and reading a table file with arbitrary bytes stays within the file.

Opening faults exactly if an accepted footer is not sound, and a read if it comes to a block that is not sized.
-/
theorem tableReads_safe_iff (file : List UInt8) :
    ((∀ why, openReader file = .error why → why.faults = false) ↔ (FooterAccepted file → FooterSound file)) ∧
    (∀ b rec n, decode b = .ok (rec, n) → n ≤ b.length) ∧
    ∀ r, openReader file = .ok r →
      (∀ call : ReadCall, (∀ why, call.failure r = some why → why.faults = false) ↔
        ∀ w e, call.ComesTo r w e → r.Sized w e) ∧
      ∀ f, r.filter = some f → f.m ≠ 0 → ∀ hash key, ∀ pos ∈ f.positionsBy hash key, pos >>> 3 < f.bits.length := by
  refine ⟨openReader_safe_iff file, fun b rec n read => (decode_bounds read).2, fun r opened => ⟨fun call => ?_, ?_⟩⟩
  · have faulty := (call.failure_faults (r := r)).trans Reader.walk_faults
    constructor
    · rintro safe w e ⟨front, back, split_, before⟩
      by_contra unsized
      obtain ⟨why, failed, faults⟩ := faulty.mpr ⟨front, e, back, w, split_, before, unsized⟩
      rw [safe why failed] at faults
      cases faults
    · intro sized why failed
      by_contra bad
      obtain ⟨front, e, back, w, split_, before, unsized⟩ := faulty.mp ⟨why, failed, by simpa using bad⟩
      exact unsized (sized w e ⟨front, back, split_, before⟩)
  · intro f held some_bits hash key pos looked
    obtain ⟨data, loaded⟩ := openReader_filter opened held
    exact Bloom.load_positions loaded some_bits looked

/-- A file of a footer, in which the sum of the index's numbers wraps around. -/
def wrappedFooter : List UInt8 := FileWriter.footer (2 ^ 63 - 1) (2 ^ 63 - 1) 0 0 0 0

/-- A file with one index record, which gives its block a negative size. -/
def negativeBlock : List UInt8 :=
  encode (IndexEntry.record ⟨[], 0, -1⟩) ++ FileWriter.footer 0 37 37 0 0 0

/-- The one file asks for exbibytes when opened, the other for a negative size when read. -/
theorem tableReads_fault : wrappedFooter.length = 56 ∧ openReader wrappedFooter = .error (.alloc (2 ^ 63 - 1)) ∧
    ∃ r, openReader negativeBlock = .ok r ∧ r.getAsOf [97] 5 = .error (.alloc (-1)) ∧
      r.iterate = .error (.alloc (-1)) := by
  refine ⟨rfl, failureOf_eq.mp (by decide +kernel), ?_⟩
  have reads : ((openReader negativeBlock).toOption.any fun r => decide
      (failureOf (r.getAsOf [97] 5) = some (.alloc (-1)) ∧ failureOf r.iterate = some (.alloc (-1)))) = true := by
    decide +kernel
  cases opened : openReader negativeBlock with
  | error why =>
    rw [opened] at reads
    cases reads
  | ok r =>
    rw [opened] at reads
    have both := of_decide_eq_true reads
    exact ⟨r, rfl, failureOf_eq.mp both.1, failureOf_eq.mp both.2⟩

end Store
