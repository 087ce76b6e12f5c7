import LittleDb.Lib.Bytes
import LittleDb.Lib.Linearize
import LittleDb.Lib.Links
import LittleDb.Lincheck.Bitset
import Mathlib.Data.List.Dedup
import Mathlib.Data.List.Sort
import Mathlib.Algebra.Ring.Int.Defs

/-! The linearizability checker: operations, the event list, the backtracking search and its verdict. -/

namespace Lincheck

open Function

open Linearize (Event)

inductive OpKind where
  | put
  | get
  | delete
  deriving DecidableEq, Repr

/-- One client operation, what it observed, and its window of ticks. -/
structure Op where
  client : Nat
  kind : OpKind
  key : List UInt8
  /-- The value written by a put, or observed by a get that found one. -/
  value : List UInt8
  found : Bool
  call : Int
  /-- The tick at which it returned, the largest one if it never did. -/
  ret : Int
  deriving DecidableEq, Repr

/-- The return tick of an operation that never completed. -/
def infinity : Int := 2 ^ 63 - 1

/-- The register of one key: a value and whether the key is present. -/
structure RegState where
  value : List UInt8
  present : Bool
  deriving DecidableEq, Repr

def RegState.absent : RegState := ⟨[], false⟩

/-- Applies an operation to the register, refusing a read that does not match. -/
def stepRegister (s : RegState) (op : Op) : Option RegState :=
  match op.kind with
  | .put => some ⟨op.value, true⟩
  | .delete => some .absent
  | .get =>
    if op.found ≠ s.present then none
    else if op.found ∧ op.value ≠ s.value then none
    else some s

/-- A node of the event list: its head, or one end of an operation. -/
inductive Node where
  | head
  /-- The call or the return of the operation with an id. -/
  | event (e : Event Nat)
  deriving DecidableEq, Repr

def Node.match? : Node → Option Node
  | .event (.call i) => some (.event (.ret i))
  | _ => none

def opened (ops : List Op) (i : Nat) : Int := (ops[i]?.map (·.call)).getD 0

def closed (ops : List Op) (i : Nat) : Int := (ops[i]?.map (·.ret)).getD 0

/-- The two events of every operation, stably sorted by tick. -/
def events (ops : List Op) : List (Event Nat) :=
  ((List.range ops.length).flatMap fun i => [.call i, .ret i]).insertionSort fun a b =>
    a.tick (opened ops) (closed ops) ≤ b.tick (opened ops) (closed ops)

/-- Threads the events into a doubly linked list behind the sentinel. -/
def buildEventList (ops : List Op) : Links Node :=
  Links.empty.thread .head ((events ops).map .event)

/-- Splices a call node and its matching return out of the list. -/
def lift (k : Links Node) (n : Node) : Option (Links Node) := do
  -- The call's forward link is followed unchecked: a call always has a later return.
  let _ ← k.next n
  let k ← k.unlink n
  let m ← n.match?
  k.unlink m

/-- Reinserts a lifted call and its return, in the opposite order. -/
def unlift (k : Links Node) (n : Node) : Option (Links Node) := do
  let m ← n.match?
  let k ← k.relink m
  let _ ← k.next n
  k.relink n

/-- One explored frontier: the linearized set and its register state. -/
structure CacheEntry where
  set : Bitset
  state : RegState
  deriving DecidableEq, Repr

/-- The explored frontiers, in buckets by the hash of their set. -/
abbrev Cache := BitVec 64 → List CacheEntry

def cacheHas (cache : Cache) (set : Bitset) (st : RegState) : Bool :=
  (cache set.hash).any fun e => decide (e.state = st) && e.set.equal set

def cacheAdd (cache : Cache) (set : Bitset) (st : RegState) : Cache :=
  update cache set.hash (cache set.hash ++ [⟨set, st⟩])

/-- A provisional choice: the call and the register from before it. -/
structure Frame where
  call : Node
  state : RegState
  deriving DecidableEq, Repr

structure Search where
  links : Links Node
  linearized : Bitset
  cache : Cache
  calls : List Frame
  state : RegState
  entry : Option Node

def Search.start (ops : List Op) : Search where
  links := buildEventList ops
  linearized := newBitset ops.length
  cache := fun _ => []
  calls := []
  state := .absent
  entry := (buildEventList ops).next .head

inductive Turn where
  | again (s : Search)
  | verdict (b : Bool)

/-- Whether the call is linearized now: the register and the set. -/
def Search.choose (ops : List Op) (s : Search) (i : Nat) : Option (RegState × Bitset) := do
  let op ← ops[i]?
  let newState ← stepRegister s.state op
  let tentative := s.linearized.set i
  if cacheHas s.cache tentative newState then none else some (newState, tentative)

/-- One turn of the search loop; nothing on a nil dereference. -/
def Search.step (ops : List Op) (s : Search) : Option Turn :=
  match s.links.next .head with
  | none => some (.verdict true)
  | some _ =>
    match s.entry with
    | some (.event (.call i)) =>
      match s.choose ops i with
      | some (newState, tentative) => do
        let links ← lift s.links (.event (.call i))
        return .again
          { links
            linearized := s.linearized.set i
            cache := cacheAdd s.cache tentative newState
            calls := ⟨.event (.call i), s.state⟩ :: s.calls
            state := newState
            entry := links.next .head }
      | none =>
        -- Deferred: a later operation is tried first.
        some (.again { s with entry := s.links.next (.event (.call i)) })
    | some (.event (.ret _)) =>
      match s.calls with
      | [] => some (.verdict false)
      | top :: calls => do
        -- The operation had to finish by now, so the newest choice is undone.
        let .event e := top.call | none
        let links ← unlift s.links top.call
        return .again
          { s with
            links
            linearized := s.linearized.clear e.id
            calls
            state := top.state
            entry := links.next top.call }
    | _ => none

/-- Turns of the loop up to a bound, until it returns. -/
def Search.run (ops : List Op) : Nat → Search → Option Bool
  | 0, _ => none
  | fuel + 1, s =>
    match s.step ops with
    | none => none
    | some (.verdict b) => some b
    | some (.again s') => Search.run ops fuel s'

/-- Decides whether one key's history has a sequential order, within a bound. -/
def linearizableRegister (fuel : Nat) (ops : List Op) : Option Bool :=
  if ops.length = 0 then some true else (Search.start ops).run ops fuel

/-- The outcome of a check: the verdict and, for a violation, key and operations. -/
structure Result where
  linearizable : Bool
  key : List UInt8
  /-- The operations of the offending key, in the order of their calls. -/
  witness : List Op
  deriving DecidableEq, Repr

/-- The operations stably sorted by call tick, ties broken by return tick. -/
def sortedByCall (ops : List Op) : List Op :=
  ops.insertionSort fun a b => if a.call ≠ b.call then a.call < b.call else a.ret ≤ b.ret

/-- The operations of each key, in the order of the history. -/
def byKey (history : List Op) : List UInt8 → List Op :=
  history.foldl (fun parts op => update parts op.key (parts op.key ++ [op])) fun _ => []

def keys (history : List Op) : List (List UInt8) :=
  (history.map (·.key)).dedup.insertionSort (· ≤ ·)

/-- Checks the keys in turn, up to the first that cannot be linearized. -/
def checkKeys (fuel : Nat) (parts : List UInt8 → List Op) : List (List UInt8) → Option Result
  | [] => some ⟨true, [], []⟩
  | k :: rest =>
    match linearizableRegister fuel (parts k) with
    | none => none
    | some true => checkKeys fuel parts rest
    | some false => some ⟨false, k, sortedByCall (parts k)⟩

/-- Reports whether a history is linearizable, within a bound on the turns. -/
def check (fuel : Nat) (history : List Op) : Option Result :=
  checkKeys fuel (byKey history) (keys history)

end Lincheck
