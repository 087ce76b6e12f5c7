import LittleDb.Cluster.Config
import LittleDb.Cluster.LogFile
import LittleDb.Store.SnapshotDb

/-! Installing a shipped snapshot over a node's directory, crashes on the way, and starting again. -/

namespace Cluster

open Store (Db Dir Key OpenError Options Sessions TableError Value buildSnapshotDB openWith)

/-- What an install has to finish, as its marker records it. -/
structure InstallMarker where
  lastIncludedIndex : Nat
  lastIncludedTerm : Nat
  snapshotTS : Nat
  deriving DecidableEq, Repr

structure Shipment where
  lastIncludedIndex : Nat
  lastIncludedTerm : Nat
  snapshotTS : Nat
  kvs : List (Key × Value)
  sessions : List (Key × Nat)
  /-- The encoded configuration, empty from a leader that ships none. -/
  config : List UInt8

namespace Shipment

variable (m : Shipment)

/-- A follower's session table: later shipped entries replace earlier ones. -/
def sessionTable : Sessions :=
  m.sessions.foldl (fun table s => Function.update table s.1 s.2) fun _ => 0

def marker : InstallMarker := ⟨m.lastIncludedIndex, m.lastIncludedTerm, m.snapshotTS⟩

def build : Except TableError Dir :=
  buildSnapshotDB m.kvs m.sessionTable m.lastIncludedIndex m.snapshotTS

structure Fits : Prop where
  index : m.lastIncludedIndex < 2 ^ 64
  term : m.lastIncludedTerm < 2 ^ 64
  ts : m.snapshotTS < 2 ^ 64

end Shipment

inductive DataFile where
  | wal
  | appliedBase
  | sessions
  | table (id : Nat)

def dataFiles (dir : Dir) : List DataFile :=
  [.wal, .appliedBase, .sessions] ++ dir.tables.map fun e => .table e.1

def removeFile (dir : Dir) : DataFile → Dir
  | .wal => { dir with wal := [] }
  | .appliedBase => { dir with appliedBase := 0 }
  | .sessions => { dir with sessions := fun _ => 0 }
  | .table id => { dir with tables := SortedMap.erase id dir.tables }

def copyFile (src dir : Dir) : DataFile → Dir
  | .wal => { dir with wal := src.wal }
  | .appliedBase => { dir with appliedBase := src.appliedBase }
  | .sessions => { dir with sessions := src.sessions }
  | .table id =>
    match SortedMap.get id src.tables with
    | none => dir
    | some t => { dir with tables := SortedMap.put id t dir.tables }

/-- What a node has on disk: the store's directory and the Raft files. -/
structure Disk where
  data : Dir
  /-- Whether the store's directory was changed since it was last synced. -/
  unsynced : Bool
  marker : Option InstallMarker
  installConfig : Option (List UInt8)
  staged : Option Dir
  config : Option (List UInt8)
  /-- The Raft log; a missing file is an empty one. -/
  log : List UInt8

inductive DiskStep where
  | removeStaged
  | makeStaged
  | stage (built : Dir) (f : DataFile)
  | writeInstallConfig (encoded : List UInt8)
  | writeInstallMarker (m : InstallMarker)
  | remove (f : DataFile)
  | copy (f : DataFile)
  | syncData
  | openStore (opts : Options)
  | installStagedConfig
  | resetLog (index term : Nat)
  | clearInstallMarker
  | clearInstallConfig

namespace Disk

def exec (d : Disk) : DiskStep → Disk
  | .removeStaged => { d with staged := none }
  | .makeStaged => { d with staged := some (d.staged.getD Dir.empty) }
  | .stage built f => { d with staged := some (copyFile built (d.staged.getD Dir.empty) f) }
  | .writeInstallConfig encoded => { d with installConfig := some encoded }
  | .writeInstallMarker m => { d with marker := some m }
  | .remove f => { d with data := removeFile d.data f, unsynced := true }
  | .copy f => { d with data := copyFile (d.staged.getD Dir.empty) d.data f, unsynced := true }
  | .syncData => { d with unsynced := false }
  | .openStore opts =>
    match openWith d.data opts with
    | .error _ => d
    | .ok db => { d with data := db.dir }
  | .installStagedConfig =>
    match d.installConfig with
    | none => d
    | some encoded => { d with config := some (encodeConfig (decodeConfig encoded)) }
  | .resetLog index term => { d with log := (LogFile.resetToBase index term).bytes }
  | .clearInstallMarker => { d with marker := none }
  | .clearInstallConfig => { d with installConfig := none }

end Disk

/-- Replaces the files of the store by the staged ones. -/
def swapInStagedDB (data staged : Dir) : List DiskStep :=
  (dataFiles data).map .remove ++ ((dataFiles staged).map .copy ++ [.syncData])

/-- Removes the marker, which ends an install, and then what was staged. -/
def cleanUp : List DiskStep := [.clearInstallMarker, .clearInstallConfig, .removeStaged]

/-- The steps behind the marker: swap, reopen, configuration, log, clean. -/
def completeInstall (opts : Options) (m : InstallMarker) (data staged : Dir) : List DiskStep :=
  swapInStagedDB data staged ++
    match openWith staged opts with
    -- The node stays parked behind its marker.
    | .error _ => []
    | .ok _ =>
      [.openStore opts, .installStagedConfig, .resetLog m.lastIncludedIndex m.lastIncludedTerm] ++
        cleanUp

/-- The steps up to the marker, if the staged directory can be built. -/
def stageSteps (m : Shipment) (built : Dir) : List DiskStep :=
  [.removeStaged, .makeStaged] ++ ((dataFiles built).map (.stage built) ++
    if m.config = [] then [] else [.writeInstallConfig m.config])

def installSnapshot (opts : Options) (m : Shipment) (d : Disk) : List DiskStep :=
  match m.build with
  -- A pair out of order ends the install before anything but the staged directory was touched.
  | .error _ => [.removeStaged, .makeStaged]
  | .ok built =>
    stageSteps m built ++ (.writeInstallMarker m.marker :: completeInstall opts m.marker d.data built)

/-- Finishes an install whose marker a start finds, and why that fails. -/
def completeInstallIfPending (d : Disk) : List DiskStep × Option LoadError :=
  match d.marker with
  | none => ([], none)
  | some m =>
    match d.staged with
    | none => ([.clearInstallMarker], none)
    | some staged =>
      match LogFile.load d.log with
      | .error e => (swapInStagedDB d.data staged, some e)
      | .ok _ =>
        (swapInStagedDB d.data staged ++
          ([.resetLog m.lastIncludedIndex m.lastIncludedTerm, .installStagedConfig] ++
            cleanUp), none)

inductive BootError where
  | install (e : LoadError)
  | store (e : OpenError)
  | raftLog (e : LoadError)
  /-- The recovered applied index lies below the base of the Raft log. -/
  | belowBase (recovered base : Nat)

structure Boot where
  store : Db
  log : RaftLog
  baseConfig : Members

/-- Opens the store and the Raft files of a node. -/
def openNode (opts : Options) (bootstrapConfig : Members) (d : Disk) : Except BootError Boot :=
  match openWith d.data opts with
  | .error e => .error (.store e)
  | .ok store =>
    match LogFile.load d.log with
    | .error e => .error (.raftLog e)
    | .ok (file, persisted) =>
      if store.recoveredApplied < file.baseIndex then
        .error (.belowBase store.recoveredApplied file.baseIndex)
      else
        .ok ⟨store, ⟨file.baseIndex, file.baseTerm, persisted⟩,
          (d.config.map decodeConfig).getD bootstrapConfig⟩

def buildNode (opts : Options) (bootstrapConfig : Members) (d : Disk) : Except BootError Boot :=
  match completeInstallIfPending d with
  | (_, some e) => .error (.install e)
  | (steps, none) => openNode opts bootstrapConfig (steps.foldl Disk.exec d)

/-- What a crash leaves of what was not synced. -/
structure Loss where
  data : Dir
  staged : Option Dir

namespace Disk

/--
The disk after a crash.

A store's directory that is being replaced, or staged without a marker, may hold anything; an unsynced rename or
removal in the Raft directory may be lost, which is a crash before that step.
-/
def crash (loss : Loss) (d : Disk) : Disk :=
  { d with
    data := if d.unsynced then loss.data else d.data
    unsynced := false
    staged := if d.marker = none then loss.staged else d.staged }

/-- The disk after the process died more times while finishing an install. -/
def crashes (stops : List (Nat × Loss)) (d : Disk) : Disk :=
  stops.foldl (fun d stop => (Run.cut exec (completeInstallIfPending d).1 stop.1 d).crash stop.2) d

/-- The disk of a running node: no install is pending, the store is synced. -/
structure Running (d : Disk) : Prop where
  marker : d.marker = none
  synced : d.unsynced = false

end Disk

/-- What a node comes up with: pairs, sessions, empty log and configuration. -/
structure Boot.Installed (b old : Boot) (m : Shipment) : Prop where
  pairs : ∀ k v, b.store.LivePair k v ↔ (k, v) ∈ m.kvs
  sessions : b.store.sessions = m.sessionTable
  log : b.log = ⟨m.lastIncludedIndex, m.lastIncludedTerm, []⟩
  baseConfig : b.baseConfig = if m.config = [] then old.baseConfig else decodeConfig m.config

/-- A shipment without a configuration finds one left by a dead install. -/
def Shipment.FoldsStale (m : Shipment) (d : Disk) (old : Boot) : Prop :=
  m.config = [] ∧ (∃ built, m.build = .ok built) ∧
    ∃ encoded, d.installConfig = some encoded ∧ decodeConfig encoded ≠ old.baseConfig

def Shipment.stagedConfig (m : Shipment) (d : Disk) : Option (List UInt8) :=
  if m.config = [] then d.installConfig else some m.config

/-- The base configuration after a staged one was folded in. -/
def foldedConfig (staged old : Option (List UInt8)) : Option (List UInt8) :=
  match staged with
  | none => old
  | some encoded => some (encodeConfig (decodeConfig encoded))

end Cluster
