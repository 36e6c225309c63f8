import TemporalStore.Event.Broadcaster
import TemporalStore.Host.Basic
import TemporalStore.Record.Branch
import TemporalStore.Timeline.HistoryCache

/-!
This module contains the directory of branches: its rows, the commits that are open, and where
it is kept.
-/

namespace TemporalStore

structure Directory where
  /-- The file that holds the rows; without one they are kept in memory only. -/
  file : Option String := none
  index : RowIndex := {}
  /-- The timepoint of every open commit, under the path of each branch that it holds. -/
  openCommits : OrderedMap String Timepoint := ∅
  clock : Clock := {}
  history : HistoryCache
  events : Broadcaster := {}
  deriving DecidableEq

/--
A directory and the host on which it runs.
-/
structure Site where
  directory : Directory
  host : Host
  deriving DecidableEq

/--
An operation on a directory. What it did before it failed stays done.
-/
abbrev DirectoryM := EStateM StoreError Site

instance : MonadLift HostM DirectoryM where
  monadLift act := fun site =>
    match act site.host with
    | .ok a host => .ok a { site with host }
    | .error e host => .error e { site with host }

namespace Directory

def defaultCacheSize : Nat := 1024

def fileFormat : FileFormat where
  magic := [0x42, 0x52, 0x44, 0x00]
  version := 1

/--
A directory of the given rows. Its clock starts after every head and end among them.
-/
def ofIndex (file : Option String) (index : RowIndex) (cacheSize : Nat) : Directory where
  file
  index
  clock := index.latestTimepoint.elim {} (Clock.observe {})
  history := .ofSize cacheSize

def inMemory : Directory := ofIndex none {} defaultCacheSize

/--
The directory in a file, which is empty if there is no such file.
-/
def load (name : String) (cacheSize : Nat) : HostM Directory := do
  if (← get).disk.contains name then
    return ofIndex (some name) (← Host.readRecord fileFormat Record.index? name) cacheSize
  else
    return ofIndex (some name) {} cacheSize

def tick : DirectoryM Timepoint := do
  let site ← get
  let (t, clock) := site.directory.clock.tick site.host.wall
  set { site with directory := { site.directory with clock } }
  return t

/--
Reports a contradiction among the rows before it fails.
-/
def checked {α : Type} : Except StoreError α → DirectoryM α
  | .ok a => return a
  | .error e => do
    if let .dataIntegrity violation := e then
      Host.report (.integrityViolated violation)
    throw e

/--
The current row of a branch, whether or not its parent is there.
-/
def current (path : String) : DirectoryM (Option BranchRow) := do
  checked ((← get).directory.index.current path)

def announce (event : Event) : DirectoryM Unit :=
  modify fun site => { site with
    directory := { site.directory with events := site.directory.events.broadcast event } }

def setOpenCommits (openCommits : OrderedMap String Timepoint) : DirectoryM Unit :=
  modify fun site => { site with directory := { site.directory with openCommits } }

def persist (index : RowIndex) : DirectoryM Unit := do
  match (← get).directory.file with
  | some name => Host.writeRecord fileFormat name (Record.indexValue index)
  | none => return ()

/--
Stores a batch of rows. They are in the file before they are in the directory, so that either
both have them or neither has.
-/
def writeRows (batch : List BranchRow) : DirectoryM Unit := do
  let index := (← get).directory.index.apply batch
  persist index
  modify fun site => { site with directory := { site.directory with index } }

def save : DirectoryM Unit := do
  persist (← get).directory.index

end Directory

end TemporalStore
