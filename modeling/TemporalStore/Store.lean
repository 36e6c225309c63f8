import TemporalStore.Directory.Basic
import TemporalStore.Directory.Lookup
import TemporalStore.Document.Collection

/-!
This module contains stores: a directory on disk with the branches, snapshots of collections and
a manifest, held exclusively by whoever has the store open.
-/

namespace TemporalStore

structure StoreConfig where
  path : String
  createIfMissing : Bool := true
  cacheSize : Nat := Directory.defaultCacheSize
  deriving DecidableEq, Inhabited

structure Store where
  path : String
  /-- The serial number of the file that is held while the store is open. -/
  lock : Nat
  directory : Directory
  deriving DecidableEq

structure StoreSize where
  /-- Branches with a current row. -/
  branches : Nat
  rows : Nat
  deriving DecidableEq, Repr, Inhabited

namespace Store

def manifestFormat : FileFormat where
  magic := [0x42, 0x52, 0x4c, 0x00]
  version := 1

def manifestName (path : String) : String := FileName.join path "MANIFEST"

def lockName (path : String) : String := FileName.join path "LOCK"

def branchesName (path : String) : String := FileName.join path "branches.bin"

def collectionsName (path : String) : String := FileName.join path "collections"

def writeManifest (path : String) : HostM Unit :=
  Host.change (·.write (manifestName path) (manifestFormat.magic ++ [manifestFormat.version]))

/--
Accepts a manifest of this kind of store and of this version; more may follow in the file.
-/
def checkManifest (file : List UInt8) : Except StoreError Unit := do
  let (magic, file) ← Frame.take 4 file
  if magic ≠ manifestFormat.magic then
    throw (.invalidFormat "Invalid store magic")
  let (version, _) ← Frame.take 1 file
  if version ≠ [manifestFormat.version] then
    throw (.invalidFormat s!"Unsupported store version: {Bytes.ofLittleEndian version}")

def verifyManifest (path : String) : HostM Unit := do
  match checkManifest (← Host.ask (·.read (manifestName path))) with
  | .ok () => return ()
  | .error e => throw e

def acquire (path : String) : HostM Nat := do
  Host.change (·.write (lockName path) [])
  match (← get).disk.hold? (lockName path) with
  | some (serial, disk) =>
    modify fun host => { host with disk }
    return serial
  | none => throw .locked

def release (serial : Nat) : HostM Unit :=
  modify fun host => { host with disk := host.disk.release serial }

/--
Runs `act` on the store at `path`, which is held from now on unless `act` fails.
-/
def whileHeld (path : String) (act : HostM Directory) : HostM Store := do
  let lock ← acquire path
  try
    return { path, lock, directory := ← act }
  catch e =>
    release lock
    throw e

/--
An operation on a directory that is not part of any store yet.
-/
def onDirectory (directory : Directory) (act : DirectoryM Unit) : HostM Directory := fun host =>
  match act { directory, host } with
  | .ok () site => .ok site.directory site.host
  | .error e site => .error e site.host

/--
Creates a store. Branches that are there already stay.
-/
def create (config : StoreConfig) : HostM Store := do
  Host.createDirectories config.path
  Host.createDirectories (collectionsName config.path)
  whileHeld config.path do
    writeManifest config.path
    let directory ← Directory.load (branchesName config.path) config.cacheSize
    onDirectory directory Directory.save

def isInitialized (path : String) : HostM Bool := do
  return (← get).disk.contains (manifestName path)

def openExisting (config : StoreConfig) : HostM Store := do
  unless ← isInitialized config.path do
    throw .notInitialized
  -- a store of another version is left alone, even if no one holds it
  verifyManifest config.path
  whileHeld config.path do
    Directory.load (branchesName config.path) config.cacheSize

def openOrCreate (config : StoreConfig) : HostM Store := do
  if ← isInitialized config.path then
    openExisting config
  else if config.createIfMissing then
    create config
  else
    throw .notInitialized

/--
Closes a store: its branches are written once more, as far as that is possible, and it is no
longer held.
-/
def close (store : Store) : HostM Unit := do
  try
    discard (onDirectory store.directory Directory.save)
  catch _ =>
    pure ()
  release store.lock

/--
Names that cannot lead out of the directory of snapshots.
-/
def isCollectionName (name : String) : Bool :=
  name ≠ "" && name.toList.all fun c => c.isAlphanum || c = '-' || c = '_'

def snapshotName (path name : String) : Except StoreError String :=
  if isCollectionName name then
    .ok (FileName.join (collectionsName path) (name ++ ".bin"))
  else
    .error (.invalidPath s!"Invalid collection name: {name}")

def namedSnapshot (path name : String) : HostM String := do
  match snapshotName path name with
  | .ok file => return file
  | .error e => throw e

def saveCollection (path name : String) (kind : DocumentKind) (c : Collection) : HostM Unit := do
  c.writeSnapshot kind (← namedSnapshot path name)

/--
The collection saved last under a name, and an empty one under a name that was never used.
-/
def loadCollection (path name : String) (kind : DocumentKind) : HostM Collection := do
  let file ← namedSnapshot path name
  if (← get).disk.contains file then
    Collection.readSnapshot kind file
  else
    return {}

def stats (directory : Directory) : StoreSize where
  branches := directory.branches.length
  rows := directory.rowCount

end Store

end TemporalStore
