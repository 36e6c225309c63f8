import TemporalStore.Host.Disk
import TemporalStore.Record.File
import TemporalStore.VersionId

/-!
This module contains the host on which the store runs: its wall clock, its disk, its supply of
identities and its log. Operations on the host may fail half way; what they did until then
stays.
-/

namespace TemporalStore

/--
What operations report apart from their answers.
-/
inductive LogRecord where
  /-- Stored rows contradict each other. -/
  | integrityViolated (violation : String)
  /-- A lock was released by force. -/
  | forcedUnlock (path : String) (wasLocked : Bool)
  | purged (rows : Nat)
  deriving DecidableEq, Repr, Inhabited

structure Host where
  /-- The reading of the wall clock. -/
  wall : Timepoint := 0
  disk : Disk := {}
  ids : IdSupply := {}
  /-- What was reported, oldest first. -/
  log : List LogRecord := []
  deriving DecidableEq, Inhabited

abbrev HostM := EStateM StoreError Host

namespace Host

def ask {α : Type} (f : Disk → Except DiskError α) : HostM α := do
  match f (← get).disk with
  | .ok a => return a
  | .error e => throw (.io e.message)

/--
A change of the disk, which stays as it is if the change fails.
-/
def change (f : Disk → Except DiskError Disk) : HostM Unit := do
  let disk ← ask f
  modify fun host => { host with disk }

def createDirectories (name : String) : HostM Unit := do
  let (result, disk) := (← get).disk.createDirectories name
  modify fun host => { host with disk }
  if let .error e := result then
    throw (.io e.message)

def report (record : LogRecord) : HostM Unit :=
  modify fun host => { host with log := host.log ++ [record] }

def temporaryName (name : String) : String := FileName.withSuffix ".tmp" name

/--
Replaces a file: whoever reads it finds the old contents or the new ones, but no mixture. If the
last step fails, the temporary file stays behind.
-/
def replaceFile (name : String) (bytes : List UInt8) : HostM Unit := do
  change (·.write (temporaryName name) bytes)
  change (·.rename (temporaryName name) name)

def copyFile (name newName : String) : HostM Nat := do
  discard <| ask fun disk =>
    if disk.isDirectory name then .error .notAFile else disk.read name
  -- a file that is copied to itself is empty by the time it is read
  change (·.write newName [])
  let bytes ← ask (·.read name)
  change (·.write newName bytes)
  return bytes.length

def writeRecord (format : FileFormat) (name : String) (v : MessagePack.Value) : HostM Unit :=
  replaceFile name (Record.fileBytes format v)

def readRecord {α : Type} (format : FileFormat) (read : MessagePack.Value → Option α)
    (name : String) : HostM α := do
  match Record.ofFileBytes format read name (← ask (·.read name)) with
  | .ok a => return a
  | .error e => throw e

end Host

end TemporalStore
