import TemporalStore.Host.Name
import TemporalStore.Ordered.Map

/-!
This module contains the disk of the host: directories and files, with the locks that are held on
files. Whatever name leads to a file or directory, it is kept at one place, which is the path to it
from the outermost directory. The outermost directory itself is at the empty place.
-/

namespace TemporalStore

inductive DiskError where
  | noSuchFile
  | fileExists
  | notADirectory
  | isADirectory
  | nameTooLong
  | directoryNotEmpty
  | nulInName
  | notAFile
  | busy
  | invalidArgument
  deriving DecidableEq, Repr, Inhabited

namespace DiskError

def message : DiskError → String
  | noSuchFile => "No such file or directory (os error 2)"
  | busy => "Device or resource busy (os error 16)"
  | fileExists => "File exists (os error 17)"
  | notADirectory => "Not a directory (os error 20)"
  | isADirectory => "Is a directory (os error 21)"
  | invalidArgument => "Invalid argument (os error 22)"
  | nameTooLong => "File name too long (os error 36)"
  | directoryNotEmpty => "Directory not empty (os error 39)"
  | nulInName => "file name contained an unexpected NUL byte"
  | notAFile => "the source path is neither a regular file nor a symlink to a regular file"

end DiskError

/--
What is at a place. A file has a serial number, which it keeps when it gets another place; locks
hold on to it.
-/
inductive DiskNode where
  | directory
  | file (serial : Nat) (bytes : List UInt8)
  deriving DecidableEq, Inhabited

structure Disk where
  nodes : OrderedMap String DiskNode := ∅
  nextSerial : Nat := 0
  /-- The serial numbers of the files that someone holds exclusively. -/
  held : List Nat := []
  deriving DecidableEq, Inhabited

namespace Disk

def withRoot (root : String) : Disk where
  nodes := (∅ : OrderedMap String DiskNode).insert root .directory

/--
The longest name, in bytes.
-/
def maxNameLength : Nat := 4095

/--
The longest part of a name, in bytes.
-/
def maxPartLength : Nat := 255

def placeIn (directory part : String) : String :=
  if directory = "" then part else directory ++ String.singleton Path.separator ++ part

/--
The directory around a place; around the outermost one there is nothing else.
-/
def around (place : String) : String := (Path.parent? place).getD ""

/--
What a directory has under one part of a name.
-/
def entry (disk : Disk) (directory part : String) : Except DiskError (Option DiskNode) :=
  if maxPartLength < part.utf8ByteSize then .error .nameTooLong
  else .ok (disk.nodes.get? (placeIn directory part))

/--
The directory to which a step leads.
-/
def enter (disk : Disk) (directory : String) : Step → Except DiskError String
  | .stay => return directory
  | .up => return around directory
  | .into part => do
    match ← disk.entry directory part with
    | some .directory => return placeIn directory part
    | some (.file _ _) => throw .notADirectory
    | none => throw .noSuchFile

/--
Where a name leads: all steps but the last one have been taken.
-/
structure Spot where
  directory : String
  last : Step
  /-- Only a directory is meant, because the name ends in a separator. -/
  directoryMeant : Bool
  deriving DecidableEq, Inhabited

def locate (disk : Disk) (name : String) : Except DiskError Spot := do
  if '\x00' ∈ name.toList then
    throw .nulInName
  if maxNameLength < name.utf8ByteSize then
    throw .nameTooLong
  let steps := FileName.steps name
  return {
    directory := ← steps.dropLast.foldlM disk.enter ""
    last := steps.getLast?.getD .stay
    directoryMeant := FileName.endsInSeparator name }

def find (disk : Disk) (name : String) : Except DiskError (Option DiskNode) := do
  let spot ← disk.locate name
  match spot.last with
  | .into part =>
    match ← disk.entry spot.directory part, spot.directoryMeant with
    | some (.file _ _), true => throw .notADirectory
    | node, _ => return node
  | _ => return some .directory

/--
Whether there is a file or directory of that name. What cannot be looked up does not exist.
-/
def contains (disk : Disk) (name : String) : Bool :=
  match disk.find name with
  | .ok (some _) => true
  | _ => false

def isDirectory (disk : Disk) (name : String) : Bool :=
  match disk.find name with
  | .ok (some .directory) => true
  | _ => false

/--
All that stands below a directory, each by its place from there on.
-/
def below (disk : Disk) (directory : String) : List (String × DiskNode) :=
  (disk.nodes.entries.filter (Path.isDescendant directory ·.1)).map fun (place, node) =>
    (String.ofList (place.toList.drop (directory.length + 1)), node)

def read (disk : Disk) (name : String) : Except DiskError (List UInt8) := do
  match ← disk.find name with
  | some (.file _ bytes) => return bytes
  | some .directory => throw .isADirectory
  | none => throw .noSuchFile

def set (disk : Disk) (place : String) (node : DiskNode) : Disk :=
  { disk with nodes := disk.nodes.insert place node }

def remove (disk : Disk) (place : String) : Disk :=
  { disk with nodes := disk.nodes.erase place }

/--
Makes `bytes` the contents of a file, which is created if it is not there. A name that can only be
that of a directory is refused as such, whether or not there is one.
-/
def write (disk : Disk) (name : String) (bytes : List UInt8) : Except DiskError Disk := do
  let spot ← disk.locate name
  match spot.last, spot.directoryMeant with
  | .into part, false =>
    let place := placeIn spot.directory part
    match ← disk.entry spot.directory part with
    | some (.file serial _) => return disk.set place (.file serial bytes)
    | some .directory => throw .isADirectory
    | none =>
      return { disk.set place (.file disk.nextSerial bytes) with
        nextSerial := disk.nextSerial + 1 }
  | _, _ => throw .isADirectory

/--
Gives a file another name, in place of the file that had it.
-/
def rename (disk : Disk) (name newName : String) : Except DiskError Disk := do
  let spot ← disk.locate name
  let newSpot ← disk.locate newName
  match spot.last, newSpot.last with
  | .into part, .into newPart =>
    match ← disk.entry spot.directory part with
    | some (.file serial bytes) =>
      let newNode ← disk.entry newSpot.directory newPart
      if spot.directoryMeant ∨ newSpot.directoryMeant then
        throw .notADirectory
      if newNode = some .directory then
        throw .isADirectory
      return (disk.remove (placeIn spot.directory part)).set
        (placeIn newSpot.directory newPart) (.file serial bytes)
    | some .directory => throw .isADirectory
    | none => throw .noSuchFile
  | _, _ => throw .busy

def removeFile (disk : Disk) (name : String) : Except DiskError Disk := do
  let spot ← disk.locate name
  match spot.last with
  | .into part =>
    match ← disk.entry spot.directory part, spot.directoryMeant with
    | some (.file _ _), false => return disk.remove (placeIn spot.directory part)
    | some (.file _ _), true => throw .notADirectory
    | some .directory, _ => throw .isADirectory
    | none, _ => throw .noSuchFile
  | _ => throw .isADirectory

def removeDirectory (disk : Disk) (name : String) : Except DiskError Disk := do
  let spot ← disk.locate name
  match spot.last with
  | .into part =>
    match ← disk.entry spot.directory part with
    | some .directory =>
      let place := placeIn spot.directory part
      if disk.nodes.keys.any (Path.isDescendant place) then
        throw .directoryNotEmpty
      return disk.remove place
    | some (.file _ _) => throw .notADirectory
    | none => throw .noSuchFile
  | .up => throw .directoryNotEmpty
  | .stay => throw .invalidArgument

def createDirectory (disk : Disk) (name : String) : Except DiskError Disk := do
  let spot ← disk.locate name
  match spot.last with
  | .into part =>
    match ← disk.entry spot.directory part with
    | some _ => throw .fileExists
    | none => return disk.set (placeIn spot.directory part) .directory
  | _ => throw .fileExists

/--
Creates a directory, unless there is one. Also gives the disk after a failure.
-/
def ensureDirectory (disk : Disk) (name : String) : Except DiskError Unit × Disk :=
  match disk.createDirectory name with
  | .ok disk => (.ok (), disk)
  | .error e => (if disk.isDirectory name then .ok () else .error e, disk)

/--
Creates a directory and those on the way to it, as far as they are missing. Outer directories stay
if an inner one cannot be created.
-/
def createDirectories (disk : Disk) (name : String) : Except DiskError Unit × Disk :=
  go disk name (FileName.route name).reverse
where
  -- the steps of the name come in reverse, so that the tail leads to the directory around
  go (disk : Disk) (name : String) : List Step → Except DiskError Unit × Disk
    | [] => disk.ensureDirectory name
    | _ :: outer =>
      match disk.ensureDirectory name with
      | (.error .noSuchFile, disk) =>
        match go disk (FileName.ofSteps outer.reverse) outer with
        | (.ok (), disk) => disk.ensureDirectory name
        | failed => failed
      | done => done

/--
Takes exclusive hold of a file, by its serial number; fails if someone has it.
-/
def hold? (disk : Disk) (name : String) : Option (Nat × Disk) :=
  match disk.find name with
  | .ok (some (.file serial _)) =>
    if serial ∈ disk.held then none else some (serial, { disk with held := serial :: disk.held })
  | _ => none

def release (disk : Disk) (serial : Nat) : Disk :=
  { disk with held := disk.held.erase serial }

end Disk

end TemporalStore
