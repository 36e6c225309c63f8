import TemporalStore.Document.Predicate
import TemporalStore.Host.Basic
import TemporalStore.Record.Document

/-!
This module contains collections of document versions of one kind, in memory and as snapshots in
files.
-/

namespace TemporalStore

/--
Every version of one kind of document, by its identity.
-/
structure Collection where
  documents : OrderedMap VersionId Document := ∅
  deriving DecidableEq, Inhabited

namespace Collection

def size (c : Collection) : Nat := c.documents.size

def isEmpty (c : Collection) : Bool := c.documents.entries.isEmpty

def get? (c : Collection) (id : VersionId) : Option Document := c.documents.get? id

/--
The versions that a filter accepts, in the order of their identities.
-/
def find (c : Collection) (p : Predicate) : List Document :=
  c.documents.values.filter (p.accepts ·)

def count (c : Collection) (p : Predicate) : Nat := (c.find p).length

/--
Gives identities to the documents that have none, in their order.
-/
def identify (docs : List Document) (ids : IdSupply) :
    List (VersionId × Document) × IdSupply :=
  match docs with
  | [] => ([], ids)
  | d :: docs =>
    match d.id with
    | some id =>
      let (rest, ids) := identify docs ids
      ((id, d) :: rest, ids)
    | none =>
      let (id, ids) := ids.draw
      let (rest, ids) := identify docs ids
      ((id, { d with id := some id }) :: rest, ids)

/--
Stores documents under their identities, in place of those that were stored under them.
-/
def insertMany (c : Collection) (docs : List (VersionId × Document)) : Collection :=
  ⟨docs.foldl (fun stored (id, d) => stored.insert id d) c.documents⟩

/--
Stores a batch, and gives it as it was stored.
-/
def saveAll (c : Collection) (docs : List Document) (ids : IdSupply) :
    List Document × Collection × IdSupply :=
  let (identified, ids) := identify docs ids
  (identified.map (·.2), c.insertMany identified, ids)

def endVersions (c : Collection) (ids : List VersionId) (t : Timepoint) : Collection :=
  ⟨ids.foldl endVersion c.documents⟩
where
  endVersion (documents : OrderedMap VersionId Document) (id : VersionId) :
      OrderedMap VersionId Document :=
    match documents.get? id with
    | some d => documents.insert id { d with ended := some t }
    | none => documents

def countStored (c : Collection) (ids : List VersionId) : Nat :=
  ids.countP c.documents.contains

def fileFormat : FileFormat where
  magic := [0x44, 0x4f, 0x43, 0x00]
  version := 1

def writeSnapshot (kind : DocumentKind) (name : String) (c : Collection) : HostM Unit :=
  Host.writeRecord fileFormat name (Record.documentsValue kind c.documents.values)

def readSnapshot (kind : DocumentKind) (name : String) : HostM Collection := do
  let docs ← Host.readRecord fileFormat (Record.documents? kind) name
  let (_, c, ids) := Collection.saveAll {} docs (← get).ids
  modify fun host => { host with ids }
  return c

end Collection

end TemporalStore
