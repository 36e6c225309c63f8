import TemporalStore.Clock
import TemporalStore.Ordered.Map
import TemporalStore.VersionId

/-!
This module contains document versions. A version is never changed apart from having its end
set: an edit writes a new version and ends or hides the one before.
-/

namespace TemporalStore

/--
One version of a document.
-/
structure Document where
  /-- Missing until a collection assigns one. -/
  id : Option VersionId := none
  /-- The flat path of the branch that the version was written on. -/
  path : String := ""
  /-- Visible from here on. -/
  start : Timepoint := 0
  /-- No longer visible from here on. -/
  ended : Option Timepoint := none
  /-- What stays the same across all versions of one document. -/
  businessId : Option String := none
  term : String := ""
  /-- Further keys by which the document can be found. -/
  fields : OrderedMap String String := ∅
  deleted : Bool := false
  deriving DecidableEq, Inhabited

/--
The kinds of documents. Plain ones have neither fields nor a deletion mark.
-/
inductive DocumentKind where
  | plain
  | keyed
  deriving DecidableEq, Repr, Inhabited

namespace DocumentKind

/--
The document without the parts that its kind does not have.
-/
def restrict : DocumentKind → Document → Document
  | plain, d => { d with fields := ∅, deleted := false }
  | keyed, d => d

end DocumentKind

namespace Document

def businessIdField : String := "businessId"

/--
The value of a field. The business id is found by its name too, unless a field of that name
comes first.
-/
def fieldValue (d : Document) (field : String) : Option String :=
  match d.fields.get? field with
  | some value => some value
  | none => if field = businessIdField then d.businessId else none

def isCurrent (d : Document) : Bool := d.ended.isNone

end Document

end TemporalStore
