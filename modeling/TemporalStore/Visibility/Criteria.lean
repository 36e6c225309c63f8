import TemporalStore.Document.Predicate
import TemporalStore.Path

/-!
This module contains the criteria by which a branch sees document versions: those written on the
branch itself, and those of its ancestors as of the timepoints from which it inherits, apart from
the versions it has replaced.
-/

namespace TemporalStore

/--
One clause of the criteria, about the documents of one branch.
-/
structure Level where
  path : String
  /-- Versions must have started by then. -/
  timepoint : Timepoint
  /-- Whether the documents are those of an ancestor. -/
  inherited : Bool
  /-- The versions of ancestors that are hidden. -/
  excluded : OrderedSet VersionId := ∅
  deriving DecidableEq, Inhabited

namespace Level

/--
On the branch itself a version has to be without end; on an ancestor it must not have ended by
the timepoint and not be hidden.
-/
def toPredicate (level : Level) : Predicate :=
  let started := (Predicate.pathEq (Path.flatten level.path)).both (.startLe level.timepoint)
  if level.inherited then
    (started.both (.liveAt level.timepoint)).both (.idNotIn level.excluded)
  else
    started.both .endUnset

end Level

/--
The clauses of a branch and its ancestors. What any of them accepts is visible.
-/
structure Criteria where
  /-- The clause of the branch itself first, that of the root last. -/
  levels : List Level
  deriving DecidableEq, Inhabited

namespace Criteria

def toPredicate (criteria : Criteria) : Predicate := .or (criteria.levels.map Level.toPredicate)

def accepts (criteria : Criteria) (d : Document) : Bool :=
  criteria.levels.any (·.toPredicate.accepts d)

end Criteria

end TemporalStore
