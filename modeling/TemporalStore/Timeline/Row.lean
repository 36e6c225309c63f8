import TemporalStore.Path
import TemporalStore.VersionId

/-!
This module contains the rows of a branch. A branch is a sequence of rows, each valid from its
start until its end; the one without end is the current row, and the others are history.
-/

namespace TemporalStore

/--
One part of the timeline of a branch.
-/
structure BranchRow where
  path : String
  /-- The timepoint of the parent as of which content is inherited. -/
  base : Timepoint := 0
  /-- Valid from here on. -/
  start : Timepoint := 0
  /-- The timepoint committed last on this row. -/
  head : Timepoint := 0
  /-- No longer valid from here on. -/
  ended : Option Timepoint := none
  /-- Held by a commit or by someone outside. -/
  locked : Bool := false
  /-- Whether content was ever committed on this line. -/
  containsContent : Bool := false
  /-- Versions of ancestors that are not inherited. -/
  replaced : OrderedSet VersionId := ∅
  deriving DecidableEq, Inhabited

/--
Where a branch stands: whether it inherits everything that its parent has committed, and whether
it has content of its own.
-/
inductive Standing where
  | upToDate
  | forward
  | behind
  | diverged
  deriving DecidableEq, Repr, Inhabited

namespace BranchRow

/--
A row that starts at `t` unlocked and without content.
-/
def fresh (path : String) (base t : Timepoint) : BranchRow where
  path
  base
  start := t
  head := t

/--
The path by which documents name the branch.
-/
def flatPath (row : BranchRow) : String := Path.flatten row.path

def parent? (row : BranchRow) : Option String := Path.parent? row.path

def isCurrent (row : BranchRow) : Bool := row.ended.isNone

def covers (row : BranchRow) (t : Timepoint) : Bool :=
  row.start ≤ t && row.ended.all (· > t)

def isParentOf (row other : BranchRow) : Bool := other.parent? = some row.path

def related (a b : BranchRow) : Bool := a.isParentOf b || b.isParentOf a

def isUpToDateWith (row : BranchRow) (parentHead : Timepoint) : Bool := row.base ≥ parentHead

/--
Where the branch stands relative to its parent's head. The root has no parent and is always up
to date.
-/
def standing (row : BranchRow) (parentHead : Option Timepoint) : Standing :=
  match parentHead.all row.isUpToDateWith, row.containsContent with
  | true, false => .upToDate
  | true, true => .forward
  | false, false => .behind
  | false, true => .diverged

/--
The row as history: ended at `t`, and history is never locked.
-/
def close (row : BranchRow) (t : Timepoint) : BranchRow :=
  { row with ended := some t, locked := false }

end BranchRow

end TemporalStore
