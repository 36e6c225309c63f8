import TemporalStore.Timeline.Commit

/-!
This module contains the events that a directory of branches announces, and the filters by which
subscribers choose among them.
-/

namespace TemporalStore

inductive DropReason where
  | bufferOverflow
  | unsubscribed
  deriving DecidableEq, Repr, Inhabited

inductive Event where
  /-- A branch has its first row. -/
  | created (path : String) (base head : Timepoint)
  | locked (path : String)
  /-- A lock was released without a commit being completed. -/
  | unlocked (path : String) (forced : Bool)
  /-- A commit has closed a row and started the next one. -/
  | completed (path : String) (timepoint : Timepoint) (kind : CommitKind)
      (source : Option String)
  /-- All rows were deleted. -/
  | purged (rows : Nat)
  /-- The subscription has ended; nothing comes after this. -/
  | dropped (reason : DropReason)
  deriving DecidableEq, Repr, Inhabited

namespace Event

def path? : Event → Option String
  | created path _ _ => some path
  | locked path => some path
  | unlocked path _ => some path
  | completed path _ _ _ => some path
  | purged _ => none
  | dropped _ => none

def isLockEvent : Event → Bool
  | locked _ => true
  | unlocked _ _ => true
  | _ => false

end Event

structure EventFilter where
  /-- Only events of this branch and those below it; without one, of every branch. -/
  root : Option String := none
  includeLocks : Bool := false
  deriving DecidableEq, Repr, Inhabited

namespace EventFilter

def all : EventFilter where
  includeLocks := true

/--
What happens at `root` and below, apart from locks.
-/
def below (root : String) : EventFilter where
  root := some root

def coversPath (filter : EventFilter) (path : String) : Bool :=
  filter.root.all fun root => path = root || Path.isDescendant root path

/--
Events without a branch concern every subscriber.
-/
def wants (filter : EventFilter) (event : Event) : Bool :=
  (filter.includeLocks || !event.isLockEvent) && event.path?.all filter.coversPath

end EventFilter

end TemporalStore
