import TemporalStore.Path

/-!
This module contains the names of files and directories. A name lists the steps from the outermost
directory on, joined by `/` like the segments of a branch path. One file has many names: a step may
lead nowhere or back up, and separators may be repeated.
-/

namespace TemporalStore

/--
One step on the way to a file or directory.
-/
inductive Step where
  | stay
  | up
  | into (part : String)
  deriving DecidableEq, Inhabited

namespace Step

def ofPart (part : String) : Step :=
  if part = "." then .stay else if part = ".." then .up else .into part

def toPart : Step → String
  | stay => "."
  | up => ".."
  | into part => part

end Step

namespace FileName

def steps (name : String) : List Step :=
  ((Path.segments name.toList).filter (· ≠ [])).map fun part => .ofPart (String.ofList part)

def ofSteps (steps : List Step) : String :=
  (String.singleton Path.separator).intercalate (steps.map Step.toPart)

/--
The steps that lead somewhere.
-/
def route (name : String) : List Step := (steps name).filter (· ≠ .stay)

def endsInSeparator (name : String) : Bool := name.toList.getLast? = some Path.separator

/--
The name of something in a directory. A name that begins with a separator is complete already.
-/
def join (directory name : String) : String :=
  if name.toList.head? = some Path.separator then name
  else if endsInSeparator directory then directory ++ name
  else directory ++ String.singleton Path.separator ++ name

/--
A name in the same directory, with `suffix` after the last part.
-/
def withSuffix (suffix name : String) : String :=
  match (route name).reverse with
  | .into part :: outer => ofSteps (.into (part ++ suffix) :: outer).reverse
  | outer => ofSteps (.into suffix :: outer).reverse

end FileName

end TemporalStore
