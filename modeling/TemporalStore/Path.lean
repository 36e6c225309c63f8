import TemporalStore.Error

/-!
This module contains branch paths: segments joined by `/`, as in `MAIN/PROJECT/TASK`. Stored
documents name their branch by a flat path, in which `_` stands for `/`; paths may therefore
not contain `_` themselves.
-/

namespace TemporalStore

namespace Path

def separator : Char := '/'

def substitute : Char := '_'

/--
`MAIN/A` becomes `MAIN_A`.
-/
def flatten (path : String) : String :=
  path.map fun c => if c = separator then substitute else c

/--
`MAIN_A` becomes `MAIN/A`.
-/
def fatten (path : String) : String :=
  path.map fun c => if c = substitute then separator else c

/--
The pieces between separators; text without a separator is one piece.
-/
def segments : List Char → List (List Char)
  | [] => [[]]
  | c :: cs =>
    if c = separator then
      [] :: segments cs
    else
      match segments cs with
      | s :: ss => (c :: s) :: ss
      | [] => [[c]]

/--
Accepts the paths from which `fatten` gets back what `flatten` took away, and whose segments all
have a name.
-/
def validate (path : String) : Except StoreError Unit :=
  if path = "" then
    .error (.invalidPath "branch path can not be empty")
  else if substitute ∈ path.toList then
    .error (.invalidPath s!"branch path may not contain the '_' character: {path}")
  else if [] ∈ segments path.toList then
    .error (.invalidPath s!"branch path has an empty segment: {path}")
  else
    .ok ()

/--
What stands before the last separator, if there is one.
-/
def beforeLastSeparator? : List Char → Option (List Char)
  | [] => none
  | c :: cs =>
    match beforeLastSeparator? cs with
    | some p => some (c :: p)
    | none => if c = separator then some [] else none

/--
The path without its last segment; a single segment has no parent.
-/
def parent? (path : String) : Option String :=
  (beforeLastSeparator? path.toList).map String.ofList

theorem length_lt_of_beforeLastSeparator? {cs p : List Char}
    (h : beforeLastSeparator? cs = some p) : p.length < cs.length := by
  induction cs generalizing p with
  | nil => simp [beforeLastSeparator?] at h
  | cons c cs ih =>
    unfold beforeLastSeparator? at h
    split at h
    · rename_i q hq
      have := ih hq
      grind
    · grind

theorem length_lt_of_parent? {path p : String} (h : parent? path = some p) :
    p.toList.length < path.toList.length := by
  obtain ⟨cs, hcs, rfl⟩ := Option.map_eq_some_iff.1 h
  rw [String.toList_ofList]
  exact length_lt_of_beforeLastSeparator? hcs

/--
The paths above `path`: its parent first, the root last.
-/
def ancestors (path : String) : List String :=
  match _h : parent? path with
  | none => []
  | some p => p :: ancestors p
termination_by path.toList.length
decreasing_by exact length_lt_of_parent? _h

def isDescendant (ancestor descendant : String) : Bool :=
  (ancestor.toList ++ [separator]).isPrefixOf descendant.toList

end Path

end TemporalStore
