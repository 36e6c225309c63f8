import TemporalStore.Proofs.Timeline.Lookup
import TemporalStore.Timeline.Commit

/-!
This module contains what follows about the current rows from the history of commits alone: a
ledger that is brought up to date by what has happened and never looks at a row.
-/

namespace TemporalStore

/--
What a ledger knows of the current row of a branch.
-/
structure Outline where
  base : Timepoint
  head : Timepoint
  containsContent : Bool := false
  replaced : OrderedSet VersionId := ∅
  deriving DecidableEq

def BranchRow.outline (row : BranchRow) : Outline where
  base := row.base
  head := row.head
  containsContent := row.containsContent
  replaced := row.replaced

def RowIndex.outline? (index : RowIndex) (path : String) : Option Outline :=
  (index.last? path).map BranchRow.outline

/--
What a ledger takes note of. A rebase is noted twice, since it takes the head that its parent has
when it is opened and takes effect when it is completed.
-/
inductive Milestone where
  | created (path : String) (t : Timepoint)
  | rebasing (path : String) (t : Timepoint)
  | edited (path : String) (t : Timepoint) (hidden : OrderedSet VersionId)
  | rebased (path : String) (t : Timepoint) (hidden : OrderedSet VersionId)
  | promoted (path : String) (t : Timepoint) (hidden : OrderedSet VersionId) (source : String)
  | purged
  deriving DecidableEq

/--
What the completion of a commit is for a ledger. A promotion without a source is never completed.
-/
def Commit.milestone? (commit : Commit) : Option Milestone :=
  match commit.kind, commit.source with
  | .content, _ => some (.edited commit.branchPath commit.timepoint commit.replaced)
  | .rebase, _ => some (.rebased commit.branchPath commit.timepoint commit.replaced)
  | .promotion, some source =>
    some (.promoted commit.branchPath commit.timepoint commit.replaced source)
  | .promotion, none => none

structure Ledger where
  branches : OrderedMap String Outline := ∅
  /-- The head of the parent when a rebase was opened, under the timepoint of the rebase. -/
  bases : OrderedMap Timepoint Timepoint := ∅
  deriving DecidableEq

namespace Outline

/--
A branch on which nothing was committed.
-/
def begun (base t : Timepoint) : Outline := { base, head := t }

def committed (outline : Outline) (t : Timepoint) (hidden : OrderedSet VersionId) : Outline :=
  { outline with head := t, replaced := outline.replaced ∪ hidden }

def edited (outline : Outline) (t : Timepoint) (hidden : OrderedSet VersionId) : Outline :=
  { outline.committed t hidden with containsContent := true }

def rebased (outline : Outline) (t : Timepoint) (hidden : OrderedSet VersionId)
    (base : Timepoint) : Outline :=
  { outline.committed t hidden with base }

end Outline

namespace Ledger

def parentHead? (ledger : Ledger) (path : String) : Option Timepoint :=
  (Path.parent? path).bind fun parent => (ledger.branches.get? parent).map Outline.head

/--
The base that a branch receives from a rebase at `t`. A root keeps its own.
-/
def baseAfter (ledger : Ledger) (path : String) (t : Timepoint) (outline : Outline) : Timepoint :=
  match Path.parent? path with
  | none => outline.base
  | some _ => (ledger.bases.get? t).getD outline.base

def hiddenOn (ledger : Ledger) (path : String) : OrderedSet VersionId :=
  (ledger.branches.get? path).elim ∅ Outline.replaced

def put (ledger : Ledger) (path : String) (outline : Outline) : Ledger :=
  { ledger with branches := ledger.branches.insert path outline }

def alter (ledger : Ledger) (path : String) (f : Outline → Outline) : Ledger :=
  match ledger.branches.get? path with
  | some outline => ledger.put path (f outline)
  | none => ledger

def record (ledger : Ledger) : Milestone → Ledger
  | .created path t => ledger.put path (.begun ((ledger.parentHead? path).getD t) t)
  | .rebasing path t =>
    match ledger.parentHead? path with
    | some head => { ledger with bases := ledger.bases.insert t head }
    | none => ledger
  | .edited path t hidden => ledger.alter path (·.edited t hidden)
  | .rebased path t hidden =>
    ledger.alter path fun outline => outline.rebased t hidden (ledger.baseAfter path t outline)
  | .promoted path t hidden source =>
    (ledger.alter path (·.edited t (hidden ∪ ledger.hiddenOn source))).put source (.begun t t)
  | .purged => { ledger with branches := ∅ }

section

variable {ledger : Ledger} {path q : String} {outline : Outline}

theorem get?_put :
    (ledger.put path outline).branches.get? q =
      if q = path then some outline else ledger.branches.get? q := by
  unfold put
  split
  · rename_i same
    rw [same, OrderedMap.get?_insert_self]
  · rename_i other
    rw [OrderedMap.get?_insert_of_ne other]

theorem alter_of_get? (f : Outline → Outline) (h : ledger.branches.get? path = some outline) :
    ledger.alter path f = ledger.put path (f outline) := by
  unfold alter
  rw [h]

end

/-! ## Ledgers and rows -/

/--
The ledger knows the current row of every branch.
-/
def Describes (ledger : Ledger) (index : RowIndex) : Prop :=
  ∀ path, Path.Valid path → ledger.branches.get? path = index.outline? path

end Ledger

namespace RowIndex

variable {index : RowIndex} {path q : String}

theorem outline?_setLocked (index : RowIndex) (locked : Bool) (hp : Path.Valid path)
    (hq : Path.Valid q) : (index.setLocked path locked).outline? q = index.outline? q := by
  unfold outline?
  rw [last?_setLocked index locked hp hq]
  split
  · rename_i same
    rw [same, Option.map_map]
    rfl
  · rfl

end RowIndex

namespace Ledger

variable {ledger : Ledger} {index : RowIndex} {path : String} {row : BranchRow}
  {outline : Outline}

theorem Describes.get?_of_last? (h : ledger.Describes index) (hp : Path.Valid path)
    (last : index.last? path = some row) : ledger.branches.get? path = some row.outline := by
  rw [h path hp]
  unfold RowIndex.outline?
  rw [last]
  rfl

theorem Describes.put_begin (h : ledger.Describes index) (hp : Path.Valid path)
    (same : row.outline = outline) :
    (ledger.put path outline).Describes (index.put path [row]) := by
  intro q hq
  unfold RowIndex.outline?
  rw [get?_put, RowIndex.last?_put_singleton index row hp hq]
  split
  · rw [Option.map_some, same]
  · exact h q hq

theorem Describes.put_advance (h : ledger.Describes index) (closed : BranchRow)
    (hp : Path.Valid path) (same : row.outline = outline) :
    (ledger.put path outline).Describes (index.advance path closed row) := by
  intro q hq
  unfold RowIndex.outline?
  rw [get?_put, RowIndex.last?_advance index closed row hp hq]
  split
  · rw [Option.map_some, same]
  · exact h q hq

theorem Describes.parentHead?_eq (h : ledger.Describes index) (hp : Path.Valid path) :
    ledger.parentHead? path =
      (Path.parent? path).bind fun parent => (index.last? parent).map BranchRow.head := by
  unfold parentHead?
  cases above : Path.parent? path with
  | none => rfl
  | some parent =>
    rw [Option.bind_some, Option.bind_some, h parent (Path.valid_of_parent? hp above)]
    unfold RowIndex.outline?
    rw [Option.map_map]
    rfl

end Ledger

end TemporalStore
