import TemporalStore.Proofs.Directory.Announcement

/-!
This module contains what a subscriber can know of the branches: a replica of the current rows that
is brought up to date by events alone.
-/

namespace TemporalStore

/--
What a replica knows of the current row of a branch.
-/
structure View where
  head : Timepoint
  locked : Bool
  deriving DecidableEq

def BranchRow.view (row : BranchRow) : View where
  head := row.head
  locked := row.locked

structure Replica where
  branches : OrderedMap String View := ∅
  deriving DecidableEq

namespace Replica

def put (replica : Replica) (path : String) (view : View) : Replica :=
  ⟨replica.branches.insert path view⟩

def alter (replica : Replica) (path : String) (f : View → View) : Replica :=
  match replica.branches.get? path with
  | some view => replica.put path (f view)
  | none => replica

def setLocked (replica : Replica) (path : String) (locked : Bool) : Replica :=
  replica.alter path fun view => { view with locked }

/--
The branch has a new row, which starts at `t` and is not locked.
-/
def restart (replica : Replica) (path : String) (t : Timepoint) : Replica :=
  replica.alter path fun _ => { head := t, locked := false }

def hear (replica : Replica) : Event → Replica
  | .created path _ head => replica.put path { head, locked := false }
  | .locked path => replica.setLocked path true
  | .unlocked path _ => replica.setLocked path false
  | .completed path t _ source =>
    source.elim (replica.restart path t) fun source => (replica.restart path t).restart source t
  | .purged _ => {}
  | .dropped _ => replica

def ofEvents (events : List Event) : Replica := events.foldl hear {}

theorem ofEvents_append (events others : List Event) :
    ofEvents (events ++ others) = others.foldl hear (ofEvents events) := by
  apply List.foldl_append

/-! ## Replicas and rows -/

/--
The replica knows the current row of every branch, and no other branches.
-/
structure Describes (replica : Replica) (index : RowIndex) : Prop where
  view : ∀ path, Path.Valid path →
    replica.branches.get? path = (index.last? path).map BranchRow.view
  valid : ∀ path view, replica.branches.get? path = some view → Path.Valid path

section

variable {replica : Replica} {index index' : RowIndex} {path : String} {row new : BranchRow}

theorem describes_empty : Describes {} {} where
  view _ _ := rfl
  valid := by
    intro path view there
    simp at there

/--
If the current row changes on one branch only, it is enough to put down what has become of it.
-/
theorem Describes.put (h : replica.Describes index) (hp : Path.Valid path) (new : BranchRow)
    (changed : ∀ q, Path.Valid q →
      index'.last? q = if q = path then some new else index.last? q) :
    (replica.put path new.view).Describes index' where
  view := by
    intro q hq
    unfold Replica.put
    rw [changed q hq]
    split
    · rename_i same
      rw [same, OrderedMap.get?_insert_self]
      rfl
    · rename_i other
      rw [OrderedMap.get?_insert_of_ne other]
      exact h.view q hq
  valid := by
    intro q view there
    rcases OrderedMap.get?_insert_eq_some_iff.1 there with ⟨rfl, -⟩ | ⟨-, there⟩
    · exact hp
    · exact h.valid q view there

theorem Describes.alter (h : replica.Describes index) (hp : Path.Valid path)
    (last : index.last? path = some row) (new : BranchRow) {f : View → View}
    (same : f row.view = new.view) (changed : ∀ q, Path.Valid q →
      index'.last? q = if q = path then some new else index.last? q) :
    (replica.alter path f).Describes index' := by
  have known := h.view path hp
  rw [last, Option.map_some] at known
  unfold Replica.alter
  rw [known]
  simp only
  rw [same]
  exact h.put hp new changed

theorem Describes.setLocked (h : replica.Describes index) (hp : Path.Valid path)
    (last : index.last? path = some row) (locked : Bool) :
    (replica.setLocked path locked).Describes (index.setLocked path locked) := by
  apply h.alter hp last { row with locked } rfl
  intro q hq
  rw [RowIndex.last?_setLocked index locked hp hq, last]
  rfl

theorem Describes.restart (h : replica.Describes index) (hp : Path.Valid path)
    (last : index.last? path = some row) (closed new : BranchRow) {t : Timepoint}
    (head : new.head = t) (unlocked : new.locked = false) :
    (replica.restart path t).Describes (index.advance path closed new) := by
  apply h.alter hp last new
  · unfold BranchRow.view
    rw [head, unlocked]
  · intro q hq
    exact RowIndex.last?_advance index closed new hp hq

theorem Describes.hear {event : Event} (h : replica.Describes index)
    (announcement : Directory.Announcement index event index') :
    (replica.hear event).Describes index' := by
  cases announcement with
  | created path base t hp =>
    apply h.put hp (.fresh path base t)
    intro q hq
    exact RowIndex.last?_put_singleton index _ hp hq
  | locked path row hp last => exact h.setLocked hp last true
  | unlocked path row byForce hp last => exact h.setLocked hp last false
  | completed commit row hp last single =>
    unfold Replica.hear
    rw [single]
    exact h.restart hp last _ _ rfl rfl
  | promoted commit row source sourceRow hp last double hs distinct sourceLast =>
    have middle := h.restart hp last (row.close commit.timepoint)
      (Directory.nextRow commit (row.close commit.timepoint)
        (some (sourceRow.close commit.timepoint))) rfl rfl
    unfold Replica.hear
    rw [double]
    -- the source goes on in rows in which the branch has gone on
    exact middle.restart hs
      ((RowIndex.last?_advance_of_ne index _ _ hp hs distinct).trans sourceLast) _ _ rfl rfl
  | purged rows => exact describes_empty

theorem Describes.hearAll {told : List Event} (h : replica.Describes index)
    (announcements : Directory.Announcements index told index') :
    (told.foldl Replica.hear replica).Describes index' := by
  induction announcements generalizing replica with
  | nil index => exact h
  | cons first rest ih => exact ih (h.hear first)

end

end Replica

end TemporalStore
