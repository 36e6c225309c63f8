import TemporalStore.Proofs.Session.Commits
import TemporalStore.Proofs.Session.Effect

/-!
This module contains the proof that the locks of a session that is kept in memory exclude each
other: a branch is locked for one commit that is open on it, or for someone outside, or not at all.
-/

namespace TemporalStore

def RowIndex.isLocked (index : RowIndex) (path : String) : Bool :=
  (index.last? path).any BranchRow.locked

namespace RowIndex

variable {index : RowIndex} {path q : String} {row : BranchRow}

theorem isLocked_of_last? (last : index.last? path = some row) :
    index.isLocked path = row.locked := by
  unfold isLocked
  rw [last, Option.any_some]

theorem isLocked_of_last?_eq_none (last : index.last? path = none) :
    index.isLocked path = false := by
  unfold isLocked
  rw [last, Option.any_none]

theorem isLocked_setLocked (locked : Bool) (hp : Path.Valid path)
    (last : index.last? path = some row) : (index.setLocked path locked).isLocked path = locked :=
  isLocked_of_last? (last?_setLocked_self locked hp last)

theorem isLocked_setLocked_of_ne (locked : Bool) (hp : Path.Valid path) (hq : Path.Valid q)
    (other : q ≠ path) : (index.setLocked path locked).isLocked q = index.isLocked q := by
  unfold isLocked
  rw [last?_setLocked index locked hp hq, if_neg other]

theorem isLocked_setLocked_both {source : String} {sourceRow : BranchRow} (locked : Bool)
    (hp : Path.Valid path) (hs : Path.Valid source) (last : index.last? path = some row)
    (sourceLast : index.last? source = some sourceRow) (hq : q = path ∨ q = source) :
    ((index.setLocked path locked).setLocked source locked).isLocked q = locked := by
  by_cases second : q = source
  · have there : ∃ row, (index.setLocked path locked).last? source = some row := by
      rw [last?_setLocked index locked hp hs]
      split
      · exact ⟨_, by rw [last, Option.map_some]⟩
      · exact ⟨sourceRow, sourceLast⟩
    obtain ⟨row', last'⟩ := there
    rw [second]
    exact isLocked_setLocked locked hs last'
  · have first := hq.resolve_right second
    rw [first] at second ⊢
    rw [isLocked_setLocked_of_ne locked hs hp second]
    exact isLocked_setLocked locked hp last

theorem isLocked_advance (closed new : BranchRow) (hp : Path.Valid path) :
    (index.advance path closed new).isLocked path = new.locked := by
  apply isLocked_of_last?
  exact last?_advance_self index closed new hp

theorem isLocked_advance_of_ne (closed new : BranchRow) (hp : Path.Valid path)
    (hq : Path.Valid q) (other : q ≠ path) :
    (index.advance path closed new).isLocked q = index.isLocked q := by
  unfold isLocked
  rw [last?_advance_of_ne index closed new hp hq other]

theorem isLocked_advance_both {source : String} (closed new closed' new' : BranchRow)
    (hp : Path.Valid path) (hs : Path.Valid source) (unlocked : new.locked = false)
    (unlocked' : new'.locked = false) (hq : q = path ∨ q = source) :
    ((index.advance path closed new).advance source closed' new').isLocked q = false := by
  by_cases second : q = source
  · rw [second, isLocked_advance closed' new' hs, unlocked']
  · have first := hq.resolve_right second
    rw [first] at second ⊢
    rw [isLocked_advance_of_ne closed' new' hs hp second, isLocked_advance closed new hp, unlocked]

end RowIndex

namespace Session

open Directory

/-! ## What is said of a run -/

/--
A commit was opened, and nothing has ended it since.
-/
def IsLive (start : Session) (actions : List Action) (handle : Nat) (commit : Commit) : Prop :=
  start.Since (fun session action => handle = session.commits.length ∧
    (session.step action).2.commits[handle]? = some commit) (Ends handle commit) actions

/--
What gives back a lock that someone outside has taken.
-/
def Releases (path : String) : Action × Except StoreError Unit → Prop
  | (.unlock other, .ok ()) | (.forceUnlock other, .ok ()) => other = path
  | (.purge, .ok ()) => True
  | _ => False

/--
Someone outside has locked a branch, and has not given the lock back.
-/
def Taken (start : Session) (actions : List Action) (path : String) : Prop :=
  start.Since (fun session action => action = .lock path ∧ (session.step action).1 = .ok ())
    (Releases path) actions

/--
How locks exclude each other, where `live` are the commits that have not ended and `taken` the
branches that someone outside has locked.
-/
structure Exclusive (session : Session) (live : Nat → Commit → Prop) (taken : String → Prop) :
    Prop where
  alone : ∀ path handle commit handle' commit', live handle commit → live handle' commit' →
    commit.Touches path → commit'.Touches path → handle = handle'
  locked_iff : ∀ path row, Path.Valid path →
    session.site.directory.index.current path = .ok (some row) →
      (row.locked = true ↔ (∃ handle commit, live handle commit ∧ commit.Touches path) ∨ taken path)
  refuses : ∀ path row, Path.Valid path →
    session.site.directory.index.current path = .ok (some row) → row.locked = true →
      (session.step (.lock path)).1 = .error (.branchLocked path) ∧
        ∀ kind, (session.step (.openCommit path kind)).1 = .error (.branchLocked path)
  refusesBoth : ∀ path source row sourceRow, Path.Valid path → Path.Valid source → path ≠ source →
    session.site.directory.index.current path = .ok (some row) →
    session.site.directory.index.current source = .ok (some sourceRow) →
      (row.locked = true → (session.step (.openPromotion path source)).1 =
        .error (.branchLocked path)) ∧
      (row.locked = false → sourceRow.locked = true →
        (session.step (.openPromotion path source)).1 = .error (.branchLocked source))
  unlock_iff : ∀ path row, Path.Valid path →
    session.site.directory.index.current path = .ok (some row) →
      ((session.step (.unlock path)).1 = .ok () ↔
        ¬ ∃ handle commit, live handle commit ∧ commit.Touches path)
  unlock_fails : ∀ path handle commit, live handle commit → commit.Touches path →
    ∃ reason, session.step (.unlock path) = (.error (.commitState reason), session)
  lasts : ∀ handle commit, live handle commit →
    ((session.step (.complete handle)).1 = .ok () ↔
      ¬ (commit.kind = .promotion ∧ commit.source = none))

/-! ## Live commits -/

section

variable {start session : Session} {actions : List Action} {action : Action}

/--
What has not ended in the course of a run is what is still open after it.
-/
def Lives (session : Session) (live : Nat → Commit → Prop) : Prop :=
  ∀ handle commit, live handle commit ↔ ∃ given, session.commits[handle]? = some given ∧
    given.bare = commit ∧ given.IsOpen session.site.directory.openCommits

theorem bare_bare (commit : Commit) : commit.bare.bare = commit.bare := rfl

theorem lives_step {live : Nat → Commit → Prop} (sound : session.Sound)
    (allowed : action.Allowed session) (memory : session.site.directory.file = none)
    (lives : session.Lives live) :
    (session.step action).2.Lives fun handle commit =>
      (handle = session.commits.length ∧ (session.step action).2.commits[handle]? = some commit) ∨
        live handle commit ∧ ¬ Ends handle commit (action, (session.step action).1) := by
  have follows := follows_step sound allowed memory
  have handles := (effect_step sound allowed).handles
  simp only [memory, ne_eq, not_true_eq_false, false_and, or_false] at handles
  intro handle commit
  constructor
  · rintro (⟨rfl, there⟩ | ⟨alive, not⟩)
    · refine ⟨commit, there, ?_, follows.given commit there⟩
      rcases handles with same | ⟨opened, handles, bare⟩
      · -- a handle that was not there before is a new one
        have size := congrArg List.length same
        rw [List.length_map, List.length_map] at size
        rw [← size, List.getElem?_length] at there
        cases there
      · rw [handles, List.getElem?_concat_length, Option.some.injEq] at there
        rw [← there]
        exact bare
    · obtain ⟨given, there, rfl, open'⟩ := (lives handle commit).1 alive
      obtain ⟨given', there', same⟩ := exists_handle_of_prefix follows.handles there
      rw [ends_iff_of_bare (bare_bare given)] at not
      refine ⟨given', there', same, ?_⟩
      rw [isOpen_iff_of_bare same, follows.rest handle given there]
      exact ⟨open', not⟩
  · rintro ⟨given, there, rfl, open'⟩
    by_cases old : handle < session.commits.length
    · have there' := List.getElem?_eq_getElem old
      obtain ⟨given', again, same⟩ := exists_handle_of_prefix follows.handles there'
      rw [there, Option.some.injEq] at again
      rw [← again] at same
      rw [isOpen_iff_of_bare same, follows.rest handle _ there'] at open'
      right
      rw [lives, ends_iff_of_bare (bare_bare given), ends_iff_of_bare same]
      exact ⟨⟨_, there', same.symm, open'.1⟩, open'.2⟩
    · left
      rcases handles with same | ⟨opened, handles, bare⟩
      · have size := congrArg List.length same
        rw [List.length_map, List.length_map] at size
        obtain ⟨lt, -⟩ := List.getElem?_eq_some_iff.1 there
        lia
      · rw [handles, List.getElem?_append_right (by lia)] at there
        have first : handle - session.commits.length = 0 := by
          obtain ⟨lt, -⟩ := List.getElem?_eq_some_iff.1 there
          simpa using lt
        simp only [first, List.getElem?_cons_zero, Option.some.injEq] at there
        have here : handle = session.commits.length := by lia
        refine ⟨here, ?_⟩
        rw [handles, here, List.getElem?_concat_length, ← there, bare]

/-! ## Holders of a lock -/

/--
Who holds the lock of a branch.
-/
inductive Holder (index : RowIndex) (openCommits : OrderedMap String Timepoint) (taken : Prop)
    (path : String) : Prop where
  | nobody (unlocked : index.isLocked path = false) (entry : openCommits.get? path = none)
    (free : ¬ taken) : Holder index openCommits taken path
  | commit (t : Timepoint) (locked : index.isLocked path = true)
    (entry : openCommits.get? path = some t) (free : ¬ taken) : Holder index openCommits taken path
  | outside (locked : index.isLocked path = true) (entry : openCommits.get? path = none)
    (held : taken) : Holder index openCommits taken path

section

variable {index index' : RowIndex} {openCommits openCommits' : OrderedMap String Timepoint}
  {taken taken' : Prop} {path : String}

theorem Holder.congr (holder : Holder index openCommits taken path)
    (locked : index'.isLocked path = index.isLocked path)
    (entry : openCommits'.get? path = openCommits.get? path) (same : taken' ↔ taken) :
    Holder index' openCommits' taken' path := by
  cases holder with
  | nobody unlocked none free =>
    exact .nobody (locked.trans unlocked) (entry.trans none) (mt same.1 free)
  | commit t isLocked some free =>
    exact .commit t (locked.trans isLocked) (entry.trans some) (mt same.1 free)
  | outside isLocked none held =>
    exact .outside (locked.trans isLocked) (entry.trans none) (same.2 held)

theorem Holder.locked_iff (holder : Holder index openCommits taken path) :
    index.isLocked path = true ↔ (∃ t, openCommits.get? path = some t) ∨ taken := by
  cases holder with
  | nobody unlocked none free => simp [unlocked, none, free]
  | commit t locked some free => simp [locked, some]
  | outside locked none held => simp [locked, held]

theorem Holder.not_of_entry (holder : Holder index openCommits taken path) {t : Timepoint}
    (entry : openCommits.get? path = some t) : ¬ taken := by
  cases holder with
  | nobody _ none free => exact free
  | commit _ _ _ free => exact free
  | outside _ none _ => simp [none] at entry

theorem Holder.not_of_unlocked (holder : Holder index openCommits taken path)
    (unlocked : index.isLocked path = false) :
    openCommits.get? path = none ∧ ¬ taken := by
  cases holder with
  | nobody _ none free => exact ⟨none, free⟩
  | commit _ locked => simp [locked] at unlocked
  | outside locked => simp [locked] at unlocked

end

/--
The lock of every branch is with its holder.
-/
def Guarded (session : Session) (taken : String → Prop) : Prop :=
  ∀ path, Path.Valid path →
    Holder session.site.directory.index session.site.directory.openCommits (taken path) path

section

variable {next : Session} {taken taken' : String → Prop} {path source : String}

/--
An action that concerns one branch or two leaves the locks of all others alone.
-/
theorem Guarded.of_touched (guarded : session.Guarded taken) {touched : String → Prop}
    (here : ∀ q, Path.Valid q → touched q →
      Holder next.site.directory.index next.site.directory.openCommits (taken' q) q)
    (locked : ∀ q, Path.Valid q → ¬ touched q →
      next.site.directory.index.isLocked q = session.site.directory.index.isLocked q)
    (entry : ∀ q, ¬ touched q → next.site.directory.openCommits.get? q =
      session.site.directory.openCommits.get? q)
    (same : ∀ q, ¬ touched q → (taken' q ↔ taken q)) : next.Guarded taken' := by
  intro q hq
  by_cases ht : touched q
  · exact here q hq ht
  · exact (guarded q hq).congr (locked q hq ht) (entry q ht) (same q ht)

theorem Guarded.not_taken_of_free (guarded : session.Guarded taken) (hp : Path.Valid path)
    {row : BranchRow} (last : session.site.directory.index.last? path = some row)
    (unlocked : row.locked = false) :
    session.site.directory.openCommits.get? path = none ∧ ¬ taken path := by
  apply (guarded path hp).not_of_unlocked
  rw [RowIndex.isLocked_of_last? last, unlocked]

theorem guarded_setLocked (guarded : session.Guarded taken) (hp : Path.Valid path)
    {locked : Bool}
    (index : next.site.directory.index = session.site.directory.index.setLocked path locked)
    (here : Holder next.site.directory.index next.site.directory.openCommits (taken' path) path)
    (entry : ∀ q ≠ path, next.site.directory.openCommits.get? q =
      session.site.directory.openCommits.get? q)
    (same : ∀ q ≠ path, (taken' q ↔ taken q)) : next.Guarded taken' := by
  apply guarded.of_touched _ _ entry same
  · rintro q - rfl
    exact here
  · intro q hq other
    rw [index]
    exact RowIndex.isLocked_setLocked_of_ne locked hp hq other

theorem guarded_setLocked_both (guarded : session.Guarded taken) (hp : Path.Valid path)
    (hs : Path.Valid source) {locked : Bool}
    (index : next.site.directory.index =
      (session.site.directory.index.setLocked path locked).setLocked source locked)
    (here : ∀ q, q = path ∨ q = source →
      Holder next.site.directory.index next.site.directory.openCommits (taken' q) q)
    (entry : ∀ q, q ≠ path → q ≠ source → next.site.directory.openCommits.get? q =
      session.site.directory.openCommits.get? q)
    (same : ∀ q, q ≠ path → q ≠ source → (taken' q ↔ taken q)) : next.Guarded taken' := by
  apply @Guarded.of_touched _ _ _ _ guarded fun q => q = path ∨ q = source
  · intro q _ touched
    exact here q touched
  · intro q hq other
    rw [not_or] at other
    rw [index, RowIndex.isLocked_setLocked_of_ne locked hs hq other.2,
      RowIndex.isLocked_setLocked_of_ne locked hp hq other.1]
  · intro q other
    rw [not_or] at other
    exact entry q other.1 other.2
  · intro q other
    rw [not_or] at other
    exact same q other.1 other.2

theorem guarded_complete {commit : Commit} (sound : session.Sound)
    (guarded : session.Guarded taken) (hc : commit ∈ session.commits)
    (open' : commit.IsOpen session.site.directory.openCommits)
    (locked : ∀ q, commit.Touches q → next.site.directory.index.isLocked q = false)
    (others : ∀ q, Path.Valid q → ¬ commit.Touches q →
      next.site.directory.index.isLocked q = session.site.directory.index.isLocked q)
    (openCommits : next.site.directory.openCommits =
      remaining session.site.directory.openCommits commit)
    (same : ∀ q, taken' q ↔ taken q) : next.Guarded taken' := by
  have live := sound.site.consistent.live commit hc open'
  apply guarded.of_touched _ others _ fun q _ => same q
  · intro q hq touches
    have free := (guarded q hq).not_of_entry (live.entry_of_touches touches)
    apply Holder.nobody (locked q touches) _ (mt (same q).1 free)
    rw [openCommits]
    exact Consistent.get?_remaining_of_touches touches
  · intro q not
    rw [openCommits]
    apply Option.ext
    intro t
    rw [Consistent.remaining_iff, and_iff_left not]

/--
What is taken by someone outside after an action.
-/
def takenAfter (taken : String → Prop) (done : Action × Except StoreError Unit) (path : String) :
    Prop :=
  done = (.lock path, .ok ()) ∨ taken path ∧ ¬ Releases path done

theorem stirs_of_releases {answer : Except StoreError Unit}
    (releases : Releases path (action, answer)) : answer = .ok () ∧ action.Stirs := by
  cases answer with
  | error e => cases action <;> exact releases.elim
  | ok u =>
    refine ⟨rfl, ?_⟩
    cases action <;> first | exact trivial | exact releases.elim

theorem takenAfter_of_quiet {answer : Except StoreError Unit}
    (quiet : answer = .ok () → ¬ action.Stirs) :
    takenAfter taken (action, answer) path ↔ taken path := by
  have lock : (action, answer) ≠ (.lock path, .ok ()) := by
    intro same
    rw [Prod.mk.injEq] at same
    rw [same.1] at quiet
    exact quiet same.2 trivial
  have release : ¬ Releases path (action, answer) := by
    intro releases
    obtain ⟨ok, stirs⟩ := stirs_of_releases releases
    exact quiet ok stirs
  unfold takenAfter
  simp only [lock, release, false_or, not_false_eq_true, and_true]

/--
An action that is about neither locks nor all rows.
-/
theorem takenAfter_of_other {answer : Except StoreError Unit}
    (other : ∀ path, action ≠ .lock path ∧ action ≠ .unlock path ∧ action ≠ .forceUnlock path)
    (unpurged : action ≠ .purge) : takenAfter taken (action, answer) path ↔ taken path := by
  have lock := (other path).1
  have release : ¬ Releases path (action, answer) := by
    unfold Releases
    grind
  unfold takenAfter
  simp only [Prod.mk.injEq, lock, release, false_and, false_or, not_false_eq_true, and_true]

theorem Effect.guarded {result : Except StoreError Unit × Session}
    (effect : session.Effect action result) (sound : session.Sound)
    (memory : session.site.directory.file = none) (guarded : session.Guarded taken) :
    result.2.Guarded (takenAfter taken (action, result.1)) := by
  have consistent := sound.site.consistent
  cases effect with
  | still action answer next quiet index openCommits handles =>
    intro q hq
    apply (guarded q hq).congr _ _ (takenAfter_of_quiet quiet)
    · rw [index]
    · rw [openCommits]
  | created path base next valid last inherits index openCommits handles =>
    have none := RowIndex.isLocked_of_last?_eq_none last
    obtain ⟨entry, free⟩ := (guarded path valid).not_of_unlocked none
    have same := fun q => @takenAfter_of_other (.create path) taken q (.ok ()) (by simp) (by simp)
    apply @Guarded.of_touched _ _ _ _ guarded fun q => q = path
    · rintro q - rfl
      refine .nobody ?_ (by rw [openCommits, entry]) (mt (same q).1 free)
      rw [index, RowIndex.isLocked_of_last?
        ((RowIndex.last?_put_singleton _ _ valid valid).trans (if_pos rfl))]
      rfl
    · intro q hq other
      unfold RowIndex.isLocked
      rw [index, RowIndex.last?_put_singleton _ _ valid hq, if_neg other]
    · intro q _
      rw [openCommits]
    · intro q _
      exact same q
  | locked path row next valid last unlocked index openCommits handles =>
    obtain ⟨entry, -⟩ := guarded.not_taken_of_free valid last unlocked
    apply guarded_setLocked guarded valid index
    · refine .outside ?_ (by rw [openCommits, entry]) (.inl rfl)
      rw [index, RowIndex.isLocked_setLocked true valid last]
    · intro q _
      rw [openCommits]
    · intro q other
      simp [takenAfter, Releases, Ne.symm other]
  | unlocked path row next valid last free index openCommits handles =>
    apply guarded_setLocked guarded valid index
    · refine .nobody ?_ (by rw [openCommits, free]) (by simp [takenAfter, Releases])
      rw [index, RowIndex.isLocked_setLocked false valid last]
    · intro q _
      rw [openCommits]
    · intro q other
      simp [takenAfter, Releases, Ne.symm other]
  | forced path row next valid last alone index openCommits handles =>
    apply guarded_setLocked guarded valid index
    · refine .nobody ?_ (by rw [openCommits, get?_erase_self]) (by simp [takenAfter, Releases])
      rw [index, RowIndex.isLocked_setLocked false valid last]
    · intro q other
      rw [openCommits]
      exact OrderedMap.get?_erase_of_ne other
    · intro q other
      simp [takenAfter, Releases, Ne.symm other]
  | forcedBoth path row partner t next valid validPartner last both index openCommits handles =>
    obtain ⟨-, entry, distinct⟩ := get?_of_partners both
    have free := (guarded partner validPartner).not_of_entry entry
    obtain ⟨owner, ho, rfl, touches, open'⟩ := consistent.owned partner t entry
    obtain ⟨partnerRow, partnerLast, -⟩ :=
      (consistent.live owner ho open').last_of_touches touches
    apply guarded_setLocked_both guarded valid validPartner index
    · intro q hq
      refine .nobody ?_ ?_ ?_
      · rw [index, RowIndex.isLocked_setLocked_both false valid validPartner last partnerLast hq]
      · rw [openCommits]
        rcases hq with rfl | rfl
        · exact get?_erase_erase _ _ _
        · exact get?_erase_self _ _
      · rcases hq with rfl | rfl
        · simp [takenAfter, Releases]
        · simp [takenAfter, free]
    · intro q first second
      rw [openCommits, OrderedMap.get?_erase_of_ne second, OrderedMap.get?_erase_of_ne first]
    · intro q first _
      simp [takenAfter, Releases, Ne.symm first]
  | opened path kind row next valid last unlocked index openCommits handles =>
    obtain ⟨-, free⟩ := guarded.not_taken_of_free valid last unlocked
    have same := fun q =>
      @takenAfter_of_other (.openCommit path kind) taken q (.ok ()) (by simp) (by simp)
    apply guarded_setLocked guarded valid index
    · refine .commit (nextTimepoint session.site) ?_ ?_ (mt (same path).1 free)
      · rw [index, RowIndex.isLocked_setLocked true valid last]
      · rw [openCommits, OrderedMap.get?_insert_self]
    · intro q other
      rw [openCommits, OrderedMap.get?_insert_of_ne other]
    · intro q _
      exact same q
  | openedBoth path source row sourceRow next valid validSource distinct last unlocked sourceLast
      sourceUnlocked index openCommits handles =>
    obtain ⟨-, free⟩ := guarded.not_taken_of_free valid last unlocked
    obtain ⟨-, sourceFree⟩ := guarded.not_taken_of_free validSource sourceLast sourceUnlocked
    have same := fun q =>
      @takenAfter_of_other (.openPromotion path source) taken q (.ok ()) (by simp) (by simp)
    apply guarded_setLocked_both guarded valid validSource index
    · intro q hq
      refine .commit (nextTimepoint session.site) ?_ ?_ ?_
      · rw [index, RowIndex.isLocked_setLocked_both true valid validSource last sourceLast hq]
      · rw [openCommits]
        rcases hq with rfl | rfl
        · rw [OrderedMap.get?_insert_of_ne distinct, OrderedMap.get?_insert_self]
        · rw [OrderedMap.get?_insert_self]
      · rcases hq with rfl | rfl
        · exact mt (same q).1 free
        · exact mt (same q).1 sourceFree
    · intro q first second
      rw [openCommits, OrderedMap.get?_insert_of_ne second, OrderedMap.get?_insert_of_ne first]
    · intro q _ _
      exact same q
  | completed handle commit row next there held kind single index openCommits handles =>
    have hc := List.mem_of_getElem? there
    have valid := (consistent.formed commit hc).valid
    have touches : ∀ q, commit.Touches q ↔ q = commit.branchPath := by
      intro q
      unfold Commit.Touches
      simp [single]
    apply guarded_complete sound guarded hc held.entry _ _ openCommits
    · intro q
      exact takenAfter_of_other (by simp) (by simp)
    · intro q hq
      rw [(touches q).1 hq, index]
      exact RowIndex.isLocked_advance _ _ valid
    · intro q hq not
      rw [index]
      exact RowIndex.isLocked_advance_of_ne _ _ valid hq (mt (touches q).2 not)
  | promoted handle commit row source sourceRow next there held double validSource distinct
      sourceHeld index openCommits handles =>
    have hc := List.mem_of_getElem? there
    have valid := (consistent.formed commit hc).valid
    have touches : ∀ q, commit.Touches q ↔ q = commit.branchPath ∨ q = source := by
      intro q
      unfold Commit.Touches
      simp [double, eq_comm]
    apply guarded_complete sound guarded hc held.entry _ _ openCommits
    · intro q
      exact takenAfter_of_other (by simp) (by simp)
    · intro q hq
      rw [index]
      exact RowIndex.isLocked_advance_both _ _ _ _ valid validSource rfl rfl ((touches q).1 hq)
    · intro q hq not
      rw [touches, not_or] at not
      rw [index]
      exact (RowIndex.isLocked_advance_of_ne _ _ validSource hq not.2).trans
        (RowIndex.isLocked_advance_of_ne _ _ valid hq not.1)
  | purged next index openCommits handles =>
    intro q hq
    apply Holder.nobody
    · rw [index]
      exact RowIndex.isLocked_of_last?_eq_none rfl
    · rw [openCommits]
      rfl
    · simp [takenAfter, Releases]
  | reopened cacheSize next file index openCommits handles => exact absurd memory file

end

/-! ## Branches that are locked -/

section

variable {path source : String} {row sourceRow : BranchRow}

theorem step_lock_of_locked (sound : session.Sound) (hp : Path.Valid path)
    (last : session.site.directory.index.last? path = some row) (locked : row.locked = true) :
    (session.step (.lock path)).1 = .error (.branchLocked path) := by
  have out := lock_outcome sound.site.consistent.valid hp
  change (session.call (Directory.lock path)).1 = _
  rw [call_error (out.eq_of_locked last locked)]

theorem step_openCommit_of_locked (sound : session.Sound) (hp : Path.Valid path)
    (last : session.site.directory.index.last? path = some row) (locked : row.locked = true)
    (kind : CommitKind) :
    (session.step (.openCommit path kind)).1 = .error (.branchLocked path) := by
  have out := openCommit_outcome sound.site.consistent.valid sound.site.agrees hp kind
  change (session.call (openCommit path kind) addCommit).1 = _
  unfold call
  generalize openCommit path kind session.site = result at out ⊢
  cases out with
  | notLocked e site' lock =>
    obtain ⟨rfl, -⟩ := EStateM.Result.error.inj (lock.eq_of_locked last locked)
    rfl
  | opened row' host history last' unlocked kept agrees =>
    rw [last, Option.some.injEq] at last'
    simp [← last', locked] at unlocked

theorem step_openPromotion_of_locked (sound : session.Sound) (hp : Path.Valid path)
    (hs : Path.Valid source) (distinct : path ≠ source)
    (last : session.site.directory.index.last? path = some row) (locked : row.locked = true) :
    (session.step (.openPromotion path source)).1 = .error (.branchLocked path) := by
  have out := openPromotion_outcome sound.site.consistent.valid hp hs
  have unlocked : ∀ row', session.site.directory.index.last? path = some row' →
      row'.locked ≠ false := by
    intro row' last'
    rw [last, Option.some.injEq] at last'
    simp [← last', locked]
  change (session.call (openPromotion path source) addCommit).1 = _
  unfold call
  generalize openPromotion path source session.site = result at out ⊢
  cases out with
  | itself same => exact absurd same distinct
  | notLocked e site' lock =>
    obtain ⟨rfl, -⟩ := EStateM.Result.error.inj (lock.eq_of_locked last locked)
    rfl
  | stuck row' _ _ _ _ _ last' unlocked' => exact absurd unlocked' (unlocked row' last')
  | givenBack row' _ _ _ _ _ last' unlocked' => exact absurd unlocked' (unlocked row' last')
  | opened row' _ _ _ _ last' unlocked' => exact absurd unlocked' (unlocked row' last')

theorem step_openPromotion_of_source_locked (sound : session.Sound)
    (memory : session.site.directory.file = none) (hp : Path.Valid path)
    (hs : Path.Valid source) (distinct : path ≠ source)
    (last : session.site.directory.index.last? path = some row) (unlocked : row.locked = false)
    (sourceLast : session.site.directory.index.last? source = some sourceRow)
    (locked : sourceRow.locked = true) :
    (session.step (.openPromotion path source)).1 = .error (.branchLocked source) := by
  have out := openPromotion_outcome sound.site.consistent.valid hp hs
  -- locking the target leaves the source as it was
  have sourceLast' :
      (session.site.directory.index.setLocked path true).last? source = some sourceRow := by
    rw [RowIndex.last?_setLocked _ _ hp hs, if_neg (Ne.symm distinct), sourceLast]
  change (session.call (openPromotion path source) addCommit).1 = _
  unfold call
  generalize openPromotion path source session.site = result at out ⊢
  cases out with
  | itself same => exact absurd same distinct
  | notLocked e site' lock =>
    exact absurd lock (LockOutcome.ne_error_of_unlocked memory last unlocked)
  | stuck row' host e e' site' site'' last' unlocked' kept lock release =>
    obtain ⟨-, rfl⟩ := EStateM.Result.error.inj (lock.eq_of_locked sourceLast' locked)
    cases release with
    | absent last'' =>
      change (session.site.directory.index.setLocked path true).last? path = none at last''
      rw [RowIndex.last?_setLocked_self true hp last] at last''
      cases last''
    | refused row'' e host' last'' kept' =>
      have memory' : (lockedFor session.site path host).directory.file = none := memory
      simp [Site.persisted_of_file_eq_none memory'] at kept'
  | givenBack row' host e site' site'' wasLocked last' unlocked' kept lock release =>
    obtain ⟨rfl, -⟩ := EStateM.Result.error.inj (lock.eq_of_locked sourceLast' locked)
    rfl
  | opened row' other host host' _ last' unlocked' kept last'' unlocked'' =>
    rw [sourceLast', Option.some.injEq] at last''
    simp [← last'', locked] at unlocked''

theorem step_unlock_of_free (sound : session.Sound) (memory : session.site.directory.file = none)
    (hp : Path.Valid path) (last : session.site.directory.index.last? path = some row)
    (free : session.site.directory.openCommits.get? path = none) :
    (session.step (.unlock path)).1 = .ok () := by
  have out := release_outcome sound.site.consistent.valid hp
  have unlock := unlock_of_free free
  rw [releaseAnnounced_eq] at unlock
  change (session.call (Directory.unlock path)).1 = _
  generalize release path session.site = result at out unlock
  cases out with
  | absent last' => simp [last] at last'
  | refused row' e host last' kept => simp [Site.persisted_of_file_eq_none memory] at kept
  | done row' host last' kept => rw [call_ok unlock]

end

/-! ## Exclusion -/

section

variable {live : Nat → Commit → Prop} {taken : String → Prop} {path : String}

theorem Lives.entry_of_touches (lives : session.Lives live) (sound : session.Sound) {handle : Nat}
    {commit : Commit} (alive : live handle commit) (touches : commit.Touches path) :
    ∃ given, session.commits[handle]? = some given ∧
      session.site.directory.openCommits.get? path = some given.timepoint := by
  obtain ⟨given, there, rfl, open'⟩ := (lives handle commit).1 alive
  have held := sound.site.consistent.live given (List.mem_of_getElem? there) open'
  exact ⟨given, there, held.entry_of_touches touches⟩

theorem Lives.exists_touches_iff (lives : session.Lives live) (sound : session.Sound) :
    (∃ handle commit, live handle commit ∧ commit.Touches path) ↔
      ∃ t, session.site.directory.openCommits.get? path = some t := by
  constructor
  · rintro ⟨handle, commit, alive, touches⟩
    obtain ⟨given, -, entry⟩ := lives.entry_of_touches sound alive touches
    exact ⟨given.timepoint, entry⟩
  · rintro ⟨t, entry⟩
    obtain ⟨owner, ho, rfl, touches, open'⟩ := sound.site.consistent.owned path t entry
    obtain ⟨handle, there⟩ := List.getElem?_of_mem ho
    exact ⟨handle, owner.bare, (lives handle owner.bare).2 ⟨owner, there, rfl, open'⟩, touches⟩

theorem exclusive (sound : session.Sound) (memory : session.site.directory.file = none)
    (lives : session.Lives live) (guarded : session.Guarded taken) :
    session.Exclusive live taken := by
  have current : ∀ path row, session.site.directory.index.current path = .ok (some row) →
      session.site.directory.index.last? path = some row := by
    intro path row there
    rw [sound.site.consistent.valid.current_eq] at there
    exact Except.ok.inj there
  constructor
  · intro path handle commit handle' commit' alive alive' touches touches'
    obtain ⟨given, there, entry⟩ := lives.entry_of_touches sound alive touches
    obtain ⟨given', there', entry'⟩ := lives.entry_of_touches sound alive' touches'
    rw [entry, Option.some.injEq] at entry'
    exact (handle_eq_iff sound there there').1 entry'
  · intro path row hp there
    rw [← RowIndex.isLocked_of_last? (current path row there), (guarded path hp).locked_iff,
      lives.exists_touches_iff sound]
  · intro path row hp there locked
    have last := current path row there
    exact ⟨step_lock_of_locked sound hp last locked,
      step_openCommit_of_locked sound hp last locked⟩
  · intro path source row sourceRow hp hs distinct there sourceThere
    have last := current path row there
    have sourceLast := current source sourceRow sourceThere
    refine ⟨step_openPromotion_of_locked sound hp hs distinct last, ?_⟩
    intro unlocked
    exact step_openPromotion_of_source_locked sound memory hp hs distinct last unlocked sourceLast
  · intro path row hp there
    rw [lives.exists_touches_iff sound]
    cases entry : session.site.directory.openCommits.get? path with
    | none => simp [step_unlock_of_free sound memory hp (current path row there) entry]
    | some t => simp [step_unlock_of_entry entry]
  · intro path handle commit alive touches
    obtain ⟨given, -, entry⟩ := lives.entry_of_touches sound alive touches
    exact ⟨_, step_unlock_of_entry entry⟩
  · intro handle commit alive
    obtain ⟨given, there, rfl, open'⟩ := (lives handle commit).1 alive
    rw [(complete_of_isOpen sound memory there).1, and_iff_right open']
    rfl

end

/-! ## Runs -/

theorem New.lives (new : start.New) : start.Lives (start.IsLive []) := by
  intro handle commit
  constructor
  · intro alive
    exact absurd alive not_since_nil
  · rintro ⟨given, there, -⟩
    simp [new.1] at there

theorem New.guarded (new : start.New) : start.Guarded (start.Taken []) := by
  obtain ⟨-, -, file, cacheSize, directory, -⟩ := new
  intro path _
  rw [directory]
  exact .nobody rfl rfl not_since_nil

theorem lives_and_guarded_of_run (new : start.New) (memory : start.site.directory.file = none)
    (permitted : start.Permits actions) :
    (start.run actions).Lives (start.IsLive actions) ∧
      (start.run actions).Guarded (start.Taken actions) := by
  -- the last action is the one that ends a commit or gives back a lock
  induction actions using List.reverseRecOn with
  | nil => exact ⟨new.lives, new.guarded⟩
  | append_singleton actions action ih =>
    obtain ⟨permitted, allowed, -⟩ := (permits_append _ _ _).1 permitted
    obtain ⟨lives, guarded⟩ := ih permitted
    have sound := sound_run new.sound permitted
    have memory' := file_run new.sound memory permitted
    rw [run_append]
    constructor
    · intro handle commit
      unfold IsLive
      rw [since_concat]
      exact lives_step sound allowed memory' lives handle commit
    · intro path hp
      have holder := (effect_step sound allowed).guarded sound memory' guarded path hp
      apply holder.congr rfl rfl
      unfold Taken takenAfter
      rw [since_concat, Prod.mk.injEq]

/--
In memory, whatever is done in a session that starts out empty, a branch is locked if and only if a
commit that has not ended holds it, or someone outside has locked it and has not given the lock
back. No two such commits hold the same branch. A branch that is locked can be neither locked again
nor taken by another commit. Only a branch that no commit holds can be unlocked, other than by
force, and so a commit can be completed until it is given up by a forced unlock or by deleting all
rows.
-/
theorem exclusive_of_run (new : start.New) (memory : start.site.directory.file = none)
    (permitted : start.Permits actions) :
    (start.run actions).Exclusive (start.IsLive actions) (start.Taken actions) := by
  obtain ⟨lives, guarded⟩ := lives_and_guarded_of_run new memory permitted
  exact exclusive (sound_run new.sound permitted) (file_run new.sound memory permitted) lives
    guarded

end

/--
A promotion keeps its source as it keeps its target.
-/
theorem exclusive_of_promotionOpen :
    empty.New ∧ empty.Permits promotionOpen ∧
      ((empty.run promotionOpen).step (.openCommit "M/A" .content)).1 =
        .error (.branchLocked "M/A") ∧
      ((empty.run promotionOpen).step (.unlock "M/A")).1 ≠ .ok () ∧
      ((empty.run promotionOpen).step (.complete 0)).1 = .ok () := by
  have m : Path.Valid "M" := by decide
  have a : Path.Valid "M/A" := by decide
  have n : Path.Valid "N" := by decide
  have permitted : empty.Permits promotionOpen := ⟨m, a, n, ⟨m, a⟩, trivial⟩
  have exclusive := exclusive_of_run new_empty rfl permitted
  have opened : ((empty.run promotionOpen).commits[0]?).map
      (fun commit => (commit.branchPath, commit.source)) = some ("M", some "M/A") := by
    decide +kernel
  have there : ((empty.run promotionOpen).site.directory.index.current "M/A").map
      (·.map BranchRow.locked) = .ok (some true) := by decide +kernel
  obtain ⟨commit, given, parts⟩ := Option.map_eq_some_iff.1 opened
  simp only [Prod.mk.injEq] at parts
  have live : empty.IsLive promotionOpen 0 commit := by
    refine ⟨[.create "M", .create "M/A", .create "N"], .openPromotion "M" "M/A", [], rfl,
      ⟨by decide +kernel, given⟩, ?_⟩
    simp [answers]
  cases found : (empty.run promotionOpen).site.directory.index.current "M/A" with
  | error e => simp [found, Except.map] at there
  | ok row =>
    cases row with
    | none => simp [found, Except.map] at there
    | some row =>
      simp only [found, Except.map, Option.map_some, Except.ok.injEq, Option.some.injEq] at there
      refine ⟨new_empty, permitted, (exclusive.refuses "M/A" row a found there).2 .content, ?_, ?_⟩
      · rw [Ne, exclusive.unlock_iff "M/A" row a found, not_not]
        exact ⟨0, commit, live, .inr parts.2⟩
      · rw [exclusive.lasts 0 commit live]
        simp [parts]

end Session

end TemporalStore
