import TemporalStore.Proofs.Session.Bases

/-!
This module contains what the standing of a branch says about the past: whether its parent has
committed since, and whether something was committed on the branch itself that its parent does not
have.
-/

namespace TemporalStore

namespace BranchRow

theorem standing_behind_iff (row : BranchRow) (parentHead : Option Timepoint) :
    row.standing parentHead = .behind ∨ row.standing parentHead = .diverged ↔
      ∃ head, parentHead = some head ∧ row.base < head := by
  have late : parentHead.all row.isUpToDateWith = false ↔
      ∃ head, parentHead = some head ∧ row.base < head := by
    cases parentHead with
    | none => simp
    | some head => simp [isUpToDateWith]
  rw [← late]
  unfold standing
  cases parentHead.all row.isUpToDateWith <;> cases row.containsContent <;> simp

theorem standing_forward_iff (row : BranchRow) (parentHead : Option Timepoint) :
    row.standing parentHead = .forward ∨ row.standing parentHead = .diverged ↔
      row.containsContent = true := by
  unfold standing
  cases parentHead.all row.isUpToDateWith <;> cases row.containsContent <;> simp

end BranchRow

theorem Directory.latestWithStanding?_of_last? {site : Site} {now : Timepoint} {path : String}
    {row : BranchRow} (h : site.directory.index.Valid now) (hp : Path.Valid path)
    (last : site.directory.index.last? path = some row) :
    latestWithStanding? path site = .ok (some (row, row.standing ((Path.parent? path).bind
      fun parent => (site.directory.index.last? parent).map BranchRow.head))) site := by
  have found := latestWithParentHead?_eq h hp
  rw [last, Option.map_some] at found
  unfold latestWithStanding?
  rw [bind_ok found]
  rfl

namespace Session

/-! ## What has lasted -/

/--
Something that may happen when an action is performed in a session, and is answered.
-/
abbrev Happening := Session → Action → Except StoreError Unit → Prop

def Occurs (session : Session) (happening : Happening) (before : List Action) (action : Action) :
    Prop :=
  happening (session.run before) action ((session.run before).step action).1

/--
At some point of a run something has begun, and nothing that was done after it has ended it.
-/
def Lasts (session : Session) (begins ends : Happening) (actions : List Action) : Prop :=
  ∃ before action later, actions = before ++ action :: later ∧
    session.Occurs begins before action ∧
      ∀ between next rest, later = between ++ next :: rest →
        ¬ session.Occurs ends (before ++ action :: between) next

section

variable {session : Session} {begins ends : Happening} {actions : List Action} {action : Action}

theorem lasts_of_occurs (begun : session.Occurs begins actions action) :
    session.Lasts begins ends (actions ++ [action]) := by
  refine ⟨actions, action, [], rfl, begun, ?_⟩
  intro between next rest none
  simp at none

theorem Lasts.concat (h : session.Lasts begins ends actions)
    (goesOn : ¬ session.Occurs ends actions action) :
    session.Lasts begins ends (actions ++ [action]) := by
  obtain ⟨before, first, later, rfl, begun, lasting⟩ := h
  refine ⟨before, first, later ++ [action], by simp, begun, ?_⟩
  intro between next rest parts
  rcases List.eq_nil_or_concat rest with rfl | ⟨rest, last, rfl⟩
  · obtain ⟨rfl, same⟩ := List.append_inj' parts rfl
    rw [← List.singleton_inj.1 same]
    exact goesOn
  · rw [List.concat_eq_append, ← List.cons_append, ← List.append_assoc] at parts
    exact lasting between next rest (List.append_inj' parts rfl).1

theorem lasts_concat : session.Lasts begins ends (actions ++ [action]) ↔
    session.Occurs begins actions action ∨
      session.Lasts begins ends actions ∧ ¬ session.Occurs ends actions action := by
  constructor
  · rintro ⟨before, first, later, parts, begun, lasting⟩
    -- it has begun with the last action, or that is one of those which came after
    rcases List.eq_nil_or_concat later with rfl | ⟨later, last, rfl⟩
    · obtain ⟨rfl, same⟩ := List.append_inj' parts rfl
      rw [List.singleton_inj.1 same]
      exact .inl begun
    · rw [List.concat_eq_append, ← List.cons_append, ← List.append_assoc] at parts
      obtain ⟨rfl, same⟩ := List.append_inj' parts rfl
      rw [List.singleton_inj.1 same]
      refine .inr ⟨⟨before, first, later, rfl, begun, ?_⟩, ?_⟩
      · intro between next rest rfl
        exact lasting between next (rest ++ [last]) (by simp)
      · exact lasting later last [] (by simp)
  · rintro (begun | ⟨lasting, goesOn⟩)
    · exact lasts_of_occurs begun
    · exact lasting.concat goesOn

end

end Session

/-! ## Content -/

namespace RowIndex

/--
Whether there is content on a branch, if it is there.
-/
def content? (index : RowIndex) (path : String) : Option Bool :=
  (index.last? path).map BranchRow.containsContent

variable {path q : String}

theorem content?_of_last?_eq {index index' : RowIndex}
    (same : index'.last? path = index.last? path) : index'.content? path = index.content? path :=
  congrArg _ same

theorem content?_setLocked (index : RowIndex) (locked : Bool) (hp : Path.Valid path)
    (hq : Path.Valid q) : (index.setLocked path locked).content? q = index.content? q := by
  unfold content?
  rw [last?_setLocked index locked hp hq]
  split
  · rename_i same
    rw [same, Option.map_map]
    rfl
  · rfl

end RowIndex

namespace Session

open Directory

/--
A content commit on the branch, or a promotion into it, is completed.
-/
def Fills (path : String) : Happening := fun session action answer =>
  answer = .ok () ∧ ∃ handle commit, action = .complete handle ∧
    session.commits[handle]? = some commit ∧ commit.branchPath = path ∧ commit.kind ≠ .rebase

/--
The branch is created, or a promotion from it is completed.
-/
def Clears (path : String) : Happening := fun session action answer =>
  answer = .ok () ∧ (action = .create path ∨ ∃ handle commit, action = .complete handle ∧
    session.commits[handle]? = some commit ∧ commit.source = some path)

/--
What an action does to the content of a branch.
-/
inductive Contents (session : Session) (path : String) (action : Action)
    (result : Except StoreError Unit × Session) : Prop where
  | kept (unfilled : ¬ Fills path session action result.1)
    (uncleared : ¬ Clears path session action result.1)
    (content : result.2.site.directory.index.content? path =
      session.site.directory.index.content? path)
  | filled (fills : Fills path session action result.1)
    (content : result.2.site.directory.index.content? path = some true)
  | cleared (unfilled : ¬ Fills path session action result.1)
    (clears : Clears path session action result.1)
    (content : result.2.site.directory.index.content? path = some false)
  | gone (content : result.2.site.directory.index.content? path = none)

section

variable {session : Session} {action : Action} {commit : Commit} {path : String} {handle : Nat}
  {result : Except StoreError Unit × Session}

theorem fills_complete_iff (there : session.commits[handle]? = some commit) :
    Fills path session (.complete handle) (.ok ()) ↔
      commit.branchPath = path ∧ commit.kind ≠ .rebase := by
  simp [Fills, there]

theorem clears_complete_iff (there : session.commits[handle]? = some commit) :
    Clears path session (.complete handle) (.ok ()) ↔ commit.source = some path := by
  simp [Clears, there]

theorem contents_of_other (incomplete : ∀ handle, action ≠ .complete handle)
    (uncreated : action ≠ .create path)
    (content : result.2.site.directory.index.content? path =
      session.site.directory.index.content? path) : session.Contents path action result := by
  refine .kept ?_ ?_ content
  · rintro ⟨-, handle, commit, completes, -⟩
    exact incomplete handle completes
  · rintro ⟨-, creates | ⟨handle, commit, completes, -⟩⟩
    · exact uncreated creates
    · exact incomplete handle completes

/--
The branch of a commit that is completed contains content from then on, unless the commit is a
rebase.
-/
theorem contents_of_completed {next : Session} {row : BranchRow} {source : Option BranchRow}
    (there : session.commits[handle]? = some commit)
    (last : session.site.directory.index.last? commit.branchPath = some row)
    (other : commit.source ≠ some commit.branchPath)
    (after : next.site.directory.index.last? commit.branchPath =
      some (nextRow commit (row.close commit.timepoint) source)) :
    session.Contents commit.branchPath (.complete handle) (.ok (), next) := by
  by_cases kind : commit.kind = .rebase
  · refine .kept ?_ ?_ ?_
    · rw [fills_complete_iff there]
      exact fun fills => fills.2 kind
    · rw [clears_complete_iff there]
      exact other
    · unfold RowIndex.content?
      rw [after, last]
      simp [nextRow, kind, BranchRow.close]
  · apply Contents.filled
    · rw [fills_complete_iff there]
      exact ⟨rfl, kind⟩
    · unfold RowIndex.content?
      rw [after]
      simp [nextRow, kind]

theorem contents_of_untouched {next : Session} (there : session.commits[handle]? = some commit)
    (notBranch : path ≠ commit.branchPath) (notSource : commit.source ≠ some path)
    (same : next.site.directory.index.last? path = session.site.directory.index.last? path) :
    session.Contents path (.complete handle) (.ok (), next) := by
  refine .kept ?_ ?_ (RowIndex.content?_of_last?_eq same)
  · rw [fills_complete_iff there]
    exact fun fills => notBranch fills.1.symm
  · rw [clears_complete_iff there]
    exact notSource

theorem contents_of_promoted {next : Session} {row sourceRow : BranchRow} {source : String}
    (there : session.commits[handle]? = some commit) (hc : Path.Valid commit.branchPath)
    (last : session.site.directory.index.last? commit.branchPath = some row)
    (double : commit.source = some source) (hs : Path.Valid source)
    (distinct : source ≠ commit.branchPath) (hp : Path.Valid path)
    (index : next.site.directory.index =
      promotedIndex session.site.directory.index commit row source sourceRow) :
    session.Contents path (.complete handle) (.ok (), next) := by
  have after := @last?_promotedIndex session.site.directory.index _ _ _ row sourceRow hc hs hp
  rw [← index] at after
  by_cases fromHere : path = source
  · rw [if_pos fromHere] at after
    refine .cleared ?_ ?_ (congrArg (·.map BranchRow.containsContent) after)
    · rw [fills_complete_iff there, fromHere]
      exact fun fills => distinct fills.1.symm
    · rw [clears_complete_iff there, fromHere]
      exact double
  · have notSource : commit.source ≠ some path := by
      rw [double, Ne, Option.some.injEq]
      exact Ne.symm fromHere
    rw [if_neg fromHere] at after
    by_cases here : path = commit.branchPath
    · rw [if_pos here] at after
      subst here
      exact contents_of_completed there last notSource after
    · rw [if_neg here] at after
      exact contents_of_untouched there here notSource after

theorem Effect.contents (effect : session.Effect action result) (sound : session.Sound)
    (hp : Path.Valid path) : session.Contents path action result := by
  have consistent := sound.site.consistent
  cases effect with
  | still action answer next quiet index =>
    refine .kept ?_ ?_ (congrArg (·.content? path) index)
    · rintro ⟨ok, handle, commit, rfl, -⟩
      exact quiet ok trivial
    · rintro ⟨ok, rfl | ⟨handle, commit, rfl, -⟩⟩
      · exact quiet ok trivial
      · exact quiet ok trivial
  | created q base next hq last inherits index =>
    by_cases here : path = q
    · subst here
      refine .cleared ?_ ⟨rfl, .inl rfl⟩ ?_
      · rintro ⟨-, handle, commit, completes, -⟩
        cases completes
      · unfold RowIndex.content?
        rw [index, RowIndex.last?_put_singleton _ _ hp hp, if_pos rfl]
        rfl
    · refine contents_of_other nofun ?_ ?_
      · intro creates
        exact here (Action.create.inj creates).symm
      · apply RowIndex.content?_of_last?_eq
        rw [index, RowIndex.last?_put_singleton _ _ hq hp, if_neg here]
  | locked _ _ _ hq _ _ index =>
    refine contents_of_other nofun nofun ?_
    rw [index, RowIndex.content?_setLocked _ _ hq hp]
  | unlocked _ _ _ hq _ _ index =>
    refine contents_of_other nofun nofun ?_
    rw [index, RowIndex.content?_setLocked _ _ hq hp]
  | forced _ _ _ hq _ _ index =>
    refine contents_of_other nofun nofun ?_
    rw [index, RowIndex.content?_setLocked _ _ hq hp]
  | forcedBoth _ _ _ _ _ hq hr _ _ index =>
    refine contents_of_other nofun nofun ?_
    rw [index, RowIndex.content?_setLocked _ _ hr hp, RowIndex.content?_setLocked _ _ hq hp]
  | opened _ _ _ _ hq _ _ index =>
    refine contents_of_other nofun nofun ?_
    rw [index, RowIndex.content?_setLocked _ _ hq hp]
  | openedBoth _ _ _ _ _ hq hr _ _ _ _ _ index =>
    refine contents_of_other nofun nofun ?_
    rw [index, RowIndex.content?_setLocked _ _ hr hp, RowIndex.content?_setLocked _ _ hq hp]
  | completed handle commit row next there held kind single index =>
    have hq := (consistent.formed commit (List.mem_of_getElem? there)).valid
    have noSource : ∀ q, commit.source ≠ some q := by simp [single]
    by_cases here : path = commit.branchPath
    · rw [here]
      apply contents_of_completed there held.last (noSource _)
      rw [index]
      exact RowIndex.last?_advance_self _ _ _ hq
    · apply contents_of_untouched there here (noSource path)
      rw [index]
      exact RowIndex.last?_advance_of_ne _ _ _ hq hp here
  | promoted handle commit row source sourceRow next there held double hs distinct sourceHeld
      index =>
    have hq := (consistent.formed commit (List.mem_of_getElem? there)).valid
    exact contents_of_promoted there hq held.last double hs distinct hp index
  | purged _ index =>
    apply Contents.gone
    rw [index]
    rfl
  | reopened _ _ _ index =>
    exact contents_of_other nofun nofun (congrArg (·.content? path) index)

/--
A branch contains content if something has filled it and nothing has cleared it since.
-/
theorem content_run {actions : List Action} (sound : session.Sound) (hp : Path.Valid path)
    (absent : session.site.directory.index.last? path = none) (permitted : session.Permits actions)
    {content : Bool}
    (known : (session.run actions).site.directory.index.content? path = some content) :
    content = true ↔ session.Lasts (Fills path) (Clears path) actions := by
  induction actions using List.reverseRecOn generalizing content with
  | nil =>
    unfold RowIndex.content? run at known
    simp [absent] at known
  | append_singleton actions action ih =>
    rw [permits_append] at permitted
    obtain ⟨permitted, allowed, -⟩ := permitted
    have contents := (effect_step (sound_run sound permitted) allowed).contents
      (sound_run sound permitted) hp
    rw [run_append] at known
    change ((session.run actions).step action).2.site.directory.index.content? path = _ at known
    rw [lasts_concat]
    unfold Occurs
    cases contents with
    | kept unfilled uncleared same =>
      rw [known] at same
      rw [ih permitted same.symm]
      simp [unfilled, uncleared]
    | filled fills after =>
      rw [known, Option.some.injEq] at after
      simp [after, fills]
    | cleared unfilled clears after =>
      rw [known, Option.some.injEq] at after
      simp [after, unfilled, clears]
    | gone after => simp [known] at after

end

/--
Whatever is done in a session that starts out empty and in which promotions are completed only from
a branch into its parent, the bases of the rows of a branch only move forward, from the start of one
row of the parent to that of another. The standing of a branch says whether the parent has a row
that starts after the base, and whether a commit other than a rebase was completed on the branch
since it was created or last promoted.
-/
theorem bases_of_run {session : Session} {actions : List Action} {path : String} (new : session.New)
    (permitted : session.Permits actions) (upward : session.Upward actions)
    (hp : Path.Valid path) :
    ((session.run actions).site.directory.index.timeline path).Pairwise
      (fun a b => a.base ≤ b.base) ∧
    (∀ parent, Path.parent? path = some parent →
      ∀ row ∈ (session.run actions).site.directory.index.timeline path,
        ∃ above ∈ (session.run actions).site.directory.index.timeline parent,
          row.base = above.start) ∧
    (∀ row, (session.run actions).site.directory.index.current path = .ok (some row) →
      ∃ standing, Directory.latestWithStanding? path (session.run actions).site =
          .ok (some (row, standing)) (session.run actions).site ∧
        (standing = .forward ∨ standing = .diverged ↔
          session.Lasts (Fills path) (Clears path) actions) ∧
        ∀ parent, Path.parent? path = some parent →
          (∃ above, (session.run actions).site.directory.index.current parent =
            .ok (some above) ∧ row.base ≤ above.head) ∧
          (standing = .behind ∨ standing = .diverged ↔
            ∃ above ∈ (session.run actions).site.directory.index.timeline parent,
              row.base < above.start)) := by
  have sound := sound_run new.sound permitted
  have valid := sound.site.consistent.valid
  have anchored := (anchored_run new.sound new.anchored permitted upward).rows
  refine ⟨anchored.pairwise_base valid hp, ?_, ?_⟩
  · intro parent above row mem
    obtain ⟨core, ⟨r, mem', rfl⟩, start⟩ :=
      anchored.above path parent hp above row.core (RowIndex.stores_of_mem mem)
    exact ⟨r, mem', start.symm⟩
  · intro row current
    have absent : session.site.directory.index.last? path = none := by
      obtain ⟨-, -, file, cacheSize, directory, -⟩ := new
      rw [directory]
      rfl
    rw [valid.current_eq, Except.ok.injEq] at current
    have filled := content_run new.sound hp absent permitted
      (congrArg (·.map BranchRow.containsContent) current)
    refine ⟨_, Directory.latestWithStanding?_of_last? valid hp current, ?_, ?_⟩
    · rw [BranchRow.standing_forward_iff]
      exact filled
    · intro parent above
      have hq := Path.valid_of_parent? hp above
      have starts : (session.run actions).site.directory.index.StartsAt parent row.base :=
        anchored.above path parent hp above row.core (RowIndex.stores_of_last? current)
      obtain ⟨parentRow, last⟩ := starts.exists_last
      have head := (valid.fits_last hq last).head
      rw [valid.current_eq, valid.exists_later_iff last, BranchRow.standing_behind_iff, above,
        Option.bind_some, last, Option.map_some, head]
      refine ⟨⟨parentRow, rfl, ?_⟩, ?_⟩
      · rw [head]
        exact valid.startsAt_le last starts
      · simp

/--
The parent commits while a rebase is open on the branch, after the branch was promoted to it.
-/
def rebasedTooEarly : List Action :=
  [.create "M", .create "M/A", .openPromotion "M" "M/A", .complete 0, .openCommit "M" .content,
    .openCommit "M/A" .rebase, .complete 1, .complete 2, .openCommit "M/A" .content, .complete 3]

theorem bases_of_rebasedTooEarly :
    empty.New ∧ empty.Permits rebasedTooEarly ∧ empty.Upward rebasedTooEarly ∧
      ((empty.run rebasedTooEarly).site.directory.index.timeline "M/A").map
        (fun row => (row.base, row.start)) = [(1, 2), (3, 3), (3, 5), (3, 6)] ∧
      empty.Lasts (Fills "M/A") (Clears "M/A") rebasedTooEarly ∧
      ∃ above ∈ (empty.run rebasedTooEarly).site.directory.index.timeline "M", 3 < above.start := by
  have m : Path.Valid "M" := by decide
  have a : Path.Valid "M/A" := by decide
  have permitted : empty.Permits rebasedTooEarly :=
    ⟨m, a, ⟨m, a⟩, trivial, m, a, trivial, trivial, a, trivial, trivial⟩
  have upward : empty.Upward rebasedTooEarly := by decide +kernel
  have based : ((empty.run rebasedTooEarly).site.directory.index.current "M/A").map
      (·.map BranchRow.base) = .ok (some 3) := by decide +kernel
  have seen : (match Directory.latestWithStanding? "M/A" (empty.run rebasedTooEarly).site with
      | .ok answer _ => answer.map Prod.snd
      | .error _ _ => none) = some .diverged := by decide +kernel
  obtain ⟨-, -, stands⟩ := bases_of_run new_empty permitted upward a
  cases current : (empty.run rebasedTooEarly).site.directory.index.current "M/A" with
  | error e => simp [current, Except.map] at based
  | ok found =>
    rw [current] at based
    obtain ⟨row, rfl, base⟩ := Option.map_eq_some_iff.1 (Except.ok.inj based)
    obtain ⟨standing, latest, ahead, behind⟩ := stands row current
    rw [latest] at seen
    obtain rfl := Option.some.inj seen
    obtain ⟨-, late⟩ := behind "M" (by decide)
    rw [base] at late
    exact ⟨new_empty, permitted, upward, by decide +kernel, ahead.1 (.inr rfl), late.1 (.inr rfl)⟩

end Session

end TemporalStore
