import TemporalStore.Proofs.Session.Orderly

/-!
This module contains what the paths of stored rows may be, whatever strings are used for paths: they
are valid, apart from those that stood for the source of a promotion.
-/

namespace TemporalStore

namespace Session

open Directory

/--
At some point of a run a promotion has been completed whose source was named by this string.
-/
def Promoted (start : Session) (actions : List Action) (source : String) : Prop :=
  ∃ before handle later commit, actions = before ++ .complete handle :: later ∧
    (start.run before).commits[handle]? = some commit ∧ commit.source = some source ∧
      ((start.run before).step (.complete handle)).1 = .ok ()

/--
How the rows of a session are filed, where `promoted` are the strings that have stood for the source
of a completed promotion: under their flat paths in any case, with valid paths unless the path is
such a string, and with one path for all rows of a branch unless such a string is another name of
the branch.
-/
structure WellFiled (index : RowIndex) (promoted : String → Prop) : Prop where
  keys : ∀ key rows, index.rows.get? key = some rows → ∀ row ∈ rows, Path.flatten row.path = key
  paths : ∀ key rows, index.rows.get? key = some rows → ∀ row ∈ rows,
    Path.validate row.path = .ok () ∨ promoted row.path
  alike : ∀ key rows, index.rows.get? key = some rows →
    (∀ source, promoted source → Path.flatten source = key → Path.validate source = .ok ()) →
      ∀ row ∈ rows, Path.validate row.path = .ok () ∧ ∀ other ∈ rows, other.path = row.path

theorem wellFiled_of_filed {index : RowIndex} {promoted : String → Prop}
    (h : index.Filed fun path => Path.Valid path ∨ promoted path) : WellFiled index promoted where
  keys := h.keys
  paths := h.named
  alike key rows found sources row mem := by
    have valid : ∀ r ∈ rows, Path.Valid r.path := by
      intro r mem
      rcases h.named key rows found r mem with valid | isPromoted
      · exact valid
      · exact sources r.path isPromoted (h.keys key rows found r mem)
    refine ⟨valid row mem, ?_⟩
    intro other mem'
    apply Path.flatten_injective (valid other mem') (valid row mem)
    exact (h.keys key rows found other mem').trans (h.keys key rows found row mem).symm

section

variable {start session : Session} {actions : List Action}

theorem Promoted.concat {source : String} (h : start.Promoted actions source) (action : Action) :
    start.Promoted (actions ++ [action]) source := by
  obtain ⟨before, handle, later, commit, rfl, there, double, done⟩ := h
  exact ⟨before, handle, later ++ [action], commit, by simp, there, double, done⟩

theorem orderly_run (new : start.New) (undisturbed : start.Undisturbed actions) :
    (start.run actions).Orderly (fun path => Path.Valid path ∨ start.Promoted actions path)
      fun _ _ => False := by
  -- the last action is the completion that makes the string of a source the path of a row
  induction actions using List.reverseRecOn with
  | nil => exact new.orderly
  | append_singleton actions action ih =>
    obtain ⟨before, allowed, -⟩ := (undisturbed_append _ _ _).1 undisturbed
    have known : (start.run actions).Orderly
        (fun path => Path.Valid path ∨ start.Promoted (actions ++ [action]) path)
        fun _ _ => False :=
      (ih before).mono fun path => Or.imp id fun promoted => promoted.concat action
    rw [run_append]
    apply orderly_step known (fun path => .inl) allowed
    intro done
    cases action with
    | complete handle =>
      intro commit there
      refine ⟨?_, fun _ pin => pin⟩
      intro source double
      exact .inr ⟨actions, handle, [], commit, rfl, there, double, done⟩
    | openPromotion path source => exact ⟨fun _ pin => pin, fun _ pin => pin⟩
    | purge => exact fun _ _ pin => pin
    | reopen cacheSize => exact fun _ _ pin => pin
    | forceUnlock path => exact fun _ pin => pin
    | openCommit path kind => exact fun _ pin => pin
    | _ => trivial

/--
The string that stands for the source of a promotion becomes the path of a row.
-/
theorem fresh_mem_timeline {handle : Nat} {commit : Commit} {source : String}
    (there : session.commits[handle]? = some commit) (double : commit.source = some source)
    (done : (session.step (.complete handle)).1 = .ok ()) :
    BranchRow.fresh source commit.timepoint commit.timepoint ∈
      (session.step (.complete handle)).2.site.directory.index.timeline source := by
  rw [step_complete there] at done ⊢
  cases result : complete commit session.site with
  | error e site => simp [call_error result] at done
  | ok row site =>
    rw [call_ok result]
    obtain ⟨batch, batched, index⟩ := batched_of_complete_ok result
    change _ ∈ site.directory.index.timeline source
    rw [index]
    cases batched with
    | alone closed single _ => simp [double] at single
    | promotion closed closedSource source' double' _ _ _ =>
      rw [double, Option.some.injEq] at double'
      rw [double']
      -- the row comes last in the batch, so that no other one can be in its place
      exact @RowIndex.mem_timeline_apply_concat _ _ [_, _, _]

/--
Whatever strings are used for paths in a session that starts out empty, every row is stored under
its flat path. Its path is valid, unless it is a string that stood for the source of a promotion,
for such a string becomes the path of the row with which the source starts anew. As long as none of
them but valid paths has named a branch, all rows of the branch have the same path.
-/
theorem paths_of_run (new : start.New) (undisturbed : start.Undisturbed actions) :
    WellFiled (start.run actions).site.directory.index (start.Promoted actions) ∧
      ∀ handle commit source, (start.run actions).commits[handle]? = some commit →
        commit.source = some source → ((start.run actions).step (.complete handle)).1 = .ok () →
          BranchRow.fresh source commit.timepoint commit.timepoint ∈
            ((start.run actions).step (.complete handle)).2.site.directory.index.timeline
              source := by
  constructor
  · exact wellFiled_of_filed (orderly_run new undisturbed).site.filed
  · intro handle commit source there double done
    exact fresh_mem_timeline there double done

end

/--
The source of a promotion is named by its flat path.
-/
def promotionByFlatPath : List Action :=
  [.create "M", .create "M/A", .openPromotion "M" "M_A"]

theorem paths_of_promotionByFlatPath :
    empty.New ∧ empty.Undisturbed promotionByFlatPath ∧
      ∃ row ∈ ((empty.run promotionByFlatPath).step (.complete 0)).2.site.directory.index.timeline
        "M/A", row.path = "M_A" := by
  have undisturbed : empty.Undisturbed promotionByFlatPath := ⟨trivial, trivial, trivial, trivial⟩
  have ran : (empty.run promotionByFlatPath).commits[0]?.map Commit.source = some (some "M_A") ∧
      ((empty.run promotionByFlatPath).step (.complete 0)).1 = .ok () := by decide +kernel
  obtain ⟨opened, done⟩ := ran
  obtain ⟨commit, there, double⟩ := Option.map_eq_some_iff.1 opened
  have fresh := (paths_of_run new_empty undisturbed).2 0 commit "M_A" there double done
  have flat : Path.flatten "M/A" = "M_A" ∧ Path.flatten "M_A" = "M_A" := by decide +kernel
  have same : Path.flatten "M/A" = Path.flatten "M_A" := flat.1.trans flat.2.symm
  rw [RowIndex.timeline_congr same]
  exact ⟨new_empty, undisturbed, BranchRow.fresh "M_A" _ _, fresh, rfl⟩

/--
The rows of one branch have two paths, of which one is not valid and has no parent.
-/
theorem parent_lost_by_promotion :
    empty.New ∧ empty.Undisturbed (promotionByFlatPath ++ [.complete 0]) ∧
      ((empty.run (promotionByFlatPath ++ [.complete 0])).site.directory.index.rows.get?
        "M_A").map (·.map fun row => (row.path, row.isCurrent)) =
          some [("M/A", false), ("M_A", true)] ∧
      ¬ Path.validate "M_A" = .ok () ∧
      Path.parent? "M/A" = some "M" ∧ Path.parent? "M_A" = none := by
  refine ⟨new_empty, ⟨trivial, trivial, trivial, trivial, trivial⟩, by decide +kernel, ?_, ?_, ?_⟩
  · decide
  · decide
  · decide

end Session

end TemporalStore
