import TemporalStore.Proofs.Session.Growth
import TemporalStore.Proofs.Timeline.History

/-!
This module contains what becomes of the past of a branch in a session, and how it is looked up: it
only ever grows at its end until everything is deleted, and what is kept at hand of it makes no
difference.
-/

namespace TemporalStore

/--
An answer that is given without anything else happening.
-/
def answered {α : Type} (answer : Except StoreError α) (site : Site) :
    EStateM.Result StoreError Site α :=
  match answer with
  | .ok a => .ok a site
  | .error e => .error e site

theorem Directory.rowAt_eq_search {site : Site} {now : Timepoint}
    (h : site.directory.index.Valid now)
    (agrees : site.directory.history.Agrees site.directory.index) (path : String) (t : Timepoint) :
    ∃ history, rowAt path t site =
      answered (site.directory.index.search path t) (site.withHistory history) := by
  obtain ⟨history, -, answer⟩ := rowAt_eq h agrees path t
  refine ⟨history, ?_⟩
  rw [answer, h.search_eq]
  cases site.directory.index.covering? path t with
  | some row => rfl
  | none => rfl

namespace Session

section

variable {session : Session} {action : Action} {result : Except StoreError Unit × Session}

theorem Shifts.keepsPast {next : Session} {index : RowIndex}
    (shifts : Shifts session action next index) (keeps : action ≠ .purge) (path : String) :
    session.site.directory.index.past path <+: index.past path := by
  induction shifts with
  | none => exact List.prefix_refl _
  | begun index q row _ _ last _ _ ih => exact ih.trans (RowIndex.past_prefix_begin last row path)
  | relocked index q locked _ _ ih =>
    exact ih.trans (RowIndex.past_prefix_setLocked index q locked path)
  | advanced index q row new handle commit _ _ _ _ _ _ _ _ _ ih =>
    exact ih.trans (RowIndex.past_prefix_advance index q _ new path)
  | purged purges => exact absurd purges keeps

theorem Effect.keepsPast (effect : session.Effect action result) (sound : session.Sound)
    (unpurged : (action, result.1) ≠ (.purge, .ok ())) (path : String) :
    session.site.directory.index.past path <+: result.2.site.directory.index.past path := by
  by_cases keeps : action = .purge
  · -- rows that were to be deleted are still there
    subst keeps
    cases effect with
    | still _ _ _ _ index => rw [index]
    | purged => exact absurd rfl unpurged
  · exact (effect.shifts sound).keepsPast keeps path

theorem past_prefix_run (sound : session.Sound) {actions : List Action}
    (permitted : session.Permits actions)
    (unpurged : ∀ answer ∈ session.answers actions, answer ≠ (.purge, .ok ())) (path : String) :
    session.site.directory.index.past path <+:
      (session.run actions).site.directory.index.past path := by
  induction actions generalizing session with
  | nil => exact List.prefix_refl _
  | cons action actions ih =>
    obtain ⟨allowed, rest⟩ := permitted
    rw [answers, List.forall_mem_cons] at unpurged
    have step := (effect_step sound allowed).keepsPast sound unpurged.1 path
    exact step.trans (ih (stays_step sound allowed).sound rest unpurged.2)

end

/--
Whatever is done in a session that starts out empty, the closed rows of a branch are the first of
its rows from then on, unchanged and in the same order, until everything is deleted. A row is found
at a timepoint if and only if a search of all rows finds it, whatever was looked up before and
however little is kept at hand, and where there is none the error is the same.
-/
theorem history_of_run {session : Session} {actions : List Action} (new : session.New)
    (permitted : session.Permits actions) :
    (∀ later, (session.run actions).Permits later →
      (∀ answer ∈ (session.run actions).answers later, answer ≠ (.purge, .ok ())) →
      ∀ path, (session.run actions).site.directory.index.closedRows path <+:
        ((session.run actions).run later).site.directory.index.timeline path) ∧
    ∀ path t, ∃ history, Directory.rowAt path t (session.run actions).site =
      answered ((session.run actions).site.directory.index.search path t)
        ((session.run actions).site.withHistory history) := by
  have sound := sound_run new.sound permitted
  have valid := sound.site.consistent.valid
  refine ⟨?_, ?_⟩
  · intro later permitted' unpurged path
    rw [valid.closedRows_eq]
    exact (past_prefix_run sound permitted' unpurged path).trans (List.dropLast_prefix _)
  · intro path t
    exact Directory.rowAt_eq_search valid sound.site.agrees path t

/--
One row is kept at hand, and that of the first timepoint makes way for that of the second.
-/
def forgetful : Session := { site := { directory := .ofIndex none {} 1, host := {} } }

def lookedUpTwice : List Action :=
  [.create "M", .openCommit "M" .content, .complete 0, .openCommit "M" .content, .complete 1,
    .rowAt "M" 1, .rowAt "M" 2]

theorem history_of_lookedUpTwice :
    forgetful.New ∧ forgetful.Permits (lookedUpTwice ++ [.purge, .create "M"]) ∧
      ((forgetful.run lookedUpTwice).site.directory.index.closedRows "M").map BranchRow.start =
        [1, 2] ∧
      (forgetful.run lookedUpTwice).site.directory.index.closedRows "M" <+:
        ((forgetful.run lookedUpTwice).run
          [.openCommit "M" .content, .complete 2]).site.directory.index.timeline "M" ∧
      (forgetful.run lookedUpTwice).site.directory.history.entries.map (·.1) = [("M", 2)] ∧
      ∃ history, Directory.rowAt "M" 2
        (forgetful.run (lookedUpTwice ++ [.purge, .create "M"])).site =
          .error (.branchNotFoundAt "M" 2) ((forgetful.run
            (lookedUpTwice ++ [.purge, .create "M"])).site.withHistory history) := by
  have valid : Path.Valid "M" := by decide
  have new : forgetful.New := by
    refine ⟨rfl, rfl, none, 1, rfl, ?_⟩
    intro name h
    cases h
  have permitted : forgetful.Permits lookedUpTwice :=
    ⟨valid, valid, trivial, valid, trivial, valid, valid, trivial⟩
  have permitted' : forgetful.Permits (lookedUpTwice ++ [.purge, .create "M"]) :=
    (permits_append _ _ _).2 ⟨permitted, trivial, valid, trivial⟩
  have unpurged : ∀ answer ∈ (forgetful.run lookedUpTwice).answers
      [.openCommit "M" .content, .complete 2], answer ≠ (.purge, .ok ()) := by
    intro answer mem same
    simp [answers, same] at mem
  have kept := (history_of_run new permitted).1 [.openCommit "M" .content, .complete 2]
    ⟨valid, trivial, trivial⟩ unpurged "M"
  obtain ⟨history, answer⟩ := (history_of_run new permitted').2 "M" 2
  have searched : (forgetful.run (lookedUpTwice ++
      [.purge, .create "M"])).site.directory.index.search "M" 2 =
        .error (.branchNotFoundAt "M" 2) := by decide +kernel
  rw [searched] at answer
  exact ⟨new, permitted', by decide +kernel, kept, by decide +kernel, history, answer⟩

end Session

end TemporalStore
