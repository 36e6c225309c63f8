import TemporalStore.Proofs.Session.Drafts
import TemporalStore.Proofs.Session.Growth
import TemporalStore.Proofs.Session.Stored

/-!
This module contains the proof that a document has one version without end on each branch at most,
if versions are only written in cycles that retire the old ones first. Commits may be given up
between the two halves of a cycle or after it, so this does not depend on what is completed.
-/

namespace TemporalStore

namespace Document

/--
The version is one of the document with this business id.
-/
def Names (d : Document) (value : String) : Prop := d.fieldValue businessIdField = some value

end Document

namespace Commit

variable {commit other : Commit} {d : Document}

theorem Wrote.of_bare (wrote : commit.Wrote d) (same : other.bare = commit.bare) :
    other.Wrote d := by
  obtain ⟨branch, time, -⟩ := bare_eq_iff.1 same
  unfold Wrote flatBranchPath
  rw [branch, time]
  exact wrote

end Commit

namespace Session

/-! ## Write cycles -/

/--
The first half of a cycle: the old versions of the document are retired under the handle.
-/
def Retires (handle : Nat) (value : String) : Action × Except StoreError Unit → Prop
  | (.retire other field values, .ok ()) =>
    other = handle ∧ field = Document.businessIdField ∧ value ∈ values
  | _ => False

/--
The second half of a cycle: a new version of the document is written under the handle.
-/
def Writes (handle : Nat) (value : String) : Action × Except StoreError Unit → Prop
  | (.write other docs, _) => other = handle ∧ ∃ d ∈ docs, d.Names value
  | _ => False

/--
Versions are written under an open commit, one of each document, whose old versions were retired
under the commit and of which none was written under it before. The handles are those of one
directory, which is not opened again.
-/
def Cyclic (session : Session) (log : List (Action × Except StoreError Unit)) : Action → Prop
  | .write handle docs => ∀ commit, session.commits[handle]? = some commit →
    commit.IsOpen session.site.directory.openCommits ∧
    docs.Pairwise (fun d d' => ∀ value, d.Names value → ¬ d'.Names value) ∧
    ∀ d ∈ docs, ∀ value, d.Names value → (∃ answer ∈ log, Retires handle value answer) ∧
      ∀ answer ∈ log, ¬ Writes handle value answer
  | .reopen _ => False
  | _ => True

/--
Every action is part of a cycle, or none of its business, when its turn comes.
-/
def Cycles (session : Session) (log : List (Action × Except StoreError Unit)) :
    List Action → Prop
  | [] => True
  | action :: actions => session.Cyclic log action ∧
    (session.step action).2.Cycles (log ++ [(action, (session.step action).1)]) actions

/--
What cycles keep. A commit that is open is the last of its branch, and once the old versions of a
document were retired under it, it has no version without end there that is older than the commit.
-/
structure Cycled (session : Session) (log : List (Action × Except StoreError Unit)) : Prop where
  known : ∀ handle value, (∃ answer ∈ log, Retires handle value answer) →
    handle < session.commits.length
  leads : ∀ commit ∈ session.commits, commit.IsOpen session.site.directory.openCommits →
    ∀ other ∈ session.commits, other.branchPath = commit.branchPath →
      other.timepoint ≤ commit.timepoint
  stamped : ∀ id d, session.documents.get? id = some d → ∃ handle commit,
    session.commits[handle]? = some commit ∧ commit.Wrote d ∧
      ∀ value, d.Names value → ∃ answer ∈ log, Writes handle value answer
  cleared : ∀ handle commit value, session.commits[handle]? = some commit →
    commit.IsOpen session.site.directory.openCommits →
      (∃ answer ∈ log, Retires handle value answer) →
        ∀ id d, session.documents.get? id = some d → d.path = commit.flatBranchPath →
          d.Names value → d.ended = none → commit.timepoint ≤ d.start
  single : ∀ id id' d d' value, session.documents.get? id = some d →
    session.documents.get? id' = some d' → d.path = d'.path → d.Names value → d'.Names value →
      d.ended = none → d'.ended = none → id = id'

section

variable {session : Session} {log : List (Action × Except StoreError Unit)} {action : Action}
  {id id' : VersionId} {d d' : Document} {value : String}

theorem Cyclic.stays (cyclic : session.Cyclic log action) (cacheSize : Nat) :
    action ≠ .reopen cacheSize := by
  rintro rfl
  exact cyclic

theorem exists_values_of_retires {handle : Nat} {answer : Except StoreError Unit}
    (retires : Retires handle value (action, answer)) :
    ∃ values, action = .retire handle Document.businessIdField values ∧ answer = .ok () ∧
      value ∈ values := by
  unfold Retires at retires
  split at retires
  · rename_i other field values same
    rw [Prod.mk.injEq] at same
    obtain ⟨rfl, rfl, mem⟩ := retires
    exact ⟨values, same.1, same.2, mem⟩
  · exact absurd retires id

theorem lt_of_step_ok {handle : Nat} {field : String} {values : OrderedSet String}
    (ok : (session.step (.retire handle field values)).1 = .ok ()) :
    handle < session.commits.length := by
  change (session.withHandle handle _).1 = _ at ok
  unfold withHandle at ok
  split at ok
  · rename_i commit there
    exact (List.getElem?_eq_some_iff.1 there).1
  · cases ok

/-! ## What a step keeps -/

theorem lt_of_retires (cycled : session.Cycled log) {handle : Nat}
    (retired : ∃ answer ∈ log ++ [(action, (session.step action).1)],
      Retires handle value answer) : handle < session.commits.length := by
  obtain ⟨answer, mem, retires⟩ := retired
  rcases List.mem_append.1 mem with mem | same
  · exact cycled.known handle value ⟨answer, mem, retires⟩
  · rw [List.mem_singleton.1 same] at retires
    obtain ⟨values, rfl, ok, -⟩ := exists_values_of_retires retires
    exact lt_of_step_ok ok

theorem known_step (sound : session.Sound) (allowed : action.Allowed session)
    (cyclic : session.Cyclic log action) (cycled : session.Cycled log) {handle : Nat}
    (retired : ∃ answer ∈ log ++ [(action, (session.step action).1)],
      Retires handle value answer) : handle < (session.step action).2.commits.length := by
  have before := lt_of_retires cycled retired
  obtain ⟨commit', there', -⟩ := (effect_step sound allowed).exists_handle sound cyclic.stays
    (List.getElem?_eq_getElem before)
  exact (List.getElem?_eq_some_iff.1 there').1

theorem leads_step (sound : session.Sound) (allowed : action.Allowed session)
    (cycled : session.Cycled log) {commit other : Commit}
    (hc : commit ∈ (session.step action).2.commits)
    (open' : commit.IsOpen (session.step action).2.site.directory.openCommits)
    (ho : other ∈ (session.step action).2.commits) (same : other.branchPath = commit.branchPath) :
    other.timepoint ≤ commit.timepoint := by
  have effect := effect_step sound allowed
  obtain ⟨handle, there⟩ := List.mem_iff_getElem?.1 hc
  obtain ⟨handle', there'⟩ := List.mem_iff_getElem?.1 ho
  rcases effect.commit_cases sound there with ⟨before, was, bare, opens⟩ | ⟨-, issued⟩
  · have hb := List.mem_of_getElem? was
    obtain ⟨branch, time, -⟩ := Commit.bare_eq_iff.1 bare
    have path : before.branchPath = commit.branchPath := congrArg BranchRow.path branch
    rcases effect.commit_cases sound there' with ⟨before', was', bare', -⟩ | ⟨-, issued'⟩
    · obtain ⟨branch', time', -⟩ := Commit.bare_eq_iff.1 bare'
      have path' : before'.branchPath = other.branchPath := congrArg BranchRow.path branch'
      have leads := cycled.leads before hb (opens open') before' (List.mem_of_getElem? was')
        (path'.trans (same.trans path.symm))
      rw [time, time'] at leads
      exact leads
    · -- a commit is only opened where none is open
      have free := issued'.free sound
      have entry := opens open'
      unfold Commit.IsOpen at entry
      rw [path, ← same, free] at entry
      cases entry
  · have later := issued.later
    rcases effect.commit_cases sound there' with ⟨before', was', bare', -⟩ | ⟨-, issued'⟩
    · have formed := sound.site.consistent.formed before' (List.mem_of_getElem? was')
      obtain ⟨-, time', -⟩ := Commit.bare_eq_iff.1 bare'
      have := formed.le_now
      lia
    · rw [issued.timepoint, issued'.timepoint]

theorem stamped_step (sound : session.Sound) (allowed : action.Allowed session)
    (cyclic : session.Cyclic log action) (cycled : session.Cycled log)
    (found : (session.step action).2.documents.get? id = some d) :
    ∃ handle commit, (session.step action).2.commits[handle]? = some commit ∧ commit.Wrote d ∧
      ∀ value, d.Names value →
        ∃ answer ∈ log ++ [(action, (session.step action).1)], Writes handle value answer := by
  have kept : ∀ d', session.documents.get? id = some d' → d.path = d'.path → d.start = d'.start →
      d.fieldValue = d'.fieldValue → ∃ handle commit,
        (session.step action).2.commits[handle]? = some commit ∧ commit.Wrote d ∧
          ∀ value, d.Names value →
            ∃ answer ∈ log ++ [(action, (session.step action).1)], Writes handle value answer := by
    intro d' found' path start fields
    obtain ⟨handle, commit, there, wrote, writes⟩ := cycled.stamped id d' found'
    obtain ⟨commit', there', bare⟩ :=
      (effect_step sound allowed).exists_handle sound cyclic.stays there
    have wrote' : commit.Wrote d := ⟨path.trans wrote.1, start.trans wrote.2⟩
    refine ⟨handle, commit', there', wrote'.of_bare bare, ?_⟩
    intro value hv
    unfold Document.Names at hv
    rw [fields] at hv
    obtain ⟨answer, mem, written⟩ := writes value hv
    exact ⟨answer, List.mem_append_left _ mem, written⟩
  cases stems_step sound found with
  | kept _ _ found' => exact kept d found' rfl rfl rfl
  | ended ids t d' found' mem => exact kept d' found' rfl rfl rfl
  | retired handle commit field values d' there found' path older current =>
    exact kept d' found' rfl rfl rfl
  | written handle commit docs _ there stamped =>
    obtain ⟨commit', there', bare⟩ :=
      (effect_step sound allowed).exists_handle sound cyclic.stays there
    obtain ⟨path, start, -⟩ := Commit.stamped_of_mem_identify stamped
    have wrote : commit.Wrote d := ⟨path, start⟩
    refine ⟨handle, commit', there', wrote.of_bare bare, ?_⟩
    intro value hv
    obtain ⟨given, mem, same⟩ := Commit.given_of_mem_identify stamped
    refine ⟨_, List.mem_append_right _ (List.mem_singleton_self _), rfl, given, mem, ?_⟩
    unfold Document.Names
    rw [same]
    exact hv

theorem branchPath_of_flat {commit other : Commit} (sound : session.Sound)
    (hc : commit ∈ session.commits) (ho : other ∈ session.commits)
    (same : commit.flatBranchPath = other.flatBranchPath) :
    commit.branchPath = other.branchPath :=
  Path.flatten_injective (sound.site.consistent.formed commit hc).valid
    (sound.site.consistent.formed other ho).valid same

theorem cleared_step (sound : session.Sound) (allowed : action.Allowed session)
    (cyclic : session.Cyclic log action) (cycled : session.Cycled log) {handle : Nat}
    {commit : Commit} (there : (session.step action).2.commits[handle]? = some commit)
    (open' : commit.IsOpen (session.step action).2.site.directory.openCommits)
    (retired : ∃ answer ∈ log ++ [(action, (session.step action).1)],
      Retires handle value answer)
    (found : (session.step action).2.documents.get? id = some d)
    (path : d.path = commit.flatBranchPath) (names : d.Names value) (current : d.ended = none) :
    commit.timepoint ≤ d.start := by
  have before := lt_of_retires cycled retired
  rcases (effect_step sound allowed).commit_cases sound there with
    ⟨old, was, bare, opens⟩ | ⟨new, -⟩
  · obtain ⟨branch, time, -⟩ := Commit.bare_eq_iff.1 bare
    have flat : old.flatBranchPath = commit.flatBranchPath := congrArg BranchRow.flatPath branch
    rw [← flat] at path
    rw [← time]
    cases stems_step sound found with
    | kept _ _ found' =>
      obtain ⟨answer, mem, retires⟩ := retired
      rcases List.mem_append.1 mem with mem | same
      · exact cycled.cleared handle old value was (opens open') ⟨answer, mem, retires⟩ id d found'
          path names current
      · rw [List.mem_singleton.1 same] at retires
        obtain ⟨values, rfl, -, among⟩ := exists_values_of_retires retires
        have not := not_older_of_retire sound was found path current
        by_contra older
        exact not ⟨by lia, value, among, names⟩
    | ended ids t d' found' mem => cases current
    | retired handle commit field values d' there found' path older current' => cases current
    | written handle' other docs _ there' stamped =>
      obtain ⟨path', start, -⟩ := Commit.stamped_of_mem_identify stamped
      have same := branchPath_of_flat sound (List.mem_of_getElem? was)
        (List.mem_of_getElem? there') (path.symm.trans path')
      -- two commits that are open on one branch are the same
      have entry : session.site.directory.openCommits.get? old.branchPath = _ := opens open'
      have entry' : session.site.directory.openCommits.get? other.branchPath = _ :=
        (cyclic other there').1
      rw [same, entry', Option.some.injEq] at entry
      rw [← entry]
      exact Int.le_of_eq start.symm
  · lia

theorem not_kept_beside_written {handle : Nat} {docs : List Document} {commit : Commit}
    (sound : session.Sound) (cyclic : session.Cyclic log (.write handle docs))
    (cycled : session.Cycled log) (there : session.commits[handle]? = some commit)
    (stamped : (id', d') ∈
      (Collection.identify (docs.map commit.stamp) session.site.host.ids).1)
    (found : session.documents.get? id = some d) (path : d.path = d'.path)
    (names : d.Names value) (names' : d'.Names value) (current : d.ended = none) : False := by
  obtain ⟨open', -, fresh⟩ := cyclic commit there
  obtain ⟨given, mem, fields⟩ := Commit.given_of_mem_identify stamped
  have named : given.Names value := (congrFun fields _).trans names'
  obtain ⟨retired, unwritten⟩ := fresh given mem value named
  have here : d.path = commit.flatBranchPath :=
    path.trans (Commit.stamped_of_mem_identify stamped).1
  have later := cycled.cleared handle commit value there open' retired id d found here names current
  obtain ⟨handle', writer, there', wrote, writes⟩ := cycled.stamped id d found
  have hw := List.mem_of_getElem? there'
  have hc := List.mem_of_getElem? there
  have leads := cycled.leads commit hc open' writer hw
    (branchPath_of_flat sound hw hc (wrote.1.symm.trans here))
  -- so it was written under the same commit, which was to write it only once
  have start := wrote.2
  have time : writer.timepoint = commit.timepoint := by lia
  have same := (handle_eq_iff sound there' there).1 time
  obtain ⟨answer, mem, written⟩ := writes value names
  rw [same] at written
  exact unwritten answer mem written

theorem eq_of_both_written {handle : Nat} {docs : List Document} {commit : Commit}
    (cyclic : session.Cyclic log (.write handle docs))
    (there : session.commits[handle]? = some commit)
    (stamped : (id, d) ∈ (Collection.identify (docs.map commit.stamp) session.site.host.ids).1)
    (stamped' : (id', d') ∈
      (Collection.identify (docs.map commit.stamp) session.site.host.ids).1)
    (names : d.Names value) (names' : d'.Names value) : id = id' := by
  obtain ⟨-, distinct, -⟩ := cyclic commit there
  have apart : (Collection.identify (docs.map commit.stamp) session.site.host.ids).1.Pairwise
      fun e e' => ∀ value, e.2.Names value → ¬ e'.2.Names value := by
    have fields : (docs.map Document.fieldValue).Pairwise fun f f' => ∀ value,
        f Document.businessIdField = some value → ¬ f' Document.businessIdField = some value :=
      List.pairwise_map.2 distinct
    rw [← @Commit.fieldValues_identify_stamp commit docs session.site.host.ids] at fields
    exact List.pairwise_map.1 fields
  have symmetric : Std.Symm fun e e' : VersionId × Document =>
      ∀ value, e.2.Names value → ¬ e'.2.Names value :=
    ⟨fun e e' h value first second => h value second first⟩
  by_contra other
  have different : (id, d) ≠ (id', d') := fun same => other (congrArg Prod.fst same)
  exact apart.forall stamped stamped' different value names names'

theorem single_step (sound : session.Sound) (cyclic : session.Cyclic log action)
    (cycled : session.Cycled log)
    (found : (session.step action).2.documents.get? id = some d)
    (found' : (session.step action).2.documents.get? id' = some d') (path : d.path = d'.path)
    (names : d.Names value) (names' : d'.Names value) (current : d.ended = none)
    (current' : d'.ended = none) : id = id' := by
  have stems := stems_step sound found
  have stems' := stems_step sound found'
  cases stems with
  | ended => cases current
  | retired => cases current
  | kept _ _ before =>
    cases stems' with
    | ended => cases current'
    | retired => cases current'
    | kept _ _ before' =>
      exact cycled.single id id' d d' value before before' path names names' current current'
    | written handle commit docs _ there stamped =>
      exact (not_kept_beside_written sound cyclic cycled there stamped before path names names'
        current).elim
  | written handle commit docs _ there stamped =>
    cases stems' with
    | kept _ _ before' =>
      exact (not_kept_beside_written sound cyclic cycled there stamped before' path.symm names'
        names current').elim
    | written _ commit' _ _ there' stamped' =>
      rw [there, Option.some.injEq] at there'
      rw [← there'] at stamped'
      exact eq_of_both_written cyclic there stamped stamped' names names'

theorem cycled_step (sound : session.Sound) (allowed : action.Allowed session)
    (cyclic : session.Cyclic log action) (cycled : session.Cycled log) :
    (session.step action).2.Cycled (log ++ [(action, (session.step action).1)]) where
  known _ _ := known_step sound allowed cyclic cycled
  leads _ hc open' _ := leads_step sound allowed cycled hc open'
  stamped _ _ := stamped_step sound allowed cyclic cycled
  cleared _ _ _ there open' retired _ _ :=
    cleared_step sound allowed cyclic cycled there open' retired
  single _ _ _ _ _ := single_step sound cyclic cycled

theorem cycled_run (sound : session.Sound) (cycled : session.Cycled log) {actions : List Action}
    (permitted : session.Permits actions) (cycles : session.Cycles log actions) :
    (session.run actions).Cycled (log ++ session.answers actions) := by
  induction actions generalizing session log with
  | nil =>
    rw [answers, List.append_nil]
    exact cycled
  | cons action actions ih =>
    obtain ⟨allowed, permitted⟩ := permitted
    obtain ⟨cyclic, cycles⟩ := cycles
    have rest := ih (stays_step sound allowed).sound (cycled_step sound allowed cyclic cycled)
      permitted cycles
    rw [List.append_assoc] at rest
    exact rest

theorem New.cycled (new : session.New) : session.Cycled [] := by
  obtain ⟨commits, documents, -⟩ := new
  constructor
  · simp
  · simp [commits]
  · simp [documents, Collection.get?]
  · simp
  · simp [documents, Collection.get?]

end

/--
Whatever is done in a session that starts out empty: as long as versions are only written in cycles,
there is one version without end at most of each document on each branch. This needs no commit to be
completed, and does not depend on which branches the commits are on or in which order they come.
-/
theorem single_of_run {start : Session} {actions : List Action} (new : start.New)
    (permitted : start.Permits actions) (cycles : start.Cycles [] actions) (path value : String)
    (id id' : VersionId) (d d' : Document)
    (found : (start.run actions).documents.get? id = some d)
    (found' : (start.run actions).documents.get? id' = some d') (here : d.path = path)
    (here' : d'.path = path) (names : d.fieldValue Document.businessIdField = some value)
    (names' : d'.fieldValue Document.businessIdField = some value) (current : d.ended = none)
    (current' : d'.ended = none) : id = id' :=
  (cycled_run new.sound new.cycled permitted cycles).single id id' d d' value found found'
    (here.trans here'.symm) names names' current current'

/--
A version is written under a commit that is given up, and another one under the next commit.
-/
def rewritten : List Action :=
  [.create "M", .openCommit "M" .content, .retire 0 "businessId" (.ofList ["1"]),
    .write 0 [{ businessId := some "1", term := "given up" }], .forceUnlock "M",
    .openCommit "M" .content, .retire 1 "businessId" (.ofList ["1"]),
    .write 1 [{ businessId := some "1", term := "kept" }]]

theorem cycles_rewritten : empty.Cycles [] rewritten := by
  have names : ∀ term value, Document.Names { businessId := some "1", term } value →
      value = "1" := by
    intro term value named
    exact (Option.some.inj named).symm
  have first : ((empty.run (rewritten.take 3)).commits[0]?).all (fun commit =>
      decide (commit.IsOpen (empty.run (rewritten.take 3)).site.directory.openCommits)) := by
    decide +kernel
  have second : ((empty.run (rewritten.take 7)).commits[1]?).all (fun commit =>
      decide (commit.IsOpen (empty.run (rewritten.take 7)).site.directory.openCommits)) := by
    decide +kernel
  have ok : ((empty.run (rewritten.take 2)).step
      (.retire 0 "businessId" (.ofList ["1"]))).1 = .ok () := by decide +kernel
  have ok' : ((empty.run (rewritten.take 6)).step
      (.retire 1 "businessId" (.ofList ["1"]))).1 = .ok () := by decide +kernel
  have mem : "1" ∈ OrderedSet.ofList ["1"] := by decide
  refine ⟨trivial, trivial, trivial, ?_, trivial, trivial, trivial, ?_, trivial⟩
  · intro commit there
    change (empty.run (rewritten.take 3)).commits[0]? = some commit at there
    rw [there] at first
    refine ⟨of_decide_eq_true first, List.pairwise_singleton _ _, ?_⟩
    intro d same value named
    rw [List.mem_singleton.1 same] at named
    rw [names _ value named]
    refine ⟨⟨_, List.mem_append_right _ (List.mem_singleton_self _), ?_⟩, ?_⟩
    · change Retires 0 "1" (_, ((empty.run (rewritten.take 2)).step _).1)
      rw [ok]
      exact ⟨rfl, rfl, mem⟩
    · simp [Writes]
  · intro commit there
    change (empty.run (rewritten.take 7)).commits[1]? = some commit at there
    rw [there] at second
    refine ⟨of_decide_eq_true second, List.pairwise_singleton _ _, ?_⟩
    intro d same value named
    rw [List.mem_singleton.1 same] at named
    rw [names _ value named]
    refine ⟨⟨_, List.mem_append_right _ (List.mem_singleton_self _), ?_⟩, ?_⟩
    · change Retires 1 "1" (_, ((empty.run (rewritten.take 6)).step _).1)
      rw [ok']
      exact ⟨rfl, rfl, mem⟩
    · simp [Writes]

/--
The version that was given up is ended by the next cycle, so that there is one without end.
-/
theorem single_of_rewritten :
    empty.New ∧ empty.Permits rewritten ∧ empty.Cycles [] rewritten ∧
      ((empty.run rewritten).documents.get? (.generated 1)).map Document.ended = some (some 3) ∧
      ∀ id d, (empty.run rewritten).documents.get? id = some d → d.path = "M" →
        d.fieldValue Document.businessIdField = some "1" → d.ended = none →
          id = .generated 2 := by
  have m : Path.Valid "M" := by decide
  have permitted : empty.Permits rewritten :=
    ⟨m, m, trivial, trivial, m, m, trivial, trivial, trivial⟩
  have kept : ((empty.run rewritten).documents.get? (.generated 2)).map (fun d =>
      (d.path, d.fieldValue Document.businessIdField, d.ended)) = some ("M", some "1", none) := by
    decide +kernel
  obtain ⟨d', found', parts⟩ := Option.map_eq_some_iff.1 kept
  simp only [Prod.mk.injEq] at parts
  obtain ⟨path', names', current'⟩ := parts
  refine ⟨new_empty, permitted, cycles_rewritten, by decide +kernel, ?_⟩
  intro id d found path names current
  exact single_of_run new_empty permitted cycles_rewritten "M" "1" id (.generated 2) d d' found
    found' path path' names names' current current'

end Session

end TemporalStore
