import TemporalStore.Proofs.Directory.Reopen
import TemporalStore.Proofs.Session.Failure
import TemporalStore.Proofs.Session.Mirror
import TemporalStore.Proofs.Session.Timeline

/-!
This module contains that the file of a directory always holds its rows, and what becomes of a
directory that is opened again.
-/

namespace TemporalStore

/--
The same directory, kept in memory.
-/
def Site.inMemory (site : Site) : Site :=
  { site with directory := { site.directory with file := none } }

/--
The directory has the rows of another one and finds the same in them. No commit is open, and the
clock has passed every timepoint in the rows.
-/
structure Site.Reopened (site : Site) (directory : Directory) : Prop where
  index : directory.index = site.directory.index
  openCommits : directory.openCommits = ∅
  issues : ∀ row ∈ directory.index.allRows, ∀ wall,
    let t := (directory.clock.tick wall).1
    row.base < t ∧ row.start < t ∧ row.head < t ∧ ∀ e, row.ended = some e → e < t
  answers : ∀ {α : Type} (op : Operation α), ¬ op.Stores →
    Matched (fun site site' => site'.directory.index = site.directory.index) (op.perform site)
      (op.perform { site with directory })

/--
The operation fails because of the file, and the rows, the open commits and the file stay as they
are.
-/
def Operation.Unwritten {α : Type} (op : Operation α) (site : Site) : Prop :=
  ∃ cause after, op.perform site = .error (.io cause) after ∧
    after.directory.index = site.directory.index ∧
    after.directory.openCommits = site.directory.openCommits ∧
    ∀ name, site.directory.file = some name →
      (after.host.disk.read name).toOption = (site.host.disk.read name).toOption

namespace Directory

variable {site : Site} {commits : List Commit}

/--
Every timepoint in the rows is before the next one that a clock issues.
-/
theorem before_tick_ofIndex (h : site.Sound commits) (file : Option String) (cacheSize : Nat)
    {row : BranchRow} (mem : row ∈ site.directory.index.allRows) (wall : Timepoint) :
    let t := ((ofIndex file site.directory.index cacheSize).clock.tick wall).1
    row.base < t ∧ row.start < t ∧ row.head < t ∧ ∀ e, row.ended = some e → e < t := by
  have valid := (consistent_ofIndex h.consistent.valid file cacheSize).valid
  obtain ⟨hp, mem⟩ := valid.mem_allRows_iff.1 mem
  obtain ⟨base, start, head, ended⟩ := (valid.line hp).issued row mem
  have later := Clock.last_lt_tick (ofIndex file site.directory.index cacheSize).clock wall
  refine ⟨by lia, by lia, by lia, ?_⟩
  intro e he
  have := ended e he
  lia

end Directory

/--
Whether rows are stored when the action succeeds.
-/
def Action.Stores : Action → Prop
  | .create _ | .lock _ | .unlock _ | .forceUnlock _ | .openCommit _ _ | .openPromotion _ _
  | .complete _ | .purge | .save => True
  | _ => False

namespace Session

section

variable {session : Session} {action : Action} {actions : List Action}

/--
The session is on the same file, which is there if it was before.
-/
def KeepsFile (session session' : Session) : Prop :=
  session'.site.directory.file = session.site.directory.file ∧
    (session.site.There → session'.site.There)

theorem keepsFile_call {α : Type} {op : Operation α} {keep : α → Session → Session}
    (same : ∀ a s, (keep a s).site = s.site) :
    session.KeepsFile (session.call op.perform keep).2 := by
  have home := Directory.upholds_perform Site.sameHome_always op session.site
  unfold call
  generalize op.perform session.site = result at home ⊢
  cases result with
  | ok a site =>
    unfold KeepsFile
    rw [same]
    exact ⟨home.file, fun there => there.of_sameHome home⟩
  | error e site => exact ⟨home.file, fun there => there.of_sameHome home⟩

theorem keepsFile_withHandle {handle : Nat} {act : Commit → Except StoreError Unit × Session}
    (h : ∀ commit, session.commits[handle]? = some commit → session.KeepsFile (act commit).2) :
    session.KeepsFile (session.withHandle handle act).2 := by
  unfold withHandle
  cases there : session.commits[handle]? with
  | some commit => exact h commit there
  | none => exact ⟨rfl, id⟩

theorem keepsFile_reopen (cacheSize : Nat) : session.KeepsFile (session.reopen cacheSize).2 := by
  unfold reopen
  cases file : session.site.directory.file with
  | none => exact ⟨rfl, id⟩
  | some name =>
    simp only
    rcases Directory.load_cases name cacheSize session.site.host with ⟨index, loaded⟩ | ⟨e, failed⟩
    · rw [loaded]
      refine ⟨file.symm, ?_⟩
      intro there name' hf
      rw [← Option.some.inj hf]
      exact there name file
    · rw [failed]
      exact ⟨rfl, id⟩

theorem keepsFile_criteria {path : String} (sound : session.Sound) (hp : Path.Valid path) :
    session.KeepsFile (session.call (Criteria.ofBranch path)).2 := by
  obtain ⟨answer, history, found⟩ := exists_criteria sound hp
  rw [found]
  exact ⟨rfl, id⟩

theorem keepsFile_retire {handle : Nat} {commit : Commit} (sound : session.Sound)
    (there : session.commits[handle]? = some commit) (field : String)
    (values : OrderedSet String) :
    session.KeepsFile (session.retire handle field values commit).2 := by
  have out := retire_outcome sound there field values
  generalize session.retire handle field values commit = result at out ⊢
  cases out with
  | nothing none => exact ⟨rfl, id⟩
  | uncovered path t history agrees missing => exact ⟨rfl, id⟩
  | retired history agrees some covered => exact ⟨rfl, id⟩

theorem keepsFile_step (sound : session.Sound) (allowed : action.Allowed session) :
    session.KeepsFile (session.step action).2 := by
  have plain {α : Type} (op : Operation α) : session.KeepsFile (session.call op.perform).2 :=
    keepsFile_call fun _ _ => rfl
  have opening (op : Operation Commit) :
      session.KeepsFile (session.call op.perform addCommit).2 :=
    keepsFile_call fun _ _ => rfl
  cases action with
  | surroundings host =>
    refine ⟨rfl, ?_⟩
    intro there name hf
    rw [← there name hf]
    exact (allowed name hf).1
  | subscribers events => exact ⟨rfl, id⟩
  | create path => exact plain (.create path)
  | lock path => exact plain (.lock path)
  | unlock path => exact plain (.unlock path)
  | forceUnlock path => exact plain (.forceUnlock path)
  | openCommit path kind => exact opening (.openCommit path kind)
  | openPromotion path source => exact opening (.openPromotion path source)
  | complete handle => exact keepsFile_withHandle fun commit _ => plain (.complete commit)
  | purge => exact plain .purge
  | save => exact plain .save
  | reopen cacheSize => exact keepsFile_reopen cacheSize
  | latest path => exact plain (.latestWithStanding? path)
  | rowAt path t => exact plain (.rowAt path t)
  | criteria path => exact keepsFile_criteria sound allowed
  | hide handle ids => exact keepsFile_withHandle fun commit _ => ⟨rfl, id⟩
  | retire handle field values =>
    exact keepsFile_withHandle fun commit there => keepsFile_retire sound there field values
  | write handle docs => exact keepsFile_withHandle fun commit _ => ⟨rfl, id⟩
  | endVersions ids t => exact ⟨rfl, id⟩

theorem keepsFile_run (sound : session.Sound) (permitted : session.Permits actions) :
    session.KeepsFile (session.run actions) := by
  induction actions generalizing session with
  | nil => exact ⟨rfl, id⟩
  | cons action actions ih =>
    obtain ⟨allowed, rest⟩ := permitted
    have first := keepsFile_step sound allowed
    have later := ih (stays_step sound allowed).sound rest
    exact ⟨later.1.trans first.1, fun there => later.2 (first.2 there)⟩

theorem there_call {α : Type} {op : Operation α} {keep : α → Session → Session}
    (stores : op.Stores) (same : ∀ a s, (keep a s).site = s.site)
    (ok : (session.call op.perform keep).1 = .ok ()) :
    (session.call op.perform keep).2.site.There := by
  unfold call at ok ⊢
  cases result : op.perform session.site with
  | ok a site =>
    simp only
    rw [same]
    exact Directory.puts_perform stores result
  | error e site => simp [result] at ok

theorem there_step (stores : action.Stores) (ok : (session.step action).1 = .ok ()) :
    (session.step action).2.site.There := by
  have plain {α : Type} (op : Operation α) (stores : op.Stores)
      (ok : (session.call op.perform).1 = .ok ()) : (session.call op.perform).2.site.There :=
    there_call stores (fun _ _ => rfl) ok
  have opening (op : Operation Commit) (stores : op.Stores)
      (ok : (session.call op.perform addCommit).1 = .ok ()) :
      (session.call op.perform addCommit).2.site.There :=
    there_call stores (fun _ _ => rfl) ok
  cases action with
  | create path => exact plain (.create path) trivial ok
  | lock path => exact plain (.lock path) trivial ok
  | unlock path => exact plain (.unlock path) trivial ok
  | forceUnlock path => exact plain (.forceUnlock path) trivial ok
  | openCommit path kind => exact opening (.openCommit path kind) trivial ok
  | openPromotion path source => exact opening (.openPromotion path source) trivial ok
  | complete handle =>
    cases there : session.commits[handle]? with
    | some commit =>
      rw [step_complete there] at ok ⊢
      exact plain (.complete commit) trivial ok
    | none =>
      change (session.withHandle handle _).1 = _ at ok
      unfold withHandle at ok
      rw [there] at ok
      cases ok
  | purge => exact plain .purge trivial ok
  | save => exact plain .save trivial ok
  | _ => exact stores.elim

/--
Once something was stored, the file is there.
-/
theorem there_run (sound : session.Sound) (permitted : session.Permits actions)
    (stored : ∃ answer ∈ session.answers actions, answer.1.Stores ∧ answer.2 = .ok ()) :
    (session.run actions).site.There := by
  induction actions generalizing session with
  | nil =>
    obtain ⟨answer, mem, -⟩ := stored
    simp [answers] at mem
  | cons action actions ih =>
    obtain ⟨allowed, rest⟩ := permitted
    have later := (stays_step sound allowed).sound
    obtain ⟨answer, mem, stores, ok⟩ := stored
    rcases List.mem_cons.1 mem with rfl | mem
    · exact (keepsFile_run later rest).2 (there_step stores ok)
    · exact ih later rest ⟨answer, mem, stores, ok⟩

end

/-! ## A file or memory -/

theorem mirrors_of_new {session session' : Session} (new : session.New) (new' : session'.New)
    (memory : session'.site.directory.file = none)
    (wall : session'.site.host.wall = session.site.host.wall) : session.Mirrors session' := by
  obtain ⟨commits, -, file, cacheSize, directory, -⟩ := new
  obtain ⟨commits', -, file', cacheSize', directory', -⟩ := new'
  refine ⟨⟨?_, ?_, ?_, ?_, wall⟩, commits'.trans commits.symm, memory⟩
  all_goals
    rw [directory, directory']
    rfl

/--
The same rows in memory answer likewise, unless the file cannot be written.
-/
theorem matched_or_kept {site : Site} {commits : List Commit} (sound : site.Sound commits)
    {α : Type} (op : Operation α) :
    Matched Site.Mirrors (op.perform site) (op.perform site.inMemory) ∨ op.Unwritten site := by
  have same : site.Mirrors site.inMemory := ⟨rfl, rfl, rfl, rfl, rfl⟩
  have sound' : site.inMemory.Sound commits :=
    ⟨sound.consistent, sound.agrees, fun name hf => by cases hf⟩
  have memory : site.inMemory.Writable := fun name hf => by cases hf
  rcases Directory.matched_or_io same sound sound' memory op with matched | ⟨-, cause, after, failed⟩
  · exact .inl matched
  · obtain ⟨⟨heard, rests, -⟩, -⟩ := Directory.unharmed_of_error sound failed
    exact .inr ⟨cause, after, failed, rests.index, rests.openCommits, fun name hf =>
      Site.toOption_read_of_keeps sound.stored hf (rests.keeps name hf)⟩

theorem reopened_ofIndex {site : Site} {commits : List Commit} (sound : site.Sound commits)
    (file : Option String) (cacheSize : Nat) :
    site.Reopened (.ofIndex file site.directory.index cacheSize) where
  index := rfl
  openCommits := rfl
  issues _ mem wall := Directory.before_tick_ofIndex sound file cacheSize mem wall
  answers op looks := by
    have coupling : Coupling fun site site' : Site =>
        site'.directory.index = site.directory.index := ⟨id, fun _ => id, fun _ _ => id⟩
    have same : ({ site with directory := Directory.ofIndex file site.directory.index cacheSize } :
        Site).directory.index = site.directory.index := rfl
    exact Directory.matched_lookup coupling same sound.consistent.valid sound.agrees
      (HistoryCache.agrees_ofSize cacheSize _) looks

/--
Nothing is stored where the file cannot be written.
-/
theorem fails_of_replaceFile_error {site : Site} {name : String} {bytes : List UInt8}
    {e : StoreError} {host : Host} (file : site.directory.file = some name)
    (failed : Host.replaceFile name bytes site.host = .error e host) {α : Type} {op : Operation α}
    (stores : op.Stores) : ∃ e after, op.perform site = .error e after := by
  have unwritable : ¬ site.Writable := by
    intro writable
    obtain ⟨host', ok⟩ := (Host.replaceFile_ok_iff name bytes site.host).2 (writable name file)
    simp [failed] at ok
  rcases Directory.blocked_perform stores site site ⟨rfl, rfl, rfl, rfl, rfl⟩ unwritable with
    ⟨e', after, after', failed', -⟩ | ⟨cause, after, failed'⟩
  · exact ⟨e', after, failed'⟩
  · exact ⟨_, after, failed'⟩

/--
A directory in a file does what one in memory does.

- As long as the file can be written, the same is answered and announced on both after any run.
- As soon as something was stored, the file holds the rows that the directory has.
- A directory that is opened again has the same rows, looks up the same, has no commit open, and
  issues timepoints later than all that are stored.
- When the file cannot be written, whatever would store something fails: for a reason that it would
  have in memory too, or for this one, and then rows and file stay as they are.
-/
theorem file_of_run {session session' : Session} {name : String} (new : session.New)
    (new' : session'.New) (file : session.site.directory.file = some name)
    (memory : session'.site.directory.file = none)
    (wall : session'.site.host.wall = session.site.host.wall) {actions : List Action}
    (permitted : session.Permits actions) :
    ((∀ action ∈ actions, action.OnDirectory) →
      (∀ answer ∈ session.answers actions, ∀ cause, answer.2 ≠ .error (.io cause)) →
      session'.answers actions = session.answers actions ∧
      (session'.run actions).commits = (session.run actions).commits ∧
      (session.run actions).site.Mirrors (session'.run actions).site ∧
      ∀ {α : Type} (op : Operation α),
        Matched Site.Mirrors (op.perform (session.run actions).site)
          (op.perform (session'.run actions).site) ∨
        ∃ cause after, op.perform (session.run actions).site = .error (.io cause) after) ∧
    ((session.run actions).site.directory.clock.last < 0x8000000000000000 →
      (MessagePack.encode (Record.indexValue (session.run actions).site.directory.index)).length ≤
        Frame.maxPayload →
      ((∃ answer ∈ session.answers actions, answer.1.Stores ∧ answer.2 = .ok ()) →
        Host.readRecord Directory.fileFormat Record.index? name (session.run actions).site.host =
          .ok (session.run actions).site.directory.index (session.run actions).site.host) ∧
      ∀ cacheSize, ∃ directory,
        Directory.load name cacheSize (session.run actions).site.host =
          .ok directory (session.run actions).site.host ∧
        (session.run actions).site.Reopened directory) ∧
    ∀ {α : Type} (op : Operation α),
      (op.Stores → ∀ bytes e host,
        Host.replaceFile name bytes (session.run actions).site.host = .error e host →
        ∃ e after, op.perform (session.run actions).site = .error e after) ∧
      (Matched Site.Mirrors (op.perform (session.run actions).site)
          (op.perform (session.run actions).site.inMemory) ∨
        op.Unwritten (session.run actions).site) := by
  have sound := new.sound
  have sound' := new'.sound
  have after := (sound_run sound permitted).site
  have kept : (session.run actions).site.directory.file = some name :=
    (keepsFile_run sound permitted).1.trans file
  refine ⟨?_, ?_, fun op => ⟨fun stores _ _ _ failed =>
    fails_of_replaceFile_error kept failed stores, matched_or_kept after op⟩⟩
  · intro calls written
    have mirrors := mirrors_of_new new new' memory wall
    obtain ⟨answers, permitted', same⟩ := mirrors_run mirrors sound sound' calls permitted written
    refine ⟨answers.symm, same.commits, same.site, ?_⟩
    intro α op
    have writable : (session'.run actions).site.Writable := by
      intro name hf
      simp [same.memory] at hf
    rcases Directory.matched_or_io same.site after (sound_run sound' permitted').site writable op
      with matched | ⟨-, failed⟩
    · exact .inl matched
    · exact .inr failed
  · intro small fits
    refine ⟨?_, ?_⟩
    · intro stored
      exact Directory.readRecord_of_sound after kept small fits (there_run sound permitted stored)
    · intro cacheSize
      exact ⟨_, Directory.load_of_sound after kept cacheSize small fits,
        reopened_ofIndex after (some name) cacheSize⟩

def onFile : Session where
  site := { directory := .ofIndex (some "rows") {} Directory.defaultCacheSize, host := {} }

theorem new_onFile : onFile.New := by
  have absent : onFile.site.host.disk.contains "rows" = false := by decide +kernel
  refine ⟨rfl, rfl, some "rows", Directory.defaultCacheSize, rfl, ?_⟩
  intro name hf
  rw [← Option.some.inj hf]
  exact absent

theorem file_of_first_commit :
    onFile.New ∧ empty.New ∧ onFile.Permits firstCommit ∧
      empty.answers firstCommit = onFile.answers firstCommit ∧
      Host.readRecord Directory.fileFormat Record.index? "rows" (onFile.run firstCommit).site.host =
        .ok (onFile.run firstCommit).site.directory.index (onFile.run firstCommit).site.host ∧
      ((onFile.run firstCommit).site.directory.index.timeline "M").map
        (fun row => (row.start, row.ended)) = [(1, some 2), (2, none)] ∧
      ∃ directory, Directory.load "rows" 1 (onFile.run firstCommit).site.host =
        .ok directory (onFile.run firstCommit).site.host ∧ directory.openCommits = ∅ := by
  have valid : Path.Valid "M" := by decide
  have permitted : onFile.Permits firstCommit := ⟨valid, valid, trivial, trivial⟩
  have succeeds : ∀ answer ∈ onFile.answers firstCommit, answer.2.isOk = true := by
    decide +kernel
  have written : ∀ answer ∈ onFile.answers firstCommit, ∀ cause, answer.2 ≠ .error (.io cause) := by
    intro answer mem cause failed
    have ok := succeeds answer mem
    simp [failed, Except.isOk, Except.toBool] at ok
  have calls : ∀ action ∈ firstCommit, action.OnDirectory := by
    intro action mem
    simp only [firstCommit, List.mem_cons, List.not_mem_nil, or_false] at mem
    rcases mem with rfl | rfl | rfl <;> trivial
  have stored : ∃ answer ∈ onFile.answers firstCommit, answer.1.Stores ∧ answer.2 = .ok () := by
    have ok := succeeds (.create "M", (onFile.step (.create "M")).1) List.mem_cons_self
    refine ⟨_, List.mem_cons_self, trivial, ?_⟩
    cases result : (onFile.step (.create "M")).1 with
    | ok u => rfl
    | error e => simp [result, Except.isOk, Except.toBool] at ok
  obtain ⟨alike, inFile, -⟩ := file_of_run new_onFile new_empty rfl rfl rfl permitted
  obtain ⟨read, reopened⟩ := inFile (by decide +kernel) (by decide +kernel)
  obtain ⟨directory, loaded, again⟩ := reopened 1
  exact ⟨new_onFile, new_empty, permitted, (alike calls written).1, read stored, by decide +kernel,
    directory, loaded, again.openCommits⟩

end Session

end TemporalStore
