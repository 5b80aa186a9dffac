import WorkflowDag.Directory.Conversion
import WorkflowDag.Proofs.FileTrees
import WorkflowDag.Proofs.Success

/-!
# Work on a file tree

What running work on a file tree gives and what it changes.  Work is taken apart with
`runOn_bind_eq_ok_iff`, and every operation has a lemma that says what it has done when it succeeds.

* Reading, evaluating and noting events leave the tree as it is (`Quiet`).
* Copying assets keeps every file where it stands, with the text it had or that of an asset copied
  to the same place (`Asset.copyAll_keeps`).
-/

namespace WorkflowDag
namespace Files

section Runs

variable {α β : Type} {w w' : World}

theorem runOn_bind (x : Files α) (f : α → Files β) (w : World) :
    (x >>= f).runOn w = match x.runOn w with
      | (.ok a, w1) => (f a).runOn w1
      | (.error failure, w1) => (.error failure, w1) := by
  have hRun : (x >>= f).runOn w = ExceptT.bindCont f (x.runOn w).1 (x.runOn w).2 := rfl
  rw [hRun]
  rcases x.runOn w with ⟨result, w1⟩
  cases result <;> rfl

theorem runOn_bind_eq_ok_iff {x : Files α} {f : α → Files β} {b : β} :
    (x >>= f).runOn w = (.ok b, w') ↔
      ∃ a w1, x.runOn w = (.ok a, w1) ∧ (f a).runOn w1 = (.ok b, w') := by
  rw [runOn_bind]
  rcases hFirst : x.runOn w with ⟨result, w1⟩
  cases result with
  | error failure => simp
  | ok a => simp

theorem runOn_tryCatch (x : Files α) (handler : Failure → Files α) (w : World) :
    (tryCatch x handler : Files α).runOn w = match x.runOn w with
      | (.ok a, w1) => (.ok a, w1)
      | (.error failure, w1) => (handler failure).runOn w1 := by
  -- The work is carried out once, and the handler goes on from what that has left.
  have hOnce : (tryCatch x handler : Files α).runOn w =
      (tryCatch (fun _ => x.runOn w : Files α) handler).runOn w := rfl
  rw [hOnce]
  rcases x.runOn w with ⟨result, w1⟩
  cases result <;> rfl

theorem runOn_getThe (w : World) : (getThe World : Files World).runOn w = (.ok w, w) :=
  rfl

theorem runOn_change_eq (f : FileTree → List String → Except FileFault FileTree) (w : World) :
    (change f).runOn w = match f w.files w.directory with
      | .ok t => (.ok (), { w with files := t })
      | .error fault => (.error (.file fault), w) := by
  rw [change, runOn_bind, runOn_getThe]
  dsimp only
  cases f w.files w.directory <;> rfl

theorem runOn_change {f : FileTree → List String → Except FileFault FileTree}
    (hChange : (change f).runOn w = (.ok (), w')) :
    ∃ t, f w.files w.directory = .ok t ∧ w' = { w with files := t } := by
  rw [runOn_change_eq] at hChange
  cases hResult : f w.files w.directory with
  | ok t =>
      simp only [hResult] at hChange
      cases hChange
      exact ⟨t, rfl, rfl⟩
  | error fault =>
      simp only [hResult] at hChange
      cases hChange

theorem runOn_attempt (operation : FileOperation) (work : Files α) (w : World) :
    (attempt operation work).runOn w = match w.refusal? operation with
      | some fault => (.error (.file fault), w)
      | none => work.runOn w := by
  rw [attempt, runOn_bind, runOn_getThe]
  dsimp only
  cases w.refusal? operation <;> rfl

/-- What holds of a refusal and of the work holds of the attempt. -/
theorem forall_runOn_attempt {P : World → Except Failure α × World → Prop}
    (operation : FileOperation) {work : Files α}
    (hRefused : ∀ w fault, P w (.error (.file fault), w)) (hWork : ∀ w, P w (work.runOn w)) :
    ∀ w, P w ((attempt operation work).runOn w) := by
  intro w
  rw [runOn_attempt]
  split
  next fault _ => exact hRefused w fault
  next => exact hWork w

/-- An operation that succeeds has not been refused. -/
theorem runOn_of_attempt {operation : FileOperation} {work : Files α} {a : α}
    (hAttempt : (attempt operation work).runOn w = (.ok a, w')) : work.runOn w = (.ok a, w') := by
  rw [runOn_attempt] at hAttempt
  split at hAttempt
  · cases hAttempt
  · exact hAttempt

theorem runOn_read {path text : String}
    (hRead : (FileSystem.read path : Files String).runOn w = (.ok text, w')) :
    w.files.read w.directory path = .ok text := by
  replace hRead := runOn_of_attempt hRead
  rw [inspectOrFail] at hRead
  obtain ⟨w1, w2, hGet, hRead⟩ := runOn_bind_eq_ok_iff.mp hRead
  cases hGet
  split at hRead
  next other hOther =>
    cases hRead
    exact hOther
  next => cases hRead

theorem runOn_perform {t : Traced α} {a : α}
    (hPerform : (perform t : Files α).runOn w = (.ok a, w')) : t.result = .ok a := by
  obtain ⟨⟨⟩, w1, -, hResult⟩ := runOn_bind_eq_ok_iff.mp hPerform
  split at hResult
  next other hOther =>
    cases hResult
    exact hOther
  next => cases hResult

theorem runOn_makeDirectories_eq (path : String) (w : World) :
    (makeDirectories path).runOn w =
      ((w.files.makeDirectories w.directory path).1.mapError .file,
        { w with files := (w.files.makeDirectories w.directory path).2 }) := by
  rw [makeDirectories, runOn_bind, runOn_getThe]
  dsimp only
  rcases w.files.makeDirectories w.directory path with ⟨result, t⟩
  cases result <;> rfl

theorem runOn_makeDirectories {path : String}
    (hMake : (FileSystem.makeDirectories path : Files Unit).runOn w = (.ok (), w')) :
    ∃ t, w.files.makeDirectories w.directory path = (.ok (), t) ∧ w' = { w with files := t } := by
  replace hMake := runOn_of_attempt hMake
  rw [runOn_makeDirectories_eq] at hMake
  obtain ⟨hResult, rfl⟩ := Prod.mk.inj hMake
  exact ⟨_, Prod.ext (mapError_eq_ok_iff.mp hResult) rfl, rfl⟩

end Runs

/-- The work leaves the file tree as it is, whether it succeeds or not. -/
def Quiet {α : Type} (x : Files α) : Prop :=
  ∀ w, (x.runOn w).2.files = w.files ∧ (x.runOn w).2.directory = w.directory

namespace Quiet

variable {α β : Type}

theorem pure (a : α) : (Pure.pure a : Files α).Quiet :=
  fun _ => ⟨rfl, rfl⟩

theorem throw (failure : Failure) : (MonadExcept.throw failure : Files α).Quiet :=
  fun _ => ⟨rfl, rfl⟩

theorem bind {x : Files α} {f : α → Files β} (hFirst : x.Quiet) (hNext : ∀ a, (f a).Quiet) :
    (x >>= f).Quiet := by
  intro w
  obtain ⟨hFiles, hDirectory⟩ := hFirst w
  rw [runOn_bind]
  rcases hRun : x.runOn w with ⟨result, w1⟩
  rw [hRun] at hFiles hDirectory
  cases result with
  | error failure => exact ⟨hFiles, hDirectory⟩
  | ok a =>
      obtain ⟨hFiles', hDirectory'⟩ := hNext a w1
      exact ⟨hFiles'.trans hFiles, hDirectory'.trans hDirectory⟩

theorem doesExist (path : String) : (FileSystem.doesExist path : Files Bool).Quiet :=
  fun _ => ⟨rfl, rfl⟩

theorem attempt (operation : FileOperation) {work : Files α} (hWork : work.Quiet) :
    (Files.attempt operation work).Quiet :=
  forall_runOn_attempt (P := fun w left => left.2.files = w.files ∧ left.2.directory = w.directory)
    operation (fun _ _ => ⟨rfl, rfl⟩) hWork

theorem read (path : String) : (FileSystem.read path : Files String).Quiet := by
  refine attempt _ (bind (fun _ => ⟨rfl, rfl⟩) fun w => ?_)
  split
  next text _ => exact pure text
  next fault _ => exact throw _

theorem note (scopes : List String) (event : Event) :
    (WorkflowDag.note scopes event : Files Unit).Quiet :=
  fun _ => ⟨rfl, rfl⟩

theorem orFail (result : Except Error α) : (WorkflowDag.orFail result : Files α).Quiet := by
  cases result with
  | ok a => exact pure a
  | error cause => exact throw _

theorem perform (t : Traced α) : (WorkflowDag.perform t : Files α).Quiet := by
  have hTrail : ∀ entries : List Entry,
      (entries.forM FileSystem.note : Files PUnit).Quiet := by
    intro entries
    induction entries with
    | nil => exact pure _
    | cons entry rest ih => exact bind (fun _ => ⟨rfl, rfl⟩) fun _ => ih
  refine bind (hTrail t.trail) fun _ => ?_
  cases t.result with
  | ok a => exact pure a
  | error cause => exact throw _

end Quiet
end Files

namespace Directory

open Files

theorem loadProperties_quiet (scopes : List String) (path : String) (base : Record) :
    (loadProperties scopes path base : Files Record).Quiet := by
  refine .bind (.doesExist path) fun found => ?_
  split
  · refine .bind (.read path) fun text => .bind (.orFail _) fun expanded => ?_
    exact .bind (.note _ _) fun _ => .pure expanded
  · exact .bind (.note _ _) fun _ => .pure base

theorem loadPropertyFiles_quiet (scopes : List String) (input : String) (names : List String) :
    ∀ base, (loadPropertyFiles scopes input names base : Files Record).Quiet := by
  induction names with
  | nil => exact fun base => .pure base
  | cons name rest ih => exact fun base => .bind (loadProperties_quiet _ _ _) ih

theorem gatherConfiguration_quiet (scopes : List String) (input user : String)
    (properties params : Record) :
    (gatherConfiguration scopes input user properties params : Files Record).Quiet :=
  .bind (loadPropertyFiles_quiet _ _ _ _) fun _ => .pure _

/-- Converting the workflow of a directory changes no file. -/
theorem convertInput_quiet (r : Request) : (convertInput r : Files Conversion).Quiet := by
  refine .bind (.doesExist _) fun found => ?_
  split
  · refine .bind (gatherConfiguration_quiet _ _ _ _ _) fun configuration => ?_
    exact .bind (.read _) fun source => .perform _
  · exact .throw _

end Directory

namespace Asset

open Files

/-- What copying keeps: each file stands where it stood, with its text or that of one of the targets
at the same place, and no text is new. -/
structure KeepsFiles (w w' : World) (targets : List String) : Prop where
  directory : w'.directory = w.directory
  files : ∀ path place text, w.files.lookup w.directory path = .found place (.file text) →
    ∃ text', w'.files.lookup w'.directory path = .found place (.file text') ∧
      (text' = text ∨ ∃ target ∈ targets,
        w'.files.lookup w'.directory target = .found place (.file text'))
  texts : ∀ text, w'.files.Holds text → w.files.Holds text

section Copying

variable {w w' w'' : World} {request : CopyRequest}

/-- Work that leaves the tree as it is keeps all files. -/
theorem KeepsFiles.of_eq (hFiles : w'.files = w.files) (hDirectory : w'.directory = w.directory) :
    KeepsFiles w w' [] := by
  refine ⟨hDirectory, ?_, ?_⟩
  · intro path place text hLookup
    rw [hFiles, hDirectory]
    exact ⟨text, hLookup, Or.inl rfl⟩
  · intro text hHolds
    rw [← hFiles]
    exact hHolds

theorem KeepsFiles.trans {first second : List String} (hFirst : KeepsFiles w w' first)
    (hSecond : KeepsFiles w' w'' second) : KeepsFiles w w'' (first ++ second) := by
  refine ⟨hSecond.directory.trans hFirst.directory, ?_,
    fun text hHolds => hFirst.texts text (hSecond.texts text hHolds)⟩
  intro path place text hLookup
  obtain ⟨text1, hLookup1, hText1⟩ := hFirst.files path place text hLookup
  obtain ⟨text2, hLookup2, hText2⟩ := hSecond.files path place text1 hLookup1
  refine ⟨text2, hLookup2, ?_⟩
  rcases hText1 with rfl | ⟨target, hTarget, hThere⟩
  · refine hText2.imp_right ?_
    rintro ⟨target, hTarget, hThere⟩
    exact ⟨target, List.mem_append_right first hTarget, hThere⟩
  · -- The target of the first goes on leading to the place, whatever stands there now.
    obtain ⟨text3, hThere3, -⟩ := hSecond.files target place text1 hThere
    have hSame : some (FileNode.file text3) = some (.file text2) :=
      (FileTree.get?_of_lookup hThere3).symm.trans (FileTree.get?_of_lookup hLookup2)
    cases hSame
    exact Or.inr ⟨target, List.mem_append_left second hTarget, hThere3⟩

theorem KeepsFiles.of_makeDirectories {path : String}
    (hMake : (FileSystem.makeDirectories path : Files Unit).runOn w = (.ok (), w')) :
    KeepsFiles w w' [] := by
  obtain ⟨t, hTree, rfl⟩ := runOn_makeDirectories hMake
  refine ⟨rfl, ?_, fun text =>
    FileTree.holds_of_makeAlong _ _ _ _ (FileTree.makeAlong_of_makeDirectories hTree)⟩
  intro path place text hLookup
  exact ⟨text, FileTree.lookup_of_makeDirectories hTree hLookup, Or.inl rfl⟩

theorem KeepsFiles.of_copy {origin target : String}
    (hCopy : (FileSystem.copy origin target : Files Unit).runOn w = (.ok (), w')) :
    KeepsFiles w w' [target] := by
  obtain ⟨t, hTree, rfl⟩ := runOn_change (runOn_of_attempt hCopy)
  obtain ⟨old, copied, hOrigin, place', hTakes, rfl⟩ := FileTree.takes_of_copy hTree
  have hRoot := FileTree.ne_nil_of_get? hTakes.get?_ne
  have hTexts : ∀ text, (w.files.put place' (.file copied)).Holds text → w.files.Holds text := by
    intro text hHolds
    rcases FileTree.holds_of_put hRoot hHolds with hSame | hBefore
    · cases hSame
      exact ⟨old, FileTree.get?_of_lookup hOrigin⟩
    · exact hBefore
  refine ⟨rfl, ?_, hTexts⟩
  intro path place text hLookup
  refine ⟨_, hTakes.lookup_put hLookup, ?_⟩
  by_cases hPlace : place = place'
  · -- The copy has gone to the place of the file, so the target led there before.
    subst hPlace
    rw [if_pos rfl]
    refine Or.inr ⟨target, List.mem_singleton.mpr rfl, ?_⟩
    have hFound : ∃ before, w.files.lookup w.directory target = .found place (.file before) := by
      refine hTakes.resolve_right ?_
      intro hVacant
      have hFile := FileTree.get?_of_lookup hLookup
      rw [FileTree.get?_of_lookup_vacant hVacant] at hFile
      cases hFile
    obtain ⟨before, hBefore⟩ := hFound
    refine (hTakes.lookup_put hBefore).trans ?_
    rw [if_pos rfl]
  · exact Or.inl (if_neg hPlace)

/-- Copying one asset; what it was copied to is its path below the output. -/
theorem copyOne_keeps {reference : String} {copied : Option String}
    (hCopy : (copyOne request reference : Files (Option String)).runOn w = (.ok copied, w')) :
    KeepsFiles w w' copied.toList ∧
      ∀ target ∈ copied.toList, target = Location.join [request.output, reference] := by
  -- An asset that is left out or missing is noted only.
  have hNone : ∀ {event : Event} {w1 : World},
      (note request.scopes event >>= fun _ => pure none : Files (Option String)).runOn w1 =
        (.ok copied, w') →
      KeepsFiles w1 w' copied.toList ∧
        ∀ target ∈ copied.toList, target = Location.join [request.output, reference] := by
    intro event w1 hNote
    cases hNote
    exact ⟨.of_eq rfl rfl, fun _ hTarget => absurd hTarget List.not_mem_nil⟩
  unfold copyOne at hCopy
  split at hCopy
  · exact hNone hCopy
  obtain ⟨found, w1, hFile, hCopy⟩ := runOn_bind_eq_ok_iff.mp hCopy
  cases hFile
  split at hCopy
  · obtain ⟨⟨⟩, w2, hMake, hCopy⟩ := runOn_bind_eq_ok_iff.mp hCopy
    obtain ⟨⟨⟩, w3, hCopied, hCopy⟩ := runOn_bind_eq_ok_iff.mp hCopy
    cases hCopy
    have hKeeps := (KeepsFiles.of_makeDirectories hMake).trans (.of_copy hCopied)
    refine ⟨?_, ?_⟩
    · change KeepsFiles w _ ([] ++ [_] ++ [])
      exact hKeeps.trans (.of_eq rfl rfl)
    intro target hTarget
    exact List.mem_singleton.mp hTarget
  · exact hNone hCopy

theorem copyAll_keeps (references : List String) :
    ∀ (w w' : World) (targets : List String),
      (copyAll request references : Files (List String)).runOn w = (.ok targets, w') →
      KeepsFiles w w' targets ∧ ∀ target ∈ targets, ∃ reference ∈ references,
        target = Location.join [request.output, reference] := by
  induction references with
  | nil =>
      intro w w' targets hCopy
      cases hCopy
      exact ⟨.of_eq rfl rfl, fun _ hTarget => absurd hTarget List.not_mem_nil⟩
  | cons reference rest ih =>
      intro w w' targets hCopy
      obtain ⟨copied, w1, hOne, hCopy⟩ := runOn_bind_eq_ok_iff.mp hCopy
      obtain ⟨others, w2, hRest, hCopy⟩ := runOn_bind_eq_ok_iff.mp hCopy
      cases hCopy
      obtain ⟨hKeepsOne, hOwn⟩ := copyOne_keeps hOne
      obtain ⟨hKeepsRest, hOthers⟩ := ih w1 w' others hRest
      refine ⟨hKeepsOne.trans hKeepsRest, ?_⟩
      intro target hTarget
      rcases List.mem_append.mp hTarget with hFirst | hLater
      · exact ⟨reference, List.mem_cons_self, hOwn target hFirst⟩
      · obtain ⟨other, hOther, hSame⟩ := hOthers target hLater
        exact ⟨other, List.mem_cons_of_mem reference hOther, hSame⟩

end Copying

end Asset
end WorkflowDag
