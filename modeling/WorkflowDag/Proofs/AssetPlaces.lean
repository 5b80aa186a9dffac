import WorkflowDag.Proofs.AssetReferences
import WorkflowDag.Proofs.PathPlaces

/-!
# Where assets are read and written

The path of an asset is relative and has no step up, so behind any directory it leads to a place
below (`inside_of_mem_assets`).  Copying assets therefore changes a file tree below the output
directory only, and what it writes there stood below the input directory; apart from that it makes
directories where nothing was (`assets_stay_inside`).

`Confined` says this of two trees.  It holds of every step of a run, whether the step succeeds or
not, and holds of steps one after the other since a text that was copied stood below the input
directory before.
-/

namespace WorkflowDag

namespace FileTree

section Taking

variable {t : FileTree} {place : List String}

theorem reach_of_vacant (names : List String) :
    ∀ here, t.follow here names = .vacant place → reach here names = place := by
  induction names with
  | nil =>
      intro here hFollow
      cases hFollow
  | cons name rest ih =>
      intro here hFollow
      rw [follow] at hFollow
      rw [reach]
      by_cases hStay : name = "" ∨ name = "."
      · rw [if_pos hStay] at hFollow ⊢
        exact ih here hFollow
      rw [if_neg hStay] at hFollow ⊢
      by_cases hBack : name = ".."
      · rw [if_pos hBack] at hFollow ⊢
        exact ih here.dropLast hFollow
      rw [if_neg hBack] at hFollow ⊢
      split at hFollow
      · exact ih _ hFollow
      · split at hFollow <;> cases hFollow
      · split at hFollow
        next hRest =>
          cases hFollow
          -- Behind the missing name come empty names only.
          have hNone : rest.filter Location.leads = [] := by
            rw [List.filter_eq_nil_iff]
            intro other hMem
            rw [of_decide_eq_true (List.all_eq_true.mp hRest other hMem)]
            decide
          rw [← reach_filter_leads, hNone, reach]
        next => cases hFollow

/-- A file goes to the place that the path spells. -/
theorem Takes.placeOf_eq {directory : List String} {path : String}
    (hTakes : t.Takes directory path place) : placeOf directory path = place := by
  rcases hTakes with ⟨text, hFound⟩ | hVacant
  · exact placeOf_of_found hFound
  · unfold lookup at hVacant
    split at hVacant
    · cases hVacant
    · exact reach_of_vacant _ _ hVacant

end Taking

/-- What changes from one tree to the other: files below `target` get texts that stood below
`source`, and directories are made where nothing was. -/
def Confined (source target : List String) (t t' : FileTree) : Prop :=
  ∀ place, t'.get? place = t.get? place ∨
    (t.get? place = none ∧ t'.get? place = some .directory) ∨
    (target <+: place ∧ ∃ origin text, source <+: origin ∧ t.get? origin = some (.file text) ∧
      t'.get? place = some (.file text))

namespace Confined

variable {source target : List String} {t t' t'' : FileTree}

theorem refl (t : FileTree) : Confined source target t t :=
  fun _ => .inl rfl

theorem trans (hFirst : Confined source target t t') (hSecond : Confined source target t' t'') :
    Confined source target t t'' := by
  intro place
  rcases hSecond place with hSame | ⟨hNone, hMade⟩ | ⟨hBelow, origin, text, hOrigin, hText, hCopied⟩
  · rw [hSame]
    exact hFirst place
  · -- Nothing stood there after the first change, so nothing stood there before.
    rw [hMade]
    rcases hFirst place with hSame | ⟨-, hMade⟩ | ⟨_, _, _, _, _, hCopied⟩
    · exact .inr (.inl ⟨hSame.symm.trans hNone, rfl⟩)
    · rw [hNone] at hMade
      cases hMade
    · rw [hNone] at hCopied
      cases hCopied
  · -- The text was copied from below the source in the first change, if not before.
    rw [hCopied]
    rcases hFirst origin with hSame | ⟨-, hMade⟩ | ⟨-, origin', text', hOrigin', hText', hCopied'⟩
    · exact .inr (.inr ⟨hBelow, origin, text, hOrigin, hSame.symm.trans hText, rfl⟩)
    · rw [hText] at hMade
      cases hMade
    · rw [hText] at hCopied'
      cases hCopied'
      exact .inr (.inr ⟨hBelow, origin', text, hOrigin', hText', rfl⟩)

theorem of_put_directory {place : List String} (hPlace : place ≠ []) (hNone : t.get? place = none) :
    Confined source target t (t.put place .directory) := by
  intro other
  rw [get?_put hPlace]
  split
  next hSame => exact .inr (.inl ⟨hSame ▸ hNone, rfl⟩)
  next => exact .inl rfl

/-- Directories made before a fault stand where nothing was. -/
theorem of_makeAlong_error (names : List String) :
    ∀ (t : FileTree) (here : List String) (fault : FileFaultKind),
      t.makeAlong here names = .error (fault, t') → Confined source target t t' := by
  induction names with
  | nil =>
      intro t here fault hMake
      cases hMake
  | cons name rest ih =>
      intro t here fault hMake
      rw [makeAlong] at hMake
      split at hMake
      · exact ih t here fault hMake
      split at hMake
      · exact ih t here.dropLast fault hMake
      split at hMake
      · exact ih t _ fault hMake
      · cases hMake
        exact refl _
      next hNone => exact (of_put_directory (by simp) hNone).trans (ih _ _ fault hMake)

theorem makeDirectories (t : FileTree) (directory : List String) (path : String) :
    Confined source target t (t.makeDirectories directory path).2 := by
  unfold FileTree.makeDirectories
  split
  · exact refl t
  · split
    next t' hMake =>
      intro place
      rcases get?_makeAlong _ t _ t' hMake place with hSame | ⟨hNone, hMade, -⟩
      · exact .inl hSame
      · exact .inr (.inl ⟨hNone, hMade⟩)
    next fault t' hMake => exact of_makeAlong_error _ t _ fault hMake

/-- A file is copied from where its path leads to where the other path leads. -/
theorem of_copy {directory : List String} {origin path : String}
    (hOrigin : source <+: placeOf directory origin) (hTarget : target <+: placeOf directory path)
    (hCopy : t.copy directory origin path = .ok t') : Confined source target t t' := by
  obtain ⟨old, text, hFound, place, hTakes, rfl⟩ := takes_of_copy hCopy
  rw [placeOf_of_found hFound] at hOrigin
  rw [hTakes.placeOf_eq] at hTarget
  intro other
  rw [get?_put (ne_nil_of_get? hTakes.get?_ne)]
  split
  next hSame =>
    exact .inr (.inr ⟨hSame ▸ hTarget, old, text, hOrigin, get?_of_lookup hFound, rfl⟩)
  next => exact .inl rfl

end Confined
end FileTree

namespace Files

/-- Whether it succeeds or not, the work changes a tree below the output directory only, with texts
that stood below the input directory. -/
def Confines {α : Type} (input output : String) (x : Files α) : Prop :=
  ∀ w, (x.runOn w).2.directory = w.directory ∧
    FileTree.Confined (FileTree.placeOf w.directory input) (FileTree.placeOf w.directory output)
      w.files (x.runOn w).2.files

namespace Confines

variable {α β : Type} {input output : String}

theorem of_quiet {x : Files α} (hQuiet : x.Quiet) : x.Confines input output := by
  intro w
  obtain ⟨hFiles, hDirectory⟩ := hQuiet w
  rw [hFiles]
  exact ⟨hDirectory, .refl _⟩

theorem bind {x : Files α} {f : α → Files β} (hFirst : x.Confines input output)
    (hNext : ∀ a, (f a).Confines input output) : (x >>= f).Confines input output := by
  intro w
  obtain ⟨hDirectory, hFiles⟩ := hFirst w
  rw [runOn_bind]
  rcases hRun : x.runOn w with ⟨result, w1⟩
  rw [hRun] at hDirectory hFiles
  cases result with
  | error failure => exact ⟨hDirectory, hFiles⟩
  | ok a =>
      obtain ⟨hDirectory', hFiles'⟩ := hNext a w1
      rw [hDirectory] at hDirectory' hFiles'
      exact ⟨hDirectory', hFiles.trans hFiles'⟩

theorem attempt (operation : FileOperation) {work : Files α} (hWork : work.Confines input output) :
    (Files.attempt operation work).Confines input output :=
  forall_runOn_attempt
    (P := fun w left => left.2.directory = w.directory ∧
      FileTree.Confined (FileTree.placeOf w.directory input) (FileTree.placeOf w.directory output)
        w.files left.2.files)
    operation (fun _ _ => ⟨rfl, .refl _⟩) hWork

theorem makeDirectories (path : String) :
    (FileSystem.makeDirectories path : Files Unit).Confines input output := by
  refine attempt _ fun w => ?_
  rw [runOn_makeDirectories_eq]
  exact ⟨rfl, .makeDirectories w.files w.directory path⟩

theorem copy {origin target : String}
    (hOrigin : ∀ here, FileTree.placeOf here input <+: FileTree.placeOf here origin)
    (hTarget : ∀ here, FileTree.placeOf here output <+: FileTree.placeOf here target) :
    (FileSystem.copy origin target : Files Unit).Confines input output := by
  refine attempt _ fun w => ?_
  rw [runOn_change_eq]
  cases hCopy : w.files.copy w.directory origin target with
  | error fault => exact ⟨rfl, .refl _⟩
  | ok t => exact ⟨rfl, .of_copy (hOrigin w.directory) (hTarget w.directory) hCopy⟩

end Confines
end Files

namespace Asset

/-- The path leads to a place below any directory that it is put behind. -/
structure Inside (reference : String) : Prop where
  ne_empty : reference ≠ ""
  relative : Location.isAbsolute reference = false
  back : ".." ∉ Location.parts reference

theorem Inside.prefix_placeOf_join {reference : String} (hInside : Inside reference)
    (directory : String) (here : List String) :
    FileTree.placeOf here directory <+:
      FileTree.placeOf here (Location.join [directory, reference]) :=
  FileTree.prefix_placeOf_join hInside.ne_empty hInside.relative hInside.back here directory

/-- Assets are relative and have no step up. -/
theorem inside_of_mem_assets {g : TaskGraph} {path : String} (hPath : path ∈ g.assets) :
    Inside path := by
  obtain ⟨reference, -, hContributes, rfl⟩ := mem_assets_iff.mp hPath
  have hRelative := hContributes.relative
  refine ⟨Location.normalize_ne_empty hRelative, ?_, fun hMem => ?_⟩
  · rw [Location.isAbsolute_normalize, hRelative]
  · have hLeft : ".." ∈ Location.normalParts reference := by
      rw [← Location.filter_leads_parts_normalize]
      exact List.mem_filter.mpr ⟨hMem, by decide⟩
    exact back_notMem_of_dots hContributes.dots hLeft

theorem copyOne_confines {request : CopyRequest} {reference : String} (hInside : Inside reference) :
    (copyOne request reference : Files (Option String)).Confines request.input request.output := by
  have hNoted (event : Event) : (note request.scopes event >>= fun _ => pure none :
      Files (Option String)).Confines request.input request.output :=
    .bind (.of_quiet (.note _ _)) fun _ => .of_quiet (.pure none)
  unfold copyOne
  split
  · exact hNoted _
  refine .bind (.of_quiet fun _ => ⟨rfl, rfl⟩) fun found => ?_
  split
  · refine .bind (.makeDirectories _) fun _ => .bind ?_ fun _ => ?_
    · exact .copy (hInside.prefix_placeOf_join request.input)
        (hInside.prefix_placeOf_join request.output)
    · exact .bind (.of_quiet (.note _ _)) fun _ => .of_quiet (.pure _)
  · exact hNoted _

theorem copyAll_confines {request : CopyRequest} (references : List String)
    (hInside : ∀ reference ∈ references, Inside reference) :
    (copyAll request references : Files (List String)).Confines request.input request.output := by
  induction references with
  | nil => exact .of_quiet (.pure [])
  | cons reference rest ih =>
      obtain ⟨hFirst, hRest⟩ := List.forall_mem_cons.mp hInside
      refine .bind (copyOne_confines hFirst) fun target => .bind (ih hRest) fun targets => ?_
      exact .of_quiet (.pure _)

/-- An asset is relative and has no step up, so it lies below the input directory and is copied to
below the output directory, wherever these are.  Copying the assets of a graph changes a file tree
accordingly, whether it succeeds or not. -/
theorem assets_stay_inside (g : TaskGraph) :
    (∀ path ∈ g.assets, Location.isAbsolute path = false ∧ ".." ∉ Location.parts path ∧
      ∀ (here : List String) (directory : String),
        FileTree.placeOf here directory <+:
          FileTree.placeOf here (Location.join [directory, path])) ∧
    ∀ (request : CopyRequest) (w : World),
      FileTree.Confined (FileTree.placeOf w.directory request.input)
        (FileTree.placeOf w.directory request.output) w.files
        ((copyAll request g.assets : Files (List String)).runOn w).2.files := by
  refine ⟨fun path hPath => ?_, fun request w => ?_⟩
  · have hInside := inside_of_mem_assets hPath
    exact ⟨hInside.relative, hInside.back, fun here directory =>
      hInside.prefix_placeOf_join directory here⟩
  · exact (copyAll_confines g.assets (fun _ hPath => inside_of_mem_assets hPath) w).2

/-- Files that lead above the directory at once and later, one from the root, an alias without a
file, and a name that begins with two dots. -/
def straying : TaskGraph where
  workflow := "w"
  tasks := [{ id := "a", source := "a", body := .action "shell" {
    files := ["../up.sh", "a/../../up.sh", "/etc/passwd", "#x", "lib/x/.././..b//c.sh"] } }]

theorem assets_straying : straying.assets = [".", "lib/..b/c.sh"] := by decide +kernel

theorem assets_stay_inside_straying :
    "lib/..b/c.sh" ∈ straying.assets ∧ Location.isAbsolute "lib/..b/c.sh" = false ∧
    ".." ∉ Location.parts "lib/..b/c.sh" ∧
    FileTree.placeOf ["home"] "../in" <+:
      FileTree.placeOf ["home"] (Location.join ["../in", "lib/..b/c.sh"]) := by
  have hPath : "lib/..b/c.sh" ∈ straying.assets := by
    rw [assets_straying]
    decide
  obtain ⟨hRelative, hBack, hPlaces⟩ := (assets_stay_inside straying).1 _ hPath
  exact ⟨hPath, hRelative, hBack, hPlaces ["home"] "../in"⟩

end Asset
end WorkflowDag
