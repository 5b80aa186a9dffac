import Mathlib.Data.List.Basic
import WorkflowDag.File.Tree

/-!
# Where paths lead as a file tree changes

A path leads to a file over directories.  It goes on leading to the same place as long as the
directories of the tree stay and a file stays at that place, whatever else is put into the tree or
taken away (`follow_of_found`).  Making directories fills places that were empty and changes nothing
else (`get?_makeAlong`); writing, moving and copying a file put one file in place
(`takes_of_match`).  Only writing brings a text into the tree that no file of it held before.
-/

namespace WorkflowDag
namespace FileTree

section Places

variable {t : FileTree} {place other : List String} {node : FileNode}

theorem get?_eq_find? (hPlace : place ≠ []) :
    t.get? place = (t.entries.find? fun entry => entry.1 == place).map Prod.snd := by
  unfold get?
  rw [if_neg (by simpa using hPlace)]

/-- Below the root, a place that has been put to something holds it, and the others are as
before. -/
theorem get?_put (hPlace : place ≠ []) :
    (t.put place node).get? other = if other = place then some node else t.get? other := by
  by_cases hRoot : other = []
  · rw [hRoot, if_neg hPlace.symm]
    rfl
  rw [get?_eq_find? hRoot, get?_eq_find? hRoot]
  unfold put erase
  by_cases hSame : other = place
  · simp [hSame]
  · rw [if_neg hSame, List.find?_cons, beq_eq_false_iff_ne.mpr (Ne.symm hSame)]
    simp only [List.find?_filter]
    congr 2
    funext entry
    by_cases hEntry : entry.1 = other
    · simp [hEntry, hSame]
    · simp [hEntry]

theorem get?_erase (hOther : other ≠ place) :
    (t.erase place).get? other = t.get? other := by
  by_cases hRoot : other = []
  · rw [hRoot]
    rfl
  rw [get?_eq_find? hRoot, get?_eq_find? hRoot]
  unfold erase
  simp only [List.find?_filter]
  congr 2
  funext entry
  by_cases hEntry : entry.1 = other
  · simp [hEntry, hOther]
  · simp [hEntry]

theorem get?_erase_self (hPlace : place ≠ []) : (t.erase place).get? place = none := by
  rw [get?_eq_find? hPlace]
  unfold erase
  simp

/-- The root is a directory, so what is none is not the root. -/
theorem ne_nil_of_get? (hNode : t.get? place ≠ some .directory) : place ≠ [] := by
  rintro rfl
  exact hNode rfl

end Places

section Texts

variable {t : FileTree} {place : List String} {text : String}

/-- Some file of the tree holds the text. -/
def Holds (t : FileTree) (text : String) : Prop :=
  ∃ place, t.get? place = some (.file text)

theorem holds_of_put {node : FileNode} (hPlace : place ≠ [])
    (hHolds : (t.put place node).Holds text) : node = .file text ∨ t.Holds text := by
  obtain ⟨other, hFile⟩ := hHolds
  rw [get?_put hPlace] at hFile
  split at hFile
  · exact Or.inl (Option.some.inj hFile)
  · exact Or.inr ⟨other, hFile⟩

theorem holds_of_erase (hPlace : place ≠ []) (hHolds : (t.erase place).Holds text) :
    t.Holds text := by
  obtain ⟨other, hFile⟩ := hHolds
  have hOther : other ≠ place := by
    rintro rfl
    rw [get?_erase_self hPlace] at hFile
    cases hFile
  rw [get?_erase hOther] at hFile
  exact ⟨other, hFile⟩

end Texts

section Following

variable {t t' : FileTree} {here place : List String} {text text' : String}

/-- A path leads to a file that stands where it leads. -/
theorem get?_of_found (names : List String) :
    ∀ here, t.follow here names = .found place (.file text) → t.get? place = some (.file text) := by
  induction names with
  | nil =>
      intro here hFollow
      cases hFollow
  | cons name rest ih =>
      intro here hFollow
      rw [follow] at hFollow
      split at hFollow
      · exact ih here hFollow
      split at hFollow
      · exact ih here.dropLast hFollow
      split at hFollow
      · exact ih _ hFollow
      next other hFile =>
        split at hFollow
        · cases hFollow
          exact hFile
        · cases hFollow
      · split at hFollow <;> cases hFollow

theorem get?_of_vacant (names : List String) :
    ∀ here, t.follow here names = .vacant place → t.get? place = none := by
  induction names with
  | nil =>
      intro here hFollow
      cases hFollow
  | cons name rest ih =>
      intro here hFollow
      rw [follow] at hFollow
      split at hFollow
      · exact ih here hFollow
      split at hFollow
      · exact ih here.dropLast hFollow
      split at hFollow
      · exact ih _ hFollow
      · split at hFollow <;> cases hFollow
      next hNone =>
        split at hFollow
        · cases hFollow
          exact hNone
        · cases hFollow

/-- Directories that stay, and a file that stays at the place, keep the path. -/
theorem follow_of_found
    (hDirectories : ∀ p, t.get? p = some .directory → t'.get? p = some .directory)
    (hFile : t'.get? place = some (.file text')) (names : List String) :
    ∀ here, t.follow here names = .found place (.file text) →
      t'.follow here names = .found place (.file text') := by
  induction names with
  | nil =>
      intro here hFollow
      cases hFollow
  | cons name rest ih =>
      intro here hFollow
      rw [follow] at hFollow ⊢
      by_cases hStay : name = "" ∨ name = "."
      · rw [if_pos hStay] at hFollow ⊢
        exact ih here hFollow
      rw [if_neg hStay] at hFollow ⊢
      by_cases hBack : name = ".."
      · rw [if_pos hBack] at hFollow ⊢
        exact ih here.dropLast hFollow
      rw [if_neg hBack] at hFollow ⊢
      split at hFollow
      next hDirectory =>
        rw [hDirectories _ hDirectory]
        exact ih _ hFollow
      next other _ =>
        -- A file ends the path, so this is the place.
        split at hFollow
        next hLast =>
          cases hFollow
          rw [hFile]
          simp only [if_pos hLast]
        next => cases hFollow
      · split at hFollow <;> cases hFollow

/-- A path to an empty place leads to the file that is put there, unless more than its name is
asked for. -/
theorem follow_of_vacant
    (hDirectories : ∀ p, t.get? p = some .directory → t'.get? p = some .directory)
    (hFile : t'.get? place = some (.file text')) (names : List String) :
    ∀ here, t.follow here names = .vacant place →
      t'.follow here names =
        if names.getLast? = some "" then .failed .notDirectory else .found place (.file text') := by
  induction names with
  | nil =>
      intro here hFollow
      cases hFollow
  | cons name rest ih =>
      intro here hFollow
      have hLater : ∀ here', t.follow here' rest = .vacant place →
          (name :: rest).getLast? = rest.getLast? := by
        intro here' hRest
        cases rest with
        | nil => cases hRest
        | cons next rest => exact List.getLast?_cons_cons
      rw [follow] at hFollow ⊢
      by_cases hStay : name = "" ∨ name = "."
      · rw [if_pos hStay] at hFollow ⊢
        rw [hLater _ hFollow]
        exact ih here hFollow
      rw [if_neg hStay] at hFollow ⊢
      by_cases hBack : name = ".."
      · rw [if_pos hBack] at hFollow ⊢
        rw [hLater _ hFollow]
        exact ih here.dropLast hFollow
      rw [if_neg hBack] at hFollow ⊢
      split at hFollow
      next hDirectory =>
        rw [hDirectories _ hDirectory, hLater _ hFollow]
        exact ih _ hFollow
      next => split at hFollow <;> cases hFollow
      next =>
        split at hFollow
        next hBlank =>
          cases hFollow
          rw [hFile]
          -- Only empty names may follow the one that is missing.
          cases hRest : rest.getLast? with
          | none =>
              obtain rfl := List.getLast?_eq_none_iff.mp hRest
              have hName : name ≠ "" := fun hEmpty => hStay (Or.inl hEmpty)
              simp [hName]
          | some last =>
              have hMem := List.mem_of_getLast? hRest
              have hEmpty : last = "" := of_decide_eq_true (List.all_eq_true.mp hBlank last hMem)
              have hLast : (name :: rest).getLast? = some "" := by
                cases rest with
                | nil => cases hRest
                | cons next rest => rw [List.getLast?_cons_cons, hRest, hEmpty]
              rw [if_pos hLast]
              cases rest with
              | nil => cases hRest
              | cons next rest => rfl
        next => cases hFollow

end Following

section Lookups

variable {t t' : FileTree} {directory place : List String} {path text text' : String}

theorem get?_of_lookup (hLookup : t.lookup directory path = .found place (.file text)) :
    t.get? place = some (.file text) := by
  unfold lookup at hLookup
  split at hLookup
  · cases hLookup
  · exact get?_of_found _ _ hLookup

theorem get?_of_lookup_vacant (hLookup : t.lookup directory path = .vacant place) :
    t.get? place = none := by
  unfold lookup at hLookup
  split at hLookup
  · cases hLookup
  · exact get?_of_vacant _ _ hLookup

theorem lookup_of_found
    (hDirectories : ∀ p, t.get? p = some .directory → t'.get? p = some .directory)
    (hFile : t'.get? place = some (.file text'))
    (hLookup : t.lookup directory path = .found place (.file text)) :
    t'.lookup directory path = .found place (.file text') := by
  unfold lookup at hLookup ⊢
  split at hLookup
  · cases hLookup
  next hPath =>
    rw [if_neg hPath]
    exact follow_of_found hDirectories hFile _ _ hLookup

theorem lookup_of_vacant
    (hDirectories : ∀ p, t.get? p = some .directory → t'.get? p = some .directory)
    (hFile : t'.get? place = some (.file text'))
    (hLookup : t.lookup directory path = .vacant place) :
    t'.lookup directory path =
      if (namesOf path).getLast? = some "" then .failed .notDirectory
      else .found place (.file text') := by
  unfold lookup at hLookup ⊢
  split at hLookup
  · cases hLookup
  next hPath =>
    rw [if_neg hPath]
    exact follow_of_vacant hDirectories hFile _ _ hLookup

/-- A file goes to the place that the path leads to, or to which its name is missing. -/
def Takes (t : FileTree) (directory : List String) (path : String) (place : List String) : Prop :=
  (∃ text, t.lookup directory path = .found place (.file text)) ∨
    t.lookup directory path = .vacant place

/-- A file that has come to where it goes is found by the path, which has to end in a name. -/
theorem Takes.lookup_eq (hTakes : t.Takes directory path place)
    (hDirectories : ∀ p, t.get? p = some .directory → t'.get? p = some .directory)
    (hFile : t'.get? place = some (.file text')) (hNames : (namesOf path).getLast? ≠ some "") :
    t'.lookup directory path = .found place (.file text') := by
  rcases hTakes with ⟨text, hFound⟩ | hVacant
  · exact lookup_of_found hDirectories hFile hFound
  · rw [lookup_of_vacant hDirectories hFile hVacant, if_neg hNames]

/-- No directory stands where a file goes. -/
theorem Takes.get?_ne (hTakes : t.Takes directory path place) : t.get? place ≠ some .directory := by
  rcases hTakes with ⟨text, hFound⟩ | hVacant
  · simp [get?_of_lookup hFound]
  · simp [get?_of_lookup_vacant hVacant]

/-- A file put where it goes disturbs no directory. -/
theorem Takes.directories_put (hTakes : t.Takes directory path place) :
    ∀ p, t.get? p = some .directory → (t.put place (.file text)).get? p = some .directory := by
  intro p hDirectory
  rw [get?_put (ne_nil_of_get? hTakes.get?_ne), if_neg]
  · exact hDirectory
  · rintro rfl
    exact hTakes.get?_ne hDirectory

/-- The path then leads to the file, if it leads to one. -/
theorem Takes.text_of_put {old : List String} (hTakes : t.Takes directory path place)
    (hLookup : (t.put place (.file text)).lookup directory path = .found old (.file text')) :
    text' = text := by
  have hFile : (t.put place (.file text)).get? place = some (.file text) :=
    (get?_put (ne_nil_of_get? hTakes.get?_ne)).trans (if_pos rfl)
  have hDirectories : ∀ p, t.get? p = some .directory →
      (t.put place (.file text)).get? p = some .directory := hTakes.directories_put
  rcases hTakes with ⟨before, hFound⟩ | hVacant
  · rw [lookup_of_found hDirectories hFile hFound] at hLookup
    cases hLookup
    rfl
  · rw [lookup_of_vacant hDirectories hFile hVacant] at hLookup
    split at hLookup
    · cases hLookup
    · cases hLookup
      rfl

/-- A file that stands in a tree stands there after another has been put where it goes, with its own
text or, at the same place, that of the other. -/
theorem Takes.lookup_put {other : String} {place' : List String}
    (hTakes : t.Takes directory other place')
    (hLookup : t.lookup directory path = .found place (.file text)) :
    (t.put place' (.file text')).lookup directory path =
      .found place (.file (if place = place' then text' else text)) := by
  refine lookup_of_found hTakes.directories_put ?_ hLookup
  rw [get?_put (ne_nil_of_get? hTakes.get?_ne)]
  split
  · rfl
  · exact get?_of_lookup hLookup

/-- The place that names lead to from a directory, whatever stands there. -/
def reach : List String → List String → List String
  | here, [] => here
  | here, name :: rest =>
    if name = "" ∨ name = "." then reach here rest
    else if name = ".." then reach here.dropLast rest
    else reach (here ++ [name]) rest

/-- Making directories changes nothing but empty places on the way, which become directories. -/
theorem get?_makeAlong (names : List String) :
    ∀ (t : FileTree) (here : List String) (t' : FileTree), t.makeAlong here names = .ok t' →
      ∀ p, t'.get? p = t.get? p ∨ t.get? p = none ∧ t'.get? p = some .directory ∧
        ∃ front, front <+: names ∧ p = reach here front := by
  induction names with
  | nil =>
      intro t here t' hMake p
      cases hMake
      exact Or.inl rfl
  | cons name rest ih =>
      intro t here t' hMake p
      -- What holds of the rest holds of the whole, one name further on.
      have hFurther : ∀ (t1 : FileTree) (next : List String),
          (∀ front, reach here (name :: front) = reach next front) →
          t1.makeAlong next rest = .ok t' → t'.get? p = t1.get? p ∨
            t1.get? p = none ∧ t'.get? p = some .directory ∧
              ∃ front, front <+: name :: rest ∧ p = reach here front := by
        intro t1 next hReach hRest
        rcases ih t1 next t' hRest p with hSame | ⟨hNone, hMade, front, hFront, hPlace⟩
        · exact Or.inl hSame
        · refine Or.inr ⟨hNone, hMade, name :: front, ?_, hPlace.trans (hReach front).symm⟩
          exact (List.prefix_cons_inj name).mpr hFront
      rw [makeAlong] at hMake
      by_cases hStay : name = "" ∨ name = "."
      · rw [if_pos hStay] at hMake
        exact hFurther t here (fun front => by rw [reach, if_pos hStay]) hMake
      rw [if_neg hStay] at hMake
      by_cases hBack : name = ".."
      · rw [if_pos hBack] at hMake
        exact hFurther t here.dropLast
          (fun front => by rw [reach, if_neg hStay, if_pos hBack]) hMake
      rw [if_neg hBack] at hMake
      have hNext : ∀ front, reach here (name :: front) = reach (here ++ [name]) front :=
        fun front => by rw [reach, if_neg hStay, if_neg hBack]
      split at hMake
      · exact hFurther t (here ++ [name]) hNext hMake
      · cases hMake
      next hNone =>
        have hRest := hFurther _ (here ++ [name]) hNext hMake
        rw [get?_put (by simp)] at hRest
        by_cases hPlace : p = here ++ [name]
        · rw [if_pos hPlace] at hRest
          refine Or.inr ⟨hPlace ▸ hNone, hRest.resolve_right (fun hAbsent => ?_), [name], ?_, ?_⟩
          · cases hAbsent.1
          · exact (List.prefix_cons_inj name).mpr List.nil_prefix
          · rw [hNext, reach, hPlace]
        · rw [if_neg hPlace] at hRest
          exact hRest

/-- What stands in a tree still stands there when directories have been made. -/
theorem get?_of_makeAlong (names : List String) (t : FileTree) (here : List String) (t' : FileTree)
    (hMake : t.makeAlong here names = .ok t') :
    ∀ p node, t.get? p = some node → t'.get? p = some node := by
  intro p node hNode
  rcases get?_makeAlong names t here t' hMake p with hSame | ⟨hNone, -⟩
  · exact hSame.trans hNode
  · rw [hNone] at hNode
    cases hNode

theorem holds_of_makeAlong (names : List String) (t : FileTree) (here : List String) (t' : FileTree)
    (hMake : t.makeAlong here names = .ok t') (hHolds : t'.Holds text) : t.Holds text := by
  obtain ⟨place, hFile⟩ := hHolds
  rcases get?_makeAlong names t here t' hMake place with hSame | ⟨-, hMade, -⟩
  · exact ⟨place, hSame.symm.trans hFile⟩
  · rw [hMade] at hFile
    cases hFile

theorem makeAlong_of_makeDirectories
    (hMake : t.makeDirectories directory path = (.ok (), t')) :
    t.makeAlong (startOf directory path) (namesOf path) = .ok t' := by
  unfold makeDirectories at hMake
  split at hMake
  · cases hMake
  · split at hMake
    next hAlong =>
      cases hMake
      exact hAlong
    next => cases hMake

/-- What stands in a tree that grows is found there by the same paths. -/
theorem follow_of_grown {node : FileNode}
    (hGrown : ∀ p node, t.get? p = some node → t'.get? p = some node) (names : List String) :
    ∀ here, t.follow here names = .found place node → t'.follow here names = .found place node := by
  induction names with
  | nil => exact fun here hFollow => hFollow
  | cons name rest ih =>
      intro here hFollow
      rw [follow] at hFollow ⊢
      by_cases hStay : name = "" ∨ name = "."
      · rw [if_pos hStay] at hFollow ⊢
        exact ih here hFollow
      rw [if_neg hStay] at hFollow ⊢
      by_cases hBack : name = ".."
      · rw [if_pos hBack] at hFollow ⊢
        exact ih here.dropLast hFollow
      rw [if_neg hBack] at hFollow ⊢
      split at hFollow
      next hDirectory =>
        rw [hGrown _ _ hDirectory]
        exact ih _ hFollow
      next text hFile =>
        rw [hGrown _ _ hFile]
        exact hFollow
      · split at hFollow <;> cases hFollow

/-- What a path led to it leads to when directories have been made. -/
theorem lookup_of_makeDirectories {other : String} {node : FileNode}
    (hMake : t.makeDirectories directory other = (.ok (), t'))
    (hLookup : t.lookup directory path = .found place node) :
    t'.lookup directory path = .found place node := by
  have hGrown := get?_of_makeAlong _ _ _ _ (makeAlong_of_makeDirectories hMake)
  unfold lookup at hLookup ⊢
  split at hLookup
  · cases hLookup
  next hPath =>
    rw [if_neg hPath]
    exact follow_of_grown hGrown _ _ hLookup

/-- What writing, moving and copying have in common. -/
theorem takes_of_match {onDirectory : FileFault} {onFault : FileFaultKind → FileFault}
    {placed : List String → FileTree}
    (hMatch : (match t.lookup directory path with
      | .found _ .directory => .error onDirectory
      | .found place _ => .ok (placed place)
      | .vacant place => .ok (placed place)
      | .failed fault => .error (onFault fault)) = Except.ok t') :
    ∃ place, t.Takes directory path place ∧ t' = placed place := by
  split at hMatch
  · cases hMatch
  next place node hNode hFound =>
    cases hMatch
    cases node with
    | directory => exact absurd rfl hNode
    | file text => exact ⟨place, Or.inl ⟨text, hFound⟩, rfl⟩
  next place hVacant =>
    cases hMatch
    exact ⟨place, Or.inr hVacant, rfl⟩
  · cases hMatch

theorem takes_of_write (hWrite : t.write directory path text = .ok t') :
    ∃ place, t.Takes directory path place ∧ t' = t.put place (.file (kept text)) :=
  takes_of_match hWrite

theorem takes_of_rename {origin target : String}
    (hRename : t.rename directory origin target = .ok t') :
    ∃ old text, t.lookup directory origin = .found old (.file text) ∧
      ∃ place, t.Takes directory target place ∧ t' = (t.erase old).put place (.file text) := by
  unfold rename at hRename
  split at hRename
  next old text hOrigin => exact ⟨old, text, hOrigin, takes_of_match hRename⟩
  · cases hRename
  · cases hRename
  · cases hRename

theorem takes_of_copy {origin target : String} (hCopy : t.copy directory origin target = .ok t') :
    ∃ old text, t.lookup directory origin = .found old (.file text) ∧
      ∃ place, t.Takes directory target place ∧ t' = t.put place (.file text) := by
  unfold copy at hCopy
  split at hCopy
  next old text hOrigin => exact ⟨old, text, hOrigin, takes_of_match hCopy⟩
  · cases hCopy
  · cases hCopy
  · cases hCopy

/-- A file that is written under a temporary name and moved from there holds what was written, and
no other text is new. -/
theorem lookup_of_write_rename {temporary : String} {t1 t2 : FileTree}
    (hWrite : t.write directory temporary text = .ok t1)
    (hRename : t1.rename directory temporary path = .ok t2)
    (hNames : (namesOf path).getLast? ≠ some "") :
    (∃ place, t2.lookup directory path = .found place (.file (kept text))) ∧
      ∀ other, t2.Holds other → other = kept text ∨ t.Holds other := by
  obtain ⟨place1, hTakes1, rfl⟩ := takes_of_write hWrite
  obtain ⟨old, moved, hOrigin, place, hTakes, rfl⟩ := takes_of_rename hRename
  have hRoot := ne_nil_of_get? hTakes.get?_ne
  -- The temporary path leads to the file just written, so that is what is moved.
  have hMoved : moved = kept text := hTakes1.text_of_put hOrigin
  subst hMoved
  have hOldFile := get?_of_lookup hOrigin
  refine ⟨⟨place, hTakes.lookup_eq ?_ ((get?_put hRoot).trans (if_pos rfl)) hNames⟩, ?_⟩
  · intro p hDirectory
    have hPlace : p ≠ place := by
      rintro rfl
      exact hTakes.get?_ne hDirectory
    have hOld : p ≠ old := by
      rintro rfl
      rw [hOldFile] at hDirectory
      cases hDirectory
    rw [get?_put hRoot, if_neg hPlace, get?_erase hOld]
    exact hDirectory
  · intro other hHolds
    have hOldRoot : old ≠ [] := by
      rintro rfl
      cases hOldFile
    rcases holds_of_put hRoot hHolds with hSame | hErased
    · exact Or.inl (FileNode.file.inj hSame).symm
    refine (holds_of_put (ne_nil_of_get? hTakes1.get?_ne)
      (holds_of_erase hOldRoot hErased)).imp_left ?_
    intro hSame
    exact (FileNode.file.inj hSame).symm

end Lookups

end FileTree
end WorkflowDag
