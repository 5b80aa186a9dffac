import WorkflowDag.Asset.Reference
import WorkflowDag.Proofs.Arrivals
import WorkflowDag.Proofs.PathNormalForm
import WorkflowDag.Proofs.Records
import WorkflowDag.Proofs.TemplateSegments

/-!
# The assets of a graph

The assets of a graph are the normalised forms of the references that contribute, in ascending order
and without repetition (`assets_exact`).  Which ones contribute is asked of the normalised form,
where neighbouring slashes are one and a part that is taken back is gone.  `Contributes` says what
this means for the reference as it was written.

A reference that no such rewriting touches contributes exactly when it is local: not empty,
relative, without a scheme and placeholders, and not leading above its directory
(`contributes_iff_isLocal`).
-/

namespace WorkflowDag

namespace Asset

/-! ### References -/

/-- What an action names: its files and archives, and the scripts and jars in its payload. -/
inductive Names : Task → String → Prop
  | file {t : Task} {template text : String} {params : ActionDetails}
      (hBody : t.body = .action template params) (hText : text ∈ params.files) : Names t text
  | archive {t : Task} {template text : String} {params : ActionDetails}
      (hBody : t.body = .action template params) (hText : text ∈ params.archives) : Names t text
  | element {t : Task} {template : String} {params : ActionDetails} {e : Element}
      (hBody : t.body = .action template params) (hElement : e ∈ params.payload)
      (hTag : e.tag = "script" ∨ e.tag = "jar") : Names t e.text

theorem mem_candidates_iff {t : Task} {text : String} : text ∈ candidates t ↔ Names t text := by
  constructor
  · intro hMem
    unfold candidates at hMem
    split at hMem
    next => cases hMem
    next template params hBody =>
      rw [List.mem_append, List.mem_append, List.mem_map] at hMem
      rcases hMem with (hFile | hArchive) | ⟨e, hElement, rfl⟩
      · exact .file hBody hFile
      · exact .archive hBody hArchive
      · obtain ⟨hPayload, hTag⟩ := List.mem_filter.mp hElement
        rw [isFileElement, Bool.or_eq_true, beq_iff_eq, beq_iff_eq] at hTag
        exact .element hBody hPayload hTag
  · intro hNames
    cases hNames with
    | file hBody hText =>
        rw [candidates, hBody]
        exact List.mem_append_left _ (List.mem_append_left _ hText)
    | archive hBody hText =>
        rw [candidates, hBody]
        exact List.mem_append_left _ (List.mem_append_right _ hText)
    | element hBody hElement hTag =>
        rw [candidates, hBody]
        refine List.mem_append_right _ (List.mem_map_of_mem (List.mem_filter.mpr ⟨hElement, ?_⟩))
        rw [isFileElement, Bool.or_eq_true, beq_iff_eq, beq_iff_eq]
        exact hTag

/-- The reference that a text is: the text trimmed and without the alias. -/
def referenceOf (text : String) : String :=
  withoutAlias (Text.trim text)

theorem pathOf_eq (text : String) : pathOf text = Location.normalize (referenceOf text) := rfl

/-- What a reference has to be like to contribute an asset: it is relative and does not lead above
its directory, and the parts that normalising leaves hold no placeholder and do not begin with two
dots. -/
structure Contributes (reference : String) : Prop where
  relative : Location.isAbsolute reference = false
  below : Location.StaysBelow 0 (Location.parts reference)
  dollars : ∀ part ∈ Location.normalParts reference, ¬['$', '\x7b'] <:+: part.toList
  braces : ∀ part ∈ Location.normalParts reference, ¬['\x7b', '\x7b'] <:+: part.toList
  dots : ∀ first ∈ (Location.normalParts reference).head?, ¬['.', '.'] <+: first.toList

/-- The reference names a local file, as it is written. -/
structure IsLocalReference (reference : String) : Prop where
  ne_empty : reference ≠ ""
  relative : Location.isAbsolute reference = false
  scheme : ¬"://".toList <:+: reference.toList
  dollars : ¬['$', '\x7b'] <:+: reference.toList
  braces : ¬['\x7b', '\x7b'] <:+: reference.toList
  below : Location.StaysBelow 0 (Location.parts reference)

/-- Normalising changes nothing that is asked for: the reference is not empty and has no scheme, no
name in it begins with two dots, and no placeholder stands beside a step up. -/
structure Regular (reference : String) : Prop where
  ne_empty : reference ≠ ""
  scheme : ¬"://".toList <:+: reference.toList
  dots : ∀ part ∈ Location.parts reference, ['.', '.'] <+: part.toList → part = ".."
  back : ".." ∈ Location.parts reference →
    ¬['$', '\x7b'] <:+: reference.toList ∧ ¬['\x7b', '\x7b'] <:+: reference.toList

/-! ### What contributes -/

theorem isLocal_iff {path : String} :
    isLocal path = true ↔ path ≠ "" ∧ ¬"://".toList <:+: path.toList ∧
      ¬['$', '\x7b'] <:+: path.toList ∧ ¬['\x7b', '\x7b'] <:+: path.toList ∧
      Location.isAbsolute path = false ∧ ¬['.', '.'] <+: path.toList := by
  rw [← Text.contains_iff, ← Text.contains_iff, ← Text.contains_iff, ← Text.isSome_after?_iff]
  simp [isLocal, Text.startsWith, and_assoc]

section

variable {reference : String}

/-- A step up that is left stands first. -/
theorem back_notMem_of_dots
    (hDots : ∀ first ∈ (Location.normalParts reference).head?, ¬['.', '.'] <+: first.toList) :
    ".." ∉ Location.normalParts reference := by
  obtain ⟨ups, names, hParts, hNames, -⟩ :=
    Location.cleanParts_normal (Location.isAbsolute reference) (Location.parts reference)
  rw [Location.normalParts, hParts] at hDots ⊢
  cases ups with
  | zero => exact fun hMem => (hNames _ hMem).2 rfl
  | succ ups => exact absurd (List.prefix_refl _) (hDots ".." rfl)

/-- The normalised form is asked for what the reference has to be like. -/
theorem isLocal_normalize_iff :
    isLocal (Location.normalize reference) = true ↔ Contributes reference := by
  have hDollar := @Location.infix_normalize_iff reference ['$', '\x7b'] (by decide) (by decide)
  have hBrace := @Location.infix_normalize_iff reference ['\x7b', '\x7b'] (by decide) (by decide)
  rw [isLocal_iff, Location.isAbsolute_normalize, hDollar, hBrace]
  constructor
  · rintro ⟨-, -, hDollars, hBraces, hRelative, hDots⟩
    obtain ⟨rest, hParts⟩ := Location.exists_parts_normalize hRelative
    rw [Location.prefix_iff_parts (by decide) hParts] at hDots
    have hFirst : ∀ first ∈ (Location.normalParts reference).head?,
        ¬['.', '.'] <+: first.toList := by
      intro first hMem
      rwa [Option.mem_def.mp hMem] at hDots
    have hBack := back_notMem_of_dots hFirst
    rw [Location.normalParts, hRelative] at hBack
    exact ⟨hRelative, Location.back_notMem_cleanParts_iff.mp hBack,
      fun part hMem hInfix => hDollars ⟨part, hMem, hInfix⟩,
      fun part hMem hInfix => hBraces ⟨part, hMem, hInfix⟩, hFirst⟩
  · rintro ⟨hRelative, -, hDollars, hBraces, hDots⟩
    refine ⟨Location.normalize_ne_empty hRelative, ?_, ?_, ?_, hRelative, ?_⟩
    · have hSlashes : ['/', '/'] <:+: "://".toList := ⟨[':'], [], by decide⟩
      exact fun hInfix =>
        Location.slashes_not_infix_normalize hRelative (hSlashes.trans hInfix)
    · rintro ⟨part, hMem, hInfix⟩
      exact hDollars part hMem hInfix
    · rintro ⟨part, hMem, hInfix⟩
      exact hBraces part hMem hInfix
    · obtain ⟨rest, hParts⟩ := Location.exists_parts_normalize hRelative
      rw [Location.prefix_iff_parts (by decide) hParts]
      cases hHead : (Location.normalParts reference).head? with
      | none => decide
      | some first => exact hDots first hHead

/-- For references that normalising leaves as they are, the assets are the local ones. -/
theorem contributes_iff_isLocal (hRegular : Regular reference) :
    Contributes reference ↔ IsLocalReference reference := by
  constructor
  · rintro ⟨hRelative, hBelow, hDollars, hBraces, -⟩
    -- A placeholder stands in a part that is left, or beside a step up.
    have hMarks {mark : List Char} (hSlash : '/' ∉ mark) (hLong : 1 < mark.length)
        (hParts : ∀ part ∈ Location.normalParts reference, ¬mark <:+: part.toList)
        (hBack : ".." ∈ Location.parts reference → ¬mark <:+: reference.toList) :
        ¬mark <:+: reference.toList := by
      by_cases hUp : ".." ∈ Location.parts reference
      · exact hBack hUp
      rw [Location.infix_iff_parts hSlash (List.ne_nil_of_length_pos (Nat.zero_lt_of_lt hLong))]
      rintro ⟨part, hPart, hInfix⟩
      refine hParts part ?_ hInfix
      rw [Location.normalParts, Location.cleanParts_of_back_notMem hUp]
      exact List.mem_filter.mpr ⟨hPart, Location.leads_of_infix hLong hInfix⟩
    exact ⟨hRegular.ne_empty, hRelative, hRegular.scheme,
      hMarks (by decide) (by decide) hDollars fun hUp => (hRegular.back hUp).1,
      hMarks (by decide) (by decide) hBraces fun hUp => (hRegular.back hUp).2, hBelow⟩
  · rintro ⟨-, hRelative, -, hDollars, hBraces, hBelow⟩
    have hParts {part : String} (hMem : part ∈ Location.normalParts reference) :
        part ∈ Location.parts reference := Location.mem_of_mem_cleanParts hMem
    refine ⟨hRelative, hBelow, ?_, ?_, ?_⟩
    · intro part hMem hInfix
      exact hDollars
        ((Location.infix_iff_parts (by decide) (by decide)).mpr ⟨part, hParts hMem, hInfix⟩)
    · intro part hMem hInfix
      exact hBraces
        ((Location.infix_iff_parts (by decide) (by decide)).mpr ⟨part, hParts hMem, hInfix⟩)
    · intro first hHead hPrefix
      have hMem := List.mem_of_head? hHead
      obtain rfl := hRegular.dots first (hParts hMem) hPrefix
      rw [Location.normalParts, hRelative] at hMem
      exact Location.back_notMem_cleanParts_iff.mpr hBelow hMem

end

end Asset

/-- The graph refers to a file: an action names it. -/
def TaskGraph.RefersTo (g : TaskGraph) (reference : String) : Prop :=
  ∃ t ∈ g.tasks, ∃ text, Asset.Names t text ∧ Asset.referenceOf text = reference

namespace Asset

theorem refersTo_iff {g : TaskGraph} {reference : String} :
    g.RefersTo reference ↔ reference ∈ (g.tasks.flatMap candidates).map referenceOf := by
  simp only [TaskGraph.RefersTo, List.mem_map, List.mem_flatMap, mem_candidates_iff]
  constructor
  · rintro ⟨t, hTask, text, hNames, rfl⟩
    exact ⟨text, ⟨t, hTask, hNames⟩, rfl⟩
  · rintro ⟨text, ⟨t, hTask, hNames⟩, rfl⟩
    exact ⟨t, hTask, text, hNames, rfl⟩

theorem mem_assets_iff {g : TaskGraph} {path : String} :
    path ∈ g.assets ↔
      ∃ reference, g.RefersTo reference ∧ Contributes reference ∧
        Location.normalize reference = path := by
  rw [TaskGraph.assets, Text.mem_sorted_iff, List.mem_eraseDups, List.mem_filter, List.mem_map]
  simp only [refersTo_iff, List.mem_map, pathOf_eq]
  constructor
  · rintro ⟨⟨text, hText, rfl⟩, hLocal⟩
    exact ⟨referenceOf text, ⟨text, hText, rfl⟩, isLocal_normalize_iff.mp hLocal, rfl⟩
  · rintro ⟨-, ⟨text, hText, rfl⟩, hContributes, rfl⟩
    exact ⟨⟨text, hText, rfl⟩, isLocal_normalize_iff.mpr hContributes⟩

/-- The assets are the normalised forms of the references that contribute, in ascending order and
each once.  Where normalising changes nothing that is asked for, these are the local references. -/
theorem assets_exact (g : TaskGraph) :
    g.assets.Pairwise (fun a b => Text.units a < Text.units b) ∧
    (∀ path, path ∈ g.assets ↔
      ∃ reference, g.RefersTo reference ∧ Contributes reference ∧
        Location.normalize reference = path) ∧
    ((∀ reference, g.RefersTo reference → Regular reference) → ∀ path, path ∈ g.assets ↔
      ∃ reference, g.RefersTo reference ∧ IsLocalReference reference ∧
        Location.normalize reference = path) := by
  refine ⟨Text.pairwise_sorted (nodup_eraseDups _), fun path => mem_assets_iff, ?_⟩
  intro hRegular path
  rw [mem_assets_iff]
  refine exists_congr fun reference => and_congr_right fun hRefers => and_congr_left fun _ => ?_
  exact contributes_iff_isLocal (hRegular reference hRefers)

/-- A file with an alias, one above the directory, an archive with a placeholder, and a script. -/
def mixedReferences : TaskGraph where
  workflow := "w"
  tasks := [{ id := "a", source := "a", body := .action "pig" {
    files := [" lib/../run.sh#r ", "../up.sh"]
    archives := ["$\x7broot\x7d/x.zip"]
    payload := [{ tag := "script", text := "lib//./job.pig" }] } }]

theorem regular_mixedReferences :
    ∀ reference, mixedReferences.RefersTo reference → Regular reference := by
  intro reference hRefers
  have hAll : (mixedReferences.tasks.flatMap candidates).map referenceOf =
      ["lib/../run.sh", "../up.sh", "$\x7broot\x7d/x.zip", "lib//./job.pig"] := by decide +kernel
  rw [refersTo_iff, hAll] at hRefers
  simp only [List.mem_cons, List.not_mem_nil, or_false] at hRefers
  rcases hRefers with rfl | rfl | rfl | rfl
  all_goals exact ⟨by decide +kernel, by decide +kernel, by decide +kernel, by decide +kernel⟩

theorem assets_exact_mixedReferences :
    (∀ reference, mixedReferences.RefersTo reference → Regular reference) ∧
    (∀ path, path ∈ mixedReferences.assets ↔
      ∃ reference, mixedReferences.RefersTo reference ∧ IsLocalReference reference ∧
        Location.normalize reference = path) ∧
    mixedReferences.assets = ["lib/job.pig", "run.sh"] :=
  ⟨regular_mixedReferences, (assets_exact mixedReferences).2.2 regular_mixedReferences,
    by decide +kernel⟩

def remoteReference : TaskGraph where
  workflow := "w"
  tasks := [{ id := "a", source := "a", body := .action "shell" {
    files := ["hdfs://host/lib/a.jar"] } }]

/-- A scheme is lost when the slashes behind it become one, so a remote file counts as an asset. -/
theorem remote_reference_contributes :
    remoteReference.RefersTo "hdfs://host/lib/a.jar" ∧ ¬IsLocalReference "hdfs://host/lib/a.jar" ∧
    remoteReference.assets = ["hdfs:/host/lib/a.jar"] := by
  refine ⟨refersTo_iff.mpr (by decide +kernel), fun hLocal => hLocal.scheme ?_, by decide +kernel⟩
  decide +kernel

end Asset
end WorkflowDag
