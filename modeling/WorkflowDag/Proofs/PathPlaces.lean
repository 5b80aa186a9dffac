import WorkflowDag.Proofs.CodePoints
import WorkflowDag.Proofs.FailedConversion
import WorkflowDag.Proofs.PathNormalForm

/-!
# Where normalised and joined paths lead

A path leads to the same place when it has been normalised (`placeOf_normalize`), since a step up
takes back the name before it in either case.  A relative path put behind a directory leads on from
there (`placeOf_join`), and without steps up it stays below (`prefix_placeOf_join`).

A file tree keeps names without halves that stand alone.  This makes no name special that was not.
-/

namespace WorkflowDag

namespace Text

/-- Units that begin with a dot are those of a dot. -/
theorem eq_dot_of_unitsOf {c : Char} {n : Nat} {rest : List Char}
    (hUnits : unitsOf c.toNat ++ rest = List.replicate n '.') :
    c = '.' ∧ ∃ m, n = m + 1 ∧ rest = List.replicate m '.' := by
  have hDot : unit '.' = 46 := by decide
  have hBound := toNat_valid c
  cases n with
  | zero =>
      unfold unitsOf at hUnits
      split at hUnits
      · cases hUnits
      · cases hUnits
  | succ n =>
      unfold unitsOf at hUnits
      split at hUnits
      next hPlane =>
        obtain ⟨hUnit, hRest⟩ := List.cons.inj hUnits
        have hNumber : c.toNat = '.'.toNat := by
          rw [← unit_ofUnit hPlane, hUnit]
          decide
        exact ⟨Char.toNat_inj.mp hNumber, n, rfl, hRest⟩
      next =>
        have hUnit := congrArg unit (List.cons.inj hUnits).1
        rw [unit_ofUnit (by omega), hDot] at hUnit
        omega

theorem joinAlone_eq_dot {c : Char} (hAlone : joinAlone c = '.') : c = '.' := by
  unfold joinAlone at hAlone
  split at hAlone
  · exact absurd hAlone (by decide)
  · exact hAlone

theorem pair_ne_dot {c d : Char} (hPair : (isHighHalf c && isLowHalf d) = true) :
    Char.ofNat (pairCode c d) ≠ '.' := by
  intro hDot
  have hNumber := congrArg Char.toNat hDot
  have hCode := pairCode_bounds hPair
  rw [toNat_ofNat (by unfold Nat.isValidChar; omega), show '.'.toNat = 46 from rfl] at hNumber
  omega

/-- Only dots are kept as dots. -/
theorem eq_replicate_of_kept (cs : List Char) :
    ∀ n, ((joinUnits cs).flatMap fun c => unitsOf c.toNat) = List.replicate n '.' →
      cs = List.replicate n '.' := by
  fun_induction joinUnits cs with
  | case1 => exact fun n hUnits => hUnits
  | case2 c =>
      intro n hUnits
      obtain ⟨hAlone, m, rfl, hRest⟩ := eq_dot_of_unitsOf hUnits
      rw [joinAlone_eq_dot hAlone, List.replicate_succ, ← hRest]
      rfl
  | case3 c d rest hPair ih =>
      intro n hUnits
      exact absurd (eq_dot_of_unitsOf hUnits).1 (pair_ne_dot hPair)
  | case4 c d rest hPair ih =>
      intro n hUnits
      obtain ⟨hAlone, m, rfl, hRest⟩ := eq_dot_of_unitsOf hUnits
      rw [joinAlone_eq_dot hAlone, ih m hRest, List.replicate_succ]

end Text

namespace Location

theorem isAbsolute_append {path back : String} (hPath : path ≠ "") :
    isAbsolute (path ++ back) = isAbsolute path := by
  obtain ⟨c, rest, hUnits⟩ : ∃ c rest, path.toList = c :: rest :=
    List.exists_cons_of_ne_nil (by simpa using hPath)
  rw [Bool.eq_iff_iff, isAbsolute_iff, isAbsolute_iff, String.toList_append, hUnits]
  simp

end Location

namespace FileTree

/-! ### Names as they are kept -/

theorem eq_of_kept_eq_dots {name : String} {n : Nat}
    (hKept : kept name = String.ofList (List.replicate n '.')) :
    name = String.ofList (List.replicate n '.') := by
  refine String.toList_injective ?_
  have hUnits := congrArg String.toList hKept
  rw [kept, Text.split, Text.join, String.toList_ofList, String.toList_ofList,
    String.toList_ofList] at hUnits
  rw [String.toList_ofList]
  exact Text.eq_replicate_of_kept _ n hUnits

/-- A name is kept as one of those that lead to no name of their own only when it is one. -/
theorem kept_eq_iff {name special : String} (hSpecial : special ∈ ["", ".", ".."]) :
    kept name = special ↔ name = special := by
  simp only [List.mem_cons, List.not_mem_nil, or_false] at hSpecial
  constructor
  · intro hKept
    rcases hSpecial with rfl | rfl | rfl
    · exact eq_of_kept_eq_dots (n := 0) hKept
    · exact eq_of_kept_eq_dots (n := 1) hKept
    · exact eq_of_kept_eq_dots (n := 2) hKept
  · rintro rfl
    rcases hSpecial with rfl | rfl | rfl
    all_goals decide +kernel

theorem leads_kept (name : String) : Location.leads (kept name) = Location.leads name := by
  rw [Bool.eq_iff_iff, Location.leads_iff, Location.leads_iff, kept_eq_iff (by decide),
    kept_eq_iff (by decide)]

theorem kept_back : kept ".." = ".." :=
  (kept_eq_iff (by decide)).mpr rfl

/-! ### Following names -/

section Reaching

variable {here : List String} {name : String} {rest : List String}

theorem reach_cons_stay (hName : Location.leads name = false) :
    reach here (name :: rest) = reach here rest := by
  rw [reach, if_pos (Location.not_leads_iff.mp hName)]

theorem reach_cons_back : reach here (".." :: rest) = reach here.dropLast rest := by
  rw [reach, if_neg (by decide), if_pos rfl]

theorem reach_cons_name (hName : Location.leads name = true) (hBack : name ≠ "..") :
    reach here (name :: rest) = reach (here ++ [name]) rest := by
  rw [reach, if_neg (Location.leads_iff.mp hName), if_neg hBack]

theorem reach_append (names others : List String) :
    ∀ here, reach here (names ++ others) = reach (reach here names) others := by
  induction names with
  | nil => exact fun here => rfl
  | cons name names ih =>
      intro here
      rw [List.cons_append, reach, reach, ih here, ih here.dropLast, ih (here ++ [name])]
      split
      · rfl
      · split
        · rfl
        · rfl

/-- Only parts that lead anywhere matter. -/
theorem reach_filter_leads (names : List String) :
    ∀ here, reach here (names.filter Location.leads) = reach here names := by
  induction names with
  | nil => exact fun here => rfl
  | cons name names ih =>
      intro here
      cases hName : Location.leads name with
      | false => rw [List.filter_cons_of_neg (by simp [hName]), reach_cons_stay hName, ih]
      | true =>
          rw [List.filter_cons_of_pos hName, reach, reach, ih here, ih here.dropLast,
            ih (here ++ [name])]

/-- Without steps up, names lead to a place below. -/
theorem reach_of_back_notMem (names : List String) :
    ∀ here, ".." ∉ names → reach here names = here ++ names.filter Location.leads := by
  induction names with
  | nil => exact fun here _ => (List.append_nil here).symm
  | cons name names ih =>
      intro here hNames
      obtain ⟨hBack, hOthers⟩ := not_or.mp (List.mem_cons.not.mp hNames)
      cases hName : Location.leads name with
      | false =>
          rw [reach_cons_stay hName, List.filter_cons_of_neg (by simp [hName]), ih here hOthers]
      | true =>
          rw [reach_cons_name hName (Ne.symm hBack), List.filter_cons_of_pos hName,
            ih _ hOthers, List.append_assoc, List.singleton_append]

/-- Working out one more part leads to where the part leads. -/
theorem reach_addPart {absolute : Bool} {done : List String} (part : String)
    (hRoot : absolute = true → here = []) (hDone : ∀ part ∈ done, Location.leads part = true) :
    reach here ((Location.addPart absolute done part).reverse.map kept) =
      reach (reach here (done.reverse.map kept)) [kept part] := by
  cases hLeads : Location.leads part with
  | false =>
      rw [Location.addPart_of_not_leads hLeads, reach_cons_stay ((leads_kept part).trans hLeads)]
      rfl
  | true =>
      by_cases hBack : part = ".."
      · rw [hBack, kept_back]
        cases done with
        | nil =>
            cases absolute with
            | true =>
                rw [hRoot rfl]
                rfl
            | false =>
                rw [Location.addPart_back_nil, if_neg Bool.false_ne_true, List.reverse_singleton,
                  List.map_singleton, kept_back]
                rfl
        | cons last before =>
            obtain ⟨hLast, -⟩ := List.forall_mem_cons.mp hDone
            by_cases hUp : last = ".."
            · rw [hUp, Location.addPart_back_back, List.reverse_cons, List.map_append, reach_append,
                List.map_singleton, kept_back]
            · -- The step up takes back the name before it.
              have hName : kept last ≠ ".." := (kept_eq_iff (by decide)).not.mpr hUp
              rw [Location.addPart_back_cons hUp, List.reverse_cons, List.map_append, reach_append,
                List.map_singleton, reach_cons_name ((leads_kept last).trans hLast) hName,
                reach_cons_back, reach, reach, List.dropLast_concat]
      · rw [Location.addPart_name hLeads hBack, List.reverse_cons, List.map_append, reach_append]
        rfl

theorem reach_foldl {absolute : Bool} (hRoot : absolute = true → here = [])
    (given : List String) :
    ∀ done, Location.Normal absolute done →
      reach here ((given.foldl (Location.addPart absolute) done).reverse.map kept) =
        reach (reach here (done.reverse.map kept)) (given.map kept) := by
  induction given with
  | nil => exact fun done _ => rfl
  | cons part rest ih =>
      intro done hDone
      rw [List.foldl_cons, ih _ (hDone.addPart part), reach_addPart part hRoot hDone.leads_of_mem]
      exact (reach_append [kept part] (rest.map kept) _).symm

/-- Parts that have been worked out lead to where the parts lead. -/
theorem reach_cleanParts {absolute : Bool} (hRoot : absolute = true → here = [])
    (given : List String) :
    reach here ((Location.cleanParts absolute given).map kept) = reach here (given.map kept) :=
  reach_foldl hRoot given [] (.nil absolute)

end Reaching

/-! ### Places of paths -/

/-- A path leads to the same place when it has been normalised. -/
theorem placeOf_normalize (directory : List String) (path : String) :
    placeOf directory (Location.normalize path) = placeOf directory path := by
  have hStart : startOf directory (Location.normalize path) = startOf directory path := by
    unfold startOf
    rw [Location.isAbsolute_normalize]
  have hLeads : Location.leads ∘ kept = Location.leads := by
    funext name
    rw [Function.comp_apply, leads_kept]
  have hFilter : (namesOf (Location.normalize path)).filter Location.leads =
      (Location.normalParts path).map kept := by
    rw [namesOf, List.filter_map, hLeads, Location.filter_leads_parts_normalize]
  have hRoot : Location.isAbsolute path = true → startOf directory path = [] :=
    fun hAbsolute => if_pos hAbsolute
  rw [placeOf, hStart, ← reach_filter_leads, hFilter, Location.normalParts, reach_cleanParts hRoot,
    placeOf, namesOf]

theorem placeOf_empty (directory : List String) : placeOf directory "" = directory := by
  have hNames : namesOf "" = [""] := by decide +kernel
  rw [placeOf, hNames, reach_cons_stay (by decide)]
  rfl

/-- A relative path behind a directory leads on from where the directory is. -/
theorem placeOf_join {reference : String} (hReference : reference ≠ "")
    (hRelative : Location.isAbsolute reference = false) (directory : List String) (path : String) :
    placeOf directory (Location.join [path, reference]) =
      reach (placeOf directory path) (namesOf reference) := by
  unfold Location.join
  rw [placeOf_normalize]
  by_cases hPath : path = ""
  · have hJoined :
        Text.joinWith "/" ([path, reference].filter fun path => path ≠ "") = reference := by
      simp [hPath, hReference, Text.joinWith]
    rw [hJoined, hPath, placeOf_empty, placeOf, startOf, if_neg (by simp [hRelative])]
  · have hJoined : Text.joinWith "/" ([path, reference].filter fun path => path ≠ "") =
        path ++ "/" ++ reference := by
      simp [hPath, hReference, Text.joinWith]
    have hStart : startOf directory (path ++ "/" ++ reference) = startOf directory path := by
      unfold startOf
      rw [String.append_assoc, Location.isAbsolute_append hPath]
    rw [hJoined, placeOf, hStart, namesOf, Location.parts_append_slash, List.map_append,
      reach_append]
    rfl

/-- A relative path without steps up stays below the directory that it is put behind. -/
theorem prefix_placeOf_join {reference : String} (hReference : reference ≠ "")
    (hRelative : Location.isAbsolute reference = false) (hBack : ".." ∉ Location.parts reference)
    (directory : List String) (path : String) :
    placeOf directory path <+: placeOf directory (Location.join [path, reference]) := by
  have hNames : ".." ∉ namesOf reference := by
    intro hMem
    obtain ⟨part, hPart, hKept⟩ := List.mem_map.mp hMem
    exact hBack ((kept_eq_iff (by decide)).mp hKept ▸ hPart)
  rw [placeOf_join hReference hRelative, reach_of_back_notMem _ _ hNames]
  exact List.prefix_append _ _

end FileTree
end WorkflowDag
