import Mathlib.Data.List.Lex
import Mathlib.Data.List.Sort
import WorkflowDag.Dag.Literal

/-!
# Records up to the order of their entries

What is written under the names of a record (`get?_insert`, `get?_merge`), and when two records hold
the same: records without repeated names hold the same under every name exactly when their entries
are the same up to order.  Such records are written as the same dictionary
(`Literal.dict_eq_of_perm`), since names are sorted by their units and different names have
different units.
-/

namespace WorkflowDag

namespace Text

/-- The numbers of the units of a text. -/
def units (s : String) : List Nat :=
  s.toList.map unit

/-- No character has the number of a half. -/
theorem toNat_valid (c : Char) :
    c.toNat < 0xD800 ∨ 0xE000 ≤ c.toNat ∧ c.toNat < 0x110000 := by
  have hValid := c.valid
  simp only [UInt32.isValidChar, Nat.isValidChar] at hValid
  unfold Char.toNat
  omega

/-- A unit is found again from its number. -/
theorem ofUnit_unit (c : Char) : ofUnit (unit c) = c := by
  -- The private characters of the halves meet no other.
  have hValid := toNat_valid c
  unfold unit ofUnit halfOffset
  split
  next hHalf =>
    rw [if_pos (by omega), show 0x100000 + (c.toNat - 0x100000) = c.toNat by omega,
      Char.ofNat_toNat]
  next => rw [if_neg (by omega), Char.ofNat_toNat]

/-- A character that stands for itself holds the unit of its own number. -/
theorem ofUnit_toNat (c : Char) : ofUnit c.toNat = c := by
  have hValid := toNat_valid c
  rw [ofUnit, if_neg (by omega), Char.ofNat_toNat]

theorem unit_injective : Function.Injective unit :=
  Function.LeftInverse.injective ofUnit_unit

theorem units_injective : Function.Injective units := by
  intro a b hSame
  apply String.toList_injective
  exact List.map_injective_iff.mpr unit_injective hSame

theorem unitsBefore_iff (as bs : List Char) :
    unitsBefore as bs = true ↔ as.map unit < bs.map unit := by
  fun_induction unitsBefore as bs with
  | case1 as => simp
  | case2 b bs => simp
  | case3 a as b bs hLess => simp [List.cons_lt_cons_iff, hLess]
  | case4 a as b bs hNotLess hLess =>
      have hDiffers : unit a ≠ unit b := by omega
      simp [List.cons_lt_cons_iff, hNotLess, hDiffers]
  | case5 a as b bs hNotLess hNotGreater ih =>
      have hSame : unit a = unit b := by omega
      simp [hSame, ih]

theorem before_iff (a b : String) : before a b = true ↔ units a < units b :=
  unitsBefore_iff a.toList b.toList

/-- Sorting texts is sorting them by their units. -/
theorem sorted_eq_insertionSort (texts : List String) :
    sorted texts = texts.insertionSort fun a b => units a ≤ units b := by
  have hInsert : ∀ (s : String) (rest : List String),
      insertSorted s rest = rest.orderedInsert (fun a b => units a ≤ units b) s := by
    intro s rest
    induction rest with
    | nil => rfl
    | cons t rest ih =>
        rw [insertSorted, List.orderedInsert_cons, ih]
        by_cases hBefore : before t s = true
        · rw [if_pos hBefore, if_neg (not_le.mpr ((before_iff t s).mp hBefore))]
        · rw [if_neg hBefore, if_pos (not_lt.mp fun hLess => hBefore ((before_iff t s).mpr hLess))]
  induction texts with
  | nil => rfl
  | cons s rest ih => rw [sorted, ih, hInsert, List.insertionSort_cons]

/-- The order of texts does not matter once they are sorted. -/
theorem sorted_eq_of_perm {first second : List String} (hPerm : first.Perm second) :
    sorted first = sorted second := by
  rw [sorted_eq_insertionSort, sorted_eq_insertionSort]
  have hTotal : Std.Total fun a b : String => units a ≤ units b := ⟨fun a b => le_total _ _⟩
  have hTrans : IsTrans String fun a b => units a ≤ units b := ⟨fun a b c => le_trans⟩
  refine List.Perm.eq_of_pairwise (fun a b _ _ hLe hGe => units_injective (le_antisymm hLe hGe))
    (List.pairwise_insertionSort _ first) (List.pairwise_insertionSort _ second) ?_
  exact (List.perm_insertionSort _ first).trans
    (hPerm.trans (List.perm_insertionSort _ second).symm)

/-- Sorting texts without repetition puts them in ascending order. -/
theorem pairwise_sorted {texts : List String} (hTexts : texts.Nodup) :
    (sorted texts).Pairwise fun a b => units a < units b := by
  have hTotal : Std.Total fun a b : String => units a ≤ units b := ⟨fun a b => le_total _ _⟩
  have hTrans : IsTrans String fun a b => units a ≤ units b := ⟨fun a b c => le_trans⟩
  rw [sorted_eq_insertionSort]
  have hNodup : (texts.insertionSort fun a b => units a ≤ units b).Nodup :=
    (List.perm_insertionSort _ texts).nodup_iff.mpr hTexts
  refine ((List.pairwise_insertionSort _ texts).and hNodup).imp ?_
  rintro a b ⟨hLe, hDiffers⟩
  exact lt_of_le_of_ne hLe fun hSame => hDiffers (units_injective hSame)

theorem mem_sorted_iff {texts : List String} {text : String} :
    text ∈ sorted texts ↔ text ∈ texts := by
  rw [sorted_eq_insertionSort, (List.perm_insertionSort _ _).mem_iff]

end Text

namespace Record

variable {name value other : String}

theorem mem_names_iff {r : Record} {name : String} :
    name ∈ r.names ↔ ∃ value, r.get? name = some value := by
  unfold names get?
  constructor
  · intro hMem
    obtain ⟨entry, hEntry, rfl⟩ := List.mem_map.mp hMem
    cases hFound : r.entries.find? fun other => other.1 == entry.1 with
    | none => exact absurd (beq_self_eq_true entry.1) (List.find?_eq_none.mp hFound entry hEntry)
    | some found => exact ⟨found.2, rfl⟩
  · rintro ⟨value, hValue⟩
    obtain ⟨entry, hFound, -⟩ := Option.map_eq_some_iff.mp hValue
    have hName := List.find?_some hFound
    exact List.mem_map.mpr ⟨entry, List.mem_of_find?_eq_some hFound, eq_of_beq hName⟩

theorem mem_sortedNames_iff {r : Record} {name : String} : name ∈ r.sortedNames ↔ name ∈ r.names :=
  Text.mem_sorted_iff

theorem get?_cons (entry : String × String) (rest : List (String × String)) (other : String) :
    get? ⟨entry :: rest⟩ other = if entry.1 = other then some entry.2 else get? ⟨rest⟩ other := by
  unfold get?
  by_cases hName : entry.1 = other
  · simp [hName]
  · have hDiffers : (entry.1 == other) = false := beq_eq_false_iff_ne.mpr hName
    rw [if_neg hName, List.find?_cons, hDiffers]

/-- A change behind an entry of another name is the same change of the whole. -/
theorem get?_cons_of_ne {entry : String × String} {rest changed : List (String × String)}
    (hFirst : entry.1 ≠ name) (hRest : get? ⟨changed⟩ other =
      if name = other then some value else get? ⟨rest⟩ other) :
    get? ⟨entry :: changed⟩ other =
      if name = other then some value else get? ⟨entry :: rest⟩ other := by
  rw [get?_cons, get?_cons, hRest]
  by_cases hOther : entry.1 = other
  · have hName : name ≠ other := fun hSame => hFirst (hOther.trans hSame.symm)
    rw [if_pos hOther, if_pos hOther, if_neg hName]
  · rw [if_neg hOther, if_neg hOther]

theorem get?_overwrite (entries : List (String × String))
    (hName : ∃ entry ∈ entries, entry.1 = name) :
    get? ⟨overwrite name value entries⟩ other =
      if name = other then some value else get? ⟨entries⟩ other := by
  induction entries with
  | nil =>
      obtain ⟨entry, hMem, -⟩ := hName
      exact absurd hMem List.not_mem_nil
  | cons entry rest ih =>
      rw [overwrite]
      by_cases hFirst : entry.1 = name
      · rw [if_pos (beq_iff_eq.mpr hFirst), get?_cons, get?_cons, hFirst]
        split <;> rfl
      · rw [if_neg (by simpa using hFirst)]
        obtain ⟨found, hMem, hSame⟩ := hName
        rcases List.mem_cons.mp hMem with rfl | hRest
        · exact absurd hSame hFirst
        · exact get?_cons_of_ne hFirst (ih ⟨found, hRest, hSame⟩)

theorem get?_addIndex (index : Nat) (entries : List (String × String))
    (hNew : ∀ entry ∈ entries, entry.1 ≠ name) :
    get? ⟨addIndex index name value entries⟩ other =
      if name = other then some value else get? ⟨entries⟩ other := by
  induction entries with
  | nil => rw [addIndex, get?_cons]
  | cons entry rest ih =>
      have hRest := ih fun found hMem => hNew found (List.mem_cons_of_mem _ hMem)
      rw [addIndex]
      split
      · split
        · exact get?_cons_of_ne (hNew entry List.mem_cons_self) hRest
        · rw [get?_cons]
      · rw [get?_cons]

theorem get?_concat (entries : List (String × String))
    (hNew : ∀ entry ∈ entries, entry.1 ≠ name) :
    get? ⟨entries ++ [(name, value)]⟩ other =
      if name = other then some value else get? ⟨entries⟩ other := by
  induction entries with
  | nil => rw [List.nil_append, get?_cons]
  | cons entry rest ih =>
      exact get?_cons_of_ne (hNew entry List.mem_cons_self)
        (ih fun found hMem => hNew found (List.mem_cons_of_mem _ hMem))

/-- Writing under a name changes what is written there only. -/
theorem get?_insert (r : Record) :
    (r.insert name value).get? other = if name = other then some value else r.get? other := by
  unfold insert insertEntry
  split
  next hAny =>
    apply get?_overwrite
    simpa using hAny
  next hNone =>
    have hNew : ∀ entry ∈ r.entries, entry.1 ≠ name := by
      intro entry hMem hSame
      exact hNone (List.any_eq_true.mpr ⟨entry, hMem, beq_iff_eq.mpr hSame⟩)
    split
    · exact get?_addIndex _ r.entries hNew
    · exact get?_concat r.entries hNew

/-- A record written over another overrides it where it has an entry. -/
theorem get?_merge (r s : Record) (hNames : s.names.Nodup) (name : String) :
    (r.merge s).get? name = (s.get? name).or (r.get? name) := by
  obtain ⟨entries⟩ := s
  unfold merge
  induction entries generalizing r with
  | nil => rfl
  | cons entry rest ih =>
      obtain ⟨hFresh, hRest⟩ := List.nodup_cons.mp hNames
      rw [List.foldl_cons, ih (r.insert entry.1 entry.2) hRest, get?_insert, get?_cons]
      by_cases hName : entry.1 = name
      · -- The entry is the only one of its name, so nothing written later replaces it.
        have hNone : get? ⟨rest⟩ name = none := by
          unfold get?
          rw [Option.map_eq_none_iff, List.find?_eq_none]
          intro found hMem hSame
          apply hFresh
          rw [hName, ← eq_of_beq hSame]
          exact List.mem_map_of_mem hMem
        rw [if_pos hName, if_pos hName, hNone]
        rfl
      · rw [if_neg hName, if_neg hName]

theorem map_fst_overwrite {α : Type} {value : α} (entries : List (String × α)) :
    (overwrite name value entries).map Prod.fst = entries.map Prod.fst := by
  induction entries with
  | nil => rfl
  | cons entry rest ih =>
      rw [overwrite]
      split
      next hFirst => simp [eq_of_beq hFirst]
      next => simp [ih]

theorem addIndex_perm {α : Type} {value : α} (index : Nat) (entries : List (String × α)) :
    (addIndex index name value entries).Perm ((name, value) :: entries) := by
  induction entries with
  | nil => exact .refl _
  | cons entry rest ih =>
      rw [addIndex]
      split
      · split
        · exact (ih.cons entry).trans (.swap _ _ _)
        · exact .refl _
      · exact .refl _

/-- Writing under a name repeats no name. -/
theorem nodup_insert {r : Record} (hNames : r.names.Nodup) : (r.insert name value).names.Nodup := by
  unfold insert insertEntry names
  split
  · rw [map_fst_overwrite]
    exact hNames
  next hNone =>
    have hNew : ((name, value) :: r.entries).map Prod.fst |>.Nodup := by
      refine List.nodup_cons.mpr ⟨?_, hNames⟩
      intro hMem
      obtain ⟨entry, hEntry, hSame⟩ := List.mem_map.mp hMem
      exact hNone (List.any_eq_true.mpr ⟨entry, hEntry, beq_iff_eq.mpr hSame⟩)
    split
    · exact ((addIndex_perm _ r.entries).map Prod.fst).nodup_iff.mpr hNew
    · exact ((List.perm_append_singleton _ r.entries).map Prod.fst).nodup_iff.mpr hNew

theorem nodup_assign {r : Record} (hNames : r.names.Nodup) : (r.assign name value).names.Nodup := by
  unfold assign
  split
  · exact hNames
  · exact nodup_insert hNames

theorem nodup_merge {r : Record} (s : Record) (hNames : r.names.Nodup) :
    (r.merge s).names.Nodup := by
  unfold merge
  induction s.entries generalizing r with
  | nil => exact hNames
  | cons entry rest ih => exact ih (nodup_insert hNames)

theorem mem_entries_iff {r : Record} (hNames : r.names.Nodup) :
    (name, value) ∈ r.entries ↔ r.get? name = some value := by
  obtain ⟨entries⟩ := r
  induction entries with
  | nil => simp [get?]
  | cons entry rest ih =>
      obtain ⟨hFresh, hRest⟩ := List.nodup_cons.mp hNames
      rw [get?_cons, List.mem_cons]
      by_cases hName : entry.1 = name
      · have hAbsent : (name, value) ∉ rest :=
          fun hMem => hFresh (List.mem_map.mpr ⟨(name, value), hMem, hName.symm⟩)
        rw [if_pos hName, or_iff_left hAbsent, Option.some.injEq, Prod.ext_iff]
        exact ⟨fun hEntry => hEntry.2.symm, fun hValue => ⟨hName.symm, hValue.symm⟩⟩
      · have hOther : (name, value) ≠ entry := fun hEntry => hName (hEntry ▸ rfl)
        rw [if_neg hName, or_iff_right hOther, ih hRest]

/-- Records that hold the same under every name have the same entries. -/
theorem perm_of_get?_eq {r s : Record} (hNames : r.names.Nodup) (hNames' : s.names.Nodup)
    (hSame : ∀ name, r.get? name = s.get? name) : r.entries.Perm s.entries := by
  refine (List.perm_ext_iff_of_nodup (.of_map _ hNames) (.of_map _ hNames')).mpr ?_
  rintro ⟨name, value⟩
  rw [mem_entries_iff hNames, mem_entries_iff hNames', hSame]

/-- The order of entries does not matter to what a record holds. -/
theorem get?_eq_of_perm {r s : Record} (hNames : r.names.Nodup) (hPerm : r.entries.Perm s.entries)
    (name : String) : r.get? name = s.get? name := by
  have hNames' : s.names.Nodup := (hPerm.map Prod.fst).nodup_iff.mp hNames
  apply Option.ext
  intro value
  rw [← mem_entries_iff hNames, ← mem_entries_iff hNames', hPerm.mem_iff]

end Record

/-- Records with the same entries are written alike. -/
theorem Literal.dict_eq_of_perm {r s : Record} (hNames : r.names.Nodup)
    (hPerm : r.entries.Perm s.entries) (indent : String) : dict indent r = dict indent s := by
  have hSorted : r.sortedNames = s.sortedNames := Text.sorted_eq_of_perm (hPerm.map Prod.fst)
  have hLine : entryLine indent r = entryLine indent s := by
    funext name
    unfold entryLine
    rw [Record.get?_eq_of_perm hNames hPerm]
  unfold dict Record.size
  rw [hPerm.length_eq, hSorted, hLine]

end WorkflowDag
