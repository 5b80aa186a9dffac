import Mathlib.Data.List.Basic
import WorkflowDag.Text.Blank
import WorkflowDag.Text.Cut

/-!
# The lines of a text

A text is cut into lines at line feeds and carriage returns.  The lines of texts joined by line
feeds are those of the texts (`lines_joinWith`), with a blank line behind each where they are joined
by two (`lines_joinWith_blank`).  A text brought onto a single line stays on it
(`unbroken_singleLine`).
-/

namespace WorkflowDag
namespace Text

/-- A unit that ends a line: line feed or carriage return. -/
def isBreak (c : Char) : Bool :=
  c == '\n' || c == '\r'

/-- The lines of a text. -/
def lines (s : String) : List String :=
  (pieces isBreak s.toList).map String.ofList

/-- The text is on one line. -/
def Unbroken (s : String) : Prop :=
  ∀ c ∈ s.toList, isBreak c = false

instance (s : String) : Decidable (Unbroken s) :=
  List.decidableBAll (fun c => isBreak c = false) s.toList

theorem Unbroken.append {a b : String} (ha : Unbroken a) (hb : Unbroken b) : Unbroken (a ++ b) := by
  intro c hMem
  rw [String.toList_append] at hMem
  exact (List.mem_append.mp hMem).elim (ha c) (hb c)

/-- What holds of the units that a text is made of.  A fixed text is made of its units, and so is
never unfolded into its bytes. -/
theorem forall_units {p : Char → Bool} {cs : List Char} (hUnits : cs.all p = true) :
    ∀ c ∈ (String.ofList cs).toList, p c = true := by
  rw [String.toList_ofList]
  exact List.all_eq_true.mp hUnits

theorem Unbroken.ofList {cs : List Char} (hUnits : cs.all (fun c => !isBreak c) = true) :
    Unbroken (String.ofList cs) := by
  intro c hMem
  simpa using forall_units hUnits c hMem

/-- Texts on one line stay on it when they are put behind each other. -/
theorem Unbroken.cons {s : String} {rest : List String} (hFirst : Unbroken s)
    (hRest : Unbroken (String.join rest)) : Unbroken (String.join (s :: rest)) := by
  rw [String.join_cons]
  exact hFirst.append hRest

theorem Unbroken.nil : Unbroken (String.join []) :=
  .ofList rfl

theorem Unbroken.of_notMem {s : String} (hFeed : '\n' ∉ s.toList) (hReturn : '\r' ∉ s.toList) :
    Unbroken s := by
  intro c hMem
  refine Bool.eq_false_iff.mpr fun hBreak => ?_
  rw [isBreak, Bool.or_eq_true, beq_iff_eq, beq_iff_eq] at hBreak
  rcases hBreak with rfl | rfl
  · exact hFeed hMem
  · exact hReturn hMem

section Pieces

variable {p : Char → Bool}

theorem pieces_ne_nil (cs : List Char) : pieces p cs ≠ [] := by
  cases cs with
  | nil => exact List.cons_ne_nil _ _
  | cons c rest =>
      rw [pieces]
      split
      · exact List.cons_ne_nil _ _
      · split
        · exact List.cons_ne_nil _ _
        · exact List.cons_ne_nil _ _

/-- A text is cut at each unit that is found. -/
theorem pieces_append {mark : Char} (hMark : p mark = true) (before behind : List Char) :
    pieces p (before ++ mark :: behind) = pieces p before ++ pieces p behind := by
  induction before with
  | nil =>
      show pieces p (mark :: behind) = [] :: pieces p behind
      rw [pieces, if_pos hMark]
  | cons c rest ih =>
      rw [List.cons_append, pieces, pieces, ih]
      cases hRest : pieces p rest with
      | nil => exact absurd hRest (pieces_ne_nil rest)
      | cons piece others =>
          split
          · rfl
          · rfl

theorem pieces_of_forall {cs : List Char} (hNone : ∀ c ∈ cs, p c = false) : pieces p cs = [cs] := by
  induction cs with
  | nil => rfl
  | cons c rest ih =>
      obtain ⟨hFirst, hRest⟩ := List.forall_mem_cons.mp hNone
      rw [pieces, if_neg (by rw [hFirst]; exact Bool.false_ne_true), ih hRest]

end Pieces

theorem lines_of_unbroken {s : String} (hUnbroken : Unbroken s) : lines s = [s] := by
  rw [lines, pieces_of_forall hUnbroken, List.map_singleton, String.ofList_toList]

theorem lines_append (a b : String) : lines (a ++ "\n" ++ b) = lines a ++ lines b := by
  have hUnits : (a ++ "\n" ++ b).toList = a.toList ++ '\n' :: b.toList := by simp
  rw [lines, hUnits, pieces_append rfl, List.map_append]
  rfl

theorem joinWith_cons_cons (sep first second : String) (rest : List String) :
    joinWith sep (first :: second :: rest) = first ++ sep ++ joinWith sep (second :: rest) := rfl

/-- Texts that each end in a line feed may as well be joined to those behind them. -/
theorem join_append_joinWith (texts : List String) (first : String) (rest : List String) :
    String.join (texts.map fun text => text ++ "\n") ++ joinWith "\n" (first :: rest) =
      joinWith "\n" (texts ++ first :: rest) := by
  induction texts with
  | nil => rw [List.map_nil, String.join_nil, String.empty_append, List.nil_append]
  | cons text others ih =>
      obtain ⟨next, behind, hBehind⟩ : ∃ next behind, others ++ first :: rest = next :: behind :=
        List.exists_cons_of_ne_nil (List.append_ne_nil_of_right_ne_nil _ (List.cons_ne_nil _ _))
      rw [List.map_cons, String.join_cons, String.append_assoc, ih, List.cons_append, hBehind,
        joinWith_cons_cons]

/-- Texts joined by line feeds have the lines of all of them. -/
theorem lines_joinWith {texts : List String} (hTexts : texts ≠ []) :
    lines (joinWith "\n" texts) = texts.flatMap lines := by
  induction texts with
  | nil => exact absurd rfl hTexts
  | cons text rest ih =>
      cases rest with
      | nil => rw [joinWith, List.flatMap_singleton]
      | cons next rest =>
          rw [joinWith_cons_cons, lines_append, ih (List.cons_ne_nil _ _), ← List.flatMap_cons]

/-- Texts joined by two have a blank line behind each, if a line feed ends the last. -/
theorem lines_joinWith_blank {texts : List String} (hTexts : texts ≠ []) :
    lines (joinWith "\n\n" texts ++ "\n") = texts.flatMap fun text => lines text ++ [""] := by
  have hLast (text : String) : lines (text ++ "\n") = lines text ++ [""] := by
    have hEmpty : text ++ "\n" = text ++ "\n" ++ "" := String.append_empty.symm
    rw [hEmpty, lines_append]
    rfl
  induction texts with
  | nil => exact absurd rfl hTexts
  | cons text rest ih =>
      cases rest with
      | nil => rw [joinWith, hLast, List.flatMap_singleton]
      | cons next rest =>
          have hBlank : text ++ "\n\n" ++ joinWith "\n\n" (next :: rest) ++ "\n" =
              text ++ "\n" ++ "\n" ++ (joinWith "\n\n" (next :: rest) ++ "\n") := by
            simp only [String.append_assoc]
            rfl
          rw [joinWith_cons_cons, hBlank, lines_append, hLast, ih (List.cons_ne_nil _ _)]
          rfl

theorem lines_of_joinWith {texts : List String} (hTexts : texts ≠ [])
    (hUnbroken : ∀ text ∈ texts, Unbroken text) : lines (joinWith "\n" texts) = texts := by
  rw [lines_joinWith hTexts]
  clear hTexts
  induction texts with
  | nil => rfl
  | cons text rest ih =>
      obtain ⟨hFirst, hRest⟩ := List.forall_mem_cons.mp hUnbroken
      rw [List.flatMap_cons, lines_of_unbroken hFirst, ih hRest, List.singleton_append]

section SingleLine

theorem isBlank_of_isBreak {c : Char} (hBreak : isBreak c = true) : isBlank c = true := by
  rw [isBreak, Bool.or_eq_true, beq_iff_eq, beq_iff_eq] at hBreak
  rcases hBreak with rfl | rfl
  · decide
  · decide

/-- What is left of runs of blanks is a space. -/
theorem isBreak_of_mem_squeezeUnits {cs : List Char} :
    ∀ c ∈ squeezeUnits cs, isBreak c = false := by
  induction cs with
  | nil => exact fun _ hMem => absurd hMem List.not_mem_nil
  | cons c rest ih =>
      rw [squeezeUnits.eq_def]
      dsimp only
      split
      · split
        · split
          · exact ih
          · exact List.forall_mem_cons.mpr ⟨by decide, ih⟩
        · exact List.forall_mem_cons.mpr ⟨by decide, fun _ hMem => absurd hMem List.not_mem_nil⟩
      next hBlank =>
        refine List.forall_mem_cons.mpr ⟨?_, ih⟩
        exact Bool.eq_false_iff.mpr fun hBreak => hBlank (isBlank_of_isBreak hBreak)

theorem mem_of_mem_trimEndUnits {cs : List Char} : ∀ c ∈ trimEndUnits cs, c ∈ cs := by
  induction cs with
  | nil => exact fun _ hMem => hMem
  | cons c rest ih =>
      rw [trimEndUnits]
      split
      · split
        · exact fun _ hMem => absurd hMem List.not_mem_nil
        · exact List.forall_mem_cons.mpr
            ⟨List.mem_cons_self, fun _ hMem => absurd hMem List.not_mem_nil⟩
      · exact List.forall_mem_cons.mpr
          ⟨List.mem_cons_self, fun other hMem => List.mem_cons_of_mem c (ih other hMem)⟩

theorem mem_of_mem_trimUnits {cs : List Char} {c : Char} (hMem : c ∈ trimUnits cs) : c ∈ cs :=
  List.dropWhile_subset _ (mem_of_mem_trimEndUnits c hMem)

theorem unbroken_singleLine (s : String) : Unbroken (singleLine s) := by
  intro c hMem
  rw [singleLine, String.toList_ofList] at hMem
  exact isBreak_of_mem_squeezeUnits c (mem_of_mem_trimUnits hMem)

end SingleLine

end Text
end WorkflowDag
