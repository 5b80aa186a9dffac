import Mathlib.Data.List.Basic
import WorkflowDag.File.Tree

/-!
# How paths end

Normalising a path works out its parts from the front, so the last part stays when it is a name of
its own.  A path that ends in a character other than a slash or a dot still ends in it when it has
been normalised (`getLast?_normalize`), and the last of the names that a file tree follows is then
not empty (`namesOf_getLast?`).
-/

namespace WorkflowDag

namespace Text

/-- The last piece ends as the text does, when that is no separator. -/
theorem exists_pieces_concat {p : Char → Bool} {c : Char} (hKept : p c = false) (cs : List Char) :
    ∃ front piece, pieces p (cs ++ [c]) = front ++ [piece ++ [c]] := by
  induction cs with
  | nil => exact ⟨[], [], by simp [pieces, hKept]⟩
  | cons d cs ih =>
      obtain ⟨front, piece, hPieces⟩ := ih
      rw [List.cons_append, pieces, hPieces]
      by_cases hCut : p d = true
      · exact ⟨[] :: front, piece, by rw [if_pos hCut, List.cons_append]⟩
      · rw [if_neg hCut]
        cases front with
        | nil => exact ⟨[], d :: piece, rfl⟩
        | cons first front => exact ⟨(d :: first) :: front, piece, rfl⟩

theorem getLast?_joinWith {sep last : String} {c : Char} (hEnd : last.toList.getLast? = some c)
    (texts : List String) :
    texts.getLast? = some last → (joinWith sep texts).toList.getLast? = some c := by
  induction texts with
  | nil =>
      intro hLast
      cases hLast
  | cons text rest ih =>
      intro hLast
      cases rest with
      | nil =>
          cases hLast
          exact hEnd
      | cons next rest =>
          rw [List.getLast?_cons_cons] at hLast
          show (text ++ sep ++ joinWith sep (next :: rest)).toList.getLast? = some c
          rw [String.toList_append, List.getLast?_append, ih hLast]
          rfl

theorem joinUnits_ne_nil {cs : List Char} (hUnits : cs ≠ []) : joinUnits cs ≠ [] := by
  cases cs with
  | nil => exact absurd rfl hUnits
  | cons c rest =>
      cases rest with
      | nil => simp [joinUnits]
      | cons d rest =>
          rw [joinUnits]
          split <;> simp

end Text

namespace Location

variable {path : String} {c : Char}

theorem exists_parts_concat (hEnd : path.toList.getLast? = some c) (hSlash : c ≠ '/') :
    ∃ front last, parts path = front ++ [last] ∧ last.toList.getLast? = some c := by
  obtain ⟨cs, hPath⟩ := List.getLast?_eq_some_iff.mp hEnd
  obtain ⟨front, piece, hPieces⟩ :=
    Text.exists_pieces_concat (p := fun d => d == '/') (beq_eq_false_iff_ne.mpr hSlash) cs
  refine ⟨front.map String.ofList, String.ofList (piece ++ [c]), ?_, ?_⟩
  · rw [parts, hPath, hPieces, List.map_append, List.map_singleton]
  · rw [String.toList_ofList, List.getLast?_concat]

/-- A last part that is a name of its own stays. -/
theorem cleanParts_concat (absolute : Bool) (front : List String) {last : String}
    (hStay : ¬(last = "" ∨ last = ".")) (hBack : last ≠ "..") :
    ∃ before, cleanParts absolute (front ++ [last]) = before ++ [last] := by
  refine ⟨(front.foldl (addPart absolute) []).reverse, ?_⟩
  rw [cleanParts, List.foldl_append, List.foldl_cons, List.foldl_nil]
  unfold addPart
  rw [if_neg hStay, if_neg hBack, List.reverse_cons]

theorem getLast?_normalize (hEnd : path.toList.getLast? = some c) (hSlash : c ≠ '/')
    (hDot : c ≠ '.') : (normalize path).toList.getLast? = some c := by
  obtain ⟨front, last, hParts, hLast⟩ := exists_parts_concat hEnd hSlash
  -- A part that ends in another character than a dot is neither of the special parts.
  have hOrdinary : ∀ special : String, special.toList.getLast? ≠ some c → last ≠ special := by
    rintro special hSpecial rfl
    exact hSpecial hLast
  have hEmpty : last ≠ "" := hOrdinary "" (by simp)
  have hHere : last ≠ "." := hOrdinary "." (by simpa using hDot.symm)
  have hBack : last ≠ ".." := hOrdinary ".." (by simpa using hDot.symm)
  obtain ⟨before, hClean⟩ := cleanParts_concat (isAbsolute path) front
    (not_or.mpr ⟨hEmpty, hHere⟩) hBack
  have hJoined : (Text.joinWith "/" (before ++ [last])).toList.getLast? = some c :=
    Text.getLast?_joinWith hLast _ List.getLast?_concat
  have hSome : Text.joinWith "/" (before ++ [last]) ≠ "" := by
    intro hNone
    rw [hNone] at hJoined
    cases hJoined
  have hTrailing : hasTrailingSlash path = false := by
    unfold hasTrailingSlash
    rw [hEnd]
    simpa using hSlash
  have hPath : path ≠ "" := by
    rintro rfl
    cases hEnd
  unfold normalize
  simp only [hParts, hClean, hTrailing, Bool.false_eq_true, if_false, if_neg hPath, if_neg hSome,
    String.append_empty]
  split
  · rw [String.toList_append, List.getLast?_append, hJoined]
    rfl
  · exact hJoined

/-- Paths put behind each other end as the last of them. -/
theorem getLast?_join {output name : String} (hEnd : name.toList.getLast? = some c)
    (hSlash : c ≠ '/') (hDot : c ≠ '.') : (join [output, name]).toList.getLast? = some c := by
  have hName : name ≠ "" := by
    rintro rfl
    cases hEnd
  refine getLast?_normalize ?_ hSlash hDot
  refine Text.getLast?_joinWith hEnd _ ?_
  by_cases hOutput : output = ""
  · simp [hOutput, hName]
  · simp [hOutput, hName]

end Location

namespace FileTree

theorem kept_ne_empty {text : String} (hText : text ≠ "") : kept text ≠ "" := by
  have hUnits : Text.joinUnits text.toList ≠ [] := by
    apply Text.joinUnits_ne_nil
    simpa using hText
  obtain ⟨c, rest, hJoined⟩ := List.exists_cons_of_ne_nil hUnits
  intro hKept
  have hNone := congrArg String.toList hKept
  rw [kept, Text.split, Text.join, String.toList_ofList, String.toList_ofList, hJoined,
    List.flatMap_cons, Text.unitsOf] at hNone
  split at hNone <;> simp at hNone

theorem namesOf_getLast? {path : String} {c : Char} (hEnd : path.toList.getLast? = some c)
    (hSlash : c ≠ '/') : (namesOf path).getLast? ≠ some "" := by
  obtain ⟨front, last, hParts, hLast⟩ := Location.exists_parts_concat hEnd hSlash
  have hName : last ≠ "" := by
    rintro rfl
    cases hLast
  rw [namesOf, hParts, List.map_append, List.map_singleton, List.getLast?_concat]
  exact fun hNone => kept_ne_empty hName (Option.some.inj hNone)

end FileTree
end WorkflowDag
