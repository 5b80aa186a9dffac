import WorkflowDag.Proofs.Records

/-!
# Code points of texts in unit form

A text in unit form stands for code points: two halves that belong together are one, and a half that
stands alone is one by itself.  The units are found again from the code points
(`unitsOfPoints_points`), so different texts stand for different ones.  The unit form of an ordinary
text stands for the characters of the text (`points_split`).
-/

namespace WorkflowDag
namespace Text

theorem toNat_ofNat {n : Nat} (hValid : n.isValidChar) : (Char.ofNat n).toNat = n := by
  rw [Char.ofNat, dif_pos hValid]
  rfl

/-- The number of a unit is found again from its character. -/
theorem unit_ofUnit {n : Nat} (hUnit : n < 0x10000) : unit (ofUnit n) = n := by
  unfold ofUnit unit halfOffset
  split
  next hHalf =>
    rw [toNat_ofNat (by unfold Nat.isValidChar; omega), if_pos (by omega)]
    omega
  next => rw [toNat_ofNat (by unfold Nat.isValidChar; omega), if_neg (by omega)]

/-- The code points that units stand for. -/
def pointsOf : List Char → List Nat
  | [] => []
  | [c] => [unit c]
  | c :: d :: rest =>
    if isHighHalf c && isLowHalf d then pairCode c d :: pointsOf rest
    else unit c :: pointsOf (d :: rest)

/-- The code points of a text. -/
def points (s : String) : List Nat :=
  pointsOf s.toList

/-- The units that code points are written with. -/
def unitsOfPoints (points : List Nat) : List Nat :=
  (points.flatMap unitsOf).map unit

/-- Every character of the text holds one unit. -/
def UnitForm (s : String) : Prop :=
  ∀ c ∈ s.toList, unit c < 0x10000

instance (s : String) : Decidable (UnitForm s) :=
  List.decidableBAll (fun c => unit c < 0x10000) s.toList

/-- The unit is no half. -/
def isWhole (c : Char) : Bool :=
  !(isHighHalf c || isLowHalf c)

section Pairs

variable {c d : Char}

theorem isHighHalf_iff : isHighHalf c = true ↔ 0xD800 ≤ unit c ∧ unit c < 0xDC00 := by
  simp [isHighHalf]

theorem isLowHalf_iff : isLowHalf c = true ↔ 0xDC00 ≤ unit c ∧ unit c < 0xE000 := by
  simp [isLowHalf]

theorem isPair_iff : (isHighHalf c && isLowHalf d) = true ↔
    (0xD800 ≤ unit c ∧ unit c < 0xDC00) ∧ 0xDC00 ≤ unit d ∧ unit d < 0xE000 := by
  rw [Bool.and_eq_true, isHighHalf_iff, isLowHalf_iff]

theorem pairCode_bounds (hPair : (isHighHalf c && isLowHalf d) = true) :
    0x10000 ≤ pairCode c d ∧ pairCode c d < 0x110000 := by
  have hHalves := isPair_iff.mp hPair
  unfold pairCode
  omega

/-- A pair of halves is found again from its code point. -/
theorem unitsOf_pairCode (hPair : (isHighHalf c && isLowHalf d) = true) :
    unitsOf (pairCode c d) = [c, d] := by
  have hHalves := isPair_iff.mp hPair
  have hFirst : 0xD800 + (pairCode c d - 0x10000) / 0x400 = unit c := by
    unfold pairCode
    omega
  have hSecond : 0xDC00 + (pairCode c d - 0x10000) % 0x400 = unit d := by
    unfold pairCode
    omega
  rw [unitsOf, if_neg (Nat.not_lt.mpr (pairCode_bounds hPair).1), hFirst, hSecond, ofUnit_unit,
    ofUnit_unit]

theorem unitsOf_unit (hUnit : unit c < 0x10000) : unitsOf (unit c) = [c] := by
  rw [unitsOf, if_pos hUnit, ofUnit_unit]

theorem isWhole_iff : isWhole c = true ↔ isHighHalf c = false ∧ isLowHalf c = false := by
  simp [isWhole]

theorem isWhole_of_lt (hLess : c.toNat < 0xD800) : isWhole c = true := by
  have hUnit : unit c = c.toNat := if_neg (by unfold halfOffset; omega)
  rw [isWhole_iff, Bool.eq_false_iff, Bool.eq_false_iff, Ne, Ne, isHighHalf_iff, isLowHalf_iff,
    hUnit]
  omega

theorem unit_eq_toNat (hWhole : isWhole c = true) : unit c = c.toNat := by
  obtain ⟨hHigh, hLow⟩ := isWhole_iff.mp hWhole
  rw [Bool.eq_false_iff, Ne, isHighHalf_iff] at hHigh
  rw [Bool.eq_false_iff, Ne, isLowHalf_iff] at hLow
  unfold unit halfOffset at hHigh hLow ⊢
  split at hHigh
  next hPrivate =>
    rw [if_pos hPrivate] at hLow
    omega
  next hOther => exact if_neg hOther

end Pairs

/-- Units are found again from the code points that they stand for. -/
theorem flatMap_unitsOf_pointsOf (cs : List Char) :
    (∀ c ∈ cs, unit c < 0x10000) → (pointsOf cs).flatMap unitsOf = cs := by
  fun_induction pointsOf cs with
  | case1 => exact fun _ => rfl
  | case2 c =>
      intro hUnits
      rw [List.flatMap_singleton, unitsOf_unit (hUnits c List.mem_cons_self)]
  | case3 c d rest hPair ih =>
      intro hUnits
      have hRest := (List.forall_mem_cons.mp (List.forall_mem_cons.mp hUnits).2).2
      rw [List.flatMap_cons, unitsOf_pairCode hPair, ih hRest]
      rfl
  | case4 c d rest _ ih =>
      intro hUnits
      obtain ⟨hFirst, hRest⟩ := List.forall_mem_cons.mp hUnits
      rw [List.flatMap_cons, unitsOf_unit hFirst, ih hRest, List.singleton_append]

theorem unitsOfPoints_points {s : String} (hForm : UnitForm s) :
    unitsOfPoints (points s) = units s := by
  rw [unitsOfPoints, points, flatMap_unitsOf_pointsOf _ hForm]
  rfl

theorem lt_of_mem_pointsOf (cs : List Char) : ∀ n ∈ pointsOf cs, n < 0x110000 := by
  have hUnit : ∀ c, unit c < 0x110000 := by
    intro c
    have hValid := toNat_valid c
    unfold unit halfOffset
    split <;> omega
  fun_induction pointsOf cs with
  | case1 => exact fun _ hMem => absurd hMem List.not_mem_nil
  | case2 c =>
      exact List.forall_mem_cons.mpr ⟨hUnit c, fun _ hMem => absurd hMem List.not_mem_nil⟩
  | case3 c d rest hPair ih => exact List.forall_mem_cons.mpr ⟨(pairCode_bounds hPair).2, ih⟩
  | case4 c d rest _ ih => exact List.forall_mem_cons.mpr ⟨hUnit c, ih⟩

section Splitting

variable (rest : List Char)

/-- A unit that begins no pair is a code point by itself. -/
theorem pointsOf_cons {c : Char} (hHigh : isHighHalf c = false) :
    pointsOf (c :: rest) = unit c :: pointsOf rest := by
  cases rest with
  | nil => rfl
  | cons d rest => rw [pointsOf, hHigh, if_neg (by simp)]

theorem pointsOf_pair {c d : Char} (hPair : (isHighHalf c && isLowHalf d) = true) :
    pointsOf (c :: d :: rest) = pairCode c d :: pointsOf rest := by
  rw [pointsOf, if_pos hPair]

/-- The units of a character stand for the character. -/
theorem pointsOf_unitsOf (c : Char) :
    pointsOf (unitsOf c.toNat ++ rest) = c.toNat :: pointsOf rest := by
  have hValid := toNat_valid c
  by_cases hPlane : c.toNat < 0x10000
  · have hUnit := unit_ofUnit hPlane
    have hHigh : isHighHalf (ofUnit c.toNat) = false := by
      rw [Bool.eq_false_iff, Ne, isHighHalf_iff, hUnit]
      omega
    rw [unitsOf, if_pos hPlane, List.singleton_append, pointsOf_cons rest hHigh, hUnit]
  · -- Beyond the first plane the two units are halves, and they make a pair again.
    obtain ⟨high, low, hUnits, hHigh, hLow⟩ : ∃ high low, unitsOf c.toNat = [high, low] ∧
        unit high = 0xD800 + (c.toNat - 0x10000) / 0x400 ∧
        unit low = 0xDC00 + (c.toNat - 0x10000) % 0x400 :=
      ⟨_, _, if_neg hPlane, unit_ofUnit (by omega), unit_ofUnit (by omega)⟩
    have hPair : (isHighHalf high && isLowHalf low) = true := by
      rw [isPair_iff, hHigh, hLow]
      omega
    have hCode : pairCode high low = c.toNat := by
      unfold pairCode
      omega
    rw [hUnits, ← hCode]
    exact pointsOf_pair rest hPair

end Splitting

/-- The unit form of a text stands for its characters. -/
theorem points_split (t : String) : points (split t) = t.toList.map Char.toNat := by
  rw [points, split, String.toList_ofList]
  induction t.toList with
  | nil => rfl
  | cons c rest ih => rw [List.flatMap_cons, pointsOf_unitsOf, ih, List.map_cons]

theorem unitForm_split (t : String) : UnitForm (split t) := by
  intro d hMem
  rw [split, String.toList_ofList] at hMem
  obtain ⟨c, -, hUnit⟩ := List.mem_flatMap.mp hMem
  have hValid := toNat_valid c
  unfold unitsOf at hUnit
  split at hUnit
  next hPlane =>
    rw [List.mem_singleton.mp hUnit, unit_ofUnit hPlane]
    exact hPlane
  next =>
    rcases List.mem_cons.mp hUnit with rfl | hLast
    · rw [unit_ofUnit (by omega)]
      omega
    · rw [List.mem_singleton.mp hLast, unit_ofUnit (by omega)]
      omega

end Text
end WorkflowDag
