import Mathlib.Data.List.Induction
import Mathlib.Data.List.Nodup
import WorkflowDag.Task.Arrival

/-!
# Grouping signals into arrivals

`Arrival.group` puts every signal into the arrival of its join, or into one of its own.  `Grouped`
is what holds of the groups made so far; `Grouped.place` keeps it for one more signal.  From it
follow the two directions that later proofs use: the signals of an arrival are among those given
(`mem_of_mem_group`), and every signal given has its key in an arrival of its join
(`exists_mem_group`).
-/

namespace WorkflowDag

section FirstOccurrences

variable {α : Type} [DecidableEq α]

/-- One more item counts when it is new. -/
theorem eraseDups_concat (items : List α) (item : α) :
    (items ++ [item]).eraseDups =
      if item ∈ items then items.eraseDups else items.eraseDups ++ [item] := by
  rw [List.eraseDups_append]
  split
  next hKnown => simp [List.removeAll, hKnown]
  next hNew => simp [List.removeAll, hNew, List.eraseDups_cons]

/-- Erasing repetitions leaves none. -/
theorem nodup_eraseDups (items : List α) : items.eraseDups.Nodup := by
  induction items using List.reverseRecOn with
  | nil => exact List.nodup_nil
  | append_singleton items item ih =>
      rw [eraseDups_concat]
      split
      · exact ih
      next hNew =>
        rw [List.nodup_append]
        refine ⟨ih, List.nodup_singleton item, ?_⟩
        rintro other hOther _ hItem rfl
        rw [List.mem_singleton.mp hItem, List.mem_eraseDups] at hOther
        exact hNew hOther

end FirstOccurrences

namespace Arrival

/-- The key of a signal shows the join at which it is gathered. -/
theorem join_eq_of_keyOf {e other : JoinedSignal} (hKey : keyOf e = keyOf other) :
    e.join = other.join := by
  obtain ⟨signal, join⟩ := e
  obtain ⟨signal', join'⟩ := other
  cases join with
  | none =>
      cases join' with
      | none => rfl
      | some name => exact absurd (congrArg String.toList hKey) (by simp [keyOf])
  | some name =>
      cases join' with
      | none => exact absurd (congrArg String.toList hKey) (by simp [keyOf])
      | some name' => simpa [keyOf] using hKey

section AddSignal

variable (a : Arrival) (signal : Signal)

theorem join_addSignal : (a.addSignal signal).join = a.join := by
  unfold addSignal
  split <;> rfl

theorem signals_subset_addSignal : a.signals ⊆ (a.addSignal signal).signals := by
  unfold addSignal
  split
  · exact List.Subset.refl _
  · exact List.subset_append_left _ _

variable {a signal}

theorem mem_addSignal {other : Signal} (hMem : other ∈ (a.addSignal signal).signals) :
    other ∈ a.signals ∨ other = signal := by
  unfold addSignal at hMem
  split at hMem
  · exact Or.inl hMem
  · rcases List.mem_append.mp hMem with hOld | hNew
    · exact Or.inl hOld
    · exact Or.inr (List.mem_singleton.mp hNew)

variable (a signal)

/-- After it has been added, a signal has its key in the arrival. -/
theorem exists_key_addSignal :
    ∃ other ∈ (a.addSignal signal).signals, other.key = signal.key := by
  unfold addSignal
  split
  next hKnown =>
    obtain ⟨other, hOther, hKey⟩ := List.any_eq_true.mp hKnown
    exact ⟨other, hOther, eq_of_beq hKey⟩
  next =>
    exact ⟨signal, List.mem_append_right _ (List.mem_singleton.mpr rfl), rfl⟩

end AddSignal

section Place

variable {e : JoinedSignal}

/-- What stands in the groups after a signal has been placed. -/
theorem mem_place {key : String} {a : Arrival} {groups : List (String × Arrival)}
    (hMem : (key, a) ∈ place e groups) :
    (key, a) ∈ groups ∨ (key = keyOf e ∧ a = ⟨e.join, [e.signal]⟩) ∨
      (key = keyOf e ∧ ∃ former, (key, former) ∈ groups ∧ a = former.addSignal e.signal) := by
  induction groups with
  | nil =>
      cases List.mem_singleton.mp hMem
      exact Or.inr (Or.inl ⟨rfl, rfl⟩)
  | cons head rest ih =>
      obtain ⟨headKey, headArrival⟩ := head
      by_cases hKey : headKey = keyOf e
      · simp only [place, hKey, beq_self_eq_true, if_true] at hMem
        rcases List.mem_cons.mp hMem with hHead | hRest
        · cases hHead
          exact Or.inr (Or.inr ⟨rfl, headArrival, hKey ▸ List.mem_cons_self, rfl⟩)
        · exact Or.inl (List.mem_cons_of_mem _ hRest)
      · simp only [place, beq_eq_false_iff_ne.mpr hKey, Bool.false_eq_true, if_false] at hMem
        rcases List.mem_cons.mp hMem with hHead | hRest
        · exact Or.inl (hHead ▸ List.mem_cons_self)
        · rcases ih hRest with hOld | hNew | ⟨hSame, former, hFormer, hGrown⟩
          · exact Or.inl (List.mem_cons_of_mem _ hOld)
          · exact Or.inr (Or.inl hNew)
          · exact Or.inr (Or.inr ⟨hSame, former, List.mem_cons_of_mem _ hFormer, hGrown⟩)

/-- No group is lost, and none loses a signal. -/
theorem exists_mem_place_of_mem {key : String} {a : Arrival} {groups : List (String × Arrival)}
    (hMem : (key, a) ∈ groups) :
    ∃ later, (key, later) ∈ place e groups ∧ later.join = a.join ∧ a.signals ⊆ later.signals := by
  induction groups with
  | nil => exact absurd hMem List.not_mem_nil
  | cons head rest ih =>
      obtain ⟨headKey, headArrival⟩ := head
      by_cases hKey : headKey = keyOf e
      · simp only [place, hKey, beq_self_eq_true, if_true]
        rcases List.mem_cons.mp hMem with hHead | hRest
        · cases hHead
          exact ⟨a.addSignal e.signal, hKey ▸ List.mem_cons_self, join_addSignal a e.signal,
            signals_subset_addSignal a e.signal⟩
        · exact ⟨a, List.mem_cons_of_mem _ hRest, rfl, List.Subset.refl _⟩
      · simp only [place, beq_eq_false_iff_ne.mpr hKey, Bool.false_eq_true, if_false]
        rcases List.mem_cons.mp hMem with hHead | hRest
        · exact ⟨a, hHead ▸ List.mem_cons_self, rfl, List.Subset.refl _⟩
        · obtain ⟨later, hLater, hJoin, hGrown⟩ := ih hRest
          exact ⟨later, List.mem_cons_of_mem _ hLater, hJoin, hGrown⟩

variable (e) in
/-- The signal placed has its key in the group of its own key. -/
theorem exists_placed (groups : List (String × Arrival)) :
    ∃ a, (keyOf e, a) ∈ place e groups ∧ ∃ other ∈ a.signals, other.key = e.signal.key := by
  induction groups with
  | nil =>
      exact ⟨⟨e.join, [e.signal]⟩, List.mem_singleton.mpr rfl, e.signal,
        List.mem_singleton.mpr rfl, rfl⟩
  | cons head rest ih =>
      obtain ⟨headKey, headArrival⟩ := head
      by_cases hKey : headKey = keyOf e
      · simp only [place, hKey, beq_self_eq_true, if_true]
        exact ⟨headArrival.addSignal e.signal, List.mem_cons_self,
          exists_key_addSignal headArrival e.signal⟩
      · simp only [place, beq_eq_false_iff_ne.mpr hKey, Bool.false_eq_true, if_false]
        obtain ⟨a, hMem, hSignal⟩ := ih
        exact ⟨a, List.mem_cons_of_mem _ hMem, hSignal⟩

end Place

/-- The groups hold the signals of the entries, each in the group of its key. -/
structure Grouped (entries : List JoinedSignal) (groups : List (String × Arrival)) : Prop where
  filled : ∀ key a, (key, a) ∈ groups → a.signals ≠ []
  sound : ∀ key a, (key, a) ∈ groups → ∀ signal ∈ a.signals,
    ⟨signal, a.join⟩ ∈ entries ∧ keyOf ⟨signal, a.join⟩ = key
  complete : ∀ e ∈ entries, ∃ key a, (key, a) ∈ groups ∧ a.join = e.join ∧
    ∃ other ∈ a.signals, other.key = e.signal.key

/-- All of a group have the join that its key shows. -/
theorem Grouped.join_eq {entries : List JoinedSignal} {groups : List (String × Arrival)}
    {e : JoinedSignal} {a : Arrival} (hGrouped : Grouped entries groups)
    (hMem : (keyOf e, a) ∈ groups) : a.join = e.join := by
  obtain ⟨signal, hSignal⟩ := List.exists_mem_of_ne_nil _ (hGrouped.filled _ a hMem)
  have hKey := (hGrouped.sound _ a hMem signal hSignal).2
  exact join_eq_of_keyOf hKey

/-- Placing one more signal keeps the groups right. -/
theorem Grouped.place {entries : List JoinedSignal} {groups : List (String × Arrival)}
    (hGrouped : Grouped entries groups) (e : JoinedSignal) :
    Grouped (entries ++ [e]) (place e groups) where
  filled := by
    intro key a hMem
    rcases mem_place hMem with hOld | ⟨-, rfl⟩ | ⟨-, former, hFormer, rfl⟩
    · exact hGrouped.filled key a hOld
    · exact List.cons_ne_nil _ _
    · -- A group that grows was filled before.
      intro hEmpty
      have hSubset := signals_subset_addSignal former e.signal
      rw [hEmpty] at hSubset
      exact hGrouped.filled key former hFormer (List.subset_nil.mp hSubset)
  sound := by
    intro key a hMem signal hSignal
    have hNew : e ∈ entries ++ [e] := List.mem_append_right _ (List.mem_singleton.mpr rfl)
    rcases mem_place hMem with hOld | ⟨rfl, rfl⟩ | ⟨rfl, former, hFormer, rfl⟩
    · have hSound := hGrouped.sound key a hOld signal hSignal
      exact ⟨List.mem_append_left _ hSound.1, hSound.2⟩
    · rw [List.mem_singleton.mp hSignal]
      exact ⟨hNew, rfl⟩
    · rw [join_addSignal]
      rcases mem_addSignal hSignal with hOld | rfl
      · have hSound := hGrouped.sound _ former hFormer signal hOld
        exact ⟨List.mem_append_left _ hSound.1, hSound.2⟩
      · rw [hGrouped.join_eq hFormer]
        exact ⟨hNew, rfl⟩
  complete := by
    intro other hOther
    rcases List.mem_append.mp hOther with hOld | hNew
    · obtain ⟨key, a, hMem, hJoin, signal, hSignal, hKey⟩ := hGrouped.complete other hOld
      obtain ⟨later, hLater, hSame, hGrown⟩ := exists_mem_place_of_mem (e := e) hMem
      exact ⟨key, later, hLater, hSame.trans hJoin, signal, hGrown hSignal, hKey⟩
    · rw [List.mem_singleton.mp hNew]
      obtain ⟨a, hMem, hSignal⟩ := exists_placed e groups
      refine ⟨keyOf e, a, hMem, ?_, hSignal⟩
      -- The group was there before, with the same join, or it is the signal's own.
      rcases mem_place hMem with hKnown | ⟨-, rfl⟩ | ⟨-, former, hFormer, rfl⟩
      · exact hGrouped.join_eq hKnown
      · rfl
      · rw [join_addSignal]
        exact hGrouped.join_eq hFormer

theorem grouped_foldl (more : List JoinedSignal) :
    ∀ {entries : List JoinedSignal} {groups : List (String × Arrival)},
      Grouped entries groups →
      Grouped (entries ++ more) (more.foldl (fun acc e => place e acc) groups) := by
  induction more with
  | nil =>
      intro entries groups hGrouped
      rwa [List.append_nil]
  | cons e rest ih =>
      intro entries groups hGrouped
      have hNext := ih (hGrouped.place e)
      rwa [List.append_assoc, List.singleton_append] at hNext

theorem grouped (entries : List JoinedSignal) :
    Grouped entries (entries.foldl (fun acc e => place e acc) []) := by
  have hEmpty : Grouped [] [] :=
    ⟨fun _ _ hMem => absurd hMem List.not_mem_nil, fun _ _ hMem => absurd hMem List.not_mem_nil,
      fun _ hMem => absurd hMem List.not_mem_nil⟩
  exact grouped_foldl entries hEmpty

section Group

variable {entries : List JoinedSignal} {a : Arrival}

theorem signals_ne_nil_of_mem_group (hMem : a ∈ group entries) : a.signals ≠ [] := by
  obtain ⟨⟨key, arrival⟩, hPair, rfl⟩ := List.mem_map.mp hMem
  exact (grouped entries).filled key arrival hPair

/-- The signals of an arrival are gathered at its join. -/
theorem mem_of_mem_group (hMem : a ∈ group entries) {signal : Signal}
    (hSignal : signal ∈ a.signals) : ⟨signal, a.join⟩ ∈ entries := by
  obtain ⟨⟨key, arrival⟩, hPair, rfl⟩ := List.mem_map.mp hMem
  exact ((grouped entries).sound key arrival hPair signal hSignal).1

/-- Every signal has its key in an arrival of its join. -/
theorem exists_mem_group {e : JoinedSignal} (hMem : e ∈ entries) :
    ∃ a ∈ group entries, a.join = e.join ∧ ∃ other ∈ a.signals, other.key = e.signal.key := by
  obtain ⟨key, a, hPair, hJoin, hSignal⟩ := (grouped entries).complete e hMem
  exact ⟨a, List.mem_map.mpr ⟨(key, a), hPair, rfl⟩, hJoin, hSignal⟩

theorem group_eq_nil_iff : group entries = [] ↔ entries = [] := by
  constructor
  · intro hNone
    rw [List.eq_nil_iff_forall_not_mem]
    intro e hMem
    obtain ⟨a, hArrival, -⟩ := exists_mem_group hMem
    rw [hNone] at hArrival
    exact List.not_mem_nil hArrival
  · rintro rfl
    rfl

end Group

end Arrival

namespace TriggerRule

/-- One failure is waited on exactly where every arrival is a failure on its own. -/
theorem ofArrivals_eq_oneFailed_iff (first : Arrival) (others : List Arrival) :
    ofArrivals (first :: others) = .oneFailed ↔
      (first :: others).all Arrival.onlyFailures = true := by
  by_cases hAll : (first :: others).all Arrival.onlyFailures = true
  · simp only [ofArrivals, hAll, if_true]
  · refine ⟨fun hRule => ?_, fun hOther => absurd hOther hAll⟩
    rw [ofArrivals, if_neg hAll] at hRule
    split at hRule
    · cases hRule
    · split at hRule <;> cases hRule

theorem eq_failure_of_oneFailed {found : List Arrival} (hRule : ofArrivals found = .oneFailed)
    {a : Arrival} (hMem : a ∈ found) {signal : Signal} (hSignal : signal ∈ a.signals) :
    ∃ task, signal = .failure task := by
  cases found with
  | nil => exact absurd hMem List.not_mem_nil
  | cons first others =>
      have hAll := (ofArrivals_eq_oneFailed_iff first others).mp hRule
      have hOnly := List.all_eq_true.mp hAll a hMem
      unfold Arrival.onlyFailures at hOnly
      split at hOnly
      next only hSignals =>
        rw [hSignals, List.mem_singleton] at hSignal
        rw [hSignal]
        cases only with
        | success task => cases hOnly
        | failure task => exact ⟨task, rfl⟩
        | branch step => cases hOnly
      next => cases hOnly

theorem ofArrivals_single {only : Arrival} (hRule : ofArrivals [only] ≠ .oneFailed) :
    ofArrivals [only] =
      if 1 < only.signals.length then .noneFailedMinOneSuccess else .allSuccess := by
  rw [Ne, ofArrivals_eq_oneFailed_iff] at hRule
  simp only [ofArrivals, hRule]
  rfl

theorem ofArrivals_several {found : List Arrival} (hRule : ofArrivals found ≠ .oneFailed)
    (hFound : ∀ only, found ≠ [only]) : found = [] ∨ ofArrivals found = .oneSuccess := by
  cases found with
  | nil => exact Or.inl rfl
  | cons first others =>
      right
      cases others with
      | nil => exact absurd rfl (hFound first)
      | cons second rest =>
          rw [Ne, ofArrivals_eq_oneFailed_iff] at hRule
          simp only [ofArrivals, hRule]
          rfl

end TriggerRule

end WorkflowDag
