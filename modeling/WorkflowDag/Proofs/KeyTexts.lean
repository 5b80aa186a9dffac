import WorkflowDag.Dag.Wiring

/-!
# Texts that tell things apart

Dependencies, signals and gates are told apart by texts in which names stand between separators.
Where names hold no separator that could be mistaken, such a text determines what it was made of, up
to the guard of a branch, which no key shows:

* `Dependency.Separable.unguarded_eq_of_key` for the keys of dependencies, where joins hold neither
  `>` nor `|` and decisions no `/`;
* `Signal.core_eq_of_key` for the keys of signals, whatever names they hold;
* `Wiring.joinKey_inj` for the keys of gates behind joins.
-/

namespace WorkflowDag

namespace Text

/-- What stands before and behind the first mark of a text is determined by the text. -/
theorem eq_of_append_mark {mark : Char} {before before' behind behind' : List Char}
    (hBefore : mark ∉ before) (hBefore' : mark ∉ before')
    (hSame : before ++ mark :: behind = before' ++ mark :: behind') :
    before = before' ∧ behind = behind' := by
  induction before generalizing before' with
  | nil =>
      cases before' with
      | nil => exact ⟨rfl, (List.cons.inj hSame).2⟩
      | cons c rest =>
          rw [List.nil_append, List.cons_append] at hSame
          exact absurd ((List.cons.inj hSame).1 ▸ List.mem_cons_self) hBefore'
  | cons c rest ih =>
      cases before' with
      | nil =>
          rw [List.nil_append, List.cons_append] at hSame
          exact absurd ((List.cons.inj hSame).1 ▸ List.mem_cons_self) hBefore
      | cons c' rest' =>
          rw [List.cons_append, List.cons_append] at hSame
          obtain ⟨rfl, hRest⟩ := List.cons.inj hSame
          have hParts := ih (fun hMark => hBefore (List.mem_cons_of_mem _ hMark))
            (fun hMark => hBefore' (List.mem_cons_of_mem _ hMark)) hRest
          exact ⟨by rw [hParts.1], hParts.2⟩

/-- So is what stands before and behind its last mark. -/
theorem eq_of_append_lastMark {mark : Char} {before before' behind behind' : List Char}
    (hBehind : mark ∉ behind) (hBehind' : mark ∉ behind')
    (hSame : before ++ mark :: behind = before' ++ mark :: behind') :
    before = before' ∧ behind = behind' := by
  have hReversed : behind.reverse ++ mark :: before.reverse =
      behind'.reverse ++ mark :: before'.reverse := by
    simpa using congrArg List.reverse hSame
  obtain ⟨hSameBehind, hSameBefore⟩ := eq_of_append_mark
    (fun hMark => hBehind (List.mem_reverse.mp hMark))
    (fun hMark => hBehind' (List.mem_reverse.mp hMark)) hReversed
  exact ⟨List.reverse_inj.mp hSameBefore, List.reverse_inj.mp hSameBehind⟩

section Separated

variable (mark : Char) {sep : String}

theorem append_sep_inj {a b a' b' : String} (hSep : sep.toList = [mark]) (ha : mark ∉ a.toList)
    (ha' : mark ∉ a'.toList) (hSame : a ++ sep ++ b = a' ++ sep ++ b') : a = a' ∧ b = b' := by
  have hUnits : a.toList ++ mark :: b.toList = a'.toList ++ mark :: b'.toList := by
    simpa [hSep] using congrArg String.toList hSame
  obtain ⟨hBefore, hBehind⟩ := eq_of_append_mark ha ha' hUnits
  exact ⟨String.toList_injective hBefore, String.toList_injective hBehind⟩

theorem append_lastSep_inj {a b a' b' : String} (hSep : sep.toList = [mark])
    (hb : mark ∉ b.toList) (hb' : mark ∉ b'.toList) (hSame : a ++ sep ++ b = a' ++ sep ++ b') :
    a = a' ∧ b = b' := by
  have hUnits : a.toList ++ mark :: b.toList = a'.toList ++ mark :: b'.toList := by
    simpa [hSep] using congrArg String.toList hSame
  obtain ⟨hBefore, hBehind⟩ := eq_of_append_lastMark hb hb' hUnits
  exact ⟨String.toList_injective hBefore, String.toList_injective hBehind⟩

/-- A text with a mark in it is not one without. -/
theorem ne_append_sep {a b c : String} (hSep : sep.toList = [mark]) (hc : mark ∉ c.toList) :
    c ≠ a ++ sep ++ b := by
  rintro rfl
  simp [hSep] at hc

theorem append_sep_ne_empty {a b : String} (hSep : sep.toList = [mark]) : a ++ sep ++ b ≠ "" := by
  intro hEmpty
  have hUnits := congrArg String.toList hEmpty
  simp [hSep] at hUnits

/-- The first of some joined texts is determined when it does not hold the separator. -/
theorem joinWith_cons_inj (hSep : sep.toList = [mark]) {text text' : String}
    {rest rest' : List String} (hText : mark ∉ text.toList) (hText' : mark ∉ text'.toList)
    (hSame : joinWith sep (text :: rest) = joinWith sep (text' :: rest')) :
    text = text' ∧ joinWith sep rest = joinWith sep rest' := by
  cases rest with
  | nil =>
      cases rest' with
      | nil => exact ⟨hSame, rfl⟩
      | cons next' rest' => exact absurd hSame (ne_append_sep mark hSep hText)
  | cons next rest =>
      cases rest' with
      | nil => exact absurd hSame.symm (ne_append_sep mark hSep hText')
      | cons next' rest' => exact append_sep_inj mark hSep hText hText' hSame

/-- Joined texts are empty only when there are none, or when the only one is. -/
theorem joinWith_cons_ne_empty (hSep : sep.toList = [mark]) {text : String} (hText : text ≠ "")
    (rest : List String) : joinWith sep (text :: rest) ≠ "" := by
  cases rest with
  | nil => exact hText
  | cons next rest => exact append_sep_ne_empty mark hSep

/-- Joined texts are determined when none of them is empty or holds the separator. -/
theorem joinWith_inj (hSep : sep.toList = [mark]) (texts texts' : List String)
    (hTexts : ∀ text ∈ texts, text ≠ "" ∧ mark ∉ text.toList)
    (hTexts' : ∀ text ∈ texts', text ≠ "" ∧ mark ∉ text.toList)
    (hSame : joinWith sep texts = joinWith sep texts') : texts = texts' := by
  induction texts generalizing texts' with
  | nil =>
      cases texts' with
      | nil => rfl
      | cons text' rest' =>
          have hText' := (hTexts' text' List.mem_cons_self).1
          exact absurd hSame.symm (joinWith_cons_ne_empty mark hSep hText' rest')
  | cons text rest ih =>
      have hText := hTexts text List.mem_cons_self
      cases texts' with
      | nil => exact absurd hSame (joinWith_cons_ne_empty mark hSep hText.1 rest)
      | cons text' rest' =>
          obtain ⟨hFirst, hOthers⟩ := joinWith_cons_inj mark hSep hText.2
            (hTexts' text' List.mem_cons_self).2 hSame
          have hRest := ih rest' (fun other hMem => hTexts other (List.mem_cons_of_mem _ hMem))
            (fun other hMem => hTexts' other (List.mem_cons_of_mem _ hMem)) hOthers
          rw [hFirst, hRest]

end Separated

/-- What the first of some joined texts begins with, all of them begin with. -/
theorem joinWith_append (sep front text : String) (rest : List String) :
    joinWith sep ((front ++ text) :: rest) = front ++ joinWith sep (text :: rest) := by
  cases rest with
  | nil => rfl
  | cons next rest => simp only [joinWith, String.append_assoc]

theorem isDigit_of_mem_decimal {n : Nat} {c : Char} (hMem : c ∈ (decimal n).toList) :
    c.isDigit = true := by
  rw [decimal, String.toList_ofList] at hMem
  exact Nat.isDigit_of_mem_toDigits (by decide) (by decide) hMem

theorem decimal_injective {m n : Nat} (hSame : decimal m = decimal n) : m = n := by
  have hRead : ∀ k, Nat.ofDigitChars 10 (decimal k).toList 0 = k := by
    intro k
    rw [decimal, String.toList_ofList, Nat.ofDigitChars_ten_toDigits]
  rw [← hRead m, hSame, hRead n]

end Text

/-- The characters that keys put between names. -/
def separators : List Char := ['#', '/', '>', '|', ',']

/-- The text holds no separator, so that it can be found again in a key. -/
def Legible (text : String) : Prop :=
  ∀ mark ∈ separators, mark ∉ text.toList

instance (text : String) : Decidable (Legible text) :=
  List.decidableBAll (fun mark => mark ∉ text.toList) separators

theorem Task.isIdUnit_of_mem_idOf {name : String} :
    ∀ c ∈ (idOf name).toList, isIdUnit c = true := by
  have hMapped : ∀ c ∈ name.toList.map fun c => if isIdUnit c then c else '_',
      isIdUnit c = true := by
    intro c hMem
    obtain ⟨unit, -, rfl⟩ := List.mem_map.mp hMem
    split
    · assumption
    · decide
  intro c hMem
  dsimp only [idOf] at hMem
  split at hMem
  · split at hMem
    · rw [String.toList_ofList] at hMem
      rcases List.mem_cons.mp hMem with rfl | hMem
      · decide
      · exact hMapped c hMem
    · rw [String.toList_ofList] at hMem
      exact hMapped c hMem
  · simp at hMem

theorem legible_idOf (name : String) : Legible (Task.idOf name) := by
  have hNoUnit : separators.all (fun mark => !Task.isIdUnit mark) = true := by decide
  intro mark hMark hMem
  have hOther := List.all_eq_true.mp hNoUnit mark hMark
  rw [Task.isIdUnit_of_mem_idOf mark hMem] at hOther
  cases hOther

theorem Task.idOf_ne_empty {name : String} (hName : name ≠ "") : idOf name ≠ "" := by
  intro hEmpty
  have hUnits : (idOf name).toList = [] := by
    rw [hEmpty]
    rfl
  dsimp only [idOf] at hUnits
  split at hUnits
  next first rest hMapped =>
    split at hUnits
    · simp at hUnits
    · rw [String.toList_ofList, hMapped] at hUnits
      cases hUnits
  next hMapped =>
    have hNone : name.toList = [] := List.map_eq_nil_iff.mp hMapped
    exact hName (String.toList_injective hNone)

theorem legible_caseText (caseIndex : Option Nat) : Legible (caseText caseIndex) := by
  cases caseIndex with
  | none => decide
  | some index =>
      have hNoDigit : separators.all (fun mark => !mark.isDigit) = true := by decide
      intro mark hMark hMem
      have hOther := List.all_eq_true.mp hNoDigit mark hMark
      rw [Text.isDigit_of_mem_decimal hMem] at hOther
      cases hOther

theorem caseText_injective {first second : Option Nat}
    (hSame : caseText first = caseText second) : first = second := by
  -- The word for the default branch begins with a letter.
  have hWord : ∀ index, Text.decimal index ≠ "default" := by
    intro index hWord
    have hLetter : 'd' ∈ (Text.decimal index).toList := by
      rw [hWord]
      decide
    exact absurd (Text.isDigit_of_mem_decimal hLetter) (by decide)
  cases first with
  | none =>
      cases second with
      | none => rfl
      | some index => exact absurd hSame.symm (hWord index)
  | some index =>
      cases second with
      | none => exact absurd hSame (hWord index)
      | some other => exact congrArg some (Text.decimal_injective hSame)

/-- The name, if there is one, can be found again in a key and is told from a missing one. -/
def LegibleName (name? : Option String) : Prop :=
  ∀ name, name? = some name → Legible name ∧ name ≠ ""

/-- The name, if there is one, is not empty and does not hold the mark. -/
def NamedWithout (mark : Char) (name? : Option String) : Prop :=
  ∀ name, name? = some name → name ≠ "" ∧ mark ∉ name.toList

namespace NamedWithout

variable {mark : Char}

theorem none : NamedWithout mark none :=
  fun _ hNone => nomatch hNone

theorem notMem_getD {name? : Option String} (hName : NamedWithout mark name?) :
    mark ∉ (name?.getD "").toList := by
  cases name? with
  | none => simp
  | some name => exact (hName name rfl).2

theorem eq_of_getD {first second : Option String} (hFirst : NamedWithout mark first)
    (hSecond : NamedWithout mark second) (hSame : first.getD "" = second.getD "") :
    first = second := by
  cases first with
  | none =>
      cases second with
      | none => rfl
      | some name => exact absurd hSame.symm (hSecond name rfl).1
  | some name =>
      cases second with
      | none => exact absurd hSame (hFirst name rfl).1
      | some other => exact congrArg some hSame

end NamedWithout

namespace PassedBranch

/-- The branch without its guard. -/
def unguarded (b : PassedBranch) : PassedBranch :=
  { b with guard := none }

/-- The branch can be cut off again where its key stands among others. -/
structure Separable (b : PassedBranch) : Prop where
  decision : '/' ∉ b.decision.toList
  join : NamedWithout '>' b.join

/-- What the key of a branch shows behind its join. -/
def label (b : PassedBranch) : String :=
  b.decision ++ "#" ++ caseText b.caseIndex

theorem key_eq (b : PassedBranch) : b.key = b.join.getD "" ++ ">" ++ b.label := by
  unfold key label
  simp only [String.append_assoc]

theorem key_ne_empty (b : PassedBranch) : b.key ≠ "" :=
  Text.append_sep_ne_empty '#' rfl

theorem Separable.notMem_label {b : PassedBranch} (hb : b.Separable) : '/' ∉ b.label.toList := by
  have hCase := legible_caseText b.caseIndex '/' (by decide)
  simp [label, hb.decision, hCase]

/-- A label shows the decision, whatever it is named: the case behind it holds no `#`. -/
theorem eq_of_label {a b : PassedBranch} (hLabel : a.label = b.label) :
    a.decision = b.decision ∧ a.caseIndex = b.caseIndex := by
  have hCase : ∀ caseIndex, '#' ∉ (caseText caseIndex).toList :=
    fun caseIndex => legible_caseText caseIndex '#' (by decide)
  obtain ⟨hDecision, hIndex⟩ := Text.append_lastSep_inj '#' rfl (hCase _) (hCase _) hLabel
  exact ⟨hDecision, caseText_injective hIndex⟩

/-- The keys of branches, put behind each other, show all of them but their guards. -/
theorem unguarded_eq_of_keys {branches branches' : List PassedBranch}
    (hBranches : ∀ b ∈ branches, b.Separable) (hBranches' : ∀ b ∈ branches', b.Separable)
    (hKeys : Text.joinWith "/" (branches.map key) = Text.joinWith "/" (branches'.map key)) :
    branches.map unguarded = branches'.map unguarded := by
  induction branches generalizing branches' with
  | nil =>
      cases branches' with
      | nil => rfl
      | cons b' rest' =>
          exact absurd hKeys.symm (Text.joinWith_cons_ne_empty '/' rfl b'.key_ne_empty _)
  | cons b rest ih =>
      cases branches' with
      | nil => exact absurd hKeys (Text.joinWith_cons_ne_empty '/' rfl b.key_ne_empty _)
      | cons b' rest' =>
          have hb := hBranches b List.mem_cons_self
          have hb' := hBranches' b' List.mem_cons_self
          -- The join ends at the first arrow, the label behind it at the first slash.
          rw [List.map_cons, List.map_cons, key_eq, key_eq, Text.joinWith_append,
            Text.joinWith_append] at hKeys
          obtain ⟨hJoin, hKeys⟩ :=
            Text.append_sep_inj '>' rfl hb.join.notMem_getD hb'.join.notMem_getD hKeys
          obtain ⟨hLabel, hKeys⟩ :=
            Text.joinWith_cons_inj '/' rfl hb.notMem_label hb'.notMem_label hKeys
          obtain ⟨hDecision, hIndex⟩ := eq_of_label hLabel
          have hRest := ih (fun other hMem => hBranches other (List.mem_cons_of_mem _ hMem))
            (fun other hMem => hBranches' other (List.mem_cons_of_mem _ hMem)) hKeys
          simp only [List.map_cons, hRest, unguarded, hDecision, hIndex,
            hb.join.eq_of_getD hb'.join hJoin]

end PassedBranch

namespace Dependency

/-- The dependency without the guards of its branches. -/
def unguarded (d : Dependency) : Dependency :=
  { d with branches := d.branches.map PassedBranch.unguarded }

/-- The parts of the dependency can be found again in its key. -/
structure Separable (d : Dependency) : Prop where
  origin : NamedWithout '|' d.origin
  branches : ∀ b ∈ d.branches, b.Separable
  join : NamedWithout '|' d.join

/-- A key shows all of a dependency but the guards of its branches. -/
theorem Separable.unguarded_eq_of_key {d e : Dependency} (hd : d.Separable) (he : e.Separable)
    (hKey : d.key = e.key) : d.unguarded = e.unguarded := by
  have hWord : ∀ outcome : Outcome, '|' ∉ outcome.word.toList := by
    intro outcome
    cases outcome <;> decide
  have hWords : ∀ first second : Outcome, first.word = second.word → first = second := by
    intro first second
    cases first <;> cases second <;> decide
  obtain ⟨hOrigin, hKey⟩ :=
    Text.append_sep_inj '|' rfl hd.origin.notMem_getD he.origin.notMem_getD hKey
  obtain ⟨hOutcome, hKey⟩ := Text.append_sep_inj '|' rfl (hWord d.outcome) (hWord e.outcome) hKey
  -- Decisions may hold bars, so the join is found behind the last one.
  obtain ⟨hBranches, hJoin⟩ :=
    Text.append_lastSep_inj '|' rfl hd.join.notMem_getD he.join.notMem_getD hKey
  have hSame := PassedBranch.unguarded_eq_of_keys hd.branches he.branches hBranches
  have hOriginSame := hd.origin.eq_of_getD he.origin hOrigin
  have hJoinSame := hd.join.eq_of_getD he.join hJoin
  unfold unguarded
  rw [hSame, hOriginSame, hJoinSame, hWords _ _ hOutcome]

end Dependency

namespace Signal

/-- What the key of a signal shows of it: of a branch, the decision and the case. -/
def core : Signal → Signal
  | branch step => branch ⟨step.decision, step.caseIndex, none, none⟩
  | signal => signal

/-- The names in a signal can be found again in its key. -/
def Legible : Signal → Prop
  | success task => WorkflowDag.Legible task
  | failure task => WorkflowDag.Legible task
  | branch step => WorkflowDag.Legible step.decision

theorem key_ne_empty (signal : Signal) : signal.key ≠ "" := by
  cases signal with
  | success task => simp [key]
  | failure task => simp [key]
  | branch step => exact Text.append_sep_ne_empty '#' rfl

theorem Legible.notMem_key {signal : Signal} (hSignal : signal.Legible) :
    ',' ∉ signal.key.toList := by
  have hComma : ',' ∈ separators := by decide
  cases signal with
  | success task => simp [key, hSignal ',' hComma]
  | failure task => simp [key, hSignal ',' hComma]
  | branch step =>
      have hDecision := hSignal ',' hComma
      have hCase := legible_caseText step.caseIndex ',' hComma
      simp [key, hDecision, hCase]

/-- A key shows the core of a branch, whatever the decision is named: the case behind it holds no
`#`. -/
private theorem core_eq_of_branchKey {step step' : PassedBranch}
    (hKey : (branch step).key = (branch step').key) : (branch step).core = (branch step').core := by
  have hLabel : step.label = step'.label := by
    simpa [key, PassedBranch.label, String.append_assoc] using hKey
  obtain ⟨hDecision, hCase⟩ := PassedBranch.eq_of_label hLabel
  simp only [core, hDecision, hCase]

/-- A key shows the core of a signal.  Its first units tell signals of different kinds apart. -/
theorem core_eq_of_key {first second : Signal} (hKey : first.key = second.key) :
    first.core = second.core := by
  cases first with
  | success task =>
      cases second with
      | success other => simpa [key, core] using hKey
      | failure other => exact absurd (congrArg String.toList hKey) (by simp [key])
      | branch step => exact absurd (congrArg String.toList hKey) (by simp [key])
  | failure task =>
      cases second with
      | success other => exact absurd (congrArg String.toList hKey) (by simp [key])
      | failure other => simpa [key, core] using hKey
      | branch step => exact absurd (congrArg String.toList hKey) (by simp [key])
  | branch step =>
      cases second with
      | success other => exact absurd (congrArg String.toList hKey) (by simp [key])
      | failure other => exact absurd (congrArg String.toList hKey) (by simp [key])
      | branch step' => exact core_eq_of_branchKey hKey

end Signal

namespace Wiring

theorem failureKey_injective {task task' : String} (hKey : failureKey task = failureKey task') :
    task = task' := by
  simpa [failureKey] using hKey

theorem failureKey_ne_joinKey (task join : String) (signals : List Signal) :
    failureKey task ≠ joinKey join signals := by
  intro hKey
  have hUnits := congrArg String.toList hKey
  simp [failureKey, joinKey] at hUnits

private theorem signalKeys {signals : List Signal} (hSignals : ∀ signal ∈ signals, signal.Legible) :
    ∀ text ∈ signals.map Signal.key, text ≠ "" ∧ ',' ∉ text.toList := by
  intro text hText
  obtain ⟨signal, hSignal, rfl⟩ := List.mem_map.mp hText
  exact ⟨signal.key_ne_empty, (hSignals signal hSignal).notMem_key⟩

/-- The key of a gate behind a join shows the signals that are gathered there. -/
theorem joinKey_inj {join join' : String} {signals signals' : List Signal} (hJoin : Legible join)
    (hOther : Legible join') (hSignals : ∀ signal ∈ signals, signal.Legible)
    (hSignals' : ∀ signal ∈ signals', signal.Legible)
    (hKey : joinKey join signals = joinKey join' signals') :
    join = join' ∧ signals.map Signal.core = signals'.map Signal.core := by
  have hBar : '|' ∈ separators := by decide
  obtain ⟨hFront, hTexts⟩ := Text.append_sep_inj '|' rfl (by simp [hJoin '|' hBar])
    (by simp [hOther '|' hBar]) hKey
  have hKeys := Text.joinWith_inj ',' rfl _ _ (signalKeys hSignals) (signalKeys hSignals') hTexts
  refine ⟨by simpa using hFront, ?_⟩
  clear hKey hFront hTexts
  induction signals generalizing signals' with
  | nil =>
      cases signals' with
      | nil => rfl
      | cons signal' rest' => cases hKeys
  | cons signal rest ih =>
      cases signals' with
      | nil => cases hKeys
      | cons signal' rest' =>
          obtain ⟨hFirst, hRest⟩ := List.cons.inj hKeys
          have hCore := Signal.core_eq_of_key hFirst
          have hCores := ih (fun other hMem => hSignals other (List.mem_cons_of_mem _ hMem))
            (fun other hMem => hSignals' other (List.mem_cons_of_mem _ hMem)) hRest
          rw [List.map_cons, List.map_cons, hCore, hCores]

end Wiring
end WorkflowDag
