import WorkflowDag.Settings.Reading

/-!
# The schema of settings

Settings are read by one reader for each value.  The schema says as data which names there are,
inside and outside the three sections, and what kind of value stands under each of them.  Settings
are also written back as the entries of an object, so that what was taken can be compared with what
was given.

A reader takes exactly the values of its kind and keeps what it was given (`Reads`).  From this the
whole object follows: reading succeeds exactly when the object conforms to the schema
(`accepted_readEntries_iff`), and the settings then hold every value given, over the defaults
(`holds_of_readEntries`).  A section that is not an object counts as empty, and this is the one way
in which a value is lost.

Main statement: `given_values_kept`.
-/

namespace WorkflowDag

namespace Checked

variable {α β : Type}

/-- A value was found. -/
def Accepted (x : Checked α) : Prop :=
  ∃ a, x = .valid a

/-- Without a problem there is a value: a refusal always gives a reason. -/
def Explained (x : Checked α) : Prop :=
  x.problems = [] → x.Accepted

theorem map_eq_valid_iff {f : α → β} {x : Checked α} {b : β} :
    x.map f = .valid b ↔ ∃ a, x = .valid a ∧ f a = b := by
  cases x <;> simp [map]

theorem ap_eq_valid_iff {f : Checked (α → β)} {x : Checked α} {b : β} :
    f.ap x = .valid b ↔ ∃ g, f = .valid g ∧ ∃ a, x = .valid a ∧ g a = b := by
  cases f <;> cases x <;> simp [ap]

theorem map_ap_eq_valid_iff {γ : Type} {f : α → β → γ} {x : Checked α} {y : Checked β} {c : γ} :
    (x.map f).ap y = .valid c ↔ ∃ a, x = .valid a ∧ ∃ b, y = .valid b ∧ f a b = c := by
  cases x <;> cases y <;> simp [map, ap]

theorem after_eq_valid_iff {check : List ConfigurationProblem} {x : Checked α} {a : α} :
    after check x = .valid a ↔ check = [] ∧ x = .valid a := by
  cases check <;> simp [after]

@[simp]
theorem accepted_valid (a : α) : (valid a).Accepted :=
  ⟨a, rfl⟩

@[simp]
theorem accepted_map_iff {f : α → β} {x : Checked α} : (x.map f).Accepted ↔ x.Accepted := by
  cases x <;> simp [Accepted, map]

@[simp]
theorem accepted_ap_iff {f : Checked (α → β)} {x : Checked α} :
    (f.ap x).Accepted ↔ f.Accepted ∧ x.Accepted := by
  cases f <;> cases x <;> simp [Accepted, ap]

@[simp]
theorem accepted_after_iff {check : List ConfigurationProblem} {x : Checked α} :
    (after check x).Accepted ↔ check = [] ∧ x.Accepted := by
  simp [Accepted, after_eq_valid_iff]

theorem problems_map (f : α → β) (x : Checked α) : (x.map f).problems = x.problems := by
  cases x <;> rfl

theorem problems_ap (f : Checked (α → β)) (x : Checked α) :
    (f.ap x).problems = f.problems ++ x.problems := by
  cases f <;> cases x <;> rfl

theorem problems_after (check : List ConfigurationProblem) (x : Checked α) :
    (after check x).problems = check ++ x.problems := by
  cases check <;> rfl

theorem Explained.valid (a : α) : (Checked.valid a).Explained :=
  fun _ => accepted_valid a

theorem Explained.map {x : Checked α} (hx : x.Explained) (f : α → β) : (x.map f).Explained := by
  intro hNone
  rw [problems_map] at hNone
  exact accepted_map_iff.mpr (hx hNone)

theorem Explained.ap {f : Checked (α → β)} {x : Checked α} (hf : f.Explained) (hx : x.Explained) :
    (f.ap x).Explained := by
  intro hNone
  rw [problems_ap, List.append_eq_nil_iff] at hNone
  exact accepted_ap_iff.mpr ⟨hf hNone.1, hx hNone.2⟩

theorem Explained.after {x : Checked α} (hx : x.Explained) (check : List ConfigurationProblem) :
    (Checked.after check x).Explained := by
  intro hNone
  rw [problems_after, List.append_eq_nil_iff] at hNone
  exact accepted_after_iff.mpr ⟨hNone.1, hx hNone.2⟩

end Checked

namespace Json

theorem lookup?_append (entries others : List (String × Json)) (name : String) :
    lookup? (entries ++ others) name =
      (lookup? entries name).or (lookup? others name) := by
  simp [lookup?, List.find?_append, Option.map_or]

theorem lookup?_cons (name' : String) (value : Json) (rest : List (String × Json)) (name : String) :
    lookup? ((name', value) :: rest) name =
      if name' = name then some value else lookup? rest name := by
  by_cases hName : name' = name <;> simp [lookup?, hName]

theorem mem_of_lookup? {entries : List (String × Json)} {name : String} {value : Json}
    (hLookup : lookup? entries name = some value) : (name, value) ∈ entries := by
  obtain ⟨⟨name', value'⟩, hFind, rfl⟩ := Option.map_eq_some_iff.mp hLookup
  obtain rfl : name' = name := by simpa using List.find?_some hFind
  exact List.mem_of_find?_eq_some hFind

end Json

namespace Settings

open Checked

/-! ## The schema -/

/-- The kinds of value that settings hold. -/
inductive Kind where
  | name
  | days
  | truth
  | choice
  | texts
  | record

/-- A value is of a kind. -/
def Kind.Fits : Kind → Json → Prop
  | name, value => ∃ text, text ≠ "" ∧ value = .string text
  | days, value => ∃ n : Number, n.isInteger = true ∧ n.isNegative = false ∧ value = .number n
  | truth, value => ∃ b, value = .bool b
  | choice, value => value = .string "error" ∨ value = .string "defer"
  | texts, value => ∃ items : List String, value = .array (items.map .string)
  | record, value =>
    ∃ entries : List (String × String),
      value = .object (entries.map fun entry => (entry.1, .string entry.2))

/-- The values outside sections. -/
def fields : List (String × Kind) :=
  [("dagName", .name), ("user", .name), ("startDaysAgo", .days), ("scheduleIntervalDays", .days),
    ("strictDecisions", .truth), ("properties", .record)]

/-- The sections, with the values in each of them. -/
def sections : List (String × List (String × Kind)) :=
  [("dataproc", [("cluster", .name), ("region", .name)]), ("el", [("unresolved", .choice)]),
    ("assets", [("exclude", .texts)])]

/-- The names of the sections. -/
def sectionNames : List String :=
  sections.map Prod.fst

/-- The value that an object has under a name, if any, is of the kind of the field. -/
def FitsAt (entries : List (String × Json)) (field : String × Kind) : Prop :=
  ∀ value, Json.lookup? entries field.1 = some value → field.2.Fits value

/-- An object has no names but those of the fields, and the values are of their kinds. -/
structure Declared (schema : List (String × Kind)) (entries : List (String × Json)) : Prop where
  known : ∀ entry ∈ entries, entry.1 ∈ schema.map Prod.fst
  fits : ∀ field ∈ schema, FitsAt entries field

/-- An object conforms to the schema.  Nothing is said of a section that is not an object. -/
structure Conforms (raw : List (String × Json)) : Prop where
  known : ∀ entry ∈ raw, entry.1 ∈ fields.map Prod.fst ++ sectionNames
  fits : ∀ field ∈ fields, FitsAt raw field
  sections : ∀ part ∈ sections, ∀ given, Json.lookup? raw part.1 = some (.object given) →
    Declared part.2 given

/-! ## Settings as an object -/

/-- What to do with undefined names, as it is written. -/
def writeUnresolved : Unresolved → Json
  | .error => .string "error"
  | .defer => .string "defer"

/-- A list of texts as it is written. -/
def writeTexts (items : List String) : Json :=
  .array (items.map .string)

/-- A record as it is written. -/
def writeRecord (r : Record) : Json :=
  .object (r.entries.map fun entry => (entry.1, .string entry.2))

/-- An entry that is written when it has a value. -/
def optionalEntry (name : String) (text : Option String) : List (String × Json) :=
  text.toList.map fun text => (name, .string text)

theorem lookup?_optionalEntry (name' : String) (text : Option String) (name : String) :
    Json.lookup? (optionalEntry name' text) name =
      if name' = name then text.map .string else none := by
  cases text <;> simp [optionalEntry, Json.lookup?]

/-- The entries of settings written as an object. -/
def toEntries (s : Settings) : List (String × Json) :=
  optionalEntry "dagName" s.dagName ++ optionalEntry "user" s.user ++
    [("startDaysAgo", .number s.startDaysAgo),
      ("scheduleIntervalDays", .number s.scheduleIntervalDays),
      ("dataproc", .object [("cluster", .string s.target.cluster),
        ("region", .string s.target.region)]),
      ("el", .object [("unresolved", writeUnresolved s.unresolved)]),
      ("strictDecisions", .bool s.strictDecisions),
      ("assets", .object [("exclude", writeTexts s.exclude)]),
      ("properties", writeRecord s.properties)]

/-- Settings hold the values that an object gives, and the defaults where it gives none.  Sections
are taken entry by entry. -/
structure Holds (s : Settings) (raw : List (String × Json)) : Prop where
  fields : ∀ field ∈ fields, Json.lookup? s.toEntries field.1 =
    (Json.lookup? raw field.1).or (Json.lookup? ({} : Settings).toEntries field.1)
  sections : ∀ part ∈ sections, ∀ field ∈ part.2,
    Json.lookup? (sectionOf s.toEntries part.1) field.1 =
      (Json.lookup? (sectionOf raw part.1) field.1).or
        (Json.lookup? (sectionOf ({} : Settings).toEntries part.1) field.1)

/-- A value given under a name is in the settings.  A section is given as an object, and then each
of its entries is in the section. -/
def Keeps (s : Settings) (name : String) (value : Json) : Prop :=
  if name ∈ sectionNames then
    ∃ given, value = .object given ∧ ∀ key item, Json.lookup? given key = some item →
      Json.lookup? (sectionOf s.toEntries name) key = some item
  else Json.lookup? s.toEntries name = some value

/-- A section is given, but not as an object. -/
def Stray (name : String) (value : Json) : Prop :=
  name ∈ sectionNames ∧ ∀ given, value ≠ .object given

/-! ## The readers -/

section Readers

variable {α : Type} {read : String → Json → Checked α} {kind : Kind} {write : α → Json}

/-- A reader takes exactly the values of a kind, and what it reads is written as the value was. -/
structure Reads (read : String → Json → Checked α) (kind : Kind) (write : α → Json) : Prop where
  valid_iff : ∀ path value a, read path value = .valid a ↔ kind.Fits value ∧ value = write a
  written : ∀ value, kind.Fits value → ∃ a, value = write a
  explained : ∀ path value, (read path value).Explained

theorem Reads.accepted_iff (hReads : Reads read kind write) {path : String} {value : Json} :
    (read path value).Accepted ↔ kind.Fits value := by
  constructor
  · rintro ⟨a, hRead⟩
    exact ((hReads.valid_iff path value a).mp hRead).1
  · intro hFits
    obtain ⟨a, hWritten⟩ := hReads.written value hFits
    exact ⟨a, (hReads.valid_iff path value a).mpr ⟨hFits, hWritten⟩⟩

theorem explained_fault (path : String) (f : SettingFault) :
    (fault path f : Checked α).Explained := by
  simp [Explained, fault, problems]

theorem fault_ne_valid (path : String) (f : SettingFault) (a : α) : fault path f ≠ .valid a := by
  simp [fault]

theorem readText_eq_valid_iff {path : String} {value : Json} {text : String} :
    readText path value = .valid text ↔ value = .string text := by
  cases value <;> simp [readText, fault_ne_valid]

theorem explained_readText (path : String) (value : Json) : (readText path value).Explained := by
  unfold readText
  split
  · exact .valid _
  · exact explained_fault _ _

theorem reads_readName : Reads readName .name .string where
  valid_iff path value a := by
    cases value with
    | string text =>
        simp only [readName, Kind.Fits]
        split <;> grind [fault_ne_valid]
    | _ => simp [readName, Kind.Fits, fault_ne_valid]
  written value := by
    rintro ⟨text, -, hValue⟩
    exact ⟨text, hValue⟩
  explained path value := by
    unfold readName
    split
    · split
      · exact explained_fault _ _
      · exact .valid _
    · exact explained_fault _ _

theorem reads_readDays : Reads readDays .days .number where
  valid_iff path value a := by
    cases value with
    | number n =>
        simp only [readDays, Kind.Fits]
        split <;> grind [fault_ne_valid]
    | _ => simp [readDays, Kind.Fits, fault_ne_valid]
  written value := by
    rintro ⟨n, -, -, hValue⟩
    exact ⟨n, hValue⟩
  explained path value := by
    unfold readDays
    split
    · split
      · exact explained_fault _ _
      · split
        · exact explained_fault _ _
        · exact .valid _
    · exact explained_fault _ _

theorem reads_readBool : Reads readBool .truth .bool where
  valid_iff path value a := by
    cases value <;> simp [readBool, Kind.Fits, fault_ne_valid]
  written value := id
  explained path value := by
    unfold readBool
    split
    · exact .valid _
    · exact explained_fault _ _

theorem reads_readUnresolved : Reads readUnresolved .choice writeUnresolved where
  valid_iff path value a := by
    cases value with
    | string text =>
        simp only [readUnresolved, Kind.Fits]
        cases a <;> grind [fault_ne_valid, writeUnresolved]
    | _ => simp [readUnresolved, Kind.Fits, fault_ne_valid]
  written value := by
    rintro (rfl | rfl)
    · exact ⟨.error, rfl⟩
    · exact ⟨.defer, rfl⟩
  explained path value := by
    unfold readUnresolved
    split
    · split
      · exact .valid _
      · split
        · exact .valid _
        · exact explained_fault _ _
    · exact explained_fault _ _

theorem readItems_eq_valid_iff {path : String} {items : List Json} {texts : List String} {n : Nat} :
    readItems path n items = .valid texts ↔ items = texts.map .string := by
  induction items generalizing n texts with
  | nil => cases texts <;> simp [readItems]
  | cons item rest ih =>
      simp only [readItems, map_ap_eq_valid_iff, readText_eq_valid_iff, ih]
      cases texts <;> simp

theorem explained_readItems (path : String) (n : Nat) (items : List Json) :
    (readItems path n items).Explained := by
  induction items generalizing n with
  | nil => exact .valid _
  | cons item rest ih => exact ((explained_readText _ _).map _).ap (ih _)

theorem reads_readTexts : Reads readTexts .texts writeTexts where
  valid_iff path value a := by
    cases value with
    | array items =>
        simp only [readTexts, readItems_eq_valid_iff, Kind.Fits, writeTexts, Json.array.injEq]
        exact ⟨fun h => ⟨⟨a, h⟩, h⟩, And.right⟩
    | _ => simp [readTexts, Kind.Fits, fault_ne_valid]
  written value := id
  explained path value := by
    unfold readTexts
    split
    · exact explained_readItems _ _ _
    · exact explained_fault _ _

theorem readRecordEntries_eq_valid_iff {path : String} {entries : List (String × Json)}
    {texts : List (String × String)} :
    readRecordEntries path entries = .valid texts ↔
      entries = texts.map fun entry => (entry.1, .string entry.2) := by
  induction entries generalizing texts with
  | nil => cases texts <;> simp [readRecordEntries]
  | cons entry rest ih =>
      simp only [readRecordEntries, map_ap_eq_valid_iff, readText_eq_valid_iff, ih]
      cases texts <;> grind

theorem explained_readRecordEntries (path : String) (entries : List (String × Json)) :
    (readRecordEntries path entries).Explained := by
  induction entries with
  | nil => exact .valid _
  | cons entry rest ih => exact ((explained_readText _ _).map _).ap ih

theorem reads_readRecord : Reads readRecord .record writeRecord where
  valid_iff path value a := by
    cases value with
    | object entries =>
        simp only [readRecord, map_eq_valid_iff, readRecordEntries_eq_valid_iff, Kind.Fits,
          writeRecord, Json.object.injEq]
        constructor
        · rintro ⟨texts, hEntries, rfl⟩
          exact ⟨⟨texts, hEntries⟩, hEntries⟩
        · rintro ⟨-, hEntries⟩
          exact ⟨a.entries, hEntries, rfl⟩
    | _ => simp [readRecord, Kind.Fits, fault_ne_valid]
  written value := by
    rintro ⟨entries, hValue⟩
    exact ⟨⟨entries⟩, hValue⟩
  explained path value := by
    unfold readRecord
    split
    · exact (explained_readRecordEntries _ _).map _
    · exact explained_fault _ _

/-! ## Entries of an object -/

variable {path name : String} {entries : List (String × Json)} {default : α}

theorem accepted_optional_iff (hReads : Reads read kind write) :
    (optional path entries name read).Accepted ↔ FitsAt entries (name, kind) := by
  unfold optional FitsAt
  cases Json.lookup? entries name with
  | none => simp
  | some value => simp [hReads.accepted_iff]

theorem map_write_of_optional (hReads : Reads read kind write) {found : Option α}
    (hRead : optional path entries name read = .valid found) :
    found.map write = Json.lookup? entries name := by
  unfold optional at hRead
  cases hLookup : Json.lookup? entries name with
  | none =>
      rw [hLookup] at hRead
      cases hRead
      rfl
  | some value =>
      rw [hLookup] at hRead
      obtain ⟨a, hValue, rfl⟩ := map_eq_valid_iff.mp hRead
      rw [((hReads.valid_iff _ _ a).mp hValue).2, Option.map_some]

theorem explained_optional (hReads : Reads read kind write) :
    (optional path entries name read).Explained := by
  unfold optional
  split
  · exact (hReads.explained _ _).map _
  · exact .valid _

theorem accepted_withDefault_iff (hReads : Reads read kind write) :
    (withDefault path entries name read default).Accepted ↔ FitsAt entries (name, kind) :=
  accepted_map_iff.trans (accepted_optional_iff hReads)

/-- A value with a default is the one given, or the default. -/
theorem write_of_withDefault (hReads : Reads read kind write) {a : α}
    (hRead : withDefault path entries name read default = .valid a) :
    write a = (Json.lookup? entries name).getD (write default) := by
  obtain ⟨found, hFound, rfl⟩ := map_eq_valid_iff.mp hRead
  rw [← map_write_of_optional hReads hFound]
  cases found <;> rfl

theorem explained_withDefault (hReads : Reads read kind write) :
    (withDefault path entries name read default).Explained :=
  (explained_optional hReads).map _

theorem unexpected_eq_nil_iff {known : List String} :
    unexpected path entries known = [] ↔ ∀ entry ∈ entries, entry.1 ∈ known := by
  simp [unexpected]

end Readers

/-! ## The sections -/

variable {raw : List (String × Json)} {s : Settings}

/-- Of a section, only the entries of an object are asked to be declared. -/
theorem declared_sectionOf_iff {schema : List (String × Kind)} {name : String} :
    Declared schema (sectionOf raw name) ↔
      ∀ given, Json.lookup? raw name = some (.object given) → Declared schema given := by
  have hEmpty : Declared schema [] := by
    constructor <;> simp [FitsAt, Json.lookup?]
  unfold sectionOf
  cases Json.lookup? raw name with
  | none => simpa using hEmpty
  | some value => cases value <;> simp [Json.entriesOf, hEmpty]

/-- Once the names are checked, an object is accepted when its values are of their kinds. -/
theorem accepted_after_unexpected_iff {α : Type} {path : String} {entries : List (String × Json)}
    (schema : List (String × Kind)) {x : Checked α}
    (hValues : x.Accepted ↔ ∀ field ∈ schema, FitsAt entries field) :
    (Checked.after (unexpected path entries (schema.map Prod.fst)) x).Accepted ↔
      Declared schema entries := by
  rw [accepted_after_iff, unexpected_eq_nil_iff, hValues]
  exact ⟨fun h => ⟨h.1, h.2⟩, fun h => ⟨h.known, h.fits⟩⟩

theorem accepted_readTarget_iff {entries : List (String × Json)} :
    (readTarget entries).Accepted ↔ Declared [("cluster", .name), ("region", .name)] entries :=
  accepted_after_unexpected_iff [("cluster", .name), ("region", .name)]
    (by simp [accepted_withDefault_iff reads_readName])

theorem accepted_readExpressions_iff {entries : List (String × Json)} :
    (readExpressions entries).Accepted ↔ Declared [("unresolved", .choice)] entries :=
  accepted_after_unexpected_iff [("unresolved", .choice)]
    (by simp [accepted_withDefault_iff reads_readUnresolved])

theorem accepted_readAssets_iff {entries : List (String × Json)} :
    (readAssets entries).Accepted ↔ Declared [("exclude", .texts)] entries :=
  accepted_after_unexpected_iff [("exclude", .texts)]
    (by simp [accepted_withDefault_iff reads_readTexts])

theorem explained_readTarget (entries : List (String × Json)) : (readTarget entries).Explained :=
  (((explained_withDefault reads_readName).map _).ap (explained_withDefault reads_readName)).after _

theorem explained_readExpressions (entries : List (String × Json)) :
    (readExpressions entries).Explained :=
  (explained_withDefault reads_readUnresolved).after _

theorem explained_readAssets (entries : List (String × Json)) : (readAssets entries).Explained :=
  (explained_withDefault reads_readTexts).after _

theorem write_of_readTarget {entries : List (String × Json)} {t : Target}
    (hRead : readTarget entries = .valid t) :
    .string t.cluster = (Json.lookup? entries "cluster").getD (.string ({} : Target).cluster) ∧
      .string t.region = (Json.lookup? entries "region").getD (.string ({} : Target).region) := by
  obtain ⟨cluster, hCluster, region, hRegion, rfl⟩ :=
    map_ap_eq_valid_iff.mp (after_eq_valid_iff.mp hRead).2
  exact ⟨write_of_withDefault reads_readName hCluster, write_of_withDefault reads_readName hRegion⟩

/-- A section of written settings holds what is written into it. -/
theorem sectionOf_toEntries (s : Settings) :
    sectionOf s.toEntries "dataproc" =
      [("cluster", .string s.target.cluster), ("region", .string s.target.region)] ∧
    sectionOf s.toEntries "el" = [("unresolved", writeUnresolved s.unresolved)] ∧
    sectionOf s.toEntries "assets" = [("exclude", writeTexts s.exclude)] := by
  simp [sectionOf, toEntries, Json.lookup?_append, Json.lookup?_cons, lookup?_optionalEntry,
    Json.entriesOf]

/-! ## The whole object -/

/-- What is read comes value by value from the readers. -/
theorem values_of_readEntries (hRead : readEntries raw = .valid s) :
    optional "" raw "dagName" readName = .valid s.dagName ∧
    optional "" raw "user" readName = .valid s.user ∧
    withDefault "" raw "startDaysAgo" readDays .zero = .valid s.startDaysAgo ∧
    withDefault "" raw "scheduleIntervalDays" readDays .zero = .valid s.scheduleIntervalDays ∧
    readTarget (sectionOf raw "dataproc") = .valid s.target ∧
    readExpressions (sectionOf raw "el") = .valid s.unresolved ∧
    withDefault "" raw "strictDecisions" readBool false = .valid s.strictDecisions ∧
    readAssets (sectionOf raw "assets") = .valid s.exclude ∧
    withDefault "" raw "properties" readRecord .empty = .valid s.properties := by
  simp only [readEntries, after_eq_valid_iff, ap_eq_valid_iff, map_eq_valid_iff] at hRead
  obtain ⟨-, _, ⟨_, ⟨_, ⟨_, ⟨_, ⟨_, ⟨_, ⟨_, ⟨_, hName, rfl⟩, _, hUser, rfl⟩, _, hStart, rfl⟩,
    _, hInterval, rfl⟩, _, hTarget, rfl⟩, _, hEl, rfl⟩, _, hStrict, rfl⟩, _, hAssets, rfl⟩,
    _, hProperties, rfl⟩ := hRead
  exact ⟨hName, hUser, hStart, hInterval, hTarget, hEl, hStrict, hAssets, hProperties⟩

theorem mem_knownNames_iff {name : String} :
    name ∈ knownNames ↔ name ∈ fields.map Prod.fst ++ sectionNames := by
  simp only [knownNames, fields, sectionNames, sections, List.map_cons, List.map_nil,
    List.cons_append, List.nil_append, List.mem_cons]
  grind

/-- Reading succeeds exactly for the objects that conform to the schema. -/
theorem accepted_readEntries_iff (raw : List (String × Json)) :
    (readEntries raw).Accepted ↔ Conforms raw := by
  simp only [readEntries, accepted_after_iff, accepted_ap_iff, accepted_map_iff,
    unexpected_eq_nil_iff, mem_knownNames_iff, accepted_optional_iff reads_readName,
    accepted_withDefault_iff reads_readDays, accepted_withDefault_iff reads_readBool,
    accepted_withDefault_iff reads_readRecord, accepted_readTarget_iff,
    accepted_readExpressions_iff, accepted_readAssets_iff, declared_sectionOf_iff]
  -- Both sides ask the same of every name; the readers go by position, the schema by section.
  constructor
  · rintro ⟨hKnown, ⟨⟨⟨⟨⟨⟨⟨⟨hName, hUser⟩, hStart⟩, hInterval⟩, hTarget⟩, hEl⟩, hStrict⟩, hAssets⟩,
      hProperties⟩⟩
    exact
      { known := hKnown
        fits := by simpa [fields] using ⟨hName, hUser, hStart, hInterval, hStrict, hProperties⟩
        sections := by simpa [sections] using ⟨hTarget, hEl, hAssets⟩ }
  · rintro ⟨hKnown, hFits, hSections⟩
    obtain ⟨hName, hUser, hStart, hInterval, hStrict, hProperties⟩ := by simpa [fields] using hFits
    obtain ⟨hTarget, hEl, hAssets⟩ := by simpa [sections] using hSections
    exact ⟨hKnown, ⟨⟨⟨⟨⟨⟨⟨⟨hName, hUser⟩, hStart⟩, hInterval⟩, hTarget⟩, hEl⟩, hStrict⟩, hAssets⟩,
      hProperties⟩⟩

theorem explained_readEntries (raw : List (String × Json)) : (readEntries raw).Explained :=
  ((((((((((explained_optional reads_readName).map _).ap
    (explained_optional reads_readName)).ap
    (explained_withDefault reads_readDays)).ap
    (explained_withDefault reads_readDays)).ap
    (explained_readTarget _)).ap
    (explained_readExpressions _)).ap
    (explained_withDefault reads_readBool)).ap
    (explained_readAssets _)).ap
    (explained_withDefault reads_readRecord)).after _

/-- What is read holds every value given, and the defaults elsewhere. -/
theorem holds_of_readEntries (hRead : readEntries raw = .valid s) : s.Holds raw := by
  obtain ⟨hName, hUser, hStart, hInterval, hTarget, hEl, hStrict, hAssets, hProperties⟩ :=
    values_of_readEntries hRead
  obtain ⟨hCluster, hRegion⟩ := write_of_readTarget hTarget
  constructor
  · -- The two names without a default are given or absent; the others fall back.
    simp [fields, toEntries, Json.lookup?_append, Json.lookup?_cons, lookup?_optionalEntry,
      map_write_of_optional reads_readName hName, map_write_of_optional reads_readName hUser,
      ← write_of_withDefault reads_readDays hStart, ← write_of_withDefault reads_readDays hInterval,
      ← write_of_withDefault reads_readBool hStrict,
      ← write_of_withDefault reads_readRecord hProperties]
  · have hChoice := write_of_withDefault reads_readUnresolved (after_eq_valid_iff.mp hEl).2
    have hTexts := write_of_withDefault reads_readTexts (after_eq_valid_iff.mp hAssets).2
    simp only [sections, List.forall_mem_cons, sectionOf_toEntries]
    simp [Json.lookup?_cons, hCluster, hRegion, hChoice, hTexts]

theorem Holds.lookup?_field (hHolds : s.Holds raw) (hConforms : Conforms raw) {name : String}
    {value : Json} (hGiven : Json.lookup? raw name = some value)
    (hName : name ∉ sectionNames) : Json.lookup? s.toEntries name = some value := by
  have hKnown := List.mem_append.mp (hConforms.known _ (Json.mem_of_lookup? hGiven))
  obtain ⟨field, hField, rfl⟩ := List.mem_map.mp (hKnown.resolve_right hName)
  rw [hHolds.fields field hField, hGiven, Option.some_or]

theorem Holds.lookup?_section (hHolds : s.Holds raw) (hConforms : Conforms raw) {name : String}
    {given : List (String × Json)} (hGiven : Json.lookup? raw name = some (.object given))
    (hName : name ∈ sectionNames) {key : String} {item : Json}
    (hItem : Json.lookup? given key = some item) :
    Json.lookup? (sectionOf s.toEntries name) key = some item := by
  obtain ⟨part, hPart, rfl⟩ := List.mem_map.mp hName
  have hKnown := (hConforms.sections part hPart given hGiven).known _ (Json.mem_of_lookup? hItem)
  obtain ⟨field, hField, rfl⟩ := List.mem_map.mp hKnown
  have hEntries : sectionOf raw part.1 = given := by
    rw [sectionOf, hGiven]
    rfl
  rw [hHolds.sections part hPart field hField, hEntries, hItem, Option.some_or]

/-- Of the values that a conforming object gives, all are kept but stray sections. -/
theorem Holds.keeps_iff (hHolds : s.Holds raw) (hConforms : Conforms raw) {name : String}
    {value : Json} (hGiven : Json.lookup? raw name = some value) :
    s.Keeps name value ↔ ¬ Stray name value := by
  by_cases hName : name ∈ sectionNames
  · rw [Keeps, if_pos hName]
    constructor
    · rintro ⟨given, rfl, -⟩ hStray
      exact hStray.2 given rfl
    · intro hObject
      obtain ⟨given, rfl⟩ : ∃ given, value = .object given :=
        Classical.byContradiction fun hNone => hObject ⟨hName, fun given h => hNone ⟨given, h⟩⟩
      exact ⟨given, rfl, fun _ _ => hHolds.lookup?_section hConforms hGiven hName⟩
  · rw [Keeps, if_neg hName]
    exact iff_of_true (hHolds.lookup?_field hConforms hGiven hName) fun hStray => hName hStray.1

theorem ofJson_eq_ok_iff {source : String} :
    ofJson source (.object raw) = .ok s ↔ readEntries raw = .valid s := by
  simp only [ofJson]
  cases readEntries raw <;> simp

/-- Reading an object succeeds exactly when it conforms to the schema.  The settings then hold what
was given over the defaults; a value given is kept unless it is a section that is not an object.  An
object that does not conform is refused, with reasons. -/
theorem given_values_kept (source : String) (raw : List (String × Json)) :
    (∀ s, ofJson source (.object raw) = .ok s → s.Holds raw ∧
      ∀ name value, Json.lookup? raw name = some value →
        (s.Keeps name value ↔ ¬ Stray name value)) ∧
    ((∃ s, ofJson source (.object raw) = .ok s) ↔ Conforms raw) ∧
    (¬ Conforms raw → ∃ problems, problems ≠ [] ∧
      ofJson source (.object raw) = .error (.configuration source problems)) := by
  have hAccepted := accepted_readEntries_iff raw
  refine ⟨?_, ?_, ?_⟩
  · intro s hRead
    have hValid := ofJson_eq_ok_iff.mp hRead
    have hHolds := holds_of_readEntries hValid
    refine ⟨hHolds, fun name value hGiven => ?_⟩
    exact hHolds.keeps_iff (hAccepted.mp ⟨s, hValid⟩) hGiven
  · simp only [ofJson_eq_ok_iff]
    exact hAccepted
  · intro hRefused
    rw [← hAccepted] at hRefused
    have hExplained := explained_readEntries raw
    simp only [ofJson]
    cases hRead : readEntries raw with
    | valid s => exact absurd ⟨s, hRead⟩ hRefused
    | invalid problems =>
        refine ⟨problems, ?_, rfl⟩
        rintro rfl
        exact hRefused (hExplained (by rw [hRead]; rfl))

/-- A section in part, beside a value outside sections. -/
def regionOnly : List (String × Json) :=
  [("user", .string "ann"), ("dataproc", .object [("region", .string "us-east1")])]

theorem given_values_kept_regionOnly :
    ofJson "s" (.object regionOnly) =
      .ok { user := some "ann", target := { region := "us-east1" } } ∧
    Conforms regionOnly ∧
    ({ user := some "ann", target := { region := "us-east1" } } : Settings).Keeps "dataproc"
      (.object [("region", .string "us-east1")]) := by
  have hRead : ofJson "s" (.object regionOnly) =
      .ok { user := some "ann", target := { region := "us-east1" } } := rfl
  obtain ⟨hKept, hConforms, -⟩ := given_values_kept "s" regionOnly
  refine ⟨hRead, hConforms.mp ⟨_, hRead⟩, ?_⟩
  refine ((hKept _ hRead).2 "dataproc" _ rfl).mpr ?_
  exact fun hStray => hStray.2 _ rfl

/-- A section that is not an object is lost without a problem. -/
theorem stray_section_lost :
    ofJson "s" (.object [("dataproc", .string "x")]) = .ok {} ∧
      ¬ ({} : Settings).Keeps "dataproc" (.string "x") := by
  refine ⟨rfl, ?_⟩
  rw [Keeps, if_pos (by decide)]
  rintro ⟨given, ⟨⟩, -⟩

end Settings
end WorkflowDag
