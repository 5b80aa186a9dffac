import WorkflowDag.Proofs.FileRuns
import WorkflowDag.Proofs.PathEnds

/-!
# What the DAG module holds after a conversion

Converting a directory writes the DAG module first and copies the assets afterwards, into the same
directory and under names that the workflow gives.  The module is found at its path and holds the
text that the conversion has made, unless an asset has been copied to the very place where it
stands: then it holds the text of the asset.  That can happen, since nothing tells the two kinds of
names apart (`asset_replaces_module`).

Main statement: `module_kept`.
-/

namespace WorkflowDag

namespace Files

/-- The work returns, with a result and a tree that are as asked for. -/
def returnsWith {α : Type} (x : Files α) (w : World) (p : α → World → Bool) : Bool :=
  match x.runOn w with
  | (.ok a, w') => p a w'
  | (.error _, _) => false

theorem exists_of_returnsWith {α : Type} {x : Files α} {w : World} {p : α → World → Bool}
    (hReturns : x.returnsWith w p) : ∃ a w', x.runOn w = (.ok a, w') ∧ p a w' = true := by
  unfold returnsWith at hReturns
  split at hReturns
  next a w' hRun => exact ⟨a, w', hRun, hReturns⟩
  next => cases hReturns

end Files

namespace Directory

open Files

/-- The conversion of the workflow of a directory, with the configuration that the directory and the
request give. -/
def Converts (r : Request) (w : World) (conversion : Conversion) : Prop :=
  ∃ configuration loaded source,
    (gatherConfiguration [r.runId] r.input r.user r.settings.properties r.params :
      Files Record).runOn w = (.ok configuration, loaded) ∧
    w.files.read w.directory r.workflowPath = .ok source ∧
    (convert source (r.options configuration)).result = .ok conversion

section

variable {r : Request} {w w' : World}

/-- The first part of the work converts and changes no file. -/
theorem converts_of_convertInput {conversion : Conversion}
    (hRun : (convertInput r : Files Conversion).runOn w = (.ok conversion, w')) :
    Converts r w conversion ∧ w'.files = w.files ∧ w'.directory = w.directory := by
  have hQuiet := convertInput_quiet r w
  rw [hRun] at hQuiet
  refine ⟨?_, hQuiet⟩
  obtain ⟨found, w1, hFound, hRun⟩ := runOn_bind_eq_ok_iff.mp hRun
  cases hFound
  split at hRun
  · obtain ⟨configuration, loaded, hGather, hRun⟩ := runOn_bind_eq_ok_iff.mp hRun
    obtain ⟨source, w2, hRead, hRun⟩ := runOn_bind_eq_ok_iff.mp hRun
    obtain ⟨hLoaded, hLoadedHere⟩ := gatherConfiguration_quiet [r.runId] r.input r.user
      r.settings.properties r.params w
    rw [hGather] at hLoaded hLoadedHere
    refine ⟨configuration, loaded, source, hGather, ?_, ?_⟩
    · rw [← hLoaded, ← hLoadedHere]
      exact runOn_read hRead
    · have hResult := runOn_perform hRun
      rw [Traced.result_within] at hResult
      exact hResult
  · cases hRun

/-- A module has at least a last line. -/
theorem text_ne_empty_of_emit {g : TaskGraph} {options : ModuleOptions} {text : String}
    (hEmit : (g.emit options).result = .ok text) : text ≠ "" := by
  unfold TaskGraph.emit at hEmit
  simp only [Traced.result_bind, bind_eq_ok_iff] at hEmit
  obtain ⟨order, -, operators, -, -, -, hText⟩ := hEmit
  cases hText
  simp [String.append_eq_empty_iff]

theorem Converts.text_ne_empty {conversion : Conversion} (hConverts : Converts r w conversion) :
    conversion.text ≠ "" := by
  obtain ⟨configuration, loaded, source, -, -, hConvert⟩ := hConverts
  exact text_ne_empty_of_emit (convert_eq_ok_iff.mp hConvert).2.2

/-- A file that has been written in one step stands at its path, and its text is all that is new. -/
theorem lookup_of_writeAtOnce {temporary path text : String}
    (hRun : (writeAtOnce temporary path text : Files Unit).runOn w = (.ok (), w'))
    (hNames : (FileTree.namesOf path).getLast? ≠ some "") :
    (∃ place, w'.files.lookup w'.directory path = .found place (.file (FileTree.kept text))) ∧
      ∀ other, w'.files.Holds other → other = FileTree.kept text ∨ w.files.Holds other := by
  obtain ⟨⟨⟩, w1, hWrite, hMove⟩ := runOn_bind_eq_ok_iff.mp hRun
  obtain ⟨t1, hWritten, rfl⟩ := runOn_change (runOn_of_attempt hWrite)
  unfold moveIntoPlace at hMove
  rw [runOn_tryCatch] at hMove
  split at hMove
  next done w2 hRename =>
    cases hMove
    obtain ⟨t2, hRenamed, rfl⟩ := runOn_change (runOn_of_attempt hRename)
    exact FileTree.lookup_of_write_rename hWritten hRenamed hNames
  next failure w2 _ =>
    -- A move that fails is not made up for: the temporary file is removed and the failure stays.
    obtain ⟨⟨⟩, w3, -, hThrow⟩ := runOn_bind_eq_ok_iff.mp hMove
    cases hThrow

/-- The path of the DAG module ends in a name. -/
theorem Request.namesOf_dagPath (r : Request) :
    (FileTree.namesOf r.dagPath).getLast? ≠ some "" := by
  have hEnd : (r.dagName ++ ".py").toList.getLast? = some 'y' := by
    rw [String.toList_append, List.getLast?_append]
    rfl
  exact FileTree.namesOf_getLast? (Location.getLast?_join hEnd (by decide) (by decide)) (by decide)

end

/-- After a conversion that returns, a file stands at the path of the DAG module.  It holds the text
of the conversion, as a file keeps it, unless an asset has been copied to the same place.  Then it
may hold the text of another file that was there before the conversion, and no third text. -/
theorem module_kept {r : Request} {w w' : World} {report : Report}
    (hRun : (convertDirectory r : Files Report).runOn w = (.ok report, w')) :
    ∃ conversion place text, Converts r w conversion ∧ report.graph = conversion.graph ∧
      report.dagPath = r.dagPath ∧
      w'.files.lookup w'.directory report.dagPath = .found place (.file text) ∧
      (text = FileTree.kept conversion.text ∨
        ∃ reference ∈ conversion.graph.assets,
          Location.join [r.output, reference] ∈ report.assets ∧
          w'.files.lookup w'.directory (Location.join [r.output, reference]) =
            .found place (.file text) ∧
          w.files.Holds text) := by
  obtain ⟨conversion, w1, hInput, hRun⟩ := runOn_bind_eq_ok_iff.mp hRun
  obtain ⟨⟨⟩, w2, hMake, hRun⟩ := runOn_bind_eq_ok_iff.mp hRun
  obtain ⟨⟨⟩, w3, hWrite, hRun⟩ := runOn_bind_eq_ok_iff.mp hRun
  obtain ⟨⟨⟩, w4, hNote, hRun⟩ := runOn_bind_eq_ok_iff.mp hRun
  obtain ⟨targets, w5, hCopy, hRun⟩ := runOn_bind_eq_ok_iff.mp hRun
  cases hRun
  cases hNote
  obtain ⟨hConverts, hFiles, hHere⟩ := converts_of_convertInput hInput
  obtain ⟨⟨place, hWritten⟩, hNew⟩ := lookup_of_writeAtOnce hWrite r.namesOf_dagPath
  obtain ⟨hKeeps, hTargets⟩ := Asset.copyAll_keeps _ _ _ _ hCopy
  obtain ⟨text, hLookup, hText⟩ := hKeeps.files r.dagPath place _ hWritten
  refine ⟨conversion, place, text, hConverts, rfl, rfl, hLookup, ?_⟩
  rcases hText with hSame | ⟨target, hTarget, hThere⟩
  · exact Or.inl hSame
  -- The copied text stood in the tree before the copying: it is that of the module, or older.
  refine (hNew text (hKeeps.texts text ⟨place, FileTree.get?_of_lookup hLookup⟩)).imp_right ?_
  intro hBefore
  obtain ⟨reference, hReference, rfl⟩ := hTargets target hTarget
  refine ⟨reference, hReference, hTarget, hThere, ?_⟩
  rw [← hFiles]
  exact (Asset.KeepsFiles.of_makeDirectories hMake).texts text hBefore

namespace SharedName

/-- The units of a document with an action that has the script `a.py`. -/
def units : List Char :=
  ["<w name='w'>",
    "<start to='a'/>",
    "<action name='a'><pig><script>a.py</script></pig><ok to='e'/><error to='e'/></action>",
    "<end name='e'/>",
    "</w>"].flatMap String.toList

/-- The document with these units. -/
def source : String :=
  String.ofList units

/-- The script is empty, which no module is. -/
def world : World where
  files :=
    ⟨[(["a"], .directory), (["a", "workflow.xml"], .file source), (["a", "a.py"], .file "")]⟩

/-- The DAG is named as the input directory. -/
def request (exclude : List String) : Request where
  input := "a"
  output := "out"
  settings := { exclude }
  workingDirectory := "/"
  runId := "r"

theorem returns_excluded :
    (convertDirectory (request ["*.py"]) : Files Report).returnsWith world fun report _ =>
      report.dagPath = "out/a.py" ∧ report.assets = [] := by
  decide +kernel

theorem returns_copied :
    (convertDirectory (request []) : Files Report).returnsWith world fun report w' =>
      (w'.files.read w'.directory report.dagPath).toOption = some "" := by
  decide +kernel

end SharedName

open SharedName in
/-- Without the script the module is kept. -/
theorem module_kept_excluded :
    ∃ report w', (convertDirectory (request ["*.py"]) : Files Report).runOn world =
        (.ok report, w') ∧
      report.dagPath = "out/a.py" ∧ report.assets = [] ∧
      ∃ conversion place, Converts (request ["*.py"]) world conversion ∧
        w'.files.lookup w'.directory "out/a.py" =
          .found place (.file (FileTree.kept conversion.text)) := by
  obtain ⟨report, w', hRun, hSeen⟩ := exists_of_returnsWith returns_excluded
  obtain ⟨hPath, hAssets⟩ := of_decide_eq_true hSeen
  obtain ⟨conversion, place, text, hConverts, -, -, hLookup, hText⟩ := module_kept hRun
  rw [hPath] at hLookup
  rw [hAssets] at hText
  refine ⟨report, w', hRun, hPath, hAssets, conversion, place, hConverts, ?_⟩
  rcases hText with rfl | ⟨reference, -, hCopied, -⟩
  · exact hLookup
  · cases hCopied

open SharedName in
/-- With the script, which has the name of the module, the module is lost. -/
theorem asset_replaces_module :
    ∃ report w' conversion, (convertDirectory (request []) : Files Report).runOn world =
        (.ok report, w') ∧
      Converts (request []) world conversion ∧
      (w'.files.read w'.directory report.dagPath).toOption = some "" ∧
      FileTree.kept conversion.text ≠ "" := by
  obtain ⟨report, w', hRun, hSeen⟩ := exists_of_returnsWith returns_copied
  obtain ⟨conversion, w1, hInput, -⟩ := runOn_bind_eq_ok_iff.mp hRun
  obtain ⟨hConverts, -, -⟩ := converts_of_convertInput hInput
  exact ⟨report, w', conversion, hRun, hConverts, of_decide_eq_true hSeen,
    FileTree.kept_ne_empty hConverts.text_ne_empty⟩

end Directory
end WorkflowDag
