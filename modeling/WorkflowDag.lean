import WorkflowDag.File.Change
import WorkflowDag.Main
import WorkflowDag.Proofs.NodeGraph
import WorkflowDag.Proofs.CheckedWorkflow
import WorkflowDag.Proofs.WalkSteps
import WorkflowDag.Proofs.WalkState
import WorkflowDag.Proofs.ControlPath
import WorkflowDag.Proofs.WalkCover
import WorkflowDag.Proofs.DependencyPaths
import WorkflowDag.Proofs.KeyTexts
import WorkflowDag.Proofs.Arrivals
import WorkflowDag.Proofs.ArrivalPartition
import WorkflowDag.Proofs.OperatorIds
import WorkflowDag.Proofs.OperatorWiring
import WorkflowDag.Proofs.WiredGraph
import WorkflowDag.Proofs.LayoutOrder
import WorkflowDag.Proofs.SignalPaths
import WorkflowDag.Proofs.GraphSignals
import WorkflowDag.Proofs.LayoutTotal
import WorkflowDag.Proofs.GreedyOrder
import WorkflowDag.Proofs.CompleteLayout
import WorkflowDag.Proofs.OperatorRun
import WorkflowDag.Proofs.FailureFreeRun
import WorkflowDag.Proofs.TaskContents
import WorkflowDag.Proofs.CycleSearch
import WorkflowDag.Proofs.JoinSearch
import WorkflowDag.Proofs.ForkPairing
import WorkflowDag.Proofs.PairedDocument
import WorkflowDag.Proofs.EvaluationFaults
import WorkflowDag.Proofs.TransformationFailures
import WorkflowDag.Proofs.FailingRun
import WorkflowDag.Proofs.KeptDependencies
import WorkflowDag.Proofs.StartEdges
import WorkflowDag.Proofs.OutsideJoins
import WorkflowDag.Proofs.PolicedJoins
import WorkflowDag.Proofs.JoinOrder
import WorkflowDag.Proofs.FileTrees
import WorkflowDag.Proofs.PathEnds
import WorkflowDag.Proofs.FileRuns
import WorkflowDag.Proofs.KeptArtifact
import WorkflowDag.Proofs.FailedConversion
import WorkflowDag.Proofs.ParallelWalks
import WorkflowDag.Proofs.ScopeAgreement
import WorkflowDag.Proofs.DeferredVariables
import WorkflowDag.Proofs.ConfigurationOrder
import WorkflowDag.Proofs.DocumentOrder
import WorkflowDag.Proofs.ForkBlocks
import WorkflowDag.Proofs.StrictDecisions
import WorkflowDag.Proofs.TextLines
import WorkflowDag.Proofs.Lexemes
import WorkflowDag.Proofs.OperatorNames
import WorkflowDag.Proofs.ModuleGrammar
import WorkflowDag.Proofs.ModuleLines
import WorkflowDag.Proofs.ModuleNames
import WorkflowDag.Proofs.ShellReading
import WorkflowDag.Proofs.CommandWords
import WorkflowDag.Proofs.LiteralReading
import WorkflowDag.Proofs.ListFlags
import WorkflowDag.Proofs.ExpressionGrammar
import WorkflowDag.Proofs.QuotedComparisons
import WorkflowDag.Proofs.ExpressionWriting
import WorkflowDag.Proofs.PropertyLayout
import WorkflowDag.Proofs.TemplateSegments
import WorkflowDag.Proofs.PropertyComposition
import WorkflowDag.Proofs.PathNormalForm
import WorkflowDag.Proofs.AssetReferences
import WorkflowDag.Proofs.PathPlaces
import WorkflowDag.Proofs.AssetPlaces
import WorkflowDag.Proofs.SettingsSchema
import WorkflowDag.Proofs.StartNode
import WorkflowDag.Proofs.LinkedVertices
import WorkflowDag.Proofs.DictionaryDenotation
import WorkflowDag.Proofs.PairingEnds
