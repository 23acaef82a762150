import DartLowering.Golden.Case
import DartLowering.Main
import DartLowering.Proofs.ComparedOutputs
import DartLowering.Proofs.ConstantUses
import DartLowering.Proofs.EffectOrder
import DartLowering.Proofs.HunkSpans
import DartLowering.Proofs.Indentation
import DartLowering.Proofs.IndependentUnits
import DartLowering.Proofs.InnermostFailures
import DartLowering.Proofs.IntegerTexts
import DartLowering.Proofs.LayoutTermination
import DartLowering.Proofs.MemberAccess
import DartLowering.Proofs.MemberNames
import DartLowering.Proofs.NestedLayouts
import DartLowering.Proofs.Nesting
import DartLowering.Proofs.PassThroughCasts
import DartLowering.Proofs.PlanOrder
import DartLowering.Proofs.RecordOrder
import DartLowering.Proofs.SavedConfig
import DartLowering.Proofs.ShortestScripts
import DartLowering.Proofs.Shrinking
import DartLowering.Proofs.Sizes
import DartLowering.Proofs.SourceWindows
import DartLowering.Proofs.StringLiterals
import DartLowering.Proofs.SwitchLabels
import DartLowering.Proofs.TidyText
import DartLowering.Proofs.TrialOrders
import DartLowering.Proofs.UnbrokenRuns
import DartLowering.Syntax.Outline
