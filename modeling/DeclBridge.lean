import DeclBridge.Main
import DeclBridge.Proofs.ArrayLengths
import DeclBridge.Proofs.ConstantSemantics
import DeclBridge.Proofs.FieldTags
import DeclBridge.Proofs.GroupedParameters
import DeclBridge.Proofs.IntegerLiterals
import DeclBridge.Proofs.LiteralReading
import DeclBridge.Proofs.LoadingEnds
import DeclBridge.Proofs.ProblemPlaces
import DeclBridge.Proofs.PropertyNames
import DeclBridge.Proofs.RepeatedConstants
import DeclBridge.Proofs.ReportCounts
import DeclBridge.Proofs.Semicolons
import DeclBridge.Proofs.SkippedDeclarations
import DeclBridge.Proofs.Substitution
import DeclBridge.Proofs.TagFaults
import DeclBridge.Proofs.Termination
import DeclBridge.Proofs.TokenPlaces
import DeclBridge.Proofs.TypeReading
import DeclBridge.Proofs.TypeSets
