import PcodeLift.Basic
import PcodeLift.Pcode
import PcodeLift.Ir
import PcodeLift.Lift
import PcodeLift.ImplicitLoad
import PcodeLift.EntryBlock
import PcodeLift.Normalize
import PcodeLift.ExternSymbol
import PcodeLift.SubRegister
import PcodeLift.Pipeline
import PcodeLift.Semantics
import PcodeLift.IrSemantics
import PcodeLift.SubRegisterSemantics
import PcodeLift.ZeroExtension
import PcodeLift.LiftSemantics
import PcodeLift.Runs
import PcodeLift.NormalizeRuns
import PcodeLift.CallRuns
import PcodeLift.EmptiedSubs
