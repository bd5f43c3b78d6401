import ClassLang.Compile
import ClassLang.Proofs.Input
import ClassLang.Proofs.Outline
import ClassLang.Proofs.Registered
import ClassLang.Proofs.Environment
import ClassLang.Proofs.History
import ClassLang.Proofs.Outward
import ClassLang.Proofs.Frame
import ClassLang.Proofs.Admitted
import ClassLang.Proofs.Resolved
import ClassLang.Proofs.Typed
import ClassLang.Proofs.Checked
import ClassLang.Proofs.Faultless
import ClassLang.Proofs.Lowered
import ClassLang.Proofs.Accepted
import ClassLang.Proofs.Names
import ClassLang.Proofs.Linking
import ClassLang.Proofs.Layout
import ClassLang.Proofs.Verifier
import ClassLang.Proofs.Verified
import ClassLang.Proofs.Wide
import ClassLang.Proofs.Machine
import ClassLang.Proofs.Agreement
import ClassLang.Proofs.Simulation
import ClassLang.Proofs.Interpreter
import ClassLang.Proofs.Meaning
import ClassLang.Proofs.Variables
import ClassLang.Proofs.Signatures
import ClassLang.Proofs.Flow
import ClassLang.Proofs.ClassTypes
import ClassLang.Proofs.Annotated
import ClassLang.Proofs.Rechecked
import ClassLang.Proofs.Accounted
import ClassLang.Proofs.Places.Bare
import ClassLang.Proofs.Places.Registered
import ClassLang.Proofs.Places.Typed
import ClassLang.Proofs.Places.Lowered
import ClassLang.Proofs.Spelling
import ClassLang.Proofs.Order.Tidy
import ClassLang.Proofs.Order.Twins
import ClassLang.Proofs.Order.Checked
import ClassLang.Proofs.Order.Accepted
import ClassLang.Proofs.Branches
import ClassLang.Proofs.Overloads
import ClassLang.Proofs.Cascade
import ClassLang.Proofs.Evaluated
import ClassLang.Proofs.Segments
import ClassLang.Proofs.Blocks
import ClassLang.Proofs.Plans
import ClassLang.Proofs.Mirrored
import ClassLang.Proofs.Actions
import ClassLang.Proofs.Slots
import ClassLang.Proofs.EntryPoint
import ClassLang.Proofs.Mentioned
import ClassLang.Proofs.StaticEntry
