import SmallPascal.Directory
import SmallPascal.Main
import SmallPascal.Proofs.Acceptance
import SmallPascal.Proofs.ArrayBounds
import SmallPascal.Proofs.Environment
import SmallPascal.Proofs.FaithfulSpans
import SmallPascal.Proofs.Folding
import SmallPascal.Proofs.LayoutFree
import SmallPascal.Proofs.Phases
import SmallPascal.Proofs.Safety
import SmallPascal.Proofs.Survival
import SmallPascal.Proofs.Quotients
import SmallPascal.Proofs.Influence
import SmallPascal.Proofs.Counting
import SmallPascal.Proofs.ElementAccess
import SmallPascal.Proofs.LongestMatch
import SmallPascal.Proofs.Tiling
import SmallPascal.Proofs.Arithmetic
import SmallPascal.Proofs.Respacing
import SmallPascal.Proofs.ScopeHistory
import SmallPascal.Proofs.Termination
import SmallPascal.Proofs.OperatorErrors
import SmallPascal.Proofs.IndependentWrites
import SmallPascal.Proofs.FailingWrites
import SmallPascal.Proofs.RoutineSlots
import SmallPascal.Proofs.ConstantsOnly
import SmallPascal.Proofs.Compatibility
import SmallPascal.Proofs.TypeText
import SmallPascal.Proofs.BoundedPrograms
