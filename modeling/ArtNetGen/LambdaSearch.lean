import ArtNetGen.Library.StepSearch
import Mathlib.Algebra.BigOperators.Field
import Mathlib.Algebra.Order.BigOperators.Group.Finset
import Mathlib.Analysis.Complex.Exponential
import Mathlib.Tactic.Linarith
import Mathlib.Tactic.Positivity

/-!
The search of `makeFoissonDistribution` for the parameter of the fan-in
distribution, over the reals. The mean of the buckets is a curve over `lambda`,
and the loop walks along it in steps of 0.01 from 1.5.
-/

namespace Artnetgen

noncomputable section

section Walk

variable {minVal maxVal : ℤ} {avgVal lambda : ℝ}

end Walk

end

end Artnetgen
