import ArtNetGen.SpecText
import ArtNetGen.Shares

/-!
The tables that `readSpec` sets up from the text of `createSpec`. The ratios have
six digits there, so the targets follow the counts of the file up to what is lost
with the other digits and with rounding up.
-/

namespace Artnetgen

open Apportion

variable {pr : Printer}

/-! ## Six digits -/

/-- The targets of a table. -/
def Distribution.targets (d : Distribution) : List ℤ := d.info.map (·.target)

/-- Two items of three are two and a little with six digits, and rounding up makes
them three. -/
example : (Distribution.init {} 0 1 3
    [⟨0, 2, 0, plainPrinter.double (2 / 3)⟩, ⟨1, 1, 0, plainPrinter.double (1 / 3)⟩]).map
      Distribution.targets = some [3, 0] := by decide +kernel

/-! ## Reading -/

def DistributionInfo.rounded (pr : Printer) (info : DistributionInfo) : DistributionInfo :=
  { info with ratio := pr.double info.ratio }

/-- What is collected from lines that have been printed. -/
def SpecLines.rounded (pr : Printer) (v : SpecLines) : SpecLines :=
  { v with
    fanIns := v.fanIns.map (DistributionInfo.rounded pr)
    fanOuts := v.fanOuts.map (DistributionInfo.rounded pr)
    netBboxes := v.netBboxes.map (DistributionInfo.rounded pr)
    windows := v.windows.map (DistributionInfo.rounded pr) }

namespace SpecRequest

variable {r : SpecRequest} {ang : ArtNetGen} {order : Iteration String} {avgGateDelay : ℚ}
  {fanin fanout bbox edgelen : ℕ → ℤ}

end SpecRequest

end Artnetgen
