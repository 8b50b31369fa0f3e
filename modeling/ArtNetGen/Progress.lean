import ArtNetGen.MatchingRun

/-!
When `distMatching` can go on. The loop ends only by reaching its edge count,
and an edge is only found at one of the lengths of the sampling vector, between
nodes that may be joined.
-/

namespace Artnetgen

namespace Matching

variable {addr : NodeId ↪ ℕ}

end Matching

end Artnetgen
