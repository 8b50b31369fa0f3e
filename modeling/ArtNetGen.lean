import ArtNetGen.Library.Adjacency
import ArtNetGen.Library.Ports
import ArtNetGen.Library.Walk
import ArtNetGen.Library.Registers
import ArtNetGen.Library.Sharing
import ArtNetGen.Library.Kahn
import ArtNetGen.Library.Loop
import ArtNetGen.Library.Classes
import ArtNetGen.Library.Names
import ArtNetGen.Library.Tokens
import ArtNetGen.Library.Decimal
import ArtNetGen.Library.Stream
import ArtNetGen.Library.Bindings
import ArtNetGen.Library.Counts
import ArtNetGen.Library.Padding
import ArtNetGen.Library.Filing
import ArtNetGen.Library.Edges
import ArtNetGen.Library.Tally
import ArtNetGen.Library.Apportion
import ArtNetGen.Library.RoundRobin
import ArtNetGen.Library.StepSearch
import ArtNetGen.Library.Boxes
import ArtNetGen.Library.Cumulative
import ArtNetGen.Distribution
import ArtNetGen.Sampling
import ArtNetGen.Netlist
import ArtNetGen.Spec
import ArtNetGen.Buckets
import ArtNetGen.Reinit
import ArtNetGen.Initialize
import ArtNetGen.DistMatching
import ArtNetGen.Placement
import ArtNetGen.Connect
import ArtNetGen.Naming
import ArtNetGen.PrimaryIO
import ArtNetGen.Candidates
import ArtNetGen.MatchingRun
import ArtNetGen.Gains
import ArtNetGen.Progress
import ArtNetGen.Budget
import ArtNetGen.EdgeLengths
import ArtNetGen.Rewiring
import ArtNetGen.Edits
import ArtNetGen.TopologicalSort
import ArtNetGen.LongestPath
import ArtNetGen.TimingPath
import ArtNetGen.Rework
import ArtNetGen.Merging
import ArtNetGen.PathRun
import ArtNetGen.Depth
import ArtNetGen.Cutting
import ArtNetGen.Worklist
import ArtNetGen.Shelves
import ArtNetGen.Outlines
import ArtNetGen.Upkeep
import ArtNetGen.Insertion
import ArtNetGen.Splitting
import ArtNetGen.Calls
import ArtNetGen.Outcome
import ArtNetGen.TechMapping
import ArtNetGen.Terminals
import ArtNetGen.Mapping
import ArtNetGen.Cells
import ArtNetGen.CellTables
import ArtNetGen.Nets
import ArtNetGen.SpecFile
import ArtNetGen.Design
import ArtNetGen.Verilog
import ArtNetGen.Fidelity
import ArtNetGen.Construction
import ArtNetGen.Generation
import ArtNetGen.Completion
import ArtNetGen.Latency
import ArtNetGen.Summary
import ArtNetGen.Serials
import ArtNetGen.VerilogText
import ArtNetGen.ReadBack
import ArtNetGen.Extract
import ArtNetGen.CreateSpec
import ArtNetGen.SpecText
import ArtNetGen.Census
import ArtNetGen.LinkDesign
import ArtNetGen.RoundTrip
import ArtNetGen.SdcText
import ArtNetGen.Shares
import ArtNetGen.SpecTargets
import ArtNetGen.LambdaSearch
