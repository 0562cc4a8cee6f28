import Morphology.CheckLog
import Morphology.Operators
import Morphology.Pixel.Sample
import Morphology.Random
import Morphology.Proofs.Shape.Indexing
import Morphology.Proofs.Shape.Stepping
import Morphology.Proofs.Shape.Numbering
import Morphology.Proofs.Shape.Positions
import Morphology.Proofs.Shape.Adjacency
import Morphology.Proofs.Shape.Displaced
import Morphology.Proofs.Shape.SignedReading
import Morphology.Proofs.Shape.Tours
import Morphology.Proofs.Shape.Axes
import Morphology.Proofs.Shape.Boxes
import Morphology.Proofs.Shape.Rearrangement
import Morphology.Proofs.Shape.UnitAxes
import Morphology.Proofs.Shape.NeighborOffsets
import Morphology.Proofs.Level
import Morphology.Proofs.Queue
import Morphology.Proofs.Queue.Histories
import Morphology.Proofs.Propagation.Reach
import Morphology.Proofs.Propagation.Components
import Morphology.Proofs.Propagation.Sweeps
import Morphology.Proofs.Propagation.Drain
import Morphology.Proofs.Propagation.Termination
import Morphology.Proofs.Propagation.Schedule
import Morphology.Proofs.Propagation.FixedPoint
import Morphology.Proofs.Propagation.Comparisons
import Morphology.Proofs.Propagation.Quiet
import Morphology.Proofs.Propagation.Counts
import Morphology.Proofs.Propagation.RasterSchedule
import Morphology.Proofs.Propagation.Causality
import Morphology.Proofs.Propagation.Unordered
import Morphology.Proofs.Reconstruction.Paths
import Morphology.Proofs.Reconstruction.Rounds
import Morphology.Proofs.Reconstruction.Orders
import Morphology.Proofs.Reconstruction.BackwardOnly
import Morphology.Proofs.Reconstruction.Clamping
import Morphology.Proofs.Reconstruction.Halting
import Morphology.Proofs.Reconstruction.FixedPoints
import Morphology.Proofs.Reconstruction.Relabeling
import Morphology.Proofs.Reconstruction.Orientation
import Morphology.Proofs.Reconstruction.Monotonicity
import Morphology.Proofs.Reconstruction.Refusal
import Morphology.Proofs.Reconstruction.Counts
import Morphology.Proofs.Reconstruction.Accesses
import Morphology.Proofs.Extrema.Regional
import Morphology.Proofs.Extrema.Height
import Morphology.Proofs.Extrema.Dynamics
import Morphology.Proofs.Grid.Access
import Morphology.Proofs.Grid.Boundary
import Morphology.Proofs.Grid.BoundaryCalls
import Morphology.Proofs.Grid.Pictures
import Morphology.Proofs.Grid.Scripts
import Morphology.Proofs.Holes.Spill
import Morphology.Proofs.Holes.HoleFree
import Morphology.Proofs.Box.Lines
import Morphology.Proofs.Box.Filtered
import Morphology.Proofs.Box.Blocks
import Morphology.Proofs.Box.Scan
import Morphology.Proofs.Opening.Survivors
import Morphology.Proofs.Opening.Granulometry
import Morphology.Proofs.Duality
import Morphology.Proofs.Binary.Levels
import Morphology.Proofs.Binary.Arithmetic
import Morphology.Proofs.Binary.RegionalExtrema
import Morphology.Proofs.Binary.Heights
import Morphology.Proofs.Sentinels
import Morphology.Proofs.Box.Laws
import Morphology.Proofs.Reconstruction.Lines
import Morphology.Proofs.OwnMarkers
import Morphology.Proofs.Random
import Morphology.Proofs.CheckLog.Runs
import Morphology.Proofs.CheckLog.Distances
