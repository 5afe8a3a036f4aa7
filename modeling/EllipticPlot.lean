import EllipticPlot.Arc
import EllipticPlot.Binary64
import EllipticPlot.GroupLaw
import EllipticPlot.Message.Text
import EllipticPlot.Picking
import EllipticPlot.Scalar.Real
import EllipticPlot.Tessellation
import EllipticPlot.Proofs.ChordTangent
import EllipticPlot.Proofs.EdwardsLaw
import EllipticPlot.Proofs.Provenance
import EllipticPlot.Proofs.Order
import EllipticPlot.Proofs.TraceRecord
import EllipticPlot.Proofs.Window
import EllipticPlot.Proofs.WindowBranches
import EllipticPlot.Proofs.CubicRoots
import EllipticPlot.Proofs.Mirror
import EllipticPlot.Proofs.MirroredTrace
import EllipticPlot.Proofs.NewtonLength
import EllipticPlot.Proofs.PointGroup
import EllipticPlot.Proofs.WeierstrassSeeds
import EllipticPlot.Proofs.WeierstrassGroup
import EllipticPlot.Proofs.EdwardsGroup
import EllipticPlot.Proofs.UnitSphere
import EllipticPlot.Proofs.HalfTurn
import EllipticPlot.Proofs.FiniteSeeds
import EllipticPlot.Proofs.ProperPoints
import EllipticPlot.Proofs.NeutralShortcut
import EllipticPlot.Proofs.DiscriminantSign
import EllipticPlot.Proofs.EdwardsSmooth
import EllipticPlot.Proofs.EdwardsCandidates
import EllipticPlot.Proofs.Convergence
import EllipticPlot.Proofs.Rescaling
import EllipticPlot.Proofs.ChartChoice
import EllipticPlot.Proofs.VanishingTangent
import EllipticPlot.Proofs.StepLimit
import EllipticPlot.Proofs.TracerSession
import EllipticPlot.Proofs.PickedPoints
import EllipticPlot.Proofs.LineOfSight
import EllipticPlot.Proofs.GreatCircle
import EllipticPlot.Proofs.MessageLog
import EllipticPlot.Proofs.ReadableTitles
import EllipticPlot.Proofs.GradientDerivative
