import Tellegen.StudyLog
import Tellegen.AsyncStudy
import Tellegen.Proposal
import Tellegen.StudyStorage
import Tellegen.WorkerHost
import Tellegen.SharedStudy
import Tellegen.LazyLimits
import Tellegen.LoadEdits
import Tellegen.PowerBalance
import Tellegen.OpfSessionRuns
import Tellegen.CalibrationRuns
import Tellegen.DisplayedLoads
import Tellegen.FunctionalGradient
import Tellegen.BusTypes
import Tellegen.Relaxation
import Tellegen.CommitBounds
import Tellegen.SearchRepeats
import Tellegen.ShortNames
import Tellegen.RequestOrder
import Tellegen.ListingCoverage
import Tellegen.Feeders
import Tellegen.PreviewOrder
import Tellegen.DenseIslands
import Tellegen.ObjectiveGradient
import Tellegen.DcEdits
import Tellegen.Osm.PrunedGrid
import Tellegen.Osm.Stitching
import Tellegen.Osm.ConnectedFragments
import Tellegen.Osm.ReserveMargin
import Tellegen.Synth.TapForest
import Tellegen.Synth.SupportedLoads
import Tellegen.Synth.ServedCatchments
import Tellegen.Synth.ConnectedIslands
import Tellegen.Synth.SitedLevels
import Tellegen.InverseCheck
import Tellegen.CompactJson
import Tellegen.ZeroPropagation
import Tellegen.LoadEnvelope
import Tellegen.WellFormedMaps
import Tellegen.RankSound
import Tellegen.Server.RateWindows
import Tellegen.PreparedCosts
import Tellegen.ProjectedSeeds
import Tellegen.Synth.DemandLookups
import Tellegen.GroundedSystem
import Tellegen.Emission
import Tellegen.DiagnosticLog
import Tellegen.Synth.SpreadPoints
import Tellegen.Synth.RegionBuffer
