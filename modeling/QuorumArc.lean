import QuorumArc.Mediation
import QuorumArc.AntiReplay
import QuorumArc.Handshake
import QuorumArc.Retry
import QuorumArc.Expiry
import QuorumArc.Atomicity
import QuorumArc.ClockSafety
import QuorumArc.EvidenceAge
import QuorumArc.SingleWriter
import QuorumArc.Votes
import QuorumArc.AuthorityChain
import QuorumArc.Revalidation
import QuorumArc.SimWriters
import QuorumArc.SimPromotion
import QuorumArc.SimRule
import QuorumArc.SimHistory
import QuorumArc.SimShadow
import QuorumArc.SimSymmetry
import QuorumArc.SimSearch
import QuorumArc.Deployment
import QuorumArc.ClockLag
import QuorumArc.Lives
import QuorumArc.SimDeployment
import QuorumArc.SimLiveness
import QuorumArc.Takeover
import QuorumArc.Spans
import QuorumArc.SplitAuthority
import QuorumArc.Rotation
import QuorumArc.Policies
import QuorumArc.SimStall
import QuorumArc.Observations
import QuorumArc.TranslatedRuns
import QuorumArc.SimDepth
import QuorumArc.SimEpochs
import QuorumArc.Rotation
