import Sabot.Language.Soundness
import Sabot.Language.Containment
import Sabot.State.OperandSafety
import Sabot.State.MeasurementGroups
import Sabot.State.Repeatability
import Sabot.State.GateInverse
import Sabot.State.Commutation
import Sabot.State.CoinIndependence
import Sabot.State.Seed
import Sabot.State.RowMultiplication
import Sabot.State.FailedInitialisation
import Sabot.State.Observation
import Sabot.State.CircuitEquivalence
import Sabot.State.SupportSize
import Sabot.State.Sampling
import Sabot.Randnum.Position
import Sabot.Randnum.WeightedChoice
import Sabot.StringBuffer
import Sabot.Actions.LinearSearch
import Sabot.Net.Replies
import Sabot.Universe.Atomicity
import Sabot.Universe.Isolation
import Sabot.Universe.Linearization
import Sabot.Universe.Splitting
import Sabot.Universe.UnknownIds
import Sabot.State.Locality
import Sabot.Universe.Progress
import Sabot.Service.Concurrency
import Sabot.Service.DenseCoding
