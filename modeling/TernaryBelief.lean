import TernaryBelief.Documents
import TernaryBelief.SharedEngine.Run
import TernaryBelief.Proofs.Effect
import TernaryBelief.Proofs.Processing
import TernaryBelief.Proofs.Journal
import TernaryBelief.Proofs.LastWriter
import TernaryBelief.Proofs.Disagreement
import TernaryBelief.Proofs.Schedule
import TernaryBelief.Proofs.Detection
import TernaryBelief.Proofs.AssertionOrder
import TernaryBelief.Proofs.Correspondence
import TernaryBelief.Proofs.Rewording
import TernaryBelief.Proofs.Confidence
import TernaryBelief.Proofs.Procedure
import TernaryBelief.Proofs.Refusal
import TernaryBelief.Proofs.Poisoning
import TernaryBelief.Proofs.Calls
import TernaryBelief.Proofs.Clients
import TernaryBelief.Proofs.Independence
import TernaryBelief.Proofs.MachineNumbers
import TernaryBelief.Proofs.Rounding
import TernaryBelief.Proofs.History
import TernaryBelief.Proofs.MachineArithmetic
import TernaryBelief.Proofs.MachineCounts
import TernaryBelief.Proofs.Information
import TernaryBelief.Proofs.DocumentText
import TernaryBelief.Proofs.DocumentTree
import TernaryBelief.Proofs.DecimalReading
import TernaryBelief.Proofs.ShortNumerals
import TernaryBelief.Proofs.WrittenDigits
import TernaryBelief.Proofs.ReadingBack
import TernaryBelief.Proofs.Faithful
import TernaryBelief.Proofs.RoundTrip
import TernaryBelief.Proofs.Texts
import TernaryBelief.Proofs.Pass
import TernaryBelief.Proofs.Scores
import TernaryBelief.Proofs.Counters
import TernaryBelief.Proofs.Policies
import TernaryBelief.Proofs.Asserting
import TernaryBelief.Proofs.Composition
import TernaryBelief.Proofs.Precedence
import TernaryBelief.Proofs.Charge
import TernaryBelief.Proofs.PassReport
import TernaryBelief.Proofs.Admission
import TernaryBelief.Proofs.Spelling
import TernaryBelief.Proofs.Loading
import TernaryBelief.Proofs.MeanUncertainty
import TernaryBelief.Proofs.Routing
import TernaryBelief.Proofs.Implication
import TernaryBelief.Proofs.Duality
