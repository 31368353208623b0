import ThresholdCipher.Bls12381
import ThresholdCipher.Combination
import ThresholdCipher.Json
import ThresholdCipher.Renewal
import ThresholdCipher.Wire
import ThresholdCipher.Proofs.AcceptedInputs
import ThresholdCipher.Proofs.BlindedRecovery
import ThresholdCipher.Proofs.Blinding
import ThresholdCipher.Proofs.ChosenPoints
import ThresholdCipher.Proofs.CombinationOutcome
import ThresholdCipher.Proofs.CreatedShares
import ThresholdCipher.Proofs.DealerStrategies
import ThresholdCipher.Proofs.DealingOutcome
import ThresholdCipher.Proofs.Encodability
import ThresholdCipher.Proofs.EntryOrder
import ThresholdCipher.Proofs.EqualityProofs
import ThresholdCipher.Proofs.ExactInterpolation
import ThresholdCipher.Proofs.Extension
import ThresholdCipher.Proofs.FullQuorum
import ThresholdCipher.Proofs.HashInputs
import ThresholdCipher.Proofs.JsonFormats
import ThresholdCipher.Proofs.JsonRoundTrip
import ThresholdCipher.Proofs.LifeCycle
import ThresholdCipher.Proofs.MixedShares
import ThresholdCipher.Proofs.OperationAnswers
import ThresholdCipher.Proofs.PreparedShares
import ThresholdCipher.Proofs.QuorumCommitments
import ThresholdCipher.Proofs.RefreshBatches
import ThresholdCipher.Proofs.RobustCombination
import ThresholdCipher.Proofs.Secrecy
import ThresholdCipher.Proofs.TranscriptVerification
import ThresholdCipher.Proofs.Validity
import ThresholdCipher.Proofs.VerificationAnswers
import ThresholdCipher.Proofs.WireRoundTrip
