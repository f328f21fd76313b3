import Offload.Main
import Offload.Problem
import Offload.Proofs.CandidateTexts
import Offload.Proofs.FailedCalls
import Offload.Proofs.Kernels
import Offload.Proofs.Lowerable
import Offload.Proofs.MissingParts
import Offload.Proofs.PhaseRemoval
import Offload.Proofs.PipelineText
import Offload.Proofs.PrintedCopies
import Offload.Proofs.SharedFolds
import Offload.Proofs.Sight
import Offload.Proofs.TransferBounds
import Offload.Proofs.Waiting
