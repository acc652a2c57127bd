import ClauseLearning.Main
import ClauseLearning.Proofs.Search.Safety
import ClauseLearning.Proofs.Search.Watches
import ClauseLearning.Proofs.Trail.Checkpoint
import ClauseLearning.Proofs.Propagation.Mirror
import ClauseLearning.Proofs.Ranking.Waiting
import ClauseLearning.Proofs.Ranking.Offers
import ClauseLearning.Proofs.Search.Novelty
import ClauseLearning.Proofs.Ranking.Order
import ClauseLearning.Proofs.Search.Decisions
import ClauseLearning.Proofs.Search.Interruption
import ClauseLearning.Proofs.Analysis.Asserting
import ClauseLearning.Proofs.Analysis.ImplicationPoint
import ClauseLearning.Proofs.Search.FirstPoint
import ClauseLearning.Proofs.Dimacs.Grammar
import ClauseLearning.Proofs.Dimacs.Reading
import ClauseLearning.Proofs.Dimacs.Integers
import ClauseLearning.Proofs.Dimacs.Faults
import ClauseLearning.Proofs.Ranking.Bounds
import ClauseLearning.Proofs.Search.Resolution
import ClauseLearning.Proofs.Ranking.Rescaling
import ClauseLearning.Proofs.Restart.Intervals
import ClauseLearning.Proofs.Search.Restarts
import ClauseLearning.Proofs.Dimacs.Offences
import ClauseLearning.Proofs.Text.Binary64
import ClauseLearning.Proofs.CommandLine.Values
import ClauseLearning.Proofs.CommandLine.Faults
import ClauseLearning.Proofs.Dimacs.Values
import ClauseLearning.Proofs.CommandLine.Grammar
import ClauseLearning.Proofs.Search.Counts
import ClauseLearning.Proofs.Search.SavedPhases
import ClauseLearning.Proofs.Restart.WrittenPolicy
import ClauseLearning.Proofs.Search.Storage
import ClauseLearning.Proofs.Search.ReusedMarks
