import RegisterColoring.Main
import RegisterColoring.Proofs.Completeness
import RegisterColoring.Proofs.Meaning
import RegisterColoring.Proofs.Mirroring
import RegisterColoring.Proofs.SpillLiveness
import RegisterColoring.Proofs.Pressure
import RegisterColoring.Proofs.AddressTaken
import RegisterColoring.Proofs.RoundTrip
import RegisterColoring.Proofs.Labels
import RegisterColoring.Proofs.Faultless
import RegisterColoring.Proofs.Composition
import RegisterColoring.Proofs.Unreachable
import RegisterColoring.Proofs.Convergence
import RegisterColoring.Proofs.ArgumentPins
import RegisterColoring.Proofs.Decisions
import RegisterColoring.Proofs.Simplification
import RegisterColoring.Proofs.Settling
import RegisterColoring.Proofs.NormalForm
import RegisterColoring.Proofs.Loops
import RegisterColoring.Proofs.GraphContents
import RegisterColoring.Proofs.PrunedImage
import RegisterColoring.Proofs.Segments
import RegisterColoring.Proofs.Tiling
import RegisterColoring.Proofs.SyntaxErrors
import RegisterColoring.Proofs.GraphHistory
import RegisterColoring.Proofs.AbsentNumber
import RegisterColoring.Proofs.Rewriting
