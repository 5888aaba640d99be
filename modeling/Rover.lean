import Rover.Main
import Rover.Proofs.Heading
import Rover.Proofs.Values
import Rover.Proofs.CopyInOut
import Rover.Proofs.Safety
import Rover.Proofs.Discipline
import Rover.Proofs.ErrorLines
import Rover.Proofs.CallReport
import Rover.Proofs.Parsing
import Rover.Proofs.Lexing
import Rover.Proofs.Cutting
import Rover.Proofs.Layout
import Rover.Proofs.Printing
import Rover.Proofs.FirstError
import Rover.Proofs.Pieces
import Rover.Proofs.Matching
import Rover.Proofs.Equivalence
import Rover.Proofs.Reordering
import Rover.Proofs.Renaming
import Rover.Proofs.Observers
import Rover.Proofs.Independence
import Rover.Proofs.Recording
import Rover.Proofs.Spans
import Rover.Proofs.MoreInput
import Rover.Proofs.InputWords
import Rover.Proofs.Decimals
import Rover.Proofs.ReadBack
import Rover.Proofs.Motion
import Rover.Proofs.Magnitude
import Rover.Proofs.Halting
import Rover.Proofs.Refusals
import Rover.Proofs.ExactLoading
import Rover.Proofs.Polynomials
import Rover.Proofs.Words
import Rover.Proofs.HalfEven
import Rover.Proofs.ReadingInterval
import Rover.Proofs.SignificantDigits
import Rover.Proofs.FewestDigits
import Rover.Proofs.Contact
import Rover.Proofs.TraceSummary
import Rover.Proofs.Quotation
import Rover.Proofs.Outline
import Rover.Proofs.NearestEven
import Rover.Proofs.CorrectRounding
import Rover.Proofs.SingleArithmetic
import Rover.Proofs.Declarations
import Rover.Proofs.Sharing
