import Packrat.Arithmetic.Rules
import Packrat.Bytes
import Packrat.Conversion
import Packrat.Email
import Packrat.Proofs.Addresses
import Packrat.Proofs.Arithmetic.Evaluation
import Packrat.Proofs.Arithmetic.Naturals
import Packrat.Proofs.Arithmetic.Recursion
import Packrat.Proofs.Arithmetic.RoundTrip
import Packrat.Proofs.Arithmetic.Spacing
import Packrat.Proofs.Choices
import Packrat.Proofs.Column
import Packrat.Proofs.Consumption
import Packrat.Proofs.Counters
import Packrat.Proofs.Filters
import Packrat.Proofs.Indentation
import Packrat.Proofs.Literals
import Packrat.Proofs.Observers
import Packrat.Proofs.Peg
import Packrat.Proofs.Positions
import Packrat.Proofs.Relocation
import Packrat.Proofs.Repetition
import Packrat.Proofs.Replacement
import Packrat.Proofs.Rounds
import Packrat.Proofs.Separation
import Packrat.Proofs.Sequences
import Packrat.Proofs.Terminators
import Packrat.Session
