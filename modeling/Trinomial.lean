import Trinomial.Panel.Labels
import Trinomial.Proofs.Complex.Conjugation
import Trinomial.Proofs.Complex.Display
import Trinomial.Proofs.Complex.Remainder
import Trinomial.Proofs.Equation.Journal
import Trinomial.Proofs.Equation.Spelling
import Trinomial.Proofs.Form.Reduced
import Trinomial.Proofs.Grammar.Joining
import Trinomial.Proofs.Grammar.Ranking
import Trinomial.Proofs.Number.Layout
import Trinomial.Proofs.Number.RootOutcomes
import Trinomial.Proofs.Panel.Keypad
import Trinomial.Proofs.Panel.Solving
import Trinomial.Proofs.Panel.Undoing
import Trinomial.Proofs.Power.Fractional
import Trinomial.Proofs.Power.Nesting
import Trinomial.Proofs.Power.Products
import Trinomial.Proofs.Root.Order
import Trinomial.Proofs.Solution.Failing
import Trinomial.Proofs.Solution.IntegerRoots
import Trinomial.Proofs.Solution.WellFormed
import Trinomial.Proofs.Table.Validation
import Trinomial.Proofs.Token.Lexical
