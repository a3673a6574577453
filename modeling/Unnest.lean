import Unnest.Session.Play
import Unnest.Main
import Unnest.Proofs.Pass.Calls
import Unnest.Proofs.Pass.Meaning
import Unnest.Proofs.Pass.Conservation
import Unnest.Proofs.Pass.StyleSheet
import Unnest.Proofs.Pass.Histories
import Unnest.Proofs.Pass.Policies
import Unnest.Proofs.Tree.Prune
import Unnest.Proofs.Pass.Emptied
import Unnest.Proofs.Pass.Sequence
import Unnest.Proofs.Pass.Ancestry
import Unnest.Proofs.Text.Trim
import Unnest.Proofs.Tree.Respell
import Unnest.Proofs.Pass.LetterCase
import Unnest.Proofs.Selector.Clean
import Unnest.Proofs.Pass.Selectors
import Unnest.Proofs.Selector.Nesting
import Unnest.Proofs.Store.Refusals
import Unnest.Proofs.Pass.Locality
import Unnest.Proofs.Selector.Parts
import Unnest.Proofs.Tree.Printed
import Unnest.Proofs.CommandLine.Outcome
