import MultisigTree.Cluster
import MultisigTree.Proofs.Accounts
import MultisigTree.Proofs.BareMasks
import MultisigTree.Proofs.Circuits
import MultisigTree.Proofs.Coverage
import MultisigTree.Proofs.Excerpts
import MultisigTree.Proofs.Foresight
import MultisigTree.Proofs.Forgeries
import MultisigTree.Proofs.Gathering
import MultisigTree.Proofs.Histories
import MultisigTree.Proofs.Interleavings
import MultisigTree.Proofs.Judgements
import MultisigTree.Proofs.KeyCaches
import MultisigTree.Proofs.Mailings
import MultisigTree.Proofs.Payloads
import MultisigTree.Proofs.Progress
import MultisigTree.Proofs.Provenance
import MultisigTree.Proofs.Reception
import MultisigTree.Proofs.Reciprocity
import MultisigTree.Proofs.Screening
import MultisigTree.Proofs.Selections
import MultisigTree.Proofs.Silences
import MultisigTree.Proofs.StrayParts
import MultisigTree.Proofs.Timeouts
import MultisigTree.Proofs.Turns
import MultisigTree.Scheme.Bls
import MultisigTree.Scheme.Plain
