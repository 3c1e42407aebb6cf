import BranchWord.Session
import BranchWord.Encoder
import BranchWord.Checked.Decoder
import BranchWord.Document.Instruction
import BranchWord.Proofs.Classification
import BranchWord.Proofs.Decoding
import BranchWord.Proofs.Language
import BranchWord.Proofs.Features
import BranchWord.Proofs.Diagnosis
import BranchWord.Proofs.Displacement
import BranchWord.Proofs.WellFormed
import BranchWord.Proofs.Layouts
import BranchWord.Proofs.Normalization
import BranchWord.Proofs.Viability
import BranchWord.Proofs.Encoding
import BranchWord.Proofs.RoundTrip
import BranchWord.Proofs.Sharing
import BranchWord.Proofs.Input
import BranchWord.Proofs.Sweep
import BranchWord.Proofs.History
import BranchWord.Proofs.Support
import BranchWord.Proofs.Checked.Arithmetic
import BranchWord.Proofs.Checked.Decoder
import BranchWord.Proofs.Repair
import BranchWord.Proofs.Modifier
import BranchWord.Proofs.Target
import BranchWord.Proofs.Fields
import BranchWord.Proofs.Checked.Extension
import BranchWord.Proofs.Checked.Composition
import BranchWord.Proofs.Inversion
import BranchWord.Proofs.Messages
