import RecordLisp.Error.Json
import RecordLisp.Session
import RecordLisp.Proofs.Source.Allocation
import RecordLisp.Proofs.Source.Chains
import RecordLisp.Proofs.Source.Places
import RecordLisp.Proofs.Heap.Recycling
import RecordLisp.Proofs.Builtin.Assignment
import RecordLisp.Proofs.Registry
import RecordLisp.Proofs.Eval.Binding
import RecordLisp.Proofs.Eval.Frame
import RecordLisp.Proofs.Eval.Scope
import RecordLisp.Proofs.Session.Loading
import RecordLisp.Proofs.Image.Canonical
import RecordLisp.Proofs.Image.Inline
import RecordLisp.Proofs.Image.Coverage
import RecordLisp.Proofs.Image.Walk
import RecordLisp.Proofs.Image.Guards
import RecordLisp.Proofs.Atom.Equality
import RecordLisp.Proofs.Builtin.Arithmetic
import RecordLisp.Proofs.Text.Template
import RecordLisp.Proofs.Session.Printing
import RecordLisp.Proofs.Builtin.Window
import RecordLisp.Proofs.Json.Stored
import RecordLisp.Proofs.Record.Changes
