import SnippetGate.Main
import SnippetGate.Repair.Catalogue
import SnippetGate.Proofs.Balance.Move
import SnippetGate.Proofs.Balance.Walk
import SnippetGate.Proofs.Balance.Tags
import SnippetGate.Proofs.Balance.Grammar
import SnippetGate.Proofs.Balance.Accepts
import SnippetGate.Proofs.Balance.Derives
import SnippetGate.Proofs.Balance.Seam
import SnippetGate.Proofs.Balance.Closing
import SnippetGate.Proofs.Component.Truncated
import SnippetGate.Proofs.Balance.Comments
import SnippetGate.Proofs.Denylist.Signs
import SnippetGate.Proofs.Denylist.Swap
import SnippetGate.Proofs.Denylist.Keeps
import SnippetGate.Proofs.Denylist.Imports
import SnippetGate.Proofs.Repair.Typing
import SnippetGate.Proofs.Repair.Endings
import SnippetGate.Proofs.Balance.Names
import SnippetGate.Proofs.Denylist.Closers
import SnippetGate.Proofs.Repair.Closure
import SnippetGate.Proofs.Balance.Block
import SnippetGate.Proofs.Component.Isolated
import SnippetGate.Proofs.Repair.Run
import SnippetGate.Proofs.Sanitize.Release
import SnippetGate.Proofs.Contract.Mount
import SnippetGate.Proofs.Balance.Nesting
import SnippetGate.Proofs.Balance.Removal
import SnippetGate.Proofs.Balance.Fate
import SnippetGate.Proofs.Contract.Placement
import SnippetGate.Proofs.Repair.Rounds
import SnippetGate.Proofs.Sanitize.Fenced
import SnippetGate.Proofs.Sanitize.Verbatim
import SnippetGate.Proofs.Component.Again
import SnippetGate.Proofs.Sanitize.LineEnds
import SnippetGate.Proofs.Sanitize.Coherent
import SnippetGate.Proofs.Balance.BlockEnd
import SnippetGate.Proofs.Balance.Local
import SnippetGate.Proofs.Balance.Strings
import SnippetGate.Proofs.Balance.Renaming
import SnippetGate.Proofs.Repair.TagPairs
import SnippetGate.Proofs.Repair.Orphans
import SnippetGate.Proofs.Balance.Duration
import SnippetGate.Proofs.Bytes.Splice
import SnippetGate.Proofs.Handler.Branches
import SnippetGate.Proofs.Balance.Brackets
import SnippetGate.Proofs.Repair.Idempotent
import SnippetGate.Proofs.Contract.Typos
import SnippetGate.Proofs.Handler.Names
import SnippetGate.Proofs.Repair.Filling
import SnippetGate.Proofs.Tsx.Outcome
import SnippetGate.Proofs.Tsx.InitialState
import SnippetGate.Proofs.Denylist.Joints
import SnippetGate.Proofs.Repair.Adoption
import SnippetGate.Proofs.Repair.RepeatedEnd
import SnippetGate.Proofs.Component.Alone
import SnippetGate.Proofs.Sanitize.Alone
