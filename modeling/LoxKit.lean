import LoxKit.Main
import LoxKit.Proofs.CommandLine.Trees
import LoxKit.Proofs.Grammar.Display
import LoxKit.Proofs.Grammar.Interruption
import LoxKit.Proofs.Grammar.Omission
import LoxKit.Proofs.Grammar.Statements
import LoxKit.Proofs.Machine.Search
import LoxKit.Proofs.Renaming.Invariance
import LoxKit.Proofs.Scope.Balance
import LoxKit.Proofs.Session.Containment
import LoxKit.Proofs.Session.Dispatch
import LoxKit.Proofs.Session.Globals
import LoxKit.Proofs.Session.Idle
import LoxKit.Proofs.Session.Limit
import LoxKit.Proofs.Session.Lineages
import LoxKit.Proofs.Session.Loops
import LoxKit.Proofs.Session.Notices
import LoxKit.Proofs.Session.Piecewise
import LoxKit.Proofs.Session.Returns
import LoxKit.Proofs.Session.Safety
import LoxKit.Proofs.Token.Lexicon
import LoxKit.Proofs.Token.Respelling
