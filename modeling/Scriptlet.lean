import Scriptlet.Main
import Scriptlet.Proofs.Grammar.Congruence
import Scriptlet.Proofs.Parser.Outcome
import Scriptlet.Proofs.Grammar.Unlimited
import Scriptlet.Proofs.Grammar.Progress
import Scriptlet.Proofs.Grammar.Layers
import Scriptlet.Proofs.Grammar.Soundness
import Scriptlet.Proofs.Grammar.Completeness
import Scriptlet.Proofs.Grammar.Exactness
import Scriptlet.Proofs.Session.Frame
import Scriptlet.Proofs.Session.WellFormed
import Scriptlet.Proofs.Session.Adequacy
import Scriptlet.Proofs.Program.Loops
import Scriptlet.Proofs.Session.Halting
import Scriptlet.Proofs.Session.Bracketing
import Scriptlet.Proofs.Program.Nesting
import Scriptlet.Proofs.Program.Numbering
import Scriptlet.Proofs.Grammar.Nesting
import Scriptlet.Proofs.Session.Native
import Scriptlet.Proofs.Session.Chain
import Scriptlet.Proofs.Store.Overlays
import Scriptlet.Proofs.Session.Lexical
import Scriptlet.Proofs.Session.Driven
import Scriptlet.Proofs.Session.Limit
import Scriptlet.Proofs.Token.Joint
import Scriptlet.Proofs.Token.Restarting
import Scriptlet.Proofs.Grammar.Extension
import Scriptlet.Proofs.Grammar.Joining
import Scriptlet.Proofs.Session.Pairing
import Scriptlet.Proofs.Session.Unseen
import Scriptlet.Proofs.Session.Joining
import Scriptlet.Proofs.Session.Collections
import Scriptlet.Proofs.Token.Spelling
import Scriptlet.Proofs.Program.Legible
import Scriptlet.Proofs.Grammar.Canonical
import Scriptlet.Proofs.Grammar.Rendering
import Scriptlet.Proofs.Program.RoundTrip
import Scriptlet.Proofs.Session.ReadBack
import Scriptlet.Proofs.Token.Segments
import Scriptlet.Proofs.Token.Spacing
import Scriptlet.Proofs.Grammar.Completion
import Scriptlet.Proofs.Program.Recovery
import Scriptlet.Proofs.Session.Renaming
import Scriptlet.Proofs.Session.Dated
import Scriptlet.Proofs.Session.Repetition
import Scriptlet.Proofs.Session.Failing
import Scriptlet.Proofs.Text.Quoted
import Scriptlet.Proofs.Program.Opening
import Scriptlet.Proofs.Program.Distinct
import Scriptlet.Proofs.Program.Source
import Scriptlet.Proofs.Checked.Agreement
import Scriptlet.Proofs.Checked.Scanner
import Scriptlet.Proofs.Checked.Operation
import Scriptlet.Proofs.Checked.Reader
import Scriptlet.Proofs.Checked.Evaluation
import Scriptlet.Proofs.Checked.Moments
import Scriptlet.Proofs.Checked.Calls
import Scriptlet.Proofs.Program.Names
import Scriptlet.Proofs.Session.Unmentioned
import Scriptlet.Proofs.Shell.Lines
import Scriptlet.Proofs.Shell.Conversation
import Scriptlet.Proofs.Grammar.Frames
import Scriptlet.Proofs.Grammar.Limit
import Scriptlet.Proofs.Session.Arithmetic
import Scriptlet.Proofs.Program.Diagnostics
import Scriptlet.Proofs.Grammar.Exchange
import Scriptlet.Proofs.Program.OptionalSemicolons
import Scriptlet.Proofs.Program.Nodes
import Scriptlet.Proofs.Session.Account
import Scriptlet.Proofs.Session.Origins
import Scriptlet.Proofs.Session.Tracing
import Scriptlet.Proofs.Value.Equality
import Scriptlet.Proofs.Session.Identity
import Scriptlet.Proofs.Session.Equality
