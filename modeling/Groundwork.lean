import Groundwork.Delegate.Basic
import Groundwork.Delegate.Bench
import Groundwork.Delegate.Client
import Groundwork.Delegate.Counter
import Groundwork.Delegate.Handler
import Groundwork.Delegate.Invocation
import Groundwork.Delegate.Policy
import Groundwork.Document.Basic
import Groundwork.Document.Error
import Groundwork.Document.TextFile
import Groundwork.Encoding
import Groundwork.File.Store
import Groundwork.File.Volume
import Groundwork.Proofs.Delegate.Algebra
import Groundwork.Proofs.Delegate.Congruence
import Groundwork.Proofs.Delegate.Exclusion
import Groundwork.Proofs.Delegate.Identity
import Groundwork.Proofs.Delegate.Interchange
import Groundwork.Proofs.Delegate.Interleaving
import Groundwork.Proofs.Delegate.Invocation
import Groundwork.Proofs.Delegate.Record
import Groundwork.Proofs.Document.Outcome
import Groundwork.Proofs.Document.SaveLoad
import Groundwork.Proofs.Document.Substitution
import Groundwork.Proofs.Encoding.Exact
import Groundwork.Proofs.Encoding.Recognized
import Groundwork.Proofs.Encoding.RoundTrip
import Groundwork.Proofs.Text.Blank
import Groundwork.Proofs.Text.ByteScan
import Groundwork.Proofs.Text.Place
import Groundwork.Proofs.Text.QuoteAutomaton
import Groundwork.Proofs.Text.Search
import Groundwork.Proofs.Text.Utf16
import Groundwork.Proofs.Text.Utf8
import Groundwork.Proofs.Tree.Addition
import Groundwork.Proofs.Tree.Attributes
import Groundwork.Proofs.Tree.Change
import Groundwork.Proofs.Tree.Checked
import Groundwork.Proofs.Tree.Continuation
import Groundwork.Proofs.Tree.Copy
import Groundwork.Proofs.Tree.Derivation
import Groundwork.Proofs.Tree.Descendants
import Groundwork.Proofs.Tree.Edited
import Groundwork.Proofs.Tree.Entry
import Groundwork.Proofs.Tree.Forest
import Groundwork.Proofs.Tree.Grammar
import Groundwork.Proofs.Tree.Growth
import Groundwork.Proofs.Tree.Layout
import Groundwork.Proofs.Tree.Links
import Groundwork.Proofs.Tree.NormalForm
import Groundwork.Proofs.Tree.Parsed
import Groundwork.Proofs.Tree.Printed
import Groundwork.Proofs.Tree.Regrowth
import Groundwork.Proofs.Tree.Reparse
import Groundwork.Proofs.Tree.Replay
import Groundwork.Proofs.Tree.Rooted
import Groundwork.Proofs.Tree.RoundTrip
import Groundwork.Proofs.Tree.Stop
import Groundwork.Proofs.Tree.Subtree
import Groundwork.Proofs.Tree.Variant
import Groundwork.Proofs.Tree.Walk
import Groundwork.Proofs.Xml.Attribute
import Groundwork.Proofs.Xml.AttributeChange
import Groundwork.Proofs.Xml.ByteCursor
import Groundwork.Proofs.Xml.Decoding
import Groundwork.Proofs.Xml.Doctype
import Groundwork.Proofs.Xml.Event
import Groundwork.Proofs.Xml.Lexeme
import Groundwork.Proofs.Xml.Locality
import Groundwork.Proofs.Xml.Name
import Groundwork.Proofs.Xml.Offset.Attribute
import Groundwork.Proofs.Xml.Offset.Reference
import Groundwork.Proofs.Xml.Offset.Run
import Groundwork.Proofs.Xml.Offset.Token
import Groundwork.Proofs.Xml.Pairing
import Groundwork.Proofs.Xml.Piece
import Groundwork.Proofs.Xml.Recognition
import Groundwork.Proofs.Xml.Reference
import Groundwork.Proofs.Xml.Spelling
import Groundwork.Proofs.Xml.StartTag
import Groundwork.Proofs.Xml.TagEnd
import Groundwork.Text.Blank
import Groundwork.Text.Printable
import Groundwork.Text.Quoted
import Groundwork.Text.Ranges
import Groundwork.Text.Search
import Groundwork.Text.Utf16
import Groundwork.Text.Utf8
import Groundwork.Tree.Basic
import Groundwork.Tree.Build
import Groundwork.Tree.Edit
import Groundwork.Tree.Node
import Groundwork.Tree.Print
import Groundwork.Tree.Summary
import Groundwork.Tree.Traversal
import Groundwork.Xml.Attribute
import Groundwork.Xml.ByteCursor
import Groundwork.Xml.Event
import Groundwork.Xml.Fault
import Groundwork.Xml.Name
import Groundwork.Xml.Reference
import Groundwork.Xml.Token
import Groundwork.Xml.Token.Lexer
