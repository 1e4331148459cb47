import Smali.Access
import Smali.Archive.Aes
import Smali.Archive.Base64
import Smali.Archive.Cbc
import Smali.Archive.Cipher
import Smali.Archive.File
import Smali.Archive.KeyTable
import Smali.Binary.Format
import Smali.Binary.Numeral
import Smali.Binary.Shortest
import Smali.Descriptor.Basic
import Smali.Descriptor.Parse
import Smali.Fault
import Smali.FileTree.Basic
import Smali.FileTree.Path
import Smali.FileTree.Sources
import Smali.FileTree.System
import Smali.Line.Basic
import Smali.Line.Directive
import Smali.Line.Scan
import Smali.Listener.Basic
import Smali.Listener.Call
import Smali.Listener.Recorder
import Smali.Listener.Slot
import Smali.Literal.Decode
import Smali.Literal.Encode
import Smali.Literal.Escape
import Smali.Literal.Nesting
import Smali.Literal.Numeral
import Smali.Literal.Outline
import Smali.Literal.Value
import Smali.Output.Page
import Smali.Output.Writer
import Smali.Proofs.AcceptedValues
import Smali.Proofs.AnnotationsAgain
import Smali.Proofs.Archives
import Smali.Proofs.ArrayParts
import Smali.Proofs.ArrayTypes
import Smali.Proofs.BareReading
import Smali.Proofs.Base64Texts
import Smali.Proofs.BehindClosing
import Smali.Proofs.BlankLines
import Smali.Proofs.Blanks
import Smali.Proofs.BlockCipher
import Smali.Proofs.Blocks
import Smali.Proofs.Braces
import Smali.Proofs.ByteField
import Smali.Proofs.CallFaults
import Smali.Proofs.CallLines
import Smali.Proofs.CallTrees
import Smali.Proofs.CallsAloud
import Smali.Proofs.CanonicalForms
import Smali.Proofs.ClassBodies
import Smali.Proofs.ClassCalls
import Smali.Proofs.CleanLogs
import Smali.Proofs.CleanedCode
import Smali.Proofs.ClosingQuotes
import Smali.Proofs.ClosingTails
import Smali.Proofs.CodeLines
import Smali.Proofs.CodeParts
import Smali.Proofs.CodeTexts
import Smali.Proofs.CommentAccounts
import Smali.Proofs.CommentCourse
import Smali.Proofs.CommentedReading
import Smali.Proofs.CommentedSources
import Smali.Proofs.Company
import Smali.Proofs.CutShort
import Smali.Proofs.Cuts
import Smali.Proofs.Declarations
import Smali.Proofs.Declining
import Smali.Proofs.Delegation
import Smali.Proofs.Descent
import Smali.Proofs.DescentFrames
import Smali.Proofs.DescentProgress
import Smali.Proofs.DescentReader
import Smali.Proofs.Descriptors
import Smali.Proofs.DialogueLaws
import Smali.Proofs.DirectiveLines
import Smali.Proofs.Divisions
import Smali.Proofs.ElementLines
import Smali.Proofs.EscapeGrammar
import Smali.Proofs.Escapes
import Smali.Proofs.ExactChecks
import Smali.Proofs.FaultPlaces
import Smali.Proofs.Feints
import Smali.Proofs.FlagSpellings
import Smali.Proofs.Flags
import Smali.Proofs.FolderSources
import Smali.Proofs.Footing
import Smali.Proofs.FormatAgain
import Smali.Proofs.FormatCommented
import Smali.Proofs.FreeLayout
import Smali.Proofs.GatheredLines
import Smali.Proofs.Gathering
import Smali.Proofs.HeaderLines
import Smali.Proofs.InkedPages
import Smali.Proofs.Inline
import Smali.Proofs.InlineLiterals
import Smali.Proofs.Insertions
import Smali.Proofs.IntegerLiterals
import Smali.Proofs.JoinedElements
import Smali.Proofs.KeptValues
import Smali.Proofs.KindredFrames
import Smali.Proofs.KindredLines
import Smali.Proofs.KindredReading
import Smali.Proofs.Kinship
import Smali.Proofs.Layout
import Smali.Proofs.Likeness
import Smali.Proofs.LineAccounts
import Smali.Proofs.LineWords
import Smali.Proofs.LocalLines
import Smali.Proofs.MemberReferences
import Smali.Proofs.MethodCalls
import Smali.Proofs.MethodFrames
import Smali.Proofs.MethodLinesAgain
import Smali.Proofs.NestedOpenings
import Smali.Proofs.NotedCalls
import Smali.Proofs.NotedReading
import Smali.Proofs.OneLine
import Smali.Proofs.Operands
import Smali.Proofs.Overheard
import Smali.Proofs.PageEdits
import Smali.Proofs.PageLines
import Smali.Proofs.Paragraphs
import Smali.Proofs.Pieces
import Smali.Proofs.Places
import Smali.Proofs.PlainCalls
import Smali.Proofs.PlainNames
import Smali.Proofs.Quiet
import Smali.Proofs.QuotedBodies
import Smali.Proofs.QuotedTokens
import Smali.Proofs.ReadBack
import Smali.Proofs.ReadableCalls
import Smali.Proofs.ReadableValues
import Smali.Proofs.ReaderFooting
import Smali.Proofs.ReaderRemit
import Smali.Proofs.Recorded
import Smali.Proofs.Recovery
import Smali.Proofs.Rehearsal
import Smali.Proofs.RemarkedLines
import Smali.Proofs.RemarkedPages
import Smali.Proofs.Remits
import Smali.Proofs.Renumbering
import Smali.Proofs.RewrittenLines
import Smali.Proofs.Scalars
import Smali.Proofs.ScannedTexts
import Smali.Proofs.ScopeOrder
import Smali.Proofs.ScopeProtocol
import Smali.Proofs.SimpleNames
import Smali.Proofs.Sites
import Smali.Proofs.SkippedMethods
import Smali.Proofs.SnippetCalls
import Smali.Proofs.Snippets
import Smali.Proofs.SoundChecks
import Smali.Proofs.StrayAnnotations
import Smali.Proofs.StrictCourse
import Smali.Proofs.StrictReader
import Smali.Proofs.StrictStep
import Smali.Proofs.TightTexts
import Smali.Proofs.Tiles
import Smali.Proofs.TokenBraces
import Smali.Proofs.TokenPlaces
import Smali.Proofs.ToldCalls
import Smali.Proofs.Tolerance
import Smali.Proofs.TolerantLines
import Smali.Proofs.TolerantReader
import Smali.Proofs.Trace
import Smali.Proofs.Uncommented
import Smali.Proofs.ValueLines
import Smali.Proofs.Written
import Smali.Reader.Arguments
import Smali.Reader.Desk
import Smali.Reader.Dialogue
import Smali.Reader.File
import Smali.Reader.Frame
import Smali.Reader.Options
import Smali.Reader.Run
import Smali.Reader.Stage
import Smali.Reader.Step
import Smali.Text.Basic
import Smali.Text.Digits
import Smali.Text.Length
import Smali.Text.Listing
import Smali.Text.Utf16
import Smali.Visibility
