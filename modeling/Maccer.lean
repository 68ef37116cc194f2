import Maccer.Lua.Str
import Maccer.Lua.Pattern
import Maccer.Lua.Bounds
import Maccer.Lua.Halts
import Maccer.Lua.Matching
import Maccer.Lua.Pieces
import Maccer.Lua.Table
import Maccer.Lua.Rows
import Maccer.Utf8
import Maccer.Unicode
import Maccer.Key
import Maccer.Parallels
import Maccer.Dictionary
import Maccer.Letters
import Maccer.Ignore
import Maccer.Substitute
import Maccer.Exmac
import Maccer.KeyFile
import Maccer.Lines
import Maccer.Cleanup
import Maccer.KeyLines
import Maccer.Ledger
import Maccer.Fixkey
import Maccer.Learning
import Maccer.KeyInvariant
import Maccer.Headers
import Maccer.KeyText
import Maccer.KeyRoundTrip
import Maccer.Export
import Maccer.Sources
import Maccer.Chains
import Maccer.Replacing
import Maccer.Repair
import Maccer.RepairOrder
import Maccer.Handmade
import Maccer.History
import Maccer.Characters
import Maccer.Mac
import Maccer.Majority
import Maccer.Guessing
import Maccer.Reports
import Maccer.Affixes
import Maccer.Splice
import Maccer.Trimming
import Maccer.Options
import Maccer.Comments
import Maccer.MacWeb
import Maccer.WebTrimming
import Maccer.WebScan
import Maccer.Edits
import Maccer.Restoring
import Maccer.Moving
import Maccer.Transfers
import Maccer.Lifecycle
import Maccer.Saving
import Maccer.Slots
import Maccer.Accepted
import Maccer.Abbreviations
import Maccer.Modifiers
import Maccer.Firing
import Maccer.Setupsubs
import Maccer.Constants
import Maccer.Analyze
import Maccer.CommentAgreement
import Maccer.IntervocalicOrder
import Maccer.Undoing
import Maccer.Hyphens
import Maccer.Additions
import Maccer.ClearKey
import Maccer.SourceForms
import Maccer.Ambiguities
import Maccer.Recalling
import Maccer.Perfects
import Maccer.Capitals
import Maccer.Choices
import Maccer.Halting
import Maccer.Scanning
import Maccer.Variations
import Maccer.Contexts
import Maccer.Reading
import Maccer.SourceRuns
import Maccer.SourceTokens
import Maccer.TextRoundTrip
import Maccer.TextLetters
import Maccer.WebAgreement
import Maccer.RepairsReading
