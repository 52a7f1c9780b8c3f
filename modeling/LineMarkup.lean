import LineMarkup.Bidi.Display
import LineMarkup.Document.Settings
import LineMarkup.Line.Data
import LineMarkup.LineStore.Bracket
import LineMarkup.LineStore.Expression
import LineMarkup.LineStore.Indentation
import LineMarkup.Settings.File
import LineMarkup.Proofs.Document.Bracket
import LineMarkup.Proofs.Document.Reparse
import LineMarkup.Proofs.Isolate.Prose
import LineMarkup.Proofs.Line.Restart
import LineMarkup.Proofs.LineStore.Innermost
import LineMarkup.Proofs.LineStore.Partner
import LineMarkup.Proofs.Document.Prose
import LineMarkup.Proofs.Parser.Course
import LineMarkup.Proofs.Document.Untouched
import LineMarkup.Proofs.Parser.Verbatim
import LineMarkup.Proofs.Span.Mirror
import LineMarkup.Proofs.Line.Blank
import LineMarkup.Proofs.Segment.Runs
import LineMarkup.Proofs.Bidi.Nesting
import LineMarkup.Proofs.Token.Longest
import LineMarkup.Proofs.Matcher.Ordered
import LineMarkup.Proofs.Matcher.Keyword
import LineMarkup.Proofs.LineStore.Closing
import LineMarkup.Proofs.LineStore.Pair
import LineMarkup.Proofs.LineStore.Indentation
import LineMarkup.Proofs.LineStore.Entry
import LineMarkup.Proofs.Settings.ModeLine
