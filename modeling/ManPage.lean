import ManPage.Main
import ManPage.Proofs.Inline.Escape
import ManPage.Proofs.Markup.Item
import ManPage.Proofs.Markup.Nest
import ManPage.Proofs.Inline.Font
import ManPage.Proofs.Inline.Link
import ManPage.Proofs.Document.Reading
import ManPage.Proofs.Document.Decoding
import ManPage.Proofs.Anchor
import ManPage.Proofs.Document.Pieces
import ManPage.Proofs.Nesting
import ManPage.Proofs.Document.Markup
import ManPage.Proofs.Document.Headings
import ManPage.Proofs.Document.Effect
import ManPage.Proofs.Document.Margin
import ManPage.Proofs.Document.Account
import ManPage.Proofs.Document.Agreement
import ManPage.Proofs.Document.Problems
import ManPage.Proofs.Document.Options
import ManPage.Proofs.Document.Insertion
import ManPage.Proofs.Document.Body
import ManPage.Proofs.Document.Page
import ManPage.Proofs.Files
import ManPage.Proofs.CommandLine.Conversion
import ManPage.Proofs.Settings.Overrides
import ManPage.Proofs.Settings.Layers
import ManPage.Proofs.Inline.Form
import ManPage.Proofs.Inline.Idempotence
import ManPage.Proofs.Document.Consumption
import ManPage.Proofs.Document.Failure
import ManPage.Proofs.Settings.Shadowing
import ManPage.Proofs.Anchor.Sequence
import ManPage.Proofs.Line.Quoting
import ManPage.Proofs.Table.Header
import ManPage.Proofs.Table.Meaning
import ManPage.Proofs.Document.ListEnd
import ManPage.Proofs.Line.Unquoted
import ManPage.Proofs.Text.Complete
import ManPage.Proofs.Inline.Separation
import ManPage.Proofs.Inline.Recovery
import ManPage.Proofs.Inline.Switch
import ManPage.Proofs.Inline.Anchored
import ManPage.Proofs.Page.FrontMatter
import ManPage.Proofs.Document.LineEnds
import ManPage.Proofs.Table.Columns
