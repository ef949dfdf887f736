import WorldMarkup.Tree.Outline
import WorldMarkup.Tree.Table
import WorldMarkup.World.Identity
import WorldMarkup.World.Grammar
import WorldMarkup.World.Chain
import WorldMarkup.World.Expression
import WorldMarkup.World.Naming
import WorldMarkup.World.TextRun
import WorldMarkup.World.Ask
import WorldMarkup.World.Walk
import WorldMarkup.Json.Basic
import WorldMarkup.Json.Writer
import WorldMarkup.Json.Reader
import WorldMarkup.Json.Document
import WorldMarkup.Markup.Parse
import WorldMarkup.Layout.Print
import WorldMarkup.Form.Rework
import WorldMarkup.Form.Record
import WorldMarkup.Json.Form
import WorldMarkup.Main
import WorldMarkup.Proofs.Tree.Pruning
import WorldMarkup.Proofs.Tree.Refolding
import WorldMarkup.Proofs.RoundTrip
import WorldMarkup.Proofs.Form.Preservation
import WorldMarkup.Proofs.Form.Showing
import WorldMarkup.Proofs.Form.Merging
import WorldMarkup.Proofs.Form.Conformance
import WorldMarkup.Proofs.Form.Lawful
import WorldMarkup.Proofs.World.Naming
import WorldMarkup.Proofs.World.Filtering
import WorldMarkup.Proofs.Layout.Widths
import WorldMarkup.Proofs.Form.Keys
import WorldMarkup.Proofs.Edit.Remainders
import WorldMarkup.Proofs.Edit.Comparing
import WorldMarkup.Proofs.Edit.Reading
import WorldMarkup.Proofs.Edit.Runs
import WorldMarkup.Proofs.Edit.Weights
import WorldMarkup.Proofs.Edit.Repeating
import WorldMarkup.Proofs.Edit.Prefixes
import WorldMarkup.Proofs.Form.Joined
import WorldMarkup.Proofs.Form.Letters
import WorldMarkup.Proofs.Form.Grounds
import WorldMarkup.Proofs.Form.Texts
import WorldMarkup.Proofs.Tree.Wrappers
import WorldMarkup.Proofs.World.Selecting
import WorldMarkup.Proofs.Form.Targets
import WorldMarkup.Proofs.Form.Identifiers
import WorldMarkup.Proofs.World.Spots
import WorldMarkup.Proofs.Markup.Canonical
import WorldMarkup.Proofs.Tree.Ledger
import WorldMarkup.Proofs.Tree.Tabling
import WorldMarkup.Proofs.Tree.Meaning
import WorldMarkup.Proofs.Tree.Priorities
import WorldMarkup.Proofs.Form.Copies
import WorldMarkup.Proofs.Form.Recovery
import WorldMarkup.Proofs.Layout.Filling
import WorldMarkup.Proofs.World.Words
import WorldMarkup.Proofs.Tree.Ranking
import WorldMarkup.Proofs.Markup.Escaping
