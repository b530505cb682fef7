import Folio.Bytes
import Folio.Value
import Folio.Node.Kind
import Folio.Node.Basic
import Folio.Log.Rule
import Folio.Check.Finding
import Folio.Failure
import Folio.Outcome
import Folio.Node.Build
import Folio.Record.Writer
import Folio.Record.Field
import Folio.Record.Reader
import Folio.Text
import Folio.Section.Basic
import Folio.Section.Query
import Folio.Section.Edit
import Folio.Section.Contents
import Folio.Split.Spec
import Folio.Split.Strategy
import Folio.Rewrite
import Folio.Check.Validator
import Folio.Draft
import Folio.Log.Registry
import Folio.Proofs.Bytes.Numeral
import Folio.Proofs.Bytes.Trim
import Folio.Proofs.Bytes.Search
import Folio.Proofs.Outcome
import Folio.Proofs.Node.Admission
import Folio.Proofs.Node.Built
import Folio.Proofs.Record.Field
import Folio.Proofs.Record.Fault
import Folio.Proofs.Record.Level
import Folio.Proofs.Record.Reading
import Folio.Proofs.Record.RoundTrip
import Folio.Proofs.Record.Injective
import Folio.Proofs.Record.Course
import Folio.Proofs.Record.Refusal
import Folio.Proofs.Text.Words
import Folio.Proofs.Text.Slug
import Folio.Proofs.Section.Partition
import Folio.Proofs.Split.Batch
import Folio.Proofs.Split.Cover
import Folio.Proofs.Split.Greedy
import Folio.Proofs.Split.Finer
import Folio.Proofs.Section.Outline
import Folio.Proofs.Section.Nesting
import Folio.Proofs.Section.Contents
import Folio.Proofs.Section.Extent
import Folio.Proofs.Section.Removal
import Folio.Proofs.Section.Tiling
import Folio.Proofs.Split.Auto
import Folio.Proofs.Split.Spelling
import Folio.Proofs.Split.Obstacle
import Folio.Proofs.Rewrite.Rebuild
import Folio.Proofs.Rewrite.Refusal
import Folio.Proofs.Rewrite.Identity
import Folio.Proofs.Rewrite.Filter
import Folio.Proofs.Check.Disguise
import Folio.Proofs.Rewrite.Retarget
import Folio.Proofs.Draft.Layout
import Folio.Proofs.Draft.Table
import Folio.Proofs.Draft.Freeze
import Folio.Proofs.Check.Run
import Folio.Proofs.Check.History
import Folio.Proofs.Log.Names
import Folio.Proofs.Log.Rule
import Folio.Proofs.Log.Levels
import Folio.Proofs.Section.Range
import Folio.Proofs.Section.Insertion
import Folio.Proofs.Split.Count
import Folio.Proofs.Text.Distance
import Folio.Proofs.Text.Groups
import Folio.Proofs.Section.Undo
import Folio.Proofs.Split.Runs
import Folio.Proofs.Section.Lookup
import Folio.Proofs.Record.Schema
import Folio.Proofs.Record.Returned
import Folio.Proofs.Record.Optional
import Folio.Proofs.Section.Displaced
import Folio.Proofs.Section.Counting
import Folio.Proofs.Split.Leftover
import Folio.Proofs.Check.Relative
import Folio.Proofs.Bytes.Replace
import Folio.Proofs.Rewrite.Text
import Folio.Proofs.Draft.Columns
import Folio.Proofs.Number
import Folio.Proofs.Rewrite.Shift
import Folio.Proofs.Rewrite.Twice
import Folio.Proofs.Text.Silent
import Folio.Proofs.Rewrite.Merge
import Folio.Proofs.Section.Selection
import Folio.Proofs.Text.Suggestion
import Folio.Proofs.Bytes.CodePoint
import Folio.Proofs.Section.Pattern
import Folio.Proofs.Section.Wildcard
import Folio.Proofs.Section.Blanks
