import Variation.Time
import Variation.Change
import Variation.Kind
import Variation.Line
import Variation.StableId
import Variation.Formula
import Variation.Text.Lines
import Variation.Text.Blank
import Variation.Label
import Variation.Source
import Variation.Node
import Variation.Fault
import Variation.Report
import Variation.Diff.Basic
import Variation.Diff.Edit
import Variation.Diff.Path
import Variation.Diff.Walk
import Variation.Diff.Invariant
import Variation.Diff.Consistency
import Variation.Diff.Same
import Variation.Diff.Copy
import Variation.Diff.Tree
import Variation.Diff.View
import Variation.Text.Find
import Variation.Condition.Comment
import Variation.Condition.Token
import Variation.Condition.Expression
import Variation.Dialect
import Variation.Reading.PhysicalLine
import Variation.Reading.LogicalLine
import Variation.Reading.Outline
import Variation.Reading
import Variation.Text.Digest
import Variation.Text.Json
import Variation.Printing.Source
import Variation.Printing.LineDiff
import Variation.Printing.Listing
import Variation.Printing.Document
import Variation.Matching.Snapshot
import Variation.Matching.Basic
import Variation.Matching.CommonSubsequence
import Variation.Matching.Greedy
import Variation.Construction
import Variation.Refinement
import Variation.Simplification.Basic
import Variation.Simplification.Cut
import Variation.Simplification.Collapse
import Variation.Simplification.Moved
import Variation.Journal
import Variation.Toml.Item
import Variation.Toml.Document
import Variation.CommandLine.Arguments
import Variation.CommandLine.Command
import Variation.CommandLine.FileTree
import Variation.CommandLine.Files
import Variation.CommandLine.Run
import Variation.Main
import Variation.Proofs.Edges
import Variation.Proofs.Edits
import Variation.Proofs.History
import Variation.Proofs.Reach
import Variation.Proofs.Outcomes
import Variation.Proofs.Consistency
import Variation.Proofs.Lawful
import Variation.Proofs.Ancestors
import Variation.Proofs.Forest
import Variation.Proofs.Tour
import Variation.Proofs.Shape
import Variation.Proofs.Printed
import Variation.Proofs.Spelled
import Variation.Proofs.Nest
import Variation.Proofs.Outlines
import Variation.Proofs.Putting
import Variation.Proofs.Likeness
import Variation.Proofs.Alone
import Variation.Proofs.Orderly
import Variation.Proofs.Unedited
import Variation.Proofs.Blocks
import Variation.Proofs.Projections
import Variation.Proofs.Same
import Variation.Proofs.Lines
import Variation.Proofs.Commutes
import Variation.Proofs.Sources
import Variation.Proofs.Blame
import Variation.Proofs.Acceptance
import Variation.Proofs.Unbroken
import Variation.Proofs.Reprinted
import Variation.Proofs.Snapshots
import Variation.Proofs.Pairs
import Variation.Proofs.Joining
import Variation.Proofs.Refined
import Variation.Proofs.Whole
import Variation.Proofs.Texts
import Variation.Proofs.Still
import Variation.Proofs.Trees
import Variation.Proofs.Removing
import Variation.Proofs.Rebuilding
import Variation.Proofs.Rebuilt
import Variation.Proofs.Numbering
import Variation.Proofs.Constructed
import Variation.Proofs.KeptTexts
import Variation.Proofs.Improved
import Variation.Proofs.Placed
import Variation.Proofs.Lined
import Variation.Proofs.Reread
import Variation.Proofs.Projected
import Variation.Proofs.Agreement
import Variation.Proofs.Arranged
import Variation.Proofs.Durable
import Variation.Proofs.Handled
import Variation.Proofs.Everywhere
import Variation.Proofs.Evident
import Variation.Proofs.Labels
import Variation.Proofs.Selection
import Variation.Proofs.Trimmed
import Variation.Proofs.Idle
import Variation.Proofs.Chains
import Variation.Proofs.Growing
import Variation.Proofs.Collapsed
import Variation.Proofs.Condensed
import Variation.Proofs.Presences
import Variation.Proofs.Simplified
import Variation.Proofs.Swapped
import Variation.Proofs.Moved
import Variation.Proofs.Digests
import Variation.Proofs.Greedy
import Variation.Proofs.Contract
import Variation.Proofs.Saturated
import Variation.Proofs.Lasting
import Variation.Proofs.Compared
import Variation.Proofs.Printable
import Variation.Proofs.Mirrored
import Variation.Proofs.Standalone
import Variation.Proofs.Splitting
import Variation.Proofs.Survivors
import Variation.Proofs.OwnTwins
import Variation.Proofs.Unaltered
import Variation.Proofs.Lexed
import Variation.Proofs.Expressions
import Variation.Proofs.Sheltered
import Variation.Proofs.Alignments
import Variation.Proofs.Regained
import Variation.Proofs.Undone
import Variation.Proofs.Comments
import Variation.Proofs.Propositions
import Variation.Proofs.Unambiguous
import Variation.Proofs.Identified
import Variation.Proofs.Corresponding
import Variation.Proofs.Filler
import Variation.Proofs.Skipping
import Variation.Proofs.Maximal
import Variation.Proofs.Copied
import Variation.Proofs.Transcribed
import Variation.Proofs.Measured
import Variation.Proofs.Ranged
import Variation.Proofs.Segmented
import Variation.Proofs.Regrouped
import Variation.Proofs.Gathered
import Variation.Proofs.Longest
import Variation.Proofs.Lifted
import Variation.Proofs.Counted
import Variation.Proofs.Named
import Variation.Proofs.Looped
import Variation.Proofs.Contiguous
import Variation.Proofs.Stripped
import Variation.Proofs.Interleaved
import Variation.Proofs.Reported
import Variation.Proofs.Traversed
