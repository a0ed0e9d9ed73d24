import TagTemplate.Main
import TagTemplate.Proofs.Bindings
import TagTemplate.Proofs.Bindings.History
import TagTemplate.Proofs.Block.Clean
import TagTemplate.Proofs.Block.Grammar
import TagTemplate.Proofs.Block.Matching
import TagTemplate.Proofs.Block.Nested
import TagTemplate.Proofs.Block.Offences
import TagTemplate.Proofs.Block.Pair
import TagTemplate.Proofs.Block.Pairing
import TagTemplate.Proofs.Block.Runs
import TagTemplate.Proofs.Block.Steps
import TagTemplate.Proofs.Block.Strict
import TagTemplate.Proofs.Check
import TagTemplate.Proofs.Check.Positions
import TagTemplate.Proofs.Check.Scans
import TagTemplate.Proofs.CheckedRender
import TagTemplate.Proofs.Cleaning
import TagTemplate.Proofs.Command.Render
import TagTemplate.Proofs.Conditional
import TagTemplate.Proofs.Conditional.Failure
import TagTemplate.Proofs.Context.Blame
import TagTemplate.Proofs.Context.OfJson
import TagTemplate.Proofs.Context.Outline
import TagTemplate.Proofs.Context.Shape
import TagTemplate.Proofs.DataDefects
import TagTemplate.Proofs.Fallible
import TagTemplate.Proofs.Files.Writing
import TagTemplate.Proofs.Inclusion.Basic
import TagTemplate.Proofs.Inclusion.Consistency
import TagTemplate.Proofs.Inclusion.Entries
import TagTemplate.Proofs.Inclusion.Expansion
import TagTemplate.Proofs.Inclusion.Failure
import TagTemplate.Proofs.Inclusion.Graph
import TagTemplate.Proofs.Inclusion.Nesting
import TagTemplate.Proofs.Inclusion.Stack
import TagTemplate.Proofs.Json.Ordered
import TagTemplate.Proofs.Leftover
import TagTemplate.Proofs.Link
import TagTemplate.Proofs.Marked.Blank
import TagTemplate.Proofs.Marked.Canonical
import TagTemplate.Proofs.Marked.Filling
import TagTemplate.Proofs.Marked.Ink
import TagTemplate.Proofs.Marked.Inscription
import TagTemplate.Proofs.Marked.Matched
import TagTemplate.Proofs.Marked.Octets
import TagTemplate.Proofs.Marked.Own
import TagTemplate.Proofs.Marked.Piecewise
import TagTemplate.Proofs.Marked.Rewrite
import TagTemplate.Proofs.Marked.Sealed
import TagTemplate.Proofs.Marked.Stretches
import TagTemplate.Proofs.Marked.Vanishing
import TagTemplate.Proofs.Noninterference
import TagTemplate.Proofs.Policy
import TagTemplate.Proofs.Slices.Block
import TagTemplate.Proofs.Slices.Lexer
import TagTemplate.Proofs.Slices.Marked
import TagTemplate.Proofs.Slices.Render
import TagTemplate.Proofs.Slices.Steps
import TagTemplate.Proofs.Slices.Text
import TagTemplate.Proofs.Source.History
import TagTemplate.Proofs.Source.Layout
import TagTemplate.Proofs.Source.Names
import TagTemplate.Proofs.Tag.Collapsing
import TagTemplate.Proofs.Tag.Grammar
import TagTemplate.Proofs.Tag.Lexing
import TagTemplate.Proofs.Tag.Spelling
import TagTemplate.Proofs.Text.Excerpt
import TagTemplate.Proofs.Text.LineBreak
import TagTemplate.Proofs.Text.Order
import TagTemplate.Proofs.Text.Position
import TagTemplate.Proofs.Text.Replacing
import TagTemplate.Proofs.Text.Seams
import TagTemplate.Proofs.Text.Search
import TagTemplate.Proofs.Text.Settled
import TagTemplate.Proofs.Text.Utf8
import TagTemplate.Proofs.Tree.Basic
import TagTemplate.Proofs.Tree.Eval
import TagTemplate.Proofs.Tree.Inlining
import TagTemplate.Proofs.Tree.Items
import TagTemplate.Proofs.Tree.Render
import TagTemplate.Proofs.Tree.Steps
import TagTemplate.Proofs.Verbatim
import TagTemplate.Settings.OfJson
import TagTemplate.Source.Store
