import TypeGraft.Main
import TypeGraft.Proofs.Table
import TypeGraft.Proofs.Digraph.Components
import TypeGraft.Proofs.Digraph.Layers
import TypeGraft.Proofs.Digraph.Order
import TypeGraft.Proofs.Digraph.Circles
import TypeGraft.Proofs.Harvest.Change
import TypeGraft.Proofs.Harvest.Synonyms
import TypeGraft.Proofs.Harvest.Waiting
import TypeGraft.Proofs.Lookup
import TypeGraft.Proofs.Harvest.Binding
import TypeGraft.Proofs.Harvest.Look
import TypeGraft.Proofs.Harvest.Tracking
import TypeGraft.Proofs.Resolution.Run
import TypeGraft.Proofs.Resolution.Agenda
import TypeGraft.Proofs.Resolution.Session
import TypeGraft.Proofs.Resolution.Completeness
import TypeGraft.Proofs.Resolution.Soundness
import TypeGraft.Proofs.Harvest.Linked
import TypeGraft.Proofs.Resolution.Names
import TypeGraft.Proofs.Splice.Merge
import TypeGraft.Proofs.Splice.Block
import TypeGraft.Proofs.Harvest.Release
import TypeGraft.Proofs.Harvest.Visits
import TypeGraft.Proofs.Resolution.Potential
import TypeGraft.Proofs.Files.Places
import TypeGraft.Proofs.Resolution.Termination
import TypeGraft.Proofs.Resolution.Walks
import TypeGraft.Proofs.Splice.Ancestors
import TypeGraft.Proofs.Harvest.Clauses
import TypeGraft.Proofs.Splice.Inheritance
import TypeGraft.Proofs.Harvest.Slots
import TypeGraft.Proofs.Splice.Edits
import TypeGraft.Proofs.Inlining
import TypeGraft.Proofs.Splice.Cleanup
import TypeGraft.Proofs.Harvest.Literal
import TypeGraft.Proofs.Resolution.Home
import TypeGraft.Proofs.Splice.Quiet
import TypeGraft.Proofs.Idempotence
import TypeGraft.Proofs.Harvest.Ranks
import TypeGraft.Proofs.Splice.Tables
import TypeGraft.Proofs.Harvest.Circles
import TypeGraft.Proofs.Splice.Needs
import TypeGraft.Proofs.Splice.Declared
import TypeGraft.Proofs.Text.Utf8
import TypeGraft.Proofs.Span
import TypeGraft.Proofs.Replacement
import TypeGraft.Proofs.Replacement.Outcome
import TypeGraft.Proofs.Syntax.Layout
import TypeGraft.Proofs.Syntax.Cursor
import TypeGraft.Proofs.Syntax.Grammar
import TypeGraft.Proofs.Syntax.Marks
import TypeGraft.Proofs.Syntax.Shape
import TypeGraft.Proofs.Syntax.Script
import TypeGraft.Proofs.Outline.Layout
import TypeGraft.Proofs.Outline.Spacing
import TypeGraft.Proofs.Harvest.Layout
import TypeGraft.Proofs.Splice.Bodies
import TypeGraft.Proofs.Splice.Apart
import TypeGraft.Proofs.Component
import TypeGraft.Proofs.Frame
import TypeGraft.Proofs.Harvest.Reading
import TypeGraft.Proofs.Resolution.Reading
import TypeGraft.Proofs.Files.Alike
import TypeGraft.Proofs.Reading
import TypeGraft.Proofs.Outline.Strictness
import TypeGraft.Proofs.Strictness
import TypeGraft.Proofs.Files.Astray
import TypeGraft.Proofs.Resolution.Failing
import TypeGraft.Proofs.Splice.Encoding
import TypeGraft.Proofs.Failing
import TypeGraft.Proofs.Syntax.Openings
import TypeGraft.Proofs.Outline.Openings
import TypeGraft.Proofs.Splice.Lineage
import TypeGraft.Proofs.Splice.Merging
import TypeGraft.Proofs.Splice.Hoisting
import TypeGraft.Proofs.Resolution.Own
import TypeGraft.Proofs.Splice.Idle
import TypeGraft.Proofs.Splice.Parameters
import TypeGraft.Proofs.Json.Pieces
import TypeGraft.Proofs.Json.Document
import TypeGraft.Proofs.Json.Reader
import TypeGraft.Proofs.Harvest.Known
import TypeGraft.Proofs.Harvest.InStep
import TypeGraft.Proofs.Resolution.Scope
import TypeGraft.Proofs.Outline.Imports
import TypeGraft.Proofs.Splice.Imports
import TypeGraft.Proofs.Syntax.Comments
import TypeGraft.Proofs.Outline.Comments
import TypeGraft.Proofs.Outline.Alike
import TypeGraft.Proofs.Comments
import TypeGraft.Proofs.Files.Candidates
import TypeGraft.Proofs.Project
import TypeGraft.Proofs.Component.Attributes
import TypeGraft.Proofs.Outline.Scans
import TypeGraft.Proofs.Outline.Lines
import TypeGraft.Proofs.Outline.Mentions
import TypeGraft.Proofs.Component.Lines
import TypeGraft.Proofs.Harvest.Lines
import TypeGraft.Proofs.Resolution.Lines
import TypeGraft.Proofs.Lines
