import Crosswalk.Batch
import Crosswalk.Catalog
import Crosswalk.CommandLine.Arguments
import Crosswalk.CommandLine.Run
import Crosswalk.CommandLine.Storage
import Crosswalk.Conversion.Attributes
import Crosswalk.Conversion.Basic
import Crosswalk.Conversion.Content
import Crosswalk.Conversion.File
import Crosswalk.Conversion.Shape
import Crosswalk.Conversion.Simple
import Crosswalk.Datatype
import Crosswalk.Digest
import Crosswalk.Document
import Crosswalk.Facet.Basic
import Crosswalk.Facet.Effective
import Crosswalk.Facet.Pattern
import Crosswalk.Json.Basic
import Crosswalk.Json.Reader
import Crosswalk.Json.Writer
import Crosswalk.Link
import Crosswalk.Linkage.Basic
import Crosswalk.Linkage.Reference
import Crosswalk.Main
import Crosswalk.Number.Double
import Crosswalk.Number.Lexical
import Crosswalk.Occurs
import Crosswalk.Options
import Crosswalk.Problem
import Crosswalk.Proofs.Addition
import Crosswalk.Proofs.Arrangement
import Crosswalk.Proofs.Batch
import Crosswalk.Proofs.Catalog
import Crosswalk.Proofs.Collection
import Crosswalk.Proofs.Content.Attributes
import Crosswalk.Proofs.Content.Branches
import Crosswalk.Proofs.Content.Choice
import Crosswalk.Proofs.Content.Collect
import Crosswalk.Proofs.Content.Conflicts
import Crosswalk.Proofs.Content.Counts
import Crosswalk.Proofs.Content.Decision
import Crosswalk.Proofs.Content.Exact
import Crosswalk.Proofs.Content.Gathering
import Crosswalk.Proofs.Content.Inheritance
import Crosswalk.Proofs.Content.Leaves
import Crosswalk.Proofs.Content.Objects
import Crosswalk.Proofs.Content.Openness
import Crosswalk.Proofs.Content.Rendering
import Crosswalk.Proofs.Content.Root
import Crosswalk.Proofs.Content.Roster
import Crosswalk.Proofs.Content.Separate
import Crosswalk.Proofs.Content.Sequences
import Crosswalk.Proofs.Content.Single
import Crosswalk.Proofs.Content.Slots
import Crosswalk.Proofs.Content.Soundness
import Crosswalk.Proofs.Content.Text
import Crosswalk.Proofs.Content.Types
import Crosswalk.Proofs.Content.Upkeep
import Crosswalk.Proofs.Content.Uses
import Crosswalk.Proofs.Content.Word
import Crosswalk.Proofs.Conversion.Agree
import Crosswalk.Proofs.Conversion.Both
import Crosswalk.Proofs.Conversion.Cause
import Crosswalk.Proofs.Conversion.Closure
import Crosswalk.Proofs.Conversion.ContentReports
import Crosswalk.Proofs.Conversion.Descent
import Crosswalk.Proofs.Conversion.File
import Crosswalk.Proofs.Conversion.Frame
import Crosswalk.Proofs.Conversion.InPlace
import Crosswalk.Proofs.Conversion.Kept
import Crosswalk.Proofs.Conversion.Links
import Crosswalk.Proofs.Conversion.Lookup
import Crosswalk.Proofs.Conversion.Merging
import Crosswalk.Proofs.Conversion.Names
import Crosswalk.Proofs.Conversion.Notes
import Crosswalk.Proofs.Conversion.Reports
import Crosswalk.Proofs.Conversion.Run
import Crosswalk.Proofs.Conversion.Standard
import Crosswalk.Proofs.Conversion.Tasks
import Crosswalk.Proofs.Conversion.Variety
import Crosswalk.Proofs.Conversion.WellFormed
import Crosswalk.Proofs.Counterpart.Alongside
import Crosswalk.Proofs.Counterpart.Catalog
import Crosswalk.Proofs.Counterpart.Content
import Crosswalk.Proofs.Counterpart.Linkage
import Crosswalk.Proofs.Counterpart.Root
import Crosswalk.Proofs.Counterpart.Simple
import Crosswalk.Proofs.Cycles
import Crosswalk.Proofs.Definitions
import Crosswalk.Proofs.Document
import Crosswalk.Proofs.Ending
import Crosswalk.Proofs.Facet.Aspect
import Crosswalk.Proofs.Facet.Bound
import Crosswalk.Proofs.Facet.Digits
import Crosswalk.Proofs.Facet.Integers
import Crosswalk.Proofs.Facet.Issues
import Crosswalk.Proofs.Facet.Keywords
import Crosswalk.Proofs.Facet.Literals
import Crosswalk.Proofs.Facet.Narrowing
import Crosswalk.Proofs.Facet.Patterns
import Crosswalk.Proofs.Facet.Range
import Crosswalk.Proofs.Facet.Single
import Crosswalk.Proofs.Facet.Strings
import Crosswalk.Proofs.Failures
import Crosswalk.Proofs.Fixed
import Crosswalk.Proofs.Grounding
import Crosswalk.Proofs.Inlining
import Crosswalk.Proofs.Inlining.Apart
import Crosswalk.Proofs.Inlining.Attributes
import Crosswalk.Proofs.Inlining.Choice
import Crosswalk.Proofs.Inlining.Content
import Crosswalk.Proofs.Inlining.Framing
import Crosswalk.Proofs.Inlining.Object
import Crosswalk.Proofs.Inlining.Reference
import Crosswalk.Proofs.Inlining.Shape
import Crosswalk.Proofs.Inlining.Simple
import Crosswalk.Proofs.Issues
import Crosswalk.Proofs.Json.Alike
import Crosswalk.Proofs.Json.Canonical
import Crosswalk.Proofs.Json.InPlace
import Crosswalk.Proofs.Json.Keywords
import Crosswalk.Proofs.Json.Links
import Crosswalk.Proofs.Json.Pointer
import Crosswalk.Proofs.Json.Reader
import Crosswalk.Proofs.Json.WellFormed
import Crosswalk.Proofs.Lenient
import Crosswalk.Proofs.Linkage
import Crosswalk.Proofs.Linkage.Bare
import Crosswalk.Proofs.Linkage.Links
import Crosswalk.Proofs.Linkage.Mentions
import Crosswalk.Proofs.Linkage.Offer
import Crosswalk.Proofs.Linkage.Parts
import Crosswalk.Proofs.Linkage.Resolution
import Crosswalk.Proofs.Linkage.Search
import Crosswalk.Proofs.Linkage.Unfold
import Crosswalk.Proofs.Linkage.Uses
import Crosswalk.Proofs.Linkage.Variety
import Crosswalk.Proofs.Linking
import Crosswalk.Proofs.Names
import Crosswalk.Proofs.Number.Lexical
import Crosswalk.Proofs.Number.Rounding
import Crosswalk.Proofs.Number.Value
import Crosswalk.Proofs.Occurs
import Crosswalk.Proofs.Options
import Crosswalk.Proofs.Pattern.Classes
import Crosswalk.Proofs.Pattern.Coverage
import Crosswalk.Proofs.Pattern.Ordinary
import Crosswalk.Proofs.Pattern.Pieces
import Crosswalk.Proofs.Pattern.Search
import Crosswalk.Proofs.Pattern.Settled
import Crosswalk.Proofs.Pattern.Syntax
import Crosswalk.Proofs.Pattern.Tokens
import Crosswalk.Proofs.Pattern.Translation
import Crosswalk.Proofs.Phases
import Crosswalk.Proofs.Prefixes
import Crosswalk.Proofs.Problem
import Crosswalk.Proofs.Reading
import Crosswalk.Proofs.Regex.Language
import Crosswalk.Proofs.Registration
import Crosswalk.Proofs.Retrieval
import Crosswalk.Proofs.Schema
import Crosswalk.Proofs.Schema.Arrangement
import Crosswalk.Proofs.Schema.Bounds
import Crosswalk.Proofs.Schema.Closure
import Crosswalk.Proofs.Schema.Details
import Crosswalk.Proofs.Schema.Hereditary
import Crosswalk.Proofs.Schema.Labels
import Crosswalk.Proofs.Schema.Prefixes
import Crosswalk.Proofs.Schema.Unions
import Crosswalk.Proofs.Session
import Crosswalk.Proofs.Shapes
import Crosswalk.Proofs.Steps
import Crosswalk.Proofs.Submission
import Crosswalk.Proofs.Table
import Crosswalk.Proofs.Text.Percent
import Crosswalk.Proofs.Text.Resolve
import Crosswalk.Proofs.Text.Uri
import Crosswalk.Proofs.Validation.Alike
import Crosswalk.Proofs.Validation.Blind
import Crosswalk.Proofs.Validation.Check
import Crosswalk.Proofs.Validation.Same
import Crosswalk.Proofs.WellFormed
import Crosswalk.Proofs.Xml.Prefixes
import Crosswalk.QName
import Crosswalk.Regex
import Crosswalk.Schema.Component
import Crosswalk.Schema.Construct
import Crosswalk.Schema.Reader
import Crosswalk.Table
import Crosswalk.Text.Basic
import Crosswalk.Text.Encoding
import Crosswalk.Validation.Check
import Crosswalk.Validation.Form
import Crosswalk.Validation.SchemaSet
import Crosswalk.Validation.Violation
import Crosswalk.Xml.Event
import Crosswalk.Xml.Tree
