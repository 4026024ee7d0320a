import SchemaBeans.Main
import SchemaBeans.Proofs.Store.Lookup
import SchemaBeans.Proofs.TypeGraph.Naming
import SchemaBeans.Proofs.TypeGraph.Superclass
import SchemaBeans.Proofs.Generation.Merging
import SchemaBeans.Proofs.Generation.MergingRuns
import SchemaBeans.Proofs.Generation.Unions
import SchemaBeans.Proofs.Generation.Settling
import SchemaBeans.Proofs.Generation.Moves
import SchemaBeans.Proofs.Generation.Consistency
import SchemaBeans.Proofs.Generation.Cycles
import SchemaBeans.Proofs.Generation.Filling
import SchemaBeans.Proofs.Generation.Members
import SchemaBeans.Proofs.Generation.RuleRuns
import SchemaBeans.Proofs.Run.Stability
import SchemaBeans.Proofs.Run.Types
import SchemaBeans.Proofs.Discriminator.Binding
import SchemaBeans.Proofs.Run.Inheritance
import SchemaBeans.Proofs.Generation.Additions
import SchemaBeans.Proofs.Run.Failure
import SchemaBeans.Proofs.Text.Cutting
import SchemaBeans.Proofs.Reference.Names
import SchemaBeans.Proofs.Reference.Anchoring
import SchemaBeans.Proofs.Reference.Spellings
import SchemaBeans.Proofs.Reference.Encoding
import SchemaBeans.Proofs.Json.Strings
import SchemaBeans.Proofs.Json.Reading
import SchemaBeans.Proofs.Text.Octets
import SchemaBeans.Proofs.Generation.Composition
import SchemaBeans.Proofs.Run.Merges
import SchemaBeans.Proofs.Java.Identifiers
import SchemaBeans.Proofs.Generation.Housing
import SchemaBeans.Proofs.Java.Files
import SchemaBeans.Proofs.Store.Calls
import SchemaBeans.Proofs.Store.Following
import SchemaBeans.Proofs.Reference.Positions
import SchemaBeans.Proofs.Store.Files
import SchemaBeans.Proofs.Store.Identity
import SchemaBeans.Proofs.Store.Transparency
import SchemaBeans.Proofs.Generation.Links
import SchemaBeans.Proofs.Java.Resolution
import SchemaBeans.Proofs.Run.Names
import SchemaBeans.Proofs.TypeGraph.Partition
import SchemaBeans.Proofs.Java.Layout
import SchemaBeans.Proofs.Run.Declarations
import SchemaBeans.Proofs.Discriminator.Bonds
import SchemaBeans.Proofs.Discriminator.Order
import SchemaBeans.Proofs.Generation.Ascent
import SchemaBeans.Proofs.Generation.Acts
import SchemaBeans.Proofs.Discriminator.Retention
import SchemaBeans.Proofs.Run.Families
import SchemaBeans.Proofs.Run.Branches
import SchemaBeans.Proofs.Run.Subtypes
import SchemaBeans.Proofs.Run.Supertypes
import SchemaBeans.Proofs.Run.Orders
import SchemaBeans.Proofs.Run.Recursion
import SchemaBeans.Proofs.Generation.Asking
import SchemaBeans.Proofs.Generation.WarrantRuns
import SchemaBeans.Proofs.TypeGraph.Climbing
import SchemaBeans.Proofs.Generation.Watching
import SchemaBeans.Proofs.Run.Superclasses
import SchemaBeans.Proofs.Files.Paths
import SchemaBeans.Proofs.Files.Writing
import SchemaBeans.Proofs.Run.Output
import SchemaBeans.Proofs.Keywords.Constraints
import SchemaBeans.Proofs.Generation.Contents
import SchemaBeans.Proofs.Run.Constraints
import SchemaBeans.Proofs.Json.Ways
import SchemaBeans.Proofs.Store.Regions
import SchemaBeans.Proofs.Discriminator.Children
import SchemaBeans.Proofs.Generation.Visiting
import SchemaBeans.Proofs.Generation.Trails
import SchemaBeans.Proofs.Run.Endings
import SchemaBeans.Proofs.Decoration.Families
import SchemaBeans.Proofs.Java.Switches
import SchemaBeans.Proofs.Run.Accumulation
import SchemaBeans.Proofs.Run.Bounds
import SchemaBeans.Proofs.Json.Laws
import SchemaBeans.Proofs.Check.Cascade
import SchemaBeans.Proofs.Run.Discriminators
import SchemaBeans.Proofs.Run.Neutrality
import SchemaBeans.Proofs.Check.Inheritance
import SchemaBeans.Proofs.Check.Integers
import SchemaBeans.Proofs.Keywords.Declared
import SchemaBeans.Proofs.Run.Widths
import SchemaBeans.Proofs.Java.Documentation
import SchemaBeans.Proofs.Run.Members
import SchemaBeans.Proofs.Java.Initializers
import SchemaBeans.Proofs.Run.Defaults
import SchemaBeans.Proofs.Java.Strings
import SchemaBeans.Proofs.Store.Loading
import SchemaBeans.Proofs.Java.Constants
import SchemaBeans.Proofs.Generation.Labels
import SchemaBeans.Proofs.Run.Enums
import SchemaBeans.Proofs.Text.Lossy
import SchemaBeans.Proofs.Pattern.Ends
import SchemaBeans.Proofs.Pattern.Readers
import SchemaBeans.Proofs.Pattern.Classes
import SchemaBeans.Proofs.Pattern.Grammar
import SchemaBeans.Proofs.Check.Patterns
