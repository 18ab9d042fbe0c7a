import MustacheJsx.Text.Blank
import MustacheJsx.Text.Classes
import MustacheJsx.Number.Double
import MustacheJsx.Number.Shortest
import MustacheJsx.Number.Compact
import MustacheJsx.Template.Basic
import MustacheJsx.Error
import MustacheJsx.Mustache.Path
import MustacheJsx.Mustache.Expression
import MustacheJsx.Mustache.Tag
import MustacheJsx.Mustache.Span
import MustacheJsx.Markup.Entity
import MustacheJsx.Markup.Reference
import MustacheJsx.Markup.Token
import MustacheJsx.Markup.Lexer
import MustacheJsx.Lifted.Basic
import MustacheJsx.Lifted.OfSource
import MustacheJsx.Template.Assembly
import MustacheJsx.Vocabulary
import MustacheJsx.Options
import MustacheJsx.Scope.Basic
import MustacheJsx.Scope.Walk
import MustacheJsx.Template.Paths
import MustacheJsx.Json.Scan
import MustacheJsx.Options.OfJson
import MustacheJsx.Jsx.Printer
import MustacheJsx.Jsx.Lexeme
import MustacheJsx.Jsx.Grammar
import MustacheJsx.Layout
import MustacheJsx.Conversion.Expression
import MustacheJsx.Conversion.Text
import MustacheJsx.Conversion.Style
import MustacheJsx.Conversion.Attribute
import MustacheJsx.Conversion.Statement
import MustacheJsx.Extraction.Basic
import MustacheJsx.Conversion.Program
import MustacheJsx.Text.Cut
import MustacheJsx.Extraction.OpeningTag
import MustacheJsx.Extraction.Splice
import MustacheJsx.Extraction.Attribute
import MustacheJsx.Extraction.Naming
import MustacheJsx.Extraction.Block
import MustacheJsx.Extraction.Conditional
import MustacheJsx.Extraction.Value
import MustacheJsx.Extraction.Around
import MustacheJsx.Extraction.Generator
import MustacheJsx.Extraction.Prepare
import MustacheJsx.Compile
import MustacheJsx.CommandLine.Location
import MustacheJsx.CommandLine.Arguments
import MustacheJsx.CommandLine.Run
import MustacheJsx.CommandLine.FileTree
import MustacheJsx.Main
import MustacheJsx.Proofs.Scope.Hygiene
import MustacheJsx.Proofs.Rendering.Component
import MustacheJsx.Proofs.Rendering.Addition
import MustacheJsx.Proofs.Printing.RoundTrip
import MustacheJsx.Proofs.Printing.Bracketed
import MustacheJsx.Proofs.Reading.Outline
import MustacheJsx.Proofs.Reading.Plain
import MustacheJsx.Proofs.Reading.Nesting
import MustacheJsx.Proofs.Reading.Branches
import MustacheJsx.Proofs.Document.Opening
import MustacheJsx.Proofs.Extraction.Blocks
import MustacheJsx.Proofs.Extraction.Steps
import MustacheJsx.Proofs.Extraction.Tags
import MustacheJsx.Proofs.Extraction.Generators
import MustacheJsx.Proofs.Document.Reserved
import MustacheJsx.Proofs.Extraction.Clearing
import MustacheJsx.Proofs.Extraction.Preparation
import MustacheJsx.Proofs.Conversion.Lookups
import MustacheJsx.Proofs.Scope.Coverage
import MustacheJsx.Proofs.Scope.Closure
import MustacheJsx.Proofs.Compilation
import MustacheJsx.Proofs.Conversion.Bindings
import MustacheJsx.Proofs.Jsx.Words
import MustacheJsx.Proofs.Conversion.Spellings
import MustacheJsx.Proofs.Conversion.Words
import MustacheJsx.Proofs.Conversion.Identifiers
import MustacheJsx.Proofs.Template.Identity
import MustacheJsx.Proofs.Extraction.Supply
import MustacheJsx.Proofs.Jsx.Parts
import MustacheJsx.Proofs.Conversion.Uses
import MustacheJsx.Proofs.Conversion.Imports
import MustacheJsx.Proofs.Conversion.Arguments
import MustacheJsx.Proofs.Conversion.Content
import MustacheJsx.Proofs.Jsx.Definition
import MustacheJsx.Proofs.Extraction.Definitions
import MustacheJsx.Proofs.Mustache.Appending
import MustacheJsx.Proofs.Extraction.Calls
import MustacheJsx.Proofs.CommandLine.Place
import MustacheJsx.Proofs.CommandLine.Output
import MustacheJsx.Proofs.CommandLine.Mirror
import MustacheJsx.Proofs.Extraction.Attributes
import MustacheJsx.Proofs.Extraction.Keeping
import MustacheJsx.Proofs.Extraction.Retagging
import MustacheJsx.Proofs.Extraction.Apart
import MustacheJsx.Proofs.Extraction.Lookalikes
import MustacheJsx.Proofs.Mustache.Respacing
import MustacheJsx.Proofs.Extraction.Binding
import MustacheJsx.Proofs.Conversion.TextChildren
import MustacheJsx.Proofs.Conversion.AttributeTexts
import MustacheJsx.Proofs.Conversion.Unambiguous
import MustacheJsx.Proofs.Mustache.Alike
import MustacheJsx.Proofs.Extraction.Recognition
import MustacheJsx.Proofs.Document.Elements
import MustacheJsx.Proofs.Lowering.Reading
import MustacheJsx.Proofs.Lines
import MustacheJsx.Proofs.Extraction.Weaving
import MustacheJsx.Proofs.Conversion.Styles
import MustacheJsx.Proofs.Conversion.Components
import MustacheJsx.Proofs.Extraction.Issuing
import MustacheJsx.Proofs.Joints
import MustacheJsx.Proofs.Conversion.Comments
import MustacheJsx.Proofs.Conversion.Access
import MustacheJsx.Proofs.Reading.Approach
import MustacheJsx.Proofs.Reading.Stripping
