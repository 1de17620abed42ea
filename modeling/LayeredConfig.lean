import LayeredConfig.Attempt
import LayeredConfig.Chain
import LayeredConfig.Dict
import LayeredConfig.Document.Json
import LayeredConfig.Document.Placement
import LayeredConfig.Document.Toml
import LayeredConfig.Document.Value
import LayeredConfig.Document.Yaml
import LayeredConfig.Document.Yaml.Cursor
import LayeredConfig.Document.Yaml.Scalar
import LayeredConfig.Document.Yaml.Token
import LayeredConfig.Document.Yaml.Tree
import LayeredConfig.Environment.Alignment
import LayeredConfig.Environment.Snapshot
import LayeredConfig.Environment.Spelling
import LayeredConfig.Error
import LayeredConfig.Expansion
import LayeredConfig.Family.Inline
import LayeredConfig.Family.Member
import LayeredConfig.Family.Reading
import LayeredConfig.File
import LayeredConfig.Log
import LayeredConfig.Name.PatternIndex
import LayeredConfig.Name.Segment
import LayeredConfig.Name.Trie
import LayeredConfig.Name.Wildcard
import LayeredConfig.Number.Binary64
import LayeredConfig.Number.Decimal
import LayeredConfig.Number.Integer
import LayeredConfig.Number.Shortest
import LayeredConfig.Pipeline.Assembly
import LayeredConfig.Pipeline.Basic
import LayeredConfig.Pipeline.Typed
import LayeredConfig.Profile
import LayeredConfig.Proofs.Chain.Attempt
import LayeredConfig.Proofs.Chain.Listing
import LayeredConfig.Proofs.Chain.Order
import LayeredConfig.Proofs.Chain.Overlay
import LayeredConfig.Proofs.Chain.Soundness
import LayeredConfig.Proofs.Defaults
import LayeredConfig.Proofs.Dict
import LayeredConfig.Proofs.Document.Leaf
import LayeredConfig.Proofs.Document.Value
import LayeredConfig.Proofs.Environment.Dotted
import LayeredConfig.Proofs.Environment.Filling
import LayeredConfig.Proofs.Environment.Memory
import LayeredConfig.Proofs.Environment.Reporting
import LayeredConfig.Proofs.Family.Agreement
import LayeredConfig.Proofs.Family.Codec
import LayeredConfig.Proofs.Family.Inline
import LayeredConfig.Proofs.Family.Listing
import LayeredConfig.Proofs.Family.Member
import LayeredConfig.Proofs.Family.Precedence
import LayeredConfig.Proofs.Name.Cover
import LayeredConfig.Proofs.Name.Cutting
import LayeredConfig.Proofs.Name.Flatten
import LayeredConfig.Proofs.Name.Grammar
import LayeredConfig.Proofs.Name.Groups
import LayeredConfig.Proofs.Name.Hash
import LayeredConfig.Proofs.Name.History
import LayeredConfig.Proofs.Name.Literal
import LayeredConfig.Proofs.Name.Marked
import LayeredConfig.Proofs.Name.Matching
import LayeredConfig.Proofs.Name.Path
import LayeredConfig.Proofs.Name.PatternIndex
import LayeredConfig.Proofs.Name.Sample
import LayeredConfig.Proofs.Name.TopLevel
import LayeredConfig.Proofs.Name.Trie
import LayeredConfig.Proofs.Name.Whole
import LayeredConfig.Proofs.Pipeline.Assembly
import LayeredConfig.Proofs.Pipeline.Attempt
import LayeredConfig.Proofs.Pipeline.Defaults
import LayeredConfig.Proofs.Pipeline.Ignored
import LayeredConfig.Proofs.Pipeline.Plain
import LayeredConfig.Proofs.Profile
import LayeredConfig.Proofs.Redaction.Alias
import LayeredConfig.Proofs.Redaction.Assembly
import LayeredConfig.Proofs.Redaction.View
import LayeredConfig.Proofs.Registry
import LayeredConfig.Proofs.Registry.Attempt
import LayeredConfig.Proofs.Registry.Ranking
import LayeredConfig.Proofs.Schema.Binding
import LayeredConfig.Proofs.Schema.Declared
import LayeredConfig.Proofs.Schema.Fitting
import LayeredConfig.Proofs.Schema.Listing
import LayeredConfig.Proofs.Schema.Reads
import LayeredConfig.Proofs.Secret
import LayeredConfig.Proofs.Template.Escaping
import LayeredConfig.Proofs.Template.Evaluation
import LayeredConfig.Proofs.Template.Grammar
import LayeredConfig.Proofs.Template.Nesting
import LayeredConfig.Proofs.Template.Questions
import LayeredConfig.Record
import LayeredConfig.Registry
import LayeredConfig.Schema
import LayeredConfig.Schema.Decode
import LayeredConfig.Schema.Tree
import LayeredConfig.Scope
import LayeredConfig.Secret
import LayeredConfig.Server
import LayeredConfig.Source
import LayeredConfig.Stage
import LayeredConfig.Stage.Application
import LayeredConfig.Template
import LayeredConfig.Text.Basic
import LayeredConfig.Text.Blank
import LayeredConfig.Text.LetterTable
import LayeredConfig.Text.Lowercase
import LayeredConfig.Text.PrintTable
import LayeredConfig.Text.Summary
import LayeredConfig.Text.Utf8
