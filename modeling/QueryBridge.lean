import QueryBridge.Text.Blank
import QueryBridge.Text.Word
import QueryBridge.Text.Quoted
import QueryBridge.Lexical.Run
import QueryBridge.Lexical.Literal
import QueryBridge.Lexical.Call
import QueryBridge.Edit
import QueryBridge.Json.Reader
import QueryBridge.Json.Writer
import QueryBridge.Dialect.TypeName
import QueryBridge.Dialect.Builtin
import QueryBridge.Conversion.Pipeline
import QueryBridge.Binding
import QueryBridge.Engine.Row
import QueryBridge.Config
import QueryBridge.Insert
import QueryBridge.Response
import QueryBridge.Main
import QueryBridge.Proofs.Queue
import QueryBridge.Proofs.Binding.Inert
import QueryBridge.Proofs.Conversion.Calls
import QueryBridge.Proofs.Conversion.Cuts
import QueryBridge.Proofs.Conversion.SetOperation
import QueryBridge.Proofs.Conversion.TableName
import QueryBridge.Proofs.Phrase.Basic
import QueryBridge.Proofs.Phrase.Code
import QueryBridge.Proofs.Phrase.Calls
import QueryBridge.Proofs.Phrase.Rewrite
import QueryBridge.Proofs.Phrase.Template
import QueryBridge.Proofs.Phrase.Distribute
import QueryBridge.Proofs.Phrase.Arguments
import QueryBridge.Proofs.Phrase.Outline
import QueryBridge.Proofs.Phrase.Congruence
import QueryBridge.Proofs.Phrase.Builtin
import QueryBridge.Proofs.Phrase.Clean
import QueryBridge.Proofs.Conversion.Builtins
import QueryBridge.Proofs.Phrase.Tidy
import QueryBridge.Proofs.Conversion.Order
import QueryBridge.Proofs.Phrase.Stance
import QueryBridge.Proofs.Conversion.WellFormed
import QueryBridge.Proofs.Braces.Inert
import QueryBridge.Proofs.Braces.Basic
import QueryBridge.Proofs.Braces.Code
import QueryBridge.Proofs.Braces.Replacement
import QueryBridge.Proofs.Braces.Search
import QueryBridge.Proofs.Braces.Calls
import QueryBridge.Proofs.Braces.Clauses
import QueryBridge.Proofs.Braces.Names
import QueryBridge.Proofs.Binding.Missing
import QueryBridge.Proofs.Braces.Statement
import QueryBridge.Proofs.Conversion.Placeholders
import QueryBridge.Proofs.Conversion.Native
import QueryBridge.Proofs.Binding.Failure
import QueryBridge.Proofs.Connection
import QueryBridge.Proofs.Insert
import QueryBridge.Proofs.Config
import QueryBridge.Proofs.Conversion.Operand
import QueryBridge.Proofs.Conversion.Fusion
import QueryBridge.Proofs.Lexical.Insertion
import QueryBridge.Proofs.Conversion.Comment
import QueryBridge.Proofs.Conversion.ArrayPhrase
import QueryBridge.Proofs.Conversion.NestedJoin
import QueryBridge.Proofs.Lexical.Boundary
import QueryBridge.Proofs.Conversion.Subscript
import QueryBridge.Proofs.Conversion.JoinOrder
import QueryBridge.Proofs.Conversion.Separate
import QueryBridge.Proofs.Conversion.Subject
import QueryBridge.Proofs.Conversion.Unbalanced
import QueryBridge.Proofs.Text.Stretch
import QueryBridge.Proofs.Lexical.Run
import QueryBridge.Proofs.Conversion.Renaming
import QueryBridge.Proofs.Binding.Search
import QueryBridge.Proofs.Dialect.LiteralPath
import QueryBridge.Proofs.Dialect.PathExpression
import QueryBridge.Proofs.Binding.Elements
import QueryBridge.Proofs.Dialect.TypeName
import QueryBridge.Proofs.Lexical.Unquoting
import QueryBridge.Proofs.Lexical.ArgumentList
import QueryBridge.Proofs.Binding.ArrayForm
import QueryBridge.Proofs.InsertPlan
import QueryBridge.Proofs.Calendar.Gregorian
import QueryBridge.Proofs.Calendar.Instant
import QueryBridge.Proofs.Calendar.Order
import QueryBridge.Proofs.Decimal.Shortest
import QueryBridge.Proofs.Decimal.Spelling
import QueryBridge.Proofs.Json.Writer
import QueryBridge.Proofs.Duration
import QueryBridge.Proofs.Text.Base64
import QueryBridge.Proofs.Decimal.Widening
import QueryBridge.Proofs.Engine.MapKey
import QueryBridge.Proofs.Lexical.Resume
import QueryBridge.Proofs.Conversion.Restart
import QueryBridge.Proofs.Lexical.ClosedCall
import QueryBridge.Proofs.Lexical.Partition
import QueryBridge.Proofs.Duration.Reading
import QueryBridge.Proofs.Lexical.Enclosing
import QueryBridge.Proofs.Conversion.ItemList
