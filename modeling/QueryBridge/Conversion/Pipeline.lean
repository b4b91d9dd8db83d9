import QueryBridge.Dialect.Builtin
import QueryBridge.Conversion.ArrayJoin
import QueryBridge.Conversion.Modifier
import QueryBridge.Conversion.Parametric
import QueryBridge.Conversion.Subscript
import QueryBridge.Conversion.TableName

/-!
# The converter

A converter is a sequence of passes; each one sees the whole statement that the passes before it
produced.
-/

namespace QueryBridge

/-- Replaces the calls of a builtin. -/
def replaceBuiltin (rule : Rule) (text : Text) : Converted :=
  replaceCalls rule.callee rule.apply text

/-- Replaces the calls of every builtin. -/
def replaceBuiltins (text : Text) : Converted :=
  Converted.forEach builtinRules replaceBuiltin text

/-- Passes in the order in which they run. -/
abbrev Converter := List Pass

namespace Converter

/-- The standard passes, with the given names of tables. -/
def standard (aliases : Keyed Text) : Converter := [
  ⟨"strip_modifiers", "Removes ClickHouse-only modifiers and trailing clauses", dropModifiers⟩,
  ⟨"rename_tables", "Maps logical table names to physical tables",
    fun text => .start (renameTables aliases text)⟩,
  ⟨"expand_arrays", "Rewrites array joins and key/value tuple access", unnestArrays⟩,
  ⟨"parametric_aggregates", "Moves aggregate parameters into the argument list",
    replaceParametrics⟩,
  ⟨"map_indexing", "Rewrites string-keyed subscripts into JSON extraction",
    fun text => .start (extractSubscripts text)⟩,
  ⟨"builtin_functions", "Replaces ClickHouse builtins with DuckDB expressions", replaceBuiltins⟩]

/-- The names of tables that are always mapped. -/
def defaultAliases : Keyed Text := [("monitor_events", "uptime_monitor_events")]

/-- Runs the passes. -/
def convert (converter : Converter) (sql : Text) : Converted :=
  Converted.forEach converter Pass.run sql

end Converter

/-- The statement in the target dialect, with the default names of tables. -/
def convertStatement (sql : Text) : Text :=
  ((Converter.standard Converter.defaultAliases).convert sql).sql

end QueryBridge
