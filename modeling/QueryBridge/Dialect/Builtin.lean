import QueryBridge.Dialect.JsonPath
import QueryBridge.Lexical.Call

/-!
# Builtin functions

The functions of the source dialect and what takes the place of a call to each of them. Most
replacements are templates filled with the arguments; a few depend on how many arguments there
are or on what they say. A missing argument is NULL, so a replacement is never cut short.
-/

namespace QueryBridge

/-- A part of a template. -/
inductive Part where
  /-- Fixed text. -/
  | fixed (text : Text)
  /-- An argument, or a text that stands in for it when the call has too few. -/
  | argument (index : Nat) (missing : Text)
  /-- All arguments. -/
  | everything
  /-- The JSON path of the arguments after the first one. -/
  | path
deriving DecidableEq, Repr

namespace Part

/-- The text of a part of a template. -/
def fill (arguments : List Text) : Part → Text
  | .fixed text => text
  | .argument index missing => arguments[index]?.getD missing
  | .everything => Text.join ", " arguments
  | .path => jsonPath (arguments.drop 1)

end Part

/-- An argument that is NULL when the call has too few. -/
def arg (index : Nat) : Part := .argument index "NULL"

instance : Coe String Part := ⟨fun text => .fixed text⟩

/-- A template filled with the arguments of a call. -/
def fillTemplate (template : List Part) (arguments : List Text) : Text :=
  template.flatMap (Part.fill arguments)

/-- What takes the place of a call. -/
inductive Replacement where
  /-- A template filled with the arguments. -/
  | template (parts : List Part)
  /-- The start of the week, which an odd mode puts on Monday and any other on Sunday. -/
  | startOfWeek
  /-- The rows that satisfy a condition, counted. -/
  | countIf
  /-- The distinct values, counted. -/
  | countDistinct
  /-- The keys of a JSON object. -/
  | jsonKeys
  /-- The first value whose condition holds. -/
  | firstBranch
  /-- A stretch of a list. -/
  | listSlice
deriving DecidableEq, Repr

namespace Replacement

/-- Whether a mode of the week makes Monday its first day. -/
def mondayFirst (mode : Text) : Bool :=
  match Text.toWord? (Text.trim mode) with
  | some n => n.tmod 2 == 1
  | none => false

/-- What follows the keyword DISTINCT at the start of an argument. -/
def afterDistinct? (argument : Text) : Option Text :=
  match Text.rest? .folded "distinct" argument with
  | none => none
  | some rest =>
    if rest.head?.any fun b => Byte.isBlank b || b == Byte.openParen then
      some (Text.trimStart rest)
    else none

/-- The rows that satisfy a condition, counted. With two arguments only the rows where the first
is not null count, and DISTINCT before it moves in front of the whole. -/
def countIfText : List Text → Text
  | [] => "COUNT(*) FILTER (WHERE NULL)"
  | [condition] => "COUNT(*) FILTER (WHERE " ++ condition ++ ")"
  | value :: condition :: _ =>
    match afterDistinct? value with
    | some inner => "COUNT(DISTINCT CASE WHEN " ++ condition ++ " THEN " ++ inner ++ " END)"
    | none => "COUNT(CASE WHEN " ++ condition ++ " THEN " ++ value ++ " END)"

/-- The distinct values of an expression, or of several taken together, counted. -/
def countDistinctText : List Text → Text
  | [] => "COUNT(DISTINCT NULL)"
  | [value] => "COUNT(DISTINCT " ++ value ++ ")"
  | values => "COUNT(DISTINCT (" ++ Text.join ", " values ++ "))"

/-- The branches of a case expression; an odd argument at the end is the fallback. -/
def branchesText : List Text → Text
  | condition :: value :: others =>
    " WHEN " ++ condition ++ " THEN " ++ value ++ branchesText others
  | [fallback] => " ELSE " ++ fallback ++ " END"
  | [] => " ELSE NULL END"

/-- The first value whose condition holds. A lone argument is the fallback. -/
def firstBranchText : List Text → Text
  | [] => "NULL"
  | [fallback] => fallback
  | arguments => "CASE" ++ branchesText arguments

/-- The text that takes the place of a call with these arguments. -/
def apply (arguments : List Text) : Replacement → Text
  | .template parts => fillTemplate parts arguments
  | .startOfWeek =>
    if arguments[1]?.any mondayFirst then
      fillTemplate ["CAST(date_trunc('week', ", arg 0, ") AS DATE)"] arguments
    else
      fillTemplate
        ["(CAST(", arg 0, " AS DATE) - CAST(dayofweek(", arg 0, ") AS INTEGER))"] arguments
  | .countIf => countIfText arguments
  | .countDistinct => countDistinctText arguments
  | .jsonKeys =>
    if arguments.length ≤ 1 then fillTemplate ["json_keys(", arg 0, ")"] arguments
    else fillTemplate ["json_keys(", arg 0, ", ", .path, ")"] arguments
  | .firstBranch => firstBranchText arguments
  | .listSlice =>
    if arguments.length ≤ 2 then
      fillTemplate ["list_slice(", arg 0, ", ", arg 1, ", len(", arg 0, "))"] arguments
    else
      fillTemplate
        ["list_slice(", arg 0, ", ", arg 1, ", (", arg 1, ") + (", arg 2, ") - 1)"] arguments

/-- The same arguments under another name. -/
def rename (target : Text) : Replacement := .template [.fixed target, "(", .everything, ")"]

/-- A fixed text. -/
def constant (text : Text) : Replacement := .template [.fixed text]

/-- A function of the first argument. -/
def unary (target : Text) : Replacement := .template [.fixed target, "(", arg 0, ")"]

/-- A point in time cut down to a unit. -/
def truncate (unit : Text) : Replacement :=
  .template ["date_trunc('", .fixed unit, "', ", arg 0, ")"]

/-- A date cut down to a unit. -/
def truncateDate (unit : Text) : Replacement :=
  .template ["CAST(date_trunc('", .fixed unit, "', ", arg 0, ") AS DATE)"]

/-- The start of the stretch of time that a point lies in. -/
def bucket (width : Text) : Replacement :=
  .template ["time_bucket(INTERVAL '", .fixed width, "', ", arg 0, ")"]

/-- A cast to a type. -/
def cast (type : Text) : Replacement := .template ["CAST(", arg 0, " AS ", .fixed type, ")"]

/-- A cast that gives zero where it fails. -/
def castOrZero (type : Text) : Replacement :=
  .template ["COALESCE(TRY_CAST(", arg 0, " AS ", .fixed type, "), 0)"]

/-- A cast that gives null where it fails. -/
def castOrNull (type : Text) : Replacement :=
  .template ["TRY_CAST(", arg 0, " AS ", .fixed type, ")"]

/-- An aggregate over the rows that satisfy a condition. -/
def filtered (aggregate : Text) : Replacement :=
  .template [.fixed aggregate, "(", arg 0, ") FILTER (WHERE ", arg 1, ")"]

/-- An aggregate of two arguments over the rows that satisfy a condition. -/
def filteredPair (aggregate : Text) : Replacement :=
  .template [.fixed aggregate, "(", arg 0, ", ", arg 1, ") FILTER (WHERE ", arg 2, ")"]

/-- An element of a JSON value as a scalar, with a default. -/
def jsonScalar (type fallback : Text) : Replacement :=
  .template ["COALESCE(TRY_CAST(json_extract_string(", arg 0, ", ", .path, ") AS ",
    .fixed type, "), ", .fixed fallback, ")"]

/-- The first group of a pattern in a text. -/
def extract (pattern : Text) : Replacement :=
  .template ["regexp_extract(", arg 0, ", '", .fixed pattern, "', 1)"]

end Replacement

/-- The present moment, without a time zone. -/
def currentTimestamp : Text := "CAST(get_current_timestamp() AS TIMESTAMP)"

/-- The present day. -/
def currentDate : Text := "CAST(CAST(get_current_timestamp() AS TIMESTAMP) AS DATE)"

/-- The day before the present one. -/
def previousDate : Text := "(CAST(CAST(get_current_timestamp() AS TIMESTAMP) AS DATE) - 1)"

/-- The host of an address. -/
def domainPattern : Text := "^(?:[A-Za-z][A-Za-z0-9+.\\-]*://)?(?:[^@/?#]*@)?([^/:?#]*)"

/-- The scheme of an address. -/
def protocolPattern : Text := "^([A-Za-z][A-Za-z0-9+.\\-]*)://"

/-- The path of an address. -/
def pathPattern : Text := "^(?:[A-Za-z][A-Za-z0-9+.\\-]*://[^/?#]*)?([^?#]*)"

/-- The query of an address. -/
def queryPattern : Text := "\\?([^#]*)"

/-- A builtin and what takes the place of a call to it. -/
structure Rule where
  /-- The builtin. -/
  callee : Callee
  /-- What takes the place of a call. -/
  replacement : Replacement
deriving DecidableEq, Repr

namespace Rule

/-- The text that takes the place of a call with these arguments. -/
def apply (rule : Rule) (arguments : List Text) : Text := rule.replacement.apply arguments

/-- A builtin whose letters count as written. -/
def exact (name : Text) (replacement : Replacement) : Rule := ⟨⟨name, .exact⟩, replacement⟩

/-- A builtin in any letter case. -/
def folded (name : Text) (replacement : Replacement) : Rule := ⟨⟨name, .folded⟩, replacement⟩

end Rule

open Replacement in
/-- Times, dates and their parts. -/
def timeRules : List Rule := [
  .exact "toStartOfMinute" (truncate "minute"),
  .exact "toStartOfFiveMinutes" (bucket "5 minutes"),
  .exact "toStartOfFiveMinute" (bucket "5 minutes"),
  .exact "toStartOfTenMinutes" (bucket "10 minutes"),
  .exact "toStartOfFifteenMinutes" (bucket "15 minutes"),
  .exact "toStartOfHour" (truncate "hour"),
  .exact "toStartOfDay" (truncate "day"),
  .exact "toStartOfWeek" .startOfWeek,
  .exact "toMonday" (truncateDate "week"),
  .exact "toStartOfMonth" (truncateDate "month"),
  .exact "toStartOfQuarter" (truncateDate "quarter"),
  .exact "toStartOfYear" (truncateDate "year"),
  .exact "toStartOfInterval" (.template ["time_bucket(", arg 1, ", ", arg 0, ")"]),
  .exact "toDateTime64" (cast "TIMESTAMP"),
  .exact "toDateTime" (cast "TIMESTAMP"),
  .exact "toDate" (cast "DATE"),
  .exact "parseDateTimeBestEffort" (cast "TIMESTAMP"),
  .exact "toHour" (unary "hour"),
  .exact "toMinute" (unary "minute"),
  .exact "toYear" (unary "year"),
  .exact "toMonth" (unary "month"),
  .exact "toDayOfMonth" (unary "day"),
  .exact "toDayOfWeek" (unary "isodow"),
  .exact "toYYYYMM" (.template ["(year(", arg 0, ") * 100 + month(", arg 0, "))"]),
  .exact "toUnixTimestamp" (.template ["CAST(epoch(", arg 0, ") AS BIGINT)"]),
  .folded "now" (constant currentTimestamp),
  .exact "now64" (constant currentTimestamp),
  .exact "today" (constant currentDate),
  .exact "yesterday" (constant previousDate),
  .exact "dateDiff" (rename "date_diff")]

open Replacement in
/-- Casts. -/
def castRules : List Rule := [
  .exact "toString" (cast "VARCHAR"),
  .exact "toInt8" (cast "TINYINT"),
  .exact "toInt16" (cast "SMALLINT"),
  .exact "toInt32OrZero" (castOrZero "INTEGER"),
  .exact "toInt32OrNull" (castOrNull "INTEGER"),
  .exact "toInt32" (cast "INTEGER"),
  .exact "toInt64OrZero" (castOrZero "BIGINT"),
  .exact "toInt64OrNull" (castOrNull "BIGINT"),
  .exact "toInt64" (cast "BIGINT"),
  .exact "toUInt8" (cast "UTINYINT"),
  .exact "toUInt16" (cast "USMALLINT"),
  .exact "toUInt32OrZero" (castOrZero "UINTEGER"),
  .exact "toUInt32" (cast "UINTEGER"),
  .exact "toUInt64OrZero" (castOrZero "UBIGINT"),
  .exact "toUInt64" (cast "UBIGINT"),
  .exact "toFloat32" (cast "FLOAT"),
  .exact "toFloat64OrZero" (castOrZero "DOUBLE"),
  .exact "toFloat64OrNull" (castOrNull "DOUBLE"),
  .exact "toFloat64" (cast "DOUBLE"),
  .exact "toUUID" (cast "UUID")]

open Replacement in
/-- Aggregates over the rows that satisfy a condition. A sum over no rows is zero. -/
def conditionalRules : List Rule := [
  .exact "countIf" .countIf,
  .exact "sumIf" (.template ["COALESCE(SUM(", arg 0, ") FILTER (WHERE ", arg 1, "), 0)"]),
  .exact "avgIf" (filtered "AVG"),
  .exact "minIf" (filtered "MIN"),
  .exact "maxIf" (filtered "MAX"),
  .exact "uniqIf" (.template ["COUNT(DISTINCT CASE WHEN ", arg 1, " THEN ", arg 0, " END)"]),
  .exact "uniqExactIf" (.template ["COUNT(DISTINCT CASE WHEN ", arg 1, " THEN ", arg 0, " END)"]),
  .exact "argMinIf" (filteredPair "arg_min"),
  .exact "argMaxIf" (filteredPair "arg_max")]

open Replacement in
/-- Other aggregates. -/
def aggregateRules : List Rule := [
  .exact "uniqExact" .countDistinct,
  .exact "uniqCombined" .countDistinct,
  .exact "uniqHLL12" .countDistinct,
  .exact "uniq" .countDistinct,
  .exact "argMin" (rename "arg_min"),
  .exact "argMax" (rename "arg_max"),
  .exact "anyLast" (rename "last"),
  .exact "any" (rename "any_value"),
  .exact "groupUniqArray" (.template ["list(DISTINCT ", arg 0, ")"]),
  .exact "groupArray" (rename "list")]

open Replacement in
/-- Elements of JSON values. -/
def jsonRules : List Rule := [
  .exact "JSONExtractString" (.template ["json_extract_string(", arg 0, ", ", .path, ")"]),
  .exact "visitParamExtractString" (.template ["json_extract_string(", arg 0, ", ", .path, ")"]),
  .exact "simpleJSONExtractString" (.template ["json_extract_string(", arg 0, ", ", .path, ")"]),
  .exact "JSONExtractInt" (jsonScalar "BIGINT" "0"),
  .exact "JSONExtractUInt" (jsonScalar "UBIGINT" "0"),
  .exact "JSONExtractFloat" (jsonScalar "DOUBLE" "0"),
  .exact "JSONExtractBool" (jsonScalar "BOOLEAN" "false"),
  .exact "JSONExtractRaw" (.template ["CAST(json_extract(", arg 0, ", ", .path, ") AS VARCHAR)"]),
  .exact "JSONHas" (.template ["(json_extract(", arg 0, ", ", .path, ") IS NOT NULL)"]),
  .exact "JSONExtractKeys" .jsonKeys]

open Replacement in
/-- Parts of addresses. -/
def addressRules : List Rule := [
  .exact "domainWithoutWWW" (.template ["regexp_replace(regexp_extract(", arg 0, ", '",
    .fixed domainPattern, "', 1), '^www\\.', '')"]),
  .exact "domain" (extract domainPattern),
  .exact "protocol" (extract protocolPattern),
  .exact "path" (extract pathPattern),
  .exact "queryString" (extract queryPattern),
  .exact "extractURLParameter" (.template
    ["regexp_extract(", arg 0, ", '[?&]' || ", arg 1, " || '=([^&#]*)', 1)"])]

open Replacement in
/-- Functions of texts. -/
def textRules : List Rule := [
  .exact "match" (rename "regexp_matches"),
  .exact "replaceRegexpAll" (.template
    ["regexp_replace(", arg 0, ", ", arg 1, ", ", .argument 2 "''", ", 'g')"]),
  .exact "replaceRegexpOne" (.template
    ["regexp_replace(", arg 0, ", ", arg 1, ", ", .argument 2 "''", ")"]),
  .exact "replaceAll" (rename "replace"),
  .exact "lowerUTF8" (rename "lower"),
  .exact "upperUTF8" (rename "upper"),
  .exact "lengthUTF8" (rename "length"),
  .exact "positionCaseInsensitive" (.template
    ["strpos(lower(", arg 0, "), lower(", arg 1, "))"]),
  .exact "splitByChar" (.template ["string_split(", arg 1, ", ", .argument 0 "''", ")"]),
  .exact "splitByString" (.template ["string_split(", arg 1, ", ", .argument 0 "''", ")"])]

open Replacement in
/-- Tests for emptiness and null. -/
def emptinessRules : List Rule := [
  .exact "notEmpty" (.template ["(coalesce(length(", arg 0, "), 0) > 0)"]),
  .exact "empty" (.template ["(coalesce(length(", arg 0, "), 0) = 0)"]),
  .exact "isNotNull" (.template ["(", arg 0, " IS NOT NULL)"]),
  .exact "isNull" (.template ["(", arg 0, " IS NULL)"])]

open Replacement in
/-- Conditions and arithmetic. -/
def conditionRules : List Rule := [
  .exact "multiIf" .firstBranch,
  .folded "if" (.template ["CASE WHEN ", arg 0, " THEN ", arg 1, " ELSE ", arg 2, " END"]),
  .exact "ifNull" (rename "COALESCE"),
  .exact "intDiv" (.template ["(", arg 0, " // ", arg 1, ")"])]

open Replacement in
/-- Functions of arrays. -/
def arrayRules : List Rule := [
  .exact "hasAny" (rename "list_has_any"),
  .exact "has" (rename "list_contains"),
  .exact "indexOf" (.template ["COALESCE(list_position(", arg 0, ", ", arg 1, "), 0)"]),
  .exact "arrayCompact" (.template ["list_filter(", arg 0,
    ", (__e, __i) -> __i = 1 OR __e IS DISTINCT FROM (", arg 0, ")[__i - 1])"]),
  .exact "arraySlice" .listSlice,
  .exact "arrayFlatten" (rename "flatten"),
  .exact "arrayDistinct" (rename "list_distinct"),
  .exact "arraySort" (rename "list_sort"),
  .exact "arrayReverse" (rename "list_reverse"),
  .exact "arrayStringConcat" (.template
    ["array_to_string(", arg 0, ", ", .argument 1 "''", ")"]),
  .exact "arrayFilter" (.template ["list_filter(", arg 1, ", ", arg 0, ")"]),
  .exact "arrayMap" (.template ["list_transform(", arg 1, ", ", arg 0, ")"])]

/-- The rules, in the order in which they are applied. -/
def builtinRules : List Rule :=
  timeRules ++ castRules ++ conditionalRules ++ aggregateRules ++ jsonRules ++ addressRules
    ++ textRules ++ emptinessRules ++ conditionRules ++ arrayRules

end QueryBridge
