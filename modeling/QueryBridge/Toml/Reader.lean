import QueryBridge.Decimal.Reading
import QueryBridge.Json.Reader
import QueryBridge.Text.Padded
import QueryBridge.Toml.Value

/-!
# Reading TOML

The reader accepts version 1.0 of the format. Arrays and inline tables may be nested 79 levels
deep, and a dotted key has fewer than 80 parts.
-/

namespace QueryBridge

namespace Toml

/-- The bound on the nesting of values and on the parts of a key. -/
def nestingLimit : Nat := 80

/-- Whether a byte may stand in a comment. -/
def isCommentByte (b : UInt8) : Bool := b == Byte.tab || (32 ≤ b && b != 127)

/-- Whether a byte stands for itself between double quotes. -/
def isBasicByte (b : UInt8) : Bool :=
  isCommentByte b && b != Byte.doubleQuote && b != Byte.backslash

/-- Whether a byte may stand between apostrophes. -/
def isLiteralByte (b : UInt8) : Bool := isCommentByte b && b != Byte.quote

/-- Whether a byte may stand in a bare key. -/
def isBareByte (b : UInt8) : Bool := Byte.isIdent b || b == Byte.hyphen

/-- Whether a byte is a blank within a line. -/
def isLineBlank (b : UInt8) : Bool := b == Byte.space || b == Byte.tab

/-- Drops the blanks within a line. -/
def skipLineBlanks (text : Text) : Text := text.dropWhile isLineBlank

/-- What follows a line break. -/
def lineBreak? : Text → Option Text
  | Byte.newline :: text => some text
  | Byte.carriageReturn :: Byte.newline :: text => some text
  | _ => none

/-- Drops a comment, if there is one, up to the end of its line. -/
def skipComment : Text → Text
  | Byte.hash :: text => text.dropWhile isCommentByte
  | text => text

/-- What follows the end of a line, with blanks and a comment before it. -/
def lineEnd? (text : Text) : Option Text :=
  match skipComment (skipLineBlanks text) with
  | [] => some []
  | rest => lineBreak? rest

/-- Drops blanks, line breaks and comments with their line breaks. -/
def skipBlankLines : Nat → Text → Option Text
  | 0, text => some text
  | fuel + 1, text =>
    match skipLineBlanks text with
    | Byte.hash :: rest => do
      let rest ← lineBreak? (rest.dropWhile isCommentByte)
      skipBlankLines fuel rest
    | rest =>
      match lineBreak? rest with
      | some rest => skipBlankLines fuel rest
      | none => some rest

/-- The number of hexadecimal digits. -/
def hexNumber? (digits : Text) : Option Nat :=
  digits.foldlM (fun n b => (Json.hexValue? b).map (n * 16 + ·)) 0

/-- The glyph that a number of hexadecimal digits at the start of a text stands for. -/
def hexGlyph? (count : Nat) (text : Text) : Option (Glyph × Text) := do
  let digits := text.take count
  guard (digits.length == count)
  let n ← hexNumber? digits
  guard (n < 0xD800 || (0xDFFF < n && n ≤ 0x10FFFF))
  return (Glyph.ofCodePoint n, text.drop count)

/-- What an escape stands for, from the byte after the backslash on. -/
def escape? : Text → Option (Text × Text)
  | [] => none
  | b :: text =>
    if b == 117 then hexGlyph? 4 text
    else if b == 85 then hexGlyph? 8 text
    else if b == Byte.slash then none
    else (Json.letterEscape? b).map fun c => ([c], text)

/-- The content of a string on one line after its double quote. -/
def basic? : Nat → Text → Option (Text × Text)
  | 0, _ => none
  | _ + 1, [] => none
  | fuel + 1, b :: text =>
    if b == Byte.doubleQuote then some ([], text)
    else if b == Byte.backslash then do
      let (glyph, rest) ← escape? text
      let (content, rest) ← basic? fuel rest
      return (glyph ++ content, rest)
    else if isBasicByte b then (basic? fuel text).map fun (content, rest) => (b :: content, rest)
    else none

/-- The content of a string on one line after its apostrophe. -/
def literal? (text : Text) : Option (Text × Text) :=
  match text.dropWhile isLiteralByte with
  | Byte.quote :: rest => some (text.takeWhile isLiteralByte, rest)
  | _ => none

/-- Drops a line break that follows the opening quotes of a string over several lines. -/
def skipFirstBreak (text : Text) : Text := (lineBreak? text).getD text

/-- Drops blanks and line breaks. A carriage return alone is no line break. -/
def skipBreaks : Text → Text
  | [] => []
  | b :: text =>
    if isLineBlank b || (lineBreak? (b :: text)).isSome then skipBreaks text else b :: text

/-- What follows a backslash at the end of a line: blanks and line breaks are dropped. -/
def joinedLine? (text : Text) : Option Text :=
  (lineBreak? (skipLineBlanks text)).map skipBreaks

/-- The number of quotes at the start of a text that belong to the content of a string over
several lines, when it closes there: the last three of at most five quotes close it. -/
def closingQuotes? (quote : UInt8) (text : Text) : Option Nat :=
  let count := (text.takeWhile (· == quote)).length
  if count < 3 then none else some (min (count - 3) 2)

/-- The content of a string over several lines after its double quotes. -/
def multiBasic? : Nat → Text → Option (Text × Text)
  | 0, _ => none
  | fuel + 1, text =>
    match closingQuotes? Byte.doubleQuote text with
    | some count => some (List.replicate count Byte.doubleQuote, text.drop (count + 3))
    | none =>
      match lineBreak? text with
      | some rest =>
        (multiBasic? fuel rest).map fun (content, rest) => (Byte.newline :: content, rest)
      | none =>
        match text with
        | [] => none
        | b :: rest =>
          if b == Byte.backslash then
            match joinedLine? rest with
            | some rest => multiBasic? fuel rest
            | none => do
              let (glyph, rest) ← escape? rest
              let (content, rest) ← multiBasic? fuel rest
              return (glyph ++ content, rest)
          else if isBasicByte b || b == Byte.doubleQuote then
            (multiBasic? fuel rest).map fun (content, rest) => (b :: content, rest)
          else none

/-- The content of a string over several lines after its apostrophes. -/
def multiLiteral? : Nat → Text → Option (Text × Text)
  | 0, _ => none
  | fuel + 1, text =>
    match closingQuotes? Byte.quote text with
    | some count => some (List.replicate count Byte.quote, text.drop (count + 3))
    | none =>
      match lineBreak? text with
      | some rest =>
        (multiLiteral? fuel rest).map fun (content, rest) => (Byte.newline :: content, rest)
      | none =>
        match text with
        | [] => none
        | b :: rest =>
          if isLiteralByte b || b == Byte.quote then
            (multiLiteral? fuel rest).map fun (content, rest) => (b :: content, rest)
          else none

/-- A string in any of its four forms. -/
def string? (text : Text) : Option (Text × Text) :=
  match text with
  | Byte.doubleQuote :: Byte.doubleQuote :: Byte.doubleQuote :: rest =>
    multiBasic? (rest.length + 1) (skipFirstBreak rest)
  | Byte.doubleQuote :: rest => basic? (rest.length + 1) rest
  | Byte.quote :: Byte.quote :: Byte.quote :: rest =>
    multiLiteral? (rest.length + 1) (skipFirstBreak rest)
  | Byte.quote :: rest => literal? rest
  | _ => none

/-- A part of a key. -/
def simpleKey? (text : Text) : Option (Text × Text) :=
  match text with
  | Byte.doubleQuote :: rest => basic? (rest.length + 1) rest
  | Byte.quote :: rest => literal? rest
  | _ =>
    let key := text.takeWhile isBareByte
    if key.isEmpty then none else some (key, text.dropWhile isBareByte)

/-- The parts of a dotted key, at most as many as the fuel, with blanks around the dots. -/
def key? : Nat → Text → Option (List Text × Text)
  | 0, _ => none
  | fuel + 1, text => do
    let (part, rest) ← simpleKey? (skipLineBlanks text)
    match skipLineBlanks rest with
    | Byte.dot :: rest =>
      let (parts, rest) ← key? fuel rest
      return (part :: parts, rest)
    | rest => return ([part], rest)

/-- The longest run of digits with single underscores between them. -/
def groupedDigits (isDigit : UInt8 → Bool) : Text → Text × Text
  | [] => ([], [])
  | [b] => if isDigit b then ([b], []) else ([], [b])
  | b :: c :: text =>
    if isDigit b then
      if c == Byte.underscore then
        match text with
        | d :: _ =>
          if isDigit d then
            let (digits, rest) := groupedDigits isDigit text
            (b :: digits, rest)
          else ([b], c :: text)
        | [] => ([b], [c])
      else
        let (digits, rest) := groupedDigits isDigit (c :: text)
        (b :: digits, rest)
    else ([], b :: c :: text)

/-- The sign of a number, if there is one. -/
def sign : Text → Text × Text
  | Byte.plus :: text => ([Byte.plus], text)
  | Byte.hyphen :: text => ([Byte.hyphen], text)
  | text => ([], text)

/-- The digits of a decimal integer, which has no zeros in front. -/
def wholeDigits? (text : Text) : Option (Text × Text) :=
  match text with
  | Byte.zero :: rest => some ([Byte.zero], rest)
  | _ =>
    match groupedDigits Byte.isDigit text with
    | ([], _) => none
    | (digits, rest) => some (digits, rest)

/-- An integer in a base, from its digits on. -/
def integerInBase? (base : Nat) (text : Text) : Option (Toml × Text) := do
  let isDigit (b : UInt8) : Bool := (Json.hexValue? b).any (· < base)
  let (digits, rest) := groupedDigits isDigit text
  guard !digits.isEmpty
  let n := digits.foldl (fun n b => n * base + (Json.hexValue? b).getD 0) 0
  guard (isSigned n)
  return (.integer n, rest)

/-- An integer. -/
def integer? (text : Text) : Option (Toml × Text) :=
  match text with
  | Byte.zero :: 120 :: rest => integerInBase? 16 rest
  | Byte.zero :: 111 :: rest => integerInBase? 8 rest
  | Byte.zero :: 98 :: rest => integerInBase? 2 rest
  | _ => do
    let (sign, rest) := sign text
    let (digits, rest) ← wholeDigits? rest
    let n ← Text.toWord? (sign ++ digits)
    return (.integer n, rest)

/-- Whether a decimal is too large for a float. -/
def isTooLarge (digits : Text) (exponent : Int) : Bool :=
  let significant := digits.dropWhile (· == Byte.zero)
  if significant.isEmpty then false
  else
    let magnitude := exponent + significant.length
    if 310 < magnitude then true
    else if magnitude < 300 then false
    else (Float.ofScientific (Text.toNat significant) (exponent < 0) exponent.natAbs).isInf

/-- The exponent of a float, from its letter on. -/
def exponentDigits? : Text → Option (Text × Text)
  | b :: text => do
    guard (b == 101 || b == 69)
    let (sign, rest) := sign text
    let (digits, rest) := groupedDigits Byte.isDigit rest
    guard !digits.isEmpty
    return (sign ++ digits, rest)
  | [] => none

/-- The fraction of a float, which is absent without a point and has a digit after one. -/
def fractionDigits? : Text → Option (Text × Text)
  | Byte.dot :: text => do
    let (digits, rest) := groupedDigits Byte.isDigit text
    guard !digits.isEmpty
    return (digits, rest)
  | text => some ([], text)

/-- A float with a fraction or an exponent. A positive one must not be too large. -/
def decimalFloat? (text : Text) : Option (Toml × Text) := do
  let (sign, rest) := sign text
  let (whole, rest) ← wholeDigits? rest
  let (fraction, rest) ← fractionDigits? rest
  let (exponent, rest) ←
    match exponentDigits? rest with
    | some found => some found
    | none => if fraction.isEmpty then none else some ([], rest)
  let shift := exponent.toInt?.getD 0
  guard !(sign != "-" && isTooLarge (whole ++ fraction) (shift - fraction.length))
  let mark := Text.when (!fraction.isEmpty) (Byte.dot :: fraction)
  return (.float (sign ++ whole ++ mark ++ Text.when (!exponent.isEmpty) (101 :: exponent)), rest)

/-- An infinity or NaN. -/
def specialFloat? (text : Text) : Option (Toml × Text) := do
  let (sign, rest) := sign text
  let word := rest.take 3
  guard (word == "inf" || word == "nan")
  return (.float (sign ++ word), rest.drop 3)

/-- A number of exactly `count` digits within bounds. -/
def fixedNumber? (count least greatest : Nat) (text : Text) : Option (Nat × Text) := do
  let digits := text.take count
  guard (digits.length == count && digits.all Byte.isDigit)
  let n := Text.toNat digits
  guard (least ≤ n && n ≤ greatest)
  return (n, text.drop count)

/-- How many days a month has. -/
def daysOfMonth (year month : Nat) : Nat :=
  if month == 2 then
    if year % 4 == 0 && (year % 100 != 0 || year % 400 == 0) then 29 else 28
  else if month == 4 || month == 6 || month == 9 || month == 11 then 30
  else 31

/-- A date in its canonical spelling. -/
def fullDate? (text : Text) : Option (Text × Text) := do
  let (year, rest) ← fixedNumber? 4 0 9999 text
  let rest ← Text.rest? .exact "-" rest
  let (month, rest) ← fixedNumber? 2 1 12 rest
  let rest ← Text.rest? .exact "-" rest
  let (day, rest) ← fixedNumber? 2 1 (daysOfMonth year month) rest
  return (Text.padded 4 year ++ "-" ++ Text.padded 2 month ++ "-" ++ Text.padded 2 day, rest)

/-- A fraction of a second in its canonical spelling: nine places count, and zeros at the end are
dropped. -/
def fraction (digits : Text) : Text :=
  let places := ((digits.take 9).reverse.dropWhile (· == Byte.zero)).reverse
  Text.when (!places.isEmpty) (Byte.dot :: places)

/-- A time of the day in its canonical spelling. -/
def partialTime? (text : Text) : Option (Text × Text) := do
  let (hour, rest) ← fixedNumber? 2 0 23 text
  let rest ← Text.rest? .exact ":" rest
  let (minute, rest) ← fixedNumber? 2 0 59 rest
  let rest ← Text.rest? .exact ":" rest
  let (second, rest) ← fixedNumber? 2 0 60 rest
  let time := Text.padded 2 hour ++ ":" ++ Text.padded 2 minute ++ ":" ++ Text.padded 2 second
  match rest with
  | Byte.dot :: after =>
    let digits := after.takeWhile Byte.isDigit
    if digits.isEmpty then return (time, rest)
    else return (time ++ fraction digits, after.dropWhile Byte.isDigit)
  | _ => return (time, rest)

/-- The offset of a time zone in its canonical spelling, if there is one. -/
def zone (text : Text) : Text × Text :=
  match text with
  | [] => ([], [])
  | b :: rest =>
    if b == 90 || b == 122 then ("Z", rest)
    else if b == Byte.plus || b == Byte.hyphen then
      let found := do
        let (hour, rest) ← fixedNumber? 2 0 23 rest
        let rest ← Text.rest? .exact ":" rest
        let (minute, rest) ← fixedNumber? 2 0 59 rest
        let sign := if hour == 0 && minute == 0 then Byte.plus else b
        return (sign :: Text.padded 2 hour ++ ":" ++ Text.padded 2 minute, rest)
      found.getD ([], text)
    else ([], text)

/-- A date, a time, or both. -/
def date? (text : Text) : Option (Toml × Text) :=
  match fullDate? text with
  | none => (partialTime? text).map fun (time, rest) => (.date time, rest)
  | some (day, rest) =>
    match rest with
    | b :: after =>
      if b == 84 || b == 116 || b == Byte.space then
        match partialTime? after with
        | some (time, rest) =>
          let (zone, rest) := zone rest
          some (.date (day ++ "T" ++ time ++ zone), rest)
        | none => some (.date day, rest)
      else some (.date day, rest)
    | [] => some (.date day, [])

/-- A value that is neither an array nor a table. -/
def scalar? (text : Text) : Option (Toml × Text) :=
  match text with
  | [] => none
  | b :: _ =>
    if b == Byte.doubleQuote || b == Byte.quote then
      (string? text).map fun (content, rest) => (.string content, rest)
    else
      match Text.rest? .exact "true" text with
      | some rest => some (.boolean true, rest)
      | none =>
        match Text.rest? .exact "false" text with
        | some rest => some (.boolean false, rest)
        | none =>
          (date? text).or <| (decimalFloat? text).or <| (specialFloat? text).or <| integer? text

mutual

/-- A value, at most `depth` levels of arrays and tables deep. -/
def value? (depth : Nat) : Nat → Text → Option (Toml × Text)
  | 0, _ => none
  | fuel + 1, text =>
    match text with
    | Byte.openBracket :: rest =>
      match depth with
      | 0 => none
      | depth + 1 => (items? depth fuel rest).map fun (items, rest) => (.array items, rest)
    | Byte.openBrace :: rest =>
      match depth with
      | 0 => none
      | depth + 1 =>
        match skipLineBlanks rest with
        | Byte.closeBrace :: rest => some (.table .inline [], rest)
        | _ => do
          let (pairs, rest) ← pairs? depth fuel rest
          let table ← inlineTable? pairs
          return (table, rest)
    | _ => scalar? text

/-- The items of an array up to its closing bracket. -/
def items? (depth : Nat) : Nat → Text → Option (List Toml × Text)
  | 0, _ => none
  | fuel + 1, text => do
    let rest ← skipBlankLines (text.length + 1) text
    match rest with
    | Byte.closeBracket :: rest => return ([], rest)
    | _ =>
      let (item, rest) ← value? depth fuel rest
      let rest ← skipBlankLines (rest.length + 1) rest
      match rest with
      | Byte.comma :: rest =>
        let (items, rest) ← items? depth fuel rest
        return (item :: items, rest)
      | Byte.closeBracket :: rest => return ([item], rest)
      | _ => none

/-- The keys and values of an inline table up to its closing brace. -/
def pairs? (depth : Nat) : Nat → Text → Option (List (List Text × Toml) × Text)
  | 0, _ => none
  | fuel + 1, text => do
    let (key, rest) ← key? (nestingLimit - 1) text
    match rest with
    | Byte.equals :: rest =>
      let (value, rest) ← value? depth fuel (skipLineBlanks rest)
      match skipLineBlanks rest with
      | Byte.comma :: rest =>
        let (pairs, rest) ← pairs? depth fuel rest
        return ((key, value) :: pairs, rest)
      | Byte.closeBrace :: rest => return ([(key, value)], rest)
      | _ => none
    | _ => none

end

/-- The statement at the start of a text, and what follows its line. -/
def statement? (text : Text) : Option (Statement × Text) :=
  match text with
  | Byte.openBracket :: Byte.openBracket :: rest => do
    let (path, rest) ← key? (nestingLimit - 1) rest
    let rest ← Text.rest? .exact "]]" rest
    return (.element path, ← lineEnd? rest)
  | Byte.openBracket :: rest => do
    let (path, rest) ← key? (nestingLimit - 1) rest
    let rest ← Text.rest? .exact "]" rest
    return (.table path, ← lineEnd? rest)
  | _ => do
    let (path, rest) ← key? (nestingLimit - 1) text
    let rest ← Text.rest? .exact "=" rest
    let (value, rest) ← value? (nestingLimit - 1) (2 * rest.length + 2) (skipLineBlanks rest)
    return (.assign path value, ← lineEnd? rest)

/-- The statements of a text, at most as many as the fuel. -/
def statements? : Nat → Text → Option (List Statement)
  | 0, _ => none
  | fuel + 1, text =>
    match skipLineBlanks text with
    | [] => some []
    | rest =>
      match lineEnd? rest with
      | some rest => statements? fuel rest
      | none => do
        let (statement, rest) ← statement? rest
        let statements ← statements? fuel rest
        return statement :: statements

/-- Drops the mark that some editors put in front of a text. -/
def skipByteOrderMark : Text → Text
  | 0xEF :: 0xBB :: 0xBF :: text => text
  | text => text

/-- Reads a document. -/
def read? (text : Text) : Option Entries := do
  let statements ← statements? (text.length + 1) (skipByteOrderMark text)
  ofStatements? statements

end Toml

end QueryBridge
