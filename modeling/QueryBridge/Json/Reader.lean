import QueryBridge.Decimal.Reading
import QueryBridge.Json.Value
import QueryBridge.Text.Glyph

/-!
# Reading JSON

The reader accepts strict JSON: no leading zeros, no trailing commas, no bare controls in a
string, escaped surrogates only in pairs, and no number too large for a float. Arrays and
objects may be nested 127 levels deep.
-/

namespace QueryBridge

namespace Json

/-- How many levels arrays and objects may be nested. -/
def maxDepth : Nat := 127

/-- Drops the blanks between tokens. -/
def skipBlanks (text : Text) : Text :=
  text.dropWhile fun b =>
    b == Byte.space || b == Byte.tab || b == Byte.newline || b == Byte.carriageReturn

/-- The digits at the start of a text, and what follows them. -/
def digits (text : Text) : Text × Text := (text.takeWhile Byte.isDigit, text.dropWhile Byte.isDigit)

/-- The value of a hexadecimal digit. -/
def hexValue? (b : UInt8) : Option Nat :=
  if Byte.isDigit b then some (b.toNat - 48)
  else if 97 ≤ b && b ≤ 102 then some (b.toNat - 87)
  else if 65 ≤ b && b ≤ 70 then some (b.toNat - 55)
  else none

/-- The number of four hexadecimal digits. -/
def hexWord? : Text → Option (Nat × Text)
  | a :: b :: c :: d :: text => do
    let a ← hexValue? a
    let b ← hexValue? b
    let c ← hexValue? c
    let d ← hexValue? d
    return (((a * 16 + b) * 16 + c) * 16 + d, text)
  | _ => none

/-- The glyph of a numeric escape, from its digits on. -/
def unicodeEscape? (text : Text) : Option (Glyph × Text) := do
  let (high, rest) ← hexWord? text
  if high < 0xD800 || 0xDFFF < high then return (Glyph.ofCodePoint high, rest)
  guard (high < 0xDC00)
  match rest with
  | Byte.backslash :: 117 :: rest =>
    let (low, rest) ← hexWord? rest
    guard (0xDC00 ≤ low && low ≤ 0xDFFF)
    return (Glyph.ofCodePoint (0x10000 + (high - 0xD800) * 0x400 + (low - 0xDC00)), rest)
  | _ => none

/-- The byte a single-letter escape stands for. -/
def letterEscape? (b : UInt8) : Option UInt8 :=
  if b == Byte.doubleQuote || b == Byte.backslash || b == Byte.slash then some b
  else if b == 98 then some 8
  else if b == 102 then some Byte.formFeed
  else if b == 110 then some Byte.newline
  else if b == 114 then some Byte.carriageReturn
  else if b == 116 then some Byte.tab
  else none

/-- The spelling of a string after its opening quote, and what follows its closing quote. A quote
after a backslash does not close. -/
def spelling? : Text → Option (Text × Text)
  | [] => none
  | Byte.doubleQuote :: text => some ([], text)
  | Byte.backslash :: b :: text =>
    (spelling? text).map fun (spelling, rest) => (Byte.backslash :: b :: spelling, rest)
  | b :: text =>
    if b < 32 then none else (spelling? text).map fun (spelling, rest) => (b :: spelling, rest)

/-- The content that a spelling stands for; the fuel is its length. -/
def unescape? : Nat → Text → Option Text
  | _, [] => some []
  | 0, _ :: _ => none
  | fuel + 1, b :: text =>
    if b == Byte.backslash then
      match text with
      | [] => none
      | e :: rest =>
        if e == 117 then do
          let (glyph, rest) ← unicodeEscape? rest
          return glyph ++ (← unescape? fuel rest)
        else do
          let c ← letterEscape? e
          return c :: (← unescape? fuel rest)
    else (unescape? fuel text).map (b :: ·)

/-- The content of a string after its opening quote, and what follows its closing quote. -/
def string? (text : Text) : Option (Text × Text) := do
  let (spelling, rest) ← spelling? text
  let content ← unescape? spelling.length spelling
  return (content, rest)

/-- The exponent of a number, with its letter, if there is one. -/
def exponent? : Text → Option (Option Int × Text)
  | b :: text =>
    if b == 101 || b == 69 then
      let (negative, rest) : Bool × Text :=
        match text with
        | Byte.hyphen :: rest => (true, rest)
        | Byte.plus :: rest => (false, rest)
        | _ => (false, text)
      let (places, rest) := digits rest
      if places.isEmpty then none
      else
        let n : Int := Text.toNat places
        some (some (if negative then -n else n), rest)
    else some (none, b :: text)
  | [] => some (none, [])

/-- The number at the start of a text that starts with a digit, after its sign. -/
def number? (negative : Bool) (text : Text) : Option (Json × Text) := do
  let (whole, rest) := digits text
  guard (!whole.isEmpty && (whole.length == 1 || whole.head? != some Byte.zero))
  let (fraction, rest) ← match rest with
    | Byte.dot :: rest =>
      let (fraction, rest) := digits rest
      if fraction.isEmpty then none else some (some fraction, rest)
    | _ => some (none, rest)
  let (exponent, rest) ← exponent? rest
  let n := Text.toNat whole
  if fraction.isNone && exponent.isNone && !negative && n ≤ maxWord then
    return (.int n, rest)
  if fraction.isNone && exponent.isNone && negative && 0 < n && isSigned (-n) then
    return (.int (-n), rest)
  let x ← scaledFloat? negative whole (fraction.getD []) (exponent.getD 0)
  return (.float x, rest)

mutual

/-- The value at the start of a text, with blanks before it. -/
def value? (depth : Nat) : Nat → Text → Option (Json × Text)
  | 0, _ => none
  | fuel + 1, text =>
    match skipBlanks text with
    | [] => none
    | b :: rest =>
      if b == Byte.doubleQuote then
        (string? rest).map fun (content, rest) => (.string content, rest)
      else if b == Byte.hyphen then number? true rest
      else if Byte.isDigit b then number? false (b :: rest)
      else if b == Byte.openBracket then
        match depth with
        | 0 => none
        | depth + 1 =>
          match skipBlanks rest with
          | Byte.closeBracket :: rest => some (.list [], rest)
          | rest => (items? depth fuel rest).map fun (items, rest) => (.list items, rest)
      else if b == Byte.openBrace then
        match depth with
        | 0 => none
        | depth + 1 =>
          match skipBlanks rest with
          | Byte.closeBrace :: rest => some (.object [], rest)
          | rest =>
            (fields? depth fuel rest).map fun (fields, rest) =>
              (.object (Keyed.ofList fields), rest)
      else
        match Text.rest? .exact "null" (b :: rest) with
        | some rest => some (.null, rest)
        | none =>
          match Text.rest? .exact "true" (b :: rest) with
          | some rest => some (.bool true, rest)
          | none => (Text.rest? .exact "false" (b :: rest)).map fun rest => (.bool false, rest)

/-- The items of an array up to its closing bracket. -/
def items? (depth : Nat) : Nat → Text → Option (List Json × Text)
  | 0, _ => none
  | fuel + 1, text => do
    let (item, rest) ← value? depth fuel text
    match skipBlanks rest with
    | Byte.comma :: rest =>
      let (items, rest) ← items? depth fuel rest
      return (item :: items, rest)
    | Byte.closeBracket :: rest => return ([item], rest)
    | _ => none

/-- The fields of an object up to its closing brace, in the order of the text. -/
def fields? (depth : Nat) : Nat → Text → Option (List (Text × Json) × Text)
  | 0, _ => none
  | fuel + 1, text =>
    match skipBlanks text with
    | Byte.doubleQuote :: rest => do
      let (name, rest) ← string? rest
      match skipBlanks rest with
      | Byte.colon :: rest =>
        let (value, rest) ← value? depth fuel rest
        match skipBlanks rest with
        | Byte.comma :: rest =>
          let (fields, rest) ← fields? depth fuel rest
          return ((name, value) :: fields, rest)
        | Byte.closeBrace :: rest => return ([(name, value)], rest)
        | _ => none
      | _ => none
    | _ => none

end

/-- Reads a text that holds one value and nothing else. -/
def read? (text : Text) : Option Json :=
  match value? maxDepth (2 * text.length + 2) text with
  | some (value, rest) => if (skipBlanks rest).isEmpty then some value else none
  | none => none

end Json

end QueryBridge
