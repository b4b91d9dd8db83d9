/-!
# Bytes and texts

A text is the sequence of bytes of its UTF-8 encoding, so that an offset is a count of
bytes and a cut may fall anywhere. This file names the bytes that carry structure and the
classes of ASCII bytes that the lexical rules ask about.
-/

namespace QueryBridge

/-- A text is the sequence of bytes of its UTF-8 encoding. -/
abbrev Text := List UInt8

section Decidable

variable (P : UInt8 → Prop) [DecidablePred P]

/-- What is said of all bytes of a text is decided at those bytes, and not at every byte there is. -/
instance Text.decidableForall (text : Text) : Decidable (∀ b ∈ text, P b) :=
  List.decidableBAll P text

instance Byte.decidableForall (found : Option UInt8) : Decidable (∀ b ∈ found, P b) :=
  found.decidableForallMem

end Decidable

namespace Byte

/-- Horizontal tab. -/
@[match_pattern] abbrev tab : UInt8 := 9
/-- Line feed. -/
@[match_pattern] abbrev newline : UInt8 := 10
/-- Form feed. -/
@[match_pattern] abbrev formFeed : UInt8 := 12
/-- Carriage return. -/
@[match_pattern] abbrev carriageReturn : UInt8 := 13
/-- Space. -/
@[match_pattern] abbrev space : UInt8 := 32
/-- Double quotation mark. -/
@[match_pattern] abbrev doubleQuote : UInt8 := 34
/-- Number sign. -/
@[match_pattern] abbrev hash : UInt8 := 35
/-- Apostrophe, the quote of a literal. -/
@[match_pattern] abbrev quote : UInt8 := 39
/-- Opening parenthesis. -/
@[match_pattern] abbrev openParen : UInt8 := 40
/-- Closing parenthesis. -/
@[match_pattern] abbrev closeParen : UInt8 := 41
/-- Asterisk. -/
@[match_pattern] abbrev star : UInt8 := 42
/-- Plus sign. -/
@[match_pattern] abbrev plus : UInt8 := 43
/-- Comma. -/
@[match_pattern] abbrev comma : UInt8 := 44
/-- Hyphen or minus sign. -/
@[match_pattern] abbrev hyphen : UInt8 := 45
/-- Full stop. -/
@[match_pattern] abbrev dot : UInt8 := 46
/-- Slash. -/
@[match_pattern] abbrev slash : UInt8 := 47
/-- Digit zero. -/
@[match_pattern] abbrev zero : UInt8 := 48
/-- Colon. -/
@[match_pattern] abbrev colon : UInt8 := 58
/-- Semicolon. -/
@[match_pattern] abbrev semicolon : UInt8 := 59
/-- Equals sign. -/
@[match_pattern] abbrev equals : UInt8 := 61
/-- Opening bracket. -/
@[match_pattern] abbrev openBracket : UInt8 := 91
/-- Backslash. -/
@[match_pattern] abbrev backslash : UInt8 := 92
/-- Closing bracket. -/
@[match_pattern] abbrev closeBracket : UInt8 := 93
/-- Underscore. -/
@[match_pattern] abbrev underscore : UInt8 := 95
/-- Grave accent, the third quote. -/
@[match_pattern] abbrev graveAccent : UInt8 := 96
/-- Opening brace. -/
@[match_pattern] abbrev openBrace : UInt8 := 123
/-- Closing brace. -/
@[match_pattern] abbrev closeBrace : UInt8 := 125

/-- The decimal digits. -/
def isDigit (b : UInt8) : Bool := 48 ≤ b && b ≤ 57

/-- The capital letters of ASCII. -/
def isUpper (b : UInt8) : Bool := 65 ≤ b && b ≤ 90

/-- The small letters of ASCII. -/
def isLower (b : UInt8) : Bool := 97 ≤ b && b ≤ 122

/-- The letters of ASCII. -/
def isLetter (b : UInt8) : Bool := isUpper b || isLower b

/-- The bytes an identifier consists of. -/
def isIdent (b : UInt8) : Bool := isLetter b || isDigit b || b == underscore

/-- The bytes an identifier may start with. -/
def isIdentStart (b : UInt8) : Bool := isLetter b || b == underscore

/-- The blanks between tokens. The vertical tab is not one of them. -/
def isBlank (b : UInt8) : Bool :=
  b == space || b == tab || b == newline || b == formFeed || b == carriageReturn

/-- The small form of a capital letter; any other byte is itself. -/
def toLower (b : UInt8) : UInt8 := if isUpper b then b + 32 else b

/-- The bytes that open, and later close, a quoted run. -/
def isQuote (b : UInt8) : Bool := b == quote || b == doubleQuote || b == graveAccent

/-- The brackets that open a level of nesting. -/
def opensLevel (b : UInt8) : Bool := b == openParen || b == openBracket || b == openBrace

/-- The brackets that close a level of nesting. -/
def closesLevel (b : UInt8) : Bool := b == closeParen || b == closeBracket || b == closeBrace

end Byte

/-- How the letters of a name are compared. -/
inductive LetterCase where
  /-- Every letter counts as written. -/
  | exact
  /-- A capital letter equals its small form. -/
  | folded
deriving DecidableEq, Repr

/-- Whether two bytes are equal letters of a name. -/
def LetterCase.same : LetterCase → UInt8 → UInt8 → Bool
  | .exact, a, b => a == b
  | .folded, a, b => Byte.toLower a == Byte.toLower b

namespace Text

/-- The UTF-8 encoding of a string. -/
def ofString (s : String) : Text := s.toByteArray.data.toList

instance : Coe String Text := ⟨ofString⟩

/-- The decimal digits of a natural number. -/
def ofNat (n : Nat) : Text := (Nat.toDigits 10 n).map fun c => c.val.toUInt8

/-- The decimal spelling of an integer. -/
def ofInt : Int → Text
  | .ofNat n => ofNat n
  | .negSucc n => Byte.hyphen :: ofNat (n + 1)

/-- What follows the word at the start of the text, if the text starts with it. -/
def rest? (letters : LetterCase) : Text → Text → Option Text
  | [], text => some text
  | _ :: _, [] => none
  | w :: word, b :: text => if letters.same w b then rest? letters word text else none

/-- What stands before the word at the end of the text, if the text ends with it. -/
def beforeSuffix? (word text : Text) : Option Text :=
  (rest? .exact word.reverse text.reverse).map List.reverse

/-- Whether two texts are equal letter by letter. -/
def same (letters : LetterCase) (a b : Text) : Bool := rest? letters a b == some []

/-- The text if it is wanted, and nothing otherwise. -/
def when (wanted : Bool) (text : Text) : Text := if wanted then text else []

/-- The bytes from offset `start` up to offset `stop`. -/
def slice (text : Text) (start stop : Nat) : Text := (text.drop start).take (stop - start)

/-- What follows a word at the start of a text is shorter by the length of the word. -/
theorem length_of_rest?_eq_some {letters : LetterCase} {word text rest : Text}
    (h : rest? letters word text = some rest) : text.length = word.length + rest.length := by
  induction word generalizing text with
  | nil => simp_all [rest?]
  | cons w word ih =>
    cases text with
    | nil => simp [rest?] at h
    | cons b text =>
      simp only [rest?, Option.ite_none_right_eq_some] at h
      have := ih h.2
      simp only [List.length_cons]
      omega

/-- A slice has no more bytes than the text from its start on. -/
theorem length_slice_le (text : Text) (start stop : Nat) :
    (slice text start stop).length ≤ text.length - start := by
  simp only [slice, List.length_take, List.length_drop]
  omega

/-- The texts in order, with a separator between neighbours. -/
def join (separator : Text) : List Text → Text
  | [] => []
  | [last] => last
  | first :: others => first ++ separator ++ join separator others

/-- The parts before and after the first occurrence of a byte. -/
def cut? (b : UInt8) (text : Text) : Option (Text × Text) :=
  match text.dropWhile (· != b) with
  | [] => none
  | _ :: after => some (text.takeWhile (· != b), after)

/-- Every occurrence of a byte is replaced by a text. -/
def replaceByte (b : UInt8) (replacement : Text) (text : Text) : Text :=
  text.flatMap fun c => if c == b then replacement else [c]

end Text

end QueryBridge
