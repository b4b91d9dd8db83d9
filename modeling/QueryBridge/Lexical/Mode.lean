import QueryBridge.Text.Byte

/-!
# Lexical modes

A statement is code, interrupted by quoted runs and comments. A mode says what the next byte
belongs to; one byte and the byte after it decide the mode that follows. This file is the only
place where these rules stand: every view of a statement is a walk of this machine.

A quote written twice inside its run stands for itself. A line comment ends with its newline,
a block comment with the first star and slash after its opening pair. What is never closed
extends to the end of the text.
-/

namespace QueryBridge

/-- What the next byte of a statement belongs to. -/
inductive Mode where
  /-- Code, or the first byte of a quoted run or comment. -/
  | code
  /-- A quoted run opened by this byte. -/
  | quoted (opening : UInt8)
  /-- The second of two quotes that stand for one inside a quoted run. -/
  | doubled (opening : UInt8)
  /-- A line comment. -/
  | lineComment
  /-- The star that opens a block comment. -/
  | blockOpening
  /-- A block comment. -/
  | blockComment
  /-- The slash that closes a block comment. -/
  | blockClosing
deriving DecidableEq, Repr

namespace Mode

/-- The quoted run or comment that opens at a byte, seen with the byte after it. -/
def opened? (b : UInt8) (next : Option UInt8) : Option Mode :=
  if Byte.isQuote b then some (.quoted b)
  else if b == Byte.hyphen && next == some Byte.hyphen then some .lineComment
  else if b == Byte.slash && next == some Byte.star then some .blockOpening
  else none

/-- The mode of the byte that follows. -/
def step : Mode → UInt8 → Option UInt8 → Mode
  | .code, b, next => (opened? b next).getD .code
  | .quoted q, b, next =>
    if b == q then if next == some q then .doubled q else .code else .quoted q
  | .doubled q, _, _ => .quoted q
  | .lineComment, b, _ => if b == Byte.newline then .code else .lineComment
  | .blockOpening, _, _ => .blockComment
  | .blockComment, b, next =>
    if b == Byte.star && next == some Byte.slash then .blockClosing else .blockComment
  | .blockClosing, _, _ => .code

/-- Whether a byte is code: quotes and the bytes that open a comment are not. -/
def shows : Mode → UInt8 → Option UInt8 → Bool
  | .code, b, next => (opened? b next).isNone
  | _, _, _ => false

/-- How many bytes pass until the walk is back in code, or the text ends. -/
def span : Mode → Text → Nat
  | _, [] => 0
  | mode, b :: text =>
    match mode.step b text.head? with
    | .code => 1
    | next => span next text + 1

end Mode

end QueryBridge
