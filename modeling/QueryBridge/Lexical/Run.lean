import QueryBridge.Lexical.Cursor

/-!
# Runs

A text falls into runs of code and runs of quoted text or comment, in alternation. Mapping
the code of a text changes its runs of code and copies the others.
-/

namespace QueryBridge

/-- A longest stretch of a text that is all code, or holds no code. -/
structure Run where
  /-- Whether the stretch is code. -/
  isCode : Bool
  /-- The bytes of the stretch. -/
  text : Text
deriving DecidableEq, Repr

namespace Run

/-- Puts a byte in front of a list of runs. -/
def cons (isCode : Bool) (b : UInt8) : List Run → List Run
  | [] => [⟨isCode, [b]⟩]
  | run :: runs =>
    if run.isCode == isCode then ⟨isCode, b :: run.text⟩ :: runs
    else ⟨isCode, [b]⟩ :: run :: runs

/-- The runs of a text whose walk starts in the given mode. -/
def ofText (mode : Mode) : Text → List Run
  | [] => []
  | b :: text => cons (mode.shows b text.head?) b (ofText (mode.step b text.head?) text)

/-- The offsets of the runs, when the first one starts at `start`. -/
def spans (start : Nat) : List Run → List (Nat × Nat × Bool)
  | [] => []
  | run :: runs =>
    let stop := start + run.text.length
    (start, stop, run.isCode) :: spans stop runs

end Run

namespace Text

/-- The runs of a text, in order. -/
def runs (text : Text) : List Run := Run.ofText .code text

/-- Applies a function to every run of code and copies everything else. -/
def mapCode (f : Text → Text) (text : Text) : Text :=
  text.runs.flatMap fun run => if run.isCode then f run.text else run.text

end Text

end QueryBridge
