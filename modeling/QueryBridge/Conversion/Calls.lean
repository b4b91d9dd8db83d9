import QueryBridge.Edit
import QueryBridge.Lexical.Call
import QueryBridge.Conversion.Output

/-!
# Replacing calls

Every call to a function is replaced by a text made from its arguments. The arguments are
converted first, so calls inside calls are replaced from the inside out. At the first call
that never closes the rest of the statement is left as it is.
-/

namespace QueryBridge

/-- The calls of a statement that are closed, up to the first one that is not. -/
structure Survey (α : Type) where
  /-- The calls, in order. -/
  calls : List α
  /-- The offset of the call that never closes. -/
  unbalanced : Option Nat
deriving DecidableEq, Repr

/-- Puts a call in front. -/
def Survey.cons {α : Type} (call : α) (survey : Survey α) : Survey α :=
  ⟨call :: survey.calls, survey.unbalanced⟩

/-- The calls in some code from offset `place` on, none inside another. -/
def Callee.survey (callee : Callee) (place : Nat) : List Cursor → Survey CallSite
  | [] => ⟨[], none⟩
  | c :: code =>
    if c.offset < place then callee.survey place code
    else
      match callee.opening? c with
      | none => callee.survey place code
      | some opening =>
        match opening.closingParen? with
        | none => ⟨[], some c.offset⟩
        | some closing =>
          let site : CallSite := ⟨c.offset, opening.offset, closing.offset⟩
          (callee.survey site.stop code).cons site

/-- The arguments of a call are shorter than the statement. -/
theorem CallSite.length_lt_of_mem_arguments {site : CallSite} {text argument : Text}
    (h : argument ∈ site.arguments text) : argument.length < text.length :=
  Text.length_lt_of_mem_arguments (by omega) h

/-- The warning about a call that never closes. -/
def Callee.warnings (callee : Callee) (unbalanced : Option Nat) : List Warning :=
  unbalanced.toList.map (.unbalanced callee.name)

/-- Replaces every call to a function by what is rendered from its arguments. -/
def replaceCalls (callee : Callee) (render : List Text → Text) (text : Text) : Converted :=
  let survey := callee.survey 0 text.code
  let found := survey.calls.map fun site =>
    (site, (site.arguments text).attach.map fun ⟨argument, _⟩ =>
      replaceCalls callee render argument)
  let edits := found.map fun (site, arguments) =>
    ⟨site.start, site.stop, render (arguments.map Converted.sql)⟩
  ⟨text.splice edits,
    found.flatMap (fun (_, arguments) => arguments.flatMap Converted.warnings)
      ++ callee.warnings survey.unbalanced⟩
termination_by text.length
decreasing_by exact CallSite.length_lt_of_mem_arguments (by assumption)

end QueryBridge
