import QueryBridge.Conversion.Calls

/-!
# Parametric aggregates

An aggregate with parameters is called with two argument lists, the parameters first. The
parameters move behind the argument, and a bare call takes the default parameter.
-/

namespace QueryBridge

/-- A call with parameters. -/
structure ParametricCall where
  /-- The call that lists the parameters, or the arguments of a bare call. -/
  site : CallSite
  /-- The parentheses of the second list, if there is one. -/
  second : Option (Nat × Nat)
deriving DecidableEq, Repr

namespace ParametricCall

/-- The offset right after the call. -/
def stop (call : ParametricCall) : Nat :=
  match call.second with
  | some (_, closing) => closing + 1
  | none => call.site.stop

/-- The parameters. -/
def parameters (text : Text) (call : ParametricCall) : List Text :=
  match call.second with
  | some _ => call.site.arguments text
  | none => []

/-- The arguments. -/
def arguments (text : Text) (call : ParametricCall) : List Text :=
  match call.second with
  | some (opening, closing) => text.arguments (opening + 1) closing
  | none => call.site.arguments text

/-- The arguments of a call are shorter than the statement. -/
theorem length_lt_of_mem_arguments {call : ParametricCall} {text argument : Text}
    (h : argument ∈ call.arguments text) : argument.length < text.length := by
  unfold arguments at h
  split at h
  · exact Text.length_lt_of_mem_arguments (by omega) h
  · exact CallSite.length_lt_of_mem_arguments h

end ParametricCall

/-- The calls with parameters in some code from offset `place` on. A call is unbalanced if its
first or its second list never closes. -/
def Callee.surveyParametric (callee : Callee) (place : Nat) :
    List Cursor → Survey ParametricCall
  | [] => ⟨[], none⟩
  | c :: code =>
    if c.offset < place then callee.surveyParametric place code
    else
      match callee.opening? c with
      | none => callee.surveyParametric place code
      | some opening =>
        match opening.closingParen? with
        | none => ⟨[], some c.offset⟩
        | some closing =>
          let site : CallSite := ⟨c.offset, opening.offset, closing.offset⟩
          let second := closing.forward 1
          if second.sees Byte.openParen then
            match second.closingParen? with
            | none => ⟨[], some c.offset⟩
            | some last =>
              let call : ParametricCall := ⟨site, some (second.offset, last.offset)⟩
              (callee.surveyParametric call.stop code).cons call
          else
            let call : ParametricCall := ⟨site, none⟩
            (callee.surveyParametric call.stop code).cons call

/-- An aggregate with parameters and its equivalent. -/
structure ParametricRule where
  /-- The name of the aggregate. -/
  name : Text
  /-- What stands before the argument. -/
  head : Text
  /-- The parameters that stand between the argument and the closing parenthesis. -/
  tail : List Text → Text

namespace ParametricRule

/-- The text that takes the place of a call. -/
def apply (rule : ParametricRule) (parameters arguments : List Text) : Text :=
  rule.head ++ "(" ++ arguments.head?.getD "NULL" ++ ", " ++ rule.tail parameters ++ ")"

/-- An aggregate with one parameter. -/
def single (name head fallback : Text) : ParametricRule :=
  ⟨name, head, fun parameters => parameters.head?.getD fallback⟩

end ParametricRule

/-- The aggregates with parameters, in the order in which they are replaced. -/
def parametricRules : List ParametricRule := [
  .single "quantile" "quantile_cont" "0.5",
  .single "quantileExact" "quantile_disc" "0.5",
  .single "quantileTDigest" "approx_quantile" "0.5",
  ⟨"quantiles", "quantile_cont", fun parameters => "[" ++ Text.join ", " parameters ++ "]"⟩,
  .single "topK" "approx_top_k" "10"]

/-- Replaces the calls of an aggregate, those in the arguments of a call first. -/
def replaceParametric (rule : ParametricRule) (text : Text) : Converted :=
  let callee : Callee := ⟨rule.name, .exact⟩
  let survey := callee.surveyParametric 0 text.code
  let found := survey.calls.map fun call =>
    (call, (call.arguments text).attach.map fun ⟨argument, _⟩ =>
      replaceParametric rule argument)
  let edits := found.map fun (call, arguments) =>
    ⟨call.site.start, call.stop, rule.apply (call.parameters text) (arguments.map Converted.sql)⟩
  ⟨text.splice edits,
    found.flatMap (fun (_, arguments) => arguments.flatMap Converted.warnings)
      ++ callee.warnings survey.unbalanced⟩
termination_by text.length
decreasing_by exact ParametricCall.length_lt_of_mem_arguments (by assumption)

/-- Replaces the calls of every aggregate with parameters. -/
def replaceParametrics (text : Text) : Converted :=
  Converted.forEach parametricRules replaceParametric text

end QueryBridge
