import QueryBridge.Proofs.Conversion.ArrayJoin
import QueryBridge.Proofs.Conversion.Modifier

/-!
# Cut clauses and the text around them

A modifier is removed and an ARRAY JOIN clause replaced together with the blanks before it, without
regard to what the blanks belong to. So the newline of a line comment before a clause may go, and
then what follows the clause becomes part of the comment. Where the blanks are code, the text around
the clauses stays what it is, unless a comment opens where a modifier stood, or an array or a name
in an ARRAY JOIN clause has lost the newline of its own line comment.
-/

namespace QueryBridge

open Text Edit

/-- Cutting clauses keeps the class of every byte around them if each cut begins and ends in code,
and the text put in is sealed and opens no comment. Where a cut shows what it does to the byte
behind it, the class of every byte is kept only if this is so. -/
theorem cutClauses_keepClass (text : Text) :
    ((dropModifiers text).sql = text.splice (Modifier.edits text) ∧
      ((∀ edit ∈ Modifier.edits text, edit.Reveals text (Modifier.edits text)) →
        (text.KeepsClass (Modifier.edits text) ↔
          (∀ edit ∈ Modifier.edits text, edit.EdgesInCode text) ∧
            Seamless text 0 (Modifier.edits text)))) ∧
    expandArrayJoins text = text.splice (ArrayJoin.edits text) ∧
      ((ArrayJoin.edits text).Pairwise (fun first second => first.stop ≤ second.start) →
        ((∀ edit ∈ ArrayJoin.edits text, edit.EdgesInCode text) →
          ((∀ clause ∈ ArrayJoin.clauses text, clause.Admits text) →
            text.KeepsClass (ArrayJoin.edits text)) ∧
          ((∀ edit ∈ ArrayJoin.edits text, edit.Shows text (ArrayJoin.edits text)) →
            (text.KeepsClass (ArrayJoin.edits text) ↔
              Seamless text 0 (ArrayJoin.edits text)))) ∧
        ((∀ edit ∈ ArrayJoin.edits text, edit.Reveals text (ArrayJoin.edits text)) →
          (∀ edit ∈ ArrayJoin.edits text, edit.stop < text.length →
            edit.text.Sealed ∧ Byte.newline ∉ edit.text) →
          (text.KeepsClass (ArrayJoin.edits text) ↔
            ∀ edit ∈ ArrayJoin.edits text, edit.EdgesInCode text))) := by
  refine ⟨⟨Modifier.dropModifiers_sql text, Modifier.keepsClass_edits_iff⟩,
    ArrayJoin.expandArrayJoins_eq text, fun hpairwise => ⟨fun hedges => ?_, ?_⟩⟩
  · have hordered := ArrayJoin.ordered_edits hpairwise
    have hsettled := ArrayJoin.settled_of_edgesInCode hedges
    exact ⟨ArrayJoin.keepsClass_edits_of_admits hpairwise hedges,
      keepsClass_iff_seamless hordered hsettled⟩
  · exact ArrayJoin.keepsClass_edits_iff_edgesInCode hpairwise

/-- A comment before a clause does no harm where it is closed, and one that has lost its newline
does. -/
theorem cutClauses_lost_newline :
    KeepsClass "SELECT a FROM t /* n */ FINAL WHERE a = 1"
        (Modifier.edits "SELECT a FROM t /* n */ FINAL WHERE a = 1") ∧
      (dropModifiers "SELECT a FROM t -- n\nFINAL WHERE a = 1").sql =
        "SELECT a FROM t -- n WHERE a = 1" ∧
      ¬KeepsClass "SELECT a FROM t -- n\nFINAL WHERE a = 1"
        (Modifier.edits "SELECT a FROM t -- n\nFINAL WHERE a = 1") ∧
      KeepsClass "SELECT x FROM t ARRAY JOIN [1, 2] AS x WHERE x > 1"
        (ArrayJoin.edits "SELECT x FROM t ARRAY JOIN [1, 2] AS x WHERE x > 1") ∧
      ¬KeepsClass "SELECT x FROM t -- n\nARRAY JOIN [1] AS x WHERE x > 1"
        (ArrayJoin.edits "SELECT x FROM t -- n\nARRAY JOIN [1] AS x WHERE x > 1") := by
  refine ⟨?_, by decide +kernel, fun hlost => ?_, ?_, fun hlost => ?_⟩
  · obtain ⟨⟨-, hiff⟩, -⟩ := cutClauses_keepClass "SELECT a FROM t /* n */ FINAL WHERE a = 1"
    exact (hiff (by decide +kernel)).mpr (by decide +kernel)
  · obtain ⟨⟨-, hiff⟩, -⟩ := cutClauses_keepClass "SELECT a FROM t -- n\nFINAL WHERE a = 1"
    obtain ⟨hedges, -⟩ := (hiff (by decide +kernel)).mp hlost
    exact absurd hedges (by decide +kernel)
  · obtain ⟨-, -, hiff⟩ :=
      cutClauses_keepClass "SELECT x FROM t ARRAY JOIN [1, 2] AS x WHERE x > 1"
    exact ((hiff (by decide +kernel)).1 (by decide +kernel)).1 (by decide +kernel)
  · obtain ⟨-, -, hiff⟩ :=
      cutClauses_keepClass "SELECT x FROM t -- n\nARRAY JOIN [1] AS x WHERE x > 1"
    have hedges := ((hiff (by decide +kernel)).2 (by decide +kernel) (by decide +kernel)).mp hlost
    exact absurd hedges (by decide +kernel)

end QueryBridge
