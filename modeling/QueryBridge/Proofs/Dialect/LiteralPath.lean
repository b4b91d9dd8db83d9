import Mathlib.Data.List.Induction
import QueryBridge.Dialect.JsonPath
import QueryBridge.Proofs.Lexical.Literal
import QueryBridge.Proofs.Text.Decimal

/-!
# Paths along keys that are known

A path whose keys are all names and positions is a single literal. From the left, a backslash before
a double quote may belong to a name or end it, and only the rest of the path tells. From the right
there is no such doubt: a name with a quote in it has a backslash before that quote, and the quote
that opens a name stands behind a point. So the last key of a path can be read off its end, and no
list of keys leads along the path of another.
-/

namespace QueryBridge

open Text

/-- What stands before and behind the last occurrence of a byte. -/
theorem append_cons_inj_of_last {b : UInt8} {first second behind rest : Text}
    (hbehind : b ∉ behind) (hrest : b ∉ rest)
    (h : first ++ b :: behind = second ++ b :: rest) : first = second ∧ behind = rest := by
  rcases List.append_eq_append_iff.mp h with ⟨middle, rfl, hmiddle⟩ | ⟨middle, rfl, hmiddle⟩
  · cases middle with
    | nil => exact ⟨by simp, (List.cons.inj hmiddle).2⟩
    | cons c middle =>
      rw [(List.cons.inj hmiddle).2] at hbehind
      simp at hbehind
  · cases middle with
    | nil => exact ⟨by simp, (List.cons.inj hmiddle).2.symm⟩
    | cons c middle =>
      rw [(List.cons.inj hmiddle).2] at hrest
      simp at hrest

/-- Whether a name stands in a path as it is: it is not empty and consists of identifier bytes. -/
def Text.IsPlainName (name : Text) : Prop := name ≠ [] ∧ ∀ b ∈ name, Byte.isIdent b = true

instance (name : Text) : Decidable name.IsPlainName :=
  inferInstanceAs (Decidable (name ≠ [] ∧ ∀ b ∈ name, Byte.isIdent b = true))

namespace PathKey

/-- A name with a backslash before each double quote. -/
def escaped (name : Text) : Text :=
  replaceByte Byte.doubleQuote [Byte.backslash, Byte.doubleQuote] name

/-- What stands between the brackets of a position. -/
def positionBody (index : Int) : Text :=
  if 0 < index then ofInt (index - 1)
  else if index < 0 then Byte.hash :: ofInt index
  else [Byte.hash]

theorem fieldSegment_of_plain {name : Text} (h : name.IsPlainName) :
    fieldSegment name = Byte.dot :: name := by
  have hplain : (!name.isEmpty && name.all Byte.isIdent) = true := by
    simpa [IsPlainName, List.all_eq_true] using h
  rw [fieldSegment, if_pos hplain]
  rfl

theorem fieldSegment_of_not_plain {name : Text} (h : ¬name.IsPlainName) :
    fieldSegment name = Byte.dot :: Byte.doubleQuote :: (escaped name ++ [Byte.doubleQuote]) := by
  have hplain : ¬(!name.isEmpty && name.all Byte.isIdent) = true := by
    intro hall
    exact h (by simpa [IsPlainName, List.all_eq_true] using hall)
  rw [fieldSegment, if_neg hplain]
  rfl

theorem positionSegment_eq (index : Int) :
    positionSegment index = Byte.openBracket :: (positionBody index ++ [Byte.closeBracket]) := by
  unfold positionSegment positionBody
  split
  · rfl
  · split <;> rfl

@[simp] theorem escaped_nil : escaped [] = [] := rfl

/-- The byte before a quote of a name is a backslash. -/
theorem escaped_concat (name : Text) (b : UInt8) :
    escaped (name ++ [b]) =
      escaped name ++ (if b = Byte.doubleQuote then [Byte.backslash] else []) ++ [b] := by
  rw [escaped, replaceByte_append, replaceByte_cons, escaped, List.append_assoc]
  split
  next hb => simp [hb, replaceByte]
  next => simp [replaceByte]

/-- The quote that opens a name is the last one without a backslash before it. -/
theorem escaped_append_inj {name other first second : Text}
    (h : first ++ [Byte.dot] ++ [Byte.doubleQuote] ++ escaped name =
      second ++ [Byte.dot] ++ [Byte.doubleQuote] ++ escaped other) :
    first = second ∧ name = other := by
  -- Where one name begins, the other one cannot go on: there is a point before the opening quote,
  -- and a backslash before a quote within a name.
  have hopening {front back init : Text} {b : UInt8}
      (h : front ++ [Byte.dot] ++ [Byte.doubleQuote] =
        back ++ escaped (init ++ [b])) : False := by
    rw [escaped_concat, ← List.append_assoc] at h
    obtain ⟨hfront, hb⟩ := List.append_inj' h rfl
    obtain rfl := (List.cons.inj hb).1
    rw [if_pos rfl, ← List.append_assoc] at hfront
    exact absurd (List.append_inj' hfront rfl).2 (by decide)
  induction name using List.reverseRecOn generalizing other with
  | nil =>
    rw [escaped_nil, List.append_nil] at h
    rcases eq_nil_or_snoc other with rfl | ⟨init, b, rfl⟩
    · rw [escaped_nil, List.append_nil] at h
      exact ⟨List.append_cancel_right (List.append_cancel_right h), rfl⟩
    · exact (hopening h).elim
  | append_singleton name b ih =>
    rcases eq_nil_or_snoc other with rfl | ⟨other, c, rfl⟩
    · rw [escaped_nil, List.append_nil] at h
      exact (hopening h.symm).elim
    · rw [escaped_concat, escaped_concat, ← List.append_assoc, ← List.append_assoc _ _ [c]] at h
      obtain ⟨hinit, hbc⟩ := List.append_inj' h rfl
      obtain rfl := (List.cons.inj hbc).1
      rw [← List.append_assoc, ← List.append_assoc] at hinit
      obtain ⟨hfirst, hname⟩ := ih (List.append_cancel_right hinit)
      exact ⟨hfirst, by rw [hname]⟩

/-- There is no bracket between the brackets of a position. -/
theorem notMem_positionBody (index : Int) : Byte.openBracket ∉ positionBody index := by
  have hint (n : Int) : Byte.openBracket ∉ ofInt n := notMem_ofInt (by decide) (by decide)
  unfold positionBody
  split
  · exact hint _
  · split
    · exact List.not_mem_cons_of_ne_of_not_mem (by decide) (hint _)
    · decide

/-- A position is known by what stands between its brackets. -/
theorem positionBody_inj {index other : Int} (h : positionBody index = positionBody other) :
    index = other := by
  have hpos {n : Int} (hn : 0 < n) : positionBody n = ofInt (n - 1) := if_pos hn
  have hrest {n : Int} (hn : n ≤ 0) : ∃ rest, positionBody n = Byte.hash :: rest ∧
      (rest = ofInt n ∧ n < 0 ∨ rest = [] ∧ n = 0) := by
    rw [positionBody, if_neg (by omega)]
    split
    next hneg => exact ⟨_, rfl, Or.inl ⟨rfl, hneg⟩⟩
    next => exact ⟨[], rfl, Or.inr ⟨rfl, by omega⟩⟩
  have hhash {n : Int} {rest : Text} (heq : ofInt n = Byte.hash :: rest) : False :=
    @notMem_ofInt n Byte.hash (by decide) (by decide) (heq ▸ List.mem_cons_self)
  rcases Int.lt_or_le 0 index with hindex | hindex <;>
    rcases Int.lt_or_le 0 other with hother | hother
  · rw [hpos hindex, hpos hother] at h
    have := ofInt_inj.mp h
    omega
  · obtain ⟨rest, hbody, -⟩ := hrest hother
    rw [hpos hindex, hbody] at h
    exact (hhash h).elim
  · obtain ⟨rest, hbody, -⟩ := hrest hindex
    rw [hpos hother, hbody] at h
    exact (hhash h.symm).elim
  · obtain ⟨rest, hbody, hcase⟩ := hrest hindex
    obtain ⟨behind, hbehind, hsame⟩ := hrest hother
    rw [hbody, hbehind] at h
    obtain rfl := (List.cons.inj h).2
    rcases hcase with ⟨hspelled, -⟩ | ⟨hnil, rfl⟩ <;> rcases hsame with ⟨hsame, -⟩ | ⟨hsame, rfl⟩
    · exact ofInt_inj.mp (hspelled.symm.trans hsame)
    · exact absurd (hspelled.symm.trans hsame) (ofInt_ne_nil _)
    · exact absurd (hsame.symm.trans hnil) (ofInt_ne_nil _)
    · rfl

/-- The stretch of a path that a key known in advance makes. -/
def segment : PathKey → Text
  | .field name => fieldSegment name
  | .position index => positionSegment index
  | .dynamic _ => []

/-- Whether a key is known in advance. -/
def IsKnown : PathKey → Prop
  | .dynamic _ => False
  | _ => True

instance decidableIsKnown : (key : PathKey) → Decidable key.IsKnown
  | .dynamic _ => .isFalse id
  | .field _ => .isTrue trivial
  | .position _ => .isTrue trivial

/-- A name ends in an identifier byte if it stands in the path as it is, and in a quote if not. -/
theorem getLast?_fieldSegment (name : Text) :
    (name.IsPlainName ∧ (fieldSegment name).getLast?.any Byte.isIdent = true) ∨
      (¬name.IsPlainName ∧ (fieldSegment name).getLast? = some Byte.doubleQuote) := by
  by_cases h : name.IsPlainName
  · refine Or.inl ⟨h, ?_⟩
    rw [fieldSegment_of_plain h, List.getLast?_cons_of_ne_nil h.1,
      List.getLast?_eq_some_getLast h.1]
    exact h.2 _ (List.getLast_mem h.1)
  · refine Or.inr ⟨h, ?_⟩
    rw [fieldSegment_of_not_plain h, ← List.cons_append, ← List.cons_append, List.getLast?_concat]

theorem getLast?_positionSegment (index : Int) :
    (positionSegment index).getLast? = some Byte.closeBracket := by
  rw [positionSegment_eq, ← List.cons_append, List.getLast?_concat]

/-- A field does not end as a position does. -/
theorem getLast?_fieldSegment_ne (name : Text) (index : Int) :
    (fieldSegment name).getLast? ≠ (positionSegment index).getLast? := by
  rw [getLast?_positionSegment]
  intro h
  rcases getLast?_fieldSegment name with ⟨-, hend⟩ | ⟨-, hend⟩
  · rw [h] at hend
    exact absurd hend (by decide)
  · rw [h] at hend
    exact absurd hend (by decide)

theorem segment_ne_nil {key : PathKey} (h : key.IsKnown) : key.segment ≠ [] := by
  cases key with
  | field name =>
    rcases getLast?_fieldSegment name with ⟨-, hend⟩ | ⟨-, hend⟩ <;>
      exact fun hnil => by simp [show fieldSegment name = [] from hnil] at hend
  | position index =>
    exact fun hnil => by simp [segment, positionSegment_eq] at hnil
  | dynamic expression => exact h.elim

/-- A plain name reaches back to the last point. -/
theorem append_plainName_inj {name other first second : Text} (hname : name.IsPlainName)
    (hother : other.IsPlainName) (h : first ++ fieldSegment name = second ++ fieldSegment other) :
    first = second ∧ name = other := by
  have hdot {name : Text} (h : name.IsPlainName) : Byte.dot ∉ name := fun hmem =>
    absurd (h.2 _ hmem) (by decide)
  rw [fieldSegment_of_plain hname, fieldSegment_of_plain hother] at h
  exact append_cons_inj_of_last (hdot hname) (hdot hother) h

theorem append_quotedName_inj {name other first second : Text} (hname : ¬name.IsPlainName)
    (hother : ¬other.IsPlainName) (h : first ++ fieldSegment name = second ++ fieldSegment other) :
    first = second ∧ name = other := by
  rw [fieldSegment_of_not_plain hname, fieldSegment_of_not_plain hother] at h
  have hquoted : first ++ [Byte.dot] ++ [Byte.doubleQuote] ++ escaped name ++ [Byte.doubleQuote] =
      second ++ [Byte.dot] ++ [Byte.doubleQuote] ++ escaped other ++ [Byte.doubleQuote] := by
    simpa using h
  exact escaped_append_inj (List.append_cancel_right hquoted)

theorem append_position_inj {index other : Int} {first second : Text}
    (h : first ++ positionSegment index = second ++ positionSegment other) :
    first = second ∧ index = other := by
  rw [positionSegment_eq, positionSegment_eq, ← List.cons_append, ← List.cons_append,
    ← List.append_assoc, ← List.append_assoc] at h
  obtain ⟨hfirst, hbody⟩ := append_cons_inj_of_last (notMem_positionBody index)
    (notMem_positionBody other) (List.append_cancel_right h)
  exact ⟨hfirst, positionBody_inj hbody⟩

/-- The last key of a path is read off the end of the path. -/
theorem append_segment_inj {first second : Text} {key other : PathKey} (hkey : key.IsKnown)
    (hother : other.IsKnown) (h : first ++ key.segment = second ++ other.segment) :
    first = second ∧ key = other := by
  have hlast : key.segment.getLast? = other.segment.getLast? := by
    rw [← List.getLast?_append_of_ne_nil first (segment_ne_nil hkey), h,
      List.getLast?_append_of_ne_nil second (segment_ne_nil hother)]
  cases key with
  | field name =>
    cases other with
    | field other =>
      simp only [segment] at h hlast
      rcases getLast?_fieldSegment name with ⟨hname, hend⟩ | ⟨hname, hend⟩ <;>
        rcases getLast?_fieldSegment other with ⟨hother, hstop⟩ | ⟨hother, hstop⟩
      · obtain ⟨hfirst, rfl⟩ := append_plainName_inj hname hother h
        exact ⟨hfirst, rfl⟩
      · rw [hlast, hstop] at hend
        exact absurd hend (by decide)
      · rw [← hlast, hend] at hstop
        exact absurd hstop (by decide)
      · obtain ⟨hfirst, rfl⟩ := append_quotedName_inj hname hother h
        exact ⟨hfirst, rfl⟩
    | position index => exact absurd hlast (getLast?_fieldSegment_ne name index)
    | dynamic expression => exact hother.elim
  | position index =>
    cases other with
    | field other => exact absurd hlast.symm (getLast?_fieldSegment_ne other index)
    | position other =>
      obtain ⟨hfirst, rfl⟩ := append_position_inj h
      exact ⟨hfirst, rfl⟩
    | dynamic expression => exact hother.elim
  | dynamic expression => exact hkey.elim

/-- The keys of a path are read off it from the end. -/
theorem flatMap_segment_inj {keys others : List PathKey} (hkeys : ∀ key ∈ keys, key.IsKnown)
    (hothers : ∀ key ∈ others, key.IsKnown)
    (h : keys.flatMap segment = others.flatMap segment) : keys = others := by
  induction keys using List.reverseRecOn generalizing others with
  | nil =>
    cases others with
    | nil => rfl
    | cons other others =>
      rw [List.flatMap_nil, List.flatMap_cons, eq_comm, List.append_eq_nil_iff] at h
      exact absurd h.1 (segment_ne_nil (hothers other List.mem_cons_self))
  | append_singleton keys key ih =>
    simp only [List.forall_mem_append, List.forall_mem_singleton] at hkeys
    rcases List.eq_nil_or_concat others with rfl | ⟨others, other, rfl⟩
    · rw [List.flatMap_append, List.flatMap_singleton, List.flatMap_nil,
        List.append_eq_nil_iff] at h
      exact absurd h.2 (segment_ne_nil hkeys.2)
    · simp only [List.concat_eq_append, List.forall_mem_append, List.forall_mem_singleton,
        List.flatMap_append, List.flatMap_singleton] at hothers h ⊢
      obtain ⟨hfront, rfl⟩ := append_segment_inj hkeys.2 hothers.2 h
      rw [ih hkeys.1 hothers.1 hfront]

end PathKey

/-- A path along known keys is the literal of their segments. -/
theorem pathPieces_of_known {known : Text} {keys : List PathKey} (h : ∀ key ∈ keys, key.IsKnown) :
    pathPieces known keys = literalPiece (known ++ keys.flatMap PathKey.segment) := by
  induction keys generalizing known with
  | nil => rw [pathPieces, List.flatMap_nil, List.append_nil]
  | cons key keys ih =>
    obtain ⟨hkey, hkeys⟩ := List.forall_mem_cons.mp h
    cases key with
    | field name => rw [pathPieces, ih hkeys, List.flatMap_cons, PathKey.segment, List.append_assoc]
    | position index =>
      rw [pathPieces, ih hkeys, List.flatMap_cons, PathKey.segment, List.append_assoc]
    | dynamic expression => exact hkey.elim

/-- A key that an author spells out: the name of a field, or a position of 64 bits. -/
inductive LiteralKey where
  /-- The name of a field. -/
  | field (name : Text)
  /-- The position of an element. -/
  | position (index : Int64)
deriving DecidableEq

namespace LiteralKey

/-- How a key is spelled: a name as a literal, a position in decimal. -/
def spelling : LiteralKey → Text
  | field name => quoteLiteral name
  | position index => ofInt index.toInt

/-- The key that is meant. -/
def key : LiteralKey → PathKey
  | field name => .field name
  | position index => .position index.toInt

theorem isKnown_key (literal : LiteralKey) : literal.key.IsKnown := by
  cases literal <;> trivial

theorem key_injective : Function.Injective key := by
  intro first second h
  cases first <;> cases second <;> simp_all [key, Int64.toInt_inj]

/-- What is spelled is what is meant. -/
theorem ofText_spelling (literal : LiteralKey) : PathKey.ofText literal.spelling = literal.key := by
  cases literal with
  | field name => rw [PathKey.ofText, spelling, unquoteLiteral?_literal, key]
  | position index =>
    have hfiller : ∀ b ∈ ofInt index.toInt, Byte.isFiller b = false := by
      intro b hb
      rcases isDigit_of_mem_ofInt hb with hdigit | rfl
      · exact Byte.isFiller_of_isDigit hdigit
      · decide
    have htrim : trim (ofInt index.toInt) = ofInt index.toInt :=
      trim_eq_self (fun b hb => hfiller b (List.mem_of_mem_head? hb))
        fun b hb => hfiller b (List.mem_of_getLast? hb)
    have hquote : unquoteLiteral? (ofInt index.toInt) = none := by
      refine unquoteLiteral?_of_head? fun hhead => ?_
      rw [htrim] at hhead
      exact notMem_ofInt (by decide) (by decide) (List.mem_of_mem_head? hhead)
    have hsigned : isSigned index.toInt = true := by
      have hleast := index.le_toInt
      have hgreatest : index.toInt ≤ 2 ^ 63 - 1 := Int.le_sub_one_of_lt index.toInt_lt
      exact Bool.and_eq_true_iff.mpr ⟨decide_eq_true hleast, decide_eq_true hgreatest⟩
    rw [PathKey.ofText, spelling, hquote, htrim, toWord?_ofInt hsigned, key]

end LiteralKey

/-- The path of known keys is a literal. -/
theorem jsonPath_of_known {arguments : List Text} {keys : List PathKey}
    (hkeys : arguments.map PathKey.ofText = keys) (h : ∀ key ∈ keys, key.IsKnown) :
    jsonPath arguments = quoteLiteral ("$" ++ keys.flatMap PathKey.segment) := by
  have hnonempty (rest : Text) : literalPiece ("$" ++ rest) = [quoteLiteral ("$" ++ rest)] := rfl
  rw [jsonPath, hkeys, pathPieces_of_known h, hnonempty]

/-- A path of known keys tells its keys: two lists of names and positions have the same path only
if they are equal, whatever quotes, backslashes, points and brackets the names hold. -/
theorem jsonPath_literal_inj (keys others : List LiteralKey) :
    jsonPath (keys.map LiteralKey.spelling) = jsonPath (others.map LiteralKey.spelling) ↔
      keys = others := by
  have hpath (keys : List LiteralKey) : jsonPath (keys.map LiteralKey.spelling) =
      quoteLiteral ("$" ++ (keys.map LiteralKey.key).flatMap PathKey.segment) := by
    refine jsonPath_of_known ?_ ?_
    · simp [LiteralKey.ofText_spelling]
    · simp [LiteralKey.isKnown_key]
  refine ⟨fun h => ?_, fun h => by rw [h]⟩
  rw [hpath, hpath] at h
  have hsame := congrArg unquoteLiteral? h
  rw [unquoteLiteral?_literal, unquoteLiteral?_literal] at hsame
  have hsegments := List.append_cancel_left (Option.some.inj hsame)
  have hkeys := PathKey.flatMap_segment_inj (by simp [LiteralKey.isKnown_key])
    (by simp [LiteralKey.isKnown_key]) hsegments
  exact List.map_injective_iff.mpr LiteralKey.key_injective hkeys

end QueryBridge
