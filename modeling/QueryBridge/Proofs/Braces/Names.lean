import QueryBridge.Proofs.Braces.Code
import QueryBridge.Proofs.Braces.Replacement
import QueryBridge.Proofs.Conversion.TableName

/-!
# Names renamed around placeholders

Renaming tables and naming tuple positions look at the glyphs of a run of code. No brace belongs to
what they look for, so they treat the stretches between braces one by one. A run of code holds a
group as a whole or not at all.
-/

namespace QueryBridge

open Text

variable {bodies : List Text} {text : Text}

section Runs

namespace Run

/-- Bytes of one class make a run, or lengthen the first one. -/
theorem foldr_cons (isCode : Bool) {piece : Text} (hne : piece ≠ []) (runs : List Run) :
    piece.foldr (cons isCode) runs = ⟨isCode, piece⟩ :: runs ∨
      ∃ first others, runs = first :: others ∧
        piece.foldr (cons isCode) runs = ⟨isCode, piece ++ first.text⟩ :: others := by
  induction piece with
  | nil => exact absurd rfl hne
  | cons b piece ih =>
    cases piece with
    | nil =>
      cases runs with
      | nil => exact Or.inl rfl
      | cons first others =>
        by_cases hsame : first.isCode = isCode
        · exact Or.inr ⟨first, others, rfl, by simp [cons, hsame]⟩
        · exact Or.inl (by simp [cons, hsame])
    | cons c piece =>
      rw [List.foldr_cons]
      rcases ih (List.cons_ne_nil _ _) with hnew | ⟨first, others, rfl, hlonger⟩
      · exact Or.inl (by simp [hnew, cons])
      · exact Or.inr ⟨first, others, rfl, by simp [hlonger, cons]⟩

/-- The runs of a text that starts with steady bytes. -/
theorem ofText_of_isSteady {run : Text} (hrun : ∀ b ∈ run, Byte.isSteady b = true) {mode : Mode}
    {rest : Text} (h : mode.Admits (run ++ rest).head?) :
    ofText mode (run ++ rest) = run.foldr (cons (decide (mode = .code))) (ofText mode rest) ∧
      mode.Admits rest.head? := by
  induction run with
  | nil => exact ⟨rfl, h⟩
  | cons b run ih =>
    obtain ⟨hb, hrun⟩ := List.forall_mem_cons.mp hrun
    obtain ⟨hstep, hshows⟩ := Mode.step_of_isSteady hb h (run ++ rest).head?
    have hadmits := Mode.Admits.step h (run ++ rest).head?
    rw [hstep] at hadmits
    obtain ⟨hlater, hrest⟩ := ih hrun hadmits
    have hclass : mode.shows b (run ++ rest).head? = decide (mode = .code) := by
      rw [Bool.eq_iff_iff, hshows, decide_eq_true_eq]
    refine ⟨?_, hrest⟩
    rw [List.cons_append, ofText, hstep, hlater, hclass, List.foldr_cons]

/-- A run holds a group as a whole or not at all. -/
theorem braced_ofText (h : Braced bodies text) {mode : Mode} (hadmits : mode.Admits text.head?) :
    ∀ run ∈ ofText mode text, Braced bodies run.text := by
  have hjoined (isCode : Bool) {piece : Text} (hpiece : Piece bodies piece) {runs : List Run}
      (hruns : ∀ run ∈ runs, Braced bodies run.text) :
      ∀ run ∈ piece.foldr (cons isCode) runs, Braced bodies run.text := by
    obtain ⟨b, tail, rfl, -⟩ := hpiece.exists_cons
    rcases foldr_cons isCode (List.cons_ne_nil b tail) runs with hnew | ⟨first, others, rfl, hlonger⟩
    · rw [hnew]
      exact List.forall_mem_cons.mpr ⟨.of_piece hpiece, hruns⟩
    · rw [hlonger]
      obtain ⟨hfirst, hothers⟩ := List.forall_mem_cons.mp hruns
      exact List.forall_mem_cons.mpr ⟨.cons hpiece hfirst, hothers⟩
  induction h generalizing mode with
  | nil => simp [ofText]
  | @cons piece rest hpiece hrest ih =>
    have hsteady (hrun : ∀ b ∈ piece, Byte.isSteady b = true) :
        ∀ run ∈ ofText mode (piece ++ rest), Braced bodies run.text := by
      obtain ⟨hruns, hlater⟩ := ofText_of_isSteady hrun hadmits
      rw [hruns]
      exact hjoined _ hpiece (ih hlater)
    cases hpiece with
    | @free b hb =>
      have hlater := ih (Mode.Admits.step hadmits rest.head?)
      exact hjoined (mode.shows b rest.head?) (.free hb) hlater
    | wide hlead hrest =>
      exact hsteady fun b hb => Byte.isSteady_of_le (Byte.le_of_wide hlead hrest b hb)
    | group hmem hinert => exact hsteady hinert.isSteady

end Run

theorem Text.Braced.flatMap {α : Type} {items : List α} {f : α → Text}
    (h : ∀ item ∈ items, Braced bodies (f item)) : Braced bodies (items.flatMap f) := by
  induction items with
  | nil => exact .nil
  | cons item items ih =>
    obtain ⟨hitem, hitems⟩ := List.forall_mem_cons.mp h
    exact hitem.append (ih hitems)

/-- What keeps the braces of every run of code keeps those of the text. -/
theorem Text.Braced.mapCode {f : Text → Text}
    (hf : ∀ {code : Text}, Braced bodies code → Braced bodies (f code)) (h : Braced bodies text) :
    Braced bodies (text.mapCode f) := by
  refine Braced.flatMap fun run hrun => ?_
  have hbraced := Run.braced_ofText h (by trivial : Mode.code.Admits text.head?) run hrun
  split
  · exact hf hbraced
  · exact hbraced

end Runs

section Glyphs

/-- A brace is no part of a name. -/
theorem Glyph.not_isWord_of_brace : ∀ b ∈ [Byte.openBrace, Byte.closeBrace],
    Glyph.isWord [b] = false ∧ Glyph.isIdent [b] = false ∧ Glyph.isIdentStart [b] = false := by
  decide

theorem Text.Piece.glyphs_eq {piece : Text} (h : Piece [] piece) : glyphs piece = [piece] := by
  cases h with
  | free => rfl
  | wide hlead hrest => exact glyphs_wide _ hrest
  | group hmem => simp at hmem

/-- A rewriting of glyphs that treats what stands before a brace and what stands behind it one by
one, and puts in no brace where there is none. -/
structure Separable (rewrite : List Glyph → Text) : Prop where
  brace : ∀ b ∈ [Byte.openBrace, Byte.closeBrace], ∀ first rest : List Glyph,
    rewrite (first ++ [b] :: rest) = rewrite first ++ b :: rewrite rest
  plain : ∀ {text : Text}, Braced [] text → Braced [] (rewrite (glyphs text))

/-- Such a rewriting keeps the placeholders whose texts it leaves alone. -/
theorem Separable.braced {rewrite : List Glyph → Text} (h : Separable rewrite)
    (hbodies : ∀ body ∈ bodies, rewrite (glyphs body) = body) (htext : Braced bodies text) :
    Braced bodies (rewrite (glyphs text)) := by
  -- What has been read since the last group is rewritten as one stretch.
  have hbehind {stretch : Text} (hstretch : Braced [] stretch) :
      Braced bodies (rewrite (glyphs stretch ++ glyphs text)) := by
    induction htext generalizing stretch with
    | nil => simpa [glyphs] using (h.plain hstretch).lift
    | @cons piece rest hpiece hrest ih =>
      have hlonger (hpiece : Piece [] piece) :
          Braced bodies (rewrite (glyphs stretch ++ glyphs (piece ++ rest))) := by
        rw [hrest.glyphs_append, ← List.append_assoc,
          ← (Braced.of_piece hpiece).glyphs_append]
        exact ih (hstretch.append (.of_piece hpiece))
      cases hpiece with
      | free hb => exact hlonger (.free hb)
      | wide hlead hrest => exact hlonger (.wide hlead hrest)
      | @group body hmem hinert =>
        have hlater := ih .nil
        rw [hrest.glyphs_append, glyphs_inBraces hinert, List.cons_append, List.append_assoc,
          List.singleton_append, h.brace _ (by simp), h.brace _ (by simp), hbodies body hmem]
        have hgroup := Braced.cons (.group hmem hinert) hlater
        simpa [inBraces, glyphs] using (h.plain hstretch).lift.append hgroup
  exact hbehind .nil

end Glyphs

section Tables

variable {name : List Glyph}

theorem braced_renameGlyphs (hne : name ≠ []) {replacement : Text}
    (hreplacement : Braced [] replacement) (skip : Nat) (before : Bool) (h : Braced [] text) :
    Braced [] (renameGlyphs name replacement skip before (glyphs text)) := by
  induction h generalizing skip before with
  | nil => simpa [glyphs, renameGlyphs, hne] using Braced.nil
  | @cons piece rest hpiece hrest ih =>
    rw [hrest.glyphs_append, hpiece.glyphs_eq, List.singleton_append]
    cases skip with
    | succ skip => exact ih skip _
    | zero =>
      rw [renameGlyphs]
      split
      · exact .cons hpiece (ih 0 _)
      · split
        · exact (hreplacement.append (.of_piece hpiece)).append (ih 0 _)
        · exact hreplacement.append (ih _ _)

/-- An alias without braces, whose target is put together from whole characters. -/
structure IsBraceless (entry : Text × Text) : Prop where
  key : entry.1 ≠ []
  opening : Byte.openBrace ∉ entry.1
  closing : Byte.closeBrace ∉ entry.1
  target : Braced [] entry.2

theorem IsBraceless.separable {entry : Text × Text} (h : IsBraceless entry) :
    Separable (renameGlyphs (glyphs entry.1) entry.2 0 false) where
  brace b hb first rest := by
    have hname : [b] ∉ glyphs entry.1 := fun hmem => by
      have hbyte : b ∈ entry.1 := by
        rw [← glyphs_flatten entry.1]
        exact List.mem_flatten_of_mem hmem List.mem_cons_self
      simp only [List.mem_cons, List.not_mem_nil, or_false] at hb
      rcases hb with rfl | rfl
      · exact h.opening hbyte
      · exact h.closing hbyte
    have hword := (Glyph.not_isWord_of_brace b hb).1
    have hne : glyphs entry.1 ≠ [] := fun hnil => h.key (glyphs_inj.mp hnil)
    exact renameGlyphs_append hne hname hword entry.2 (Nat.zero_le _) false rest
  plain htext :=
    braced_renameGlyphs (fun hnil => h.key (glyphs_inj.mp hnil)) h.target 0 false htext

/-- Renaming tables keeps the placeholders in which no alias renames anything. -/
theorem Text.Braced.renameTables {aliases : Keyed Text}
    (haliases : ∀ entry ∈ aliases, IsBraceless entry ∧ ∀ body ∈ bodies, renameIn body entry = body)
    (h : Braced bodies text) : Braced bodies (renameTables aliases text) :=
  h.mapCode fun hcode => List.foldlRecOn aliases _ hcode fun _ hbraced entry hentry =>
    (haliases entry hentry).1.separable.braced (haliases entry hentry).2 hbraced

end Tables

section Tuples

theorem tupleField?_cons_cons (dot digit : Glyph) (rest : List Glyph) :
    tupleField? (dot :: digit :: rest) =
      if dot = [Byte.dot] ∧ rest.head?.any Glyph.isWord = false then
        if digit = [49] then some ("key" : Text)
        else if digit = [50] then some ("value" : Text)
        else none
      else none := by
  unfold tupleField?
  split
  next digit rest heq =>
    obtain ⟨rfl, htail⟩ := List.cons.inj heq
    obtain ⟨rfl, rfl⟩ := List.cons.inj htail
    cases rest.head?.any Glyph.isWord <;> simp
  next hother =>
    have hdigit (d : UInt8) (hdot : dot = [Byte.dot]) : digit ≠ [d] := by
      rintro rfl
      exact hother d rest (by rw [hdot]; rfl)
    grind

/-- The position selected at a place is told before the next brace. -/
theorem tupleField?_append {b : UInt8} (hb : b ∈ [Byte.openBrace, Byte.closeBrace])
    (first rest : List Glyph) : tupleField? (first ++ [b] :: rest) = tupleField? first := by
  have hword := (Glyph.not_isWord_of_brace b hb).1
  obtain ⟨hdot, hkey, hvalue⟩ : [b] ≠ [Byte.dot] ∧ [b] ≠ [49] ∧ [b] ≠ [50] := by
    revert b
    decide
  rcases first with _ | ⟨dot, _ | ⟨digit, first⟩⟩
  · cases rest with
    | nil => simp [tupleField?]
    | cons digit rest => rw [List.nil_append, tupleField?_cons_cons, if_neg (by simp [hdot])]; rfl
  · rw [List.cons_append, List.nil_append, tupleField?_cons_cons, if_neg hkey, if_neg hvalue,
      ite_self]
    simp [tupleField?]
  · have hhead : (first ++ [b] :: rest).head?.any Glyph.isWord = first.head?.any Glyph.isWord := by
      cases first <;> simp [hword]
    rw [List.cons_append, List.cons_append, tupleField?_cons_cons, tupleField?_cons_cons, hhead]

theorem takeWhile_append_brace {b : UInt8} (hb : b ∈ [Byte.openBrace, Byte.closeBrace])
    (first rest : List Glyph) :
    (first ++ [b] :: rest).takeWhile Glyph.isIdent = first.takeWhile Glyph.isIdent ∧
      (first ++ [b] :: rest).dropWhile Glyph.isIdent =
        first.dropWhile Glyph.isIdent ++ [b] :: rest := by
  obtain ⟨-, hident, -⟩ := Glyph.not_isWord_of_brace b hb
  induction first with
  | nil => simp [hident]
  | cons glyph first ih =>
    simp only [List.cons_append, List.takeWhile_cons, List.dropWhile_cons]
    split
    · exact ⟨congrArg (glyph :: ·) ih.1, ih.2⟩
    · exact ⟨rfl, rfl⟩

theorem tupleAccess?_append {b : UInt8} (hb : b ∈ [Byte.openBrace, Byte.closeBrace])
    (before : Bool) (first rest : List Glyph) :
    tupleAccess? before (first ++ [b] :: rest) = tupleAccess? before first := by
  obtain ⟨htake, hdrop⟩ := takeWhile_append_brace hb first rest
  have hstart : (first ++ [b] :: rest).head?.any Glyph.isIdentStart =
      first.head?.any Glyph.isIdentStart := by
    cases first with
    | nil => exact (Glyph.not_isWord_of_brace b hb).2.2
    | cons => rfl
  rw [tupleAccess?, tupleAccess?, hstart, htake, hdrop, tupleField?_append hb]

/-- A position is selected by a dot and a digit behind a name. -/
theorem exists_of_tupleAccess? {before : Bool} {glyphs : List Glyph} {access : List Glyph × Text}
    (h : tupleAccess? before glyphs = some access) :
    ∃ digit rest, glyphs = access.1 ++ [Byte.dot] :: digit :: rest ∧
      (∀ glyph ∈ access.1, glyph.isIdent = true) ∧ (access.2 = "key" ∨ access.2 = "value") := by
  simp only [tupleAccess?, Option.ite_none_left_eq_some, Option.map_eq_some_iff] at h
  obtain ⟨-, field, hfield, rfl⟩ := h
  have hsplit := List.takeWhile_append_dropWhile (p := Glyph.isIdent) (l := glyphs)
  rcases hdrop : glyphs.dropWhile Glyph.isIdent with _ | ⟨dot, _ | ⟨digit, rest⟩⟩
  · simp [hdrop, tupleField?] at hfield
  · simp [hdrop, tupleField?] at hfield
  · rw [hdrop, tupleField?_cons_cons] at hfield
    split at hfield
    next hdot =>
      obtain ⟨rfl, -⟩ := hdot
      refine ⟨digit, rest, by rw [← hdrop, hsplit], fun _ => List.mem_takeWhile_imp, ?_⟩
      split at hfield
      · exact Or.inl (Option.some.inj hfield).symm
      · split at hfield
        · exact Or.inr (Option.some.inj hfield).symm
        · simp at hfield
    · simp at hfield

/-- Tuple positions are looked for on either side of a brace. -/
theorem nameTupleFields_append {b : UInt8} (hb : b ∈ [Byte.openBrace, Byte.closeBrace])
    {skip : Nat} {first : List Glyph} (hskip : skip ≤ first.length) (before : Bool)
    (rest : List Glyph) :
    nameTupleFields skip before (first ++ [b] :: rest) =
      nameTupleFields skip before first ++ b :: nameTupleFields 0 false rest := by
  induction first generalizing skip before with
  | nil =>
    obtain rfl : skip = 0 := by simpa using hskip
    have hnone : tupleAccess? before ([b] :: rest) = none := by
      have hsame := tupleAccess?_append hb before [] rest
      rw [List.nil_append] at hsame
      rw [hsame]
      simp [tupleAccess?]
    simp [nameTupleFields, hnone, (Glyph.not_isWord_of_brace b hb).1]
  | cons glyph first ih =>
    cases skip with
    | succ skip => exact ih (Nat.le_of_succ_le_succ hskip) _
    | zero =>
      have hsame := tupleAccess?_append hb before (glyph :: first) rest
      rw [List.cons_append] at hsame ⊢
      rw [nameTupleFields, nameTupleFields, hsame]
      cases haccess : tupleAccess? before (glyph :: first) with
      | none => simp [ih (Nat.zero_le _)]
      | some access =>
        obtain ⟨digit, behind, hglyphs, -⟩ := exists_of_tupleAccess? haccess
        have hlength : access.1.length + 1 ≤ first.length := by
          have := congrArg List.length hglyphs
          simp only [List.length_cons, List.length_append] at this
          omega
        simp [ih hlength]

theorem braced_nameTupleFields (skip : Nat) (before : Bool) (h : Braced [] text) :
    Braced [] (nameTupleFields skip before (glyphs text)) := by
  induction h generalizing skip before with
  | nil => exact .nil
  | @cons piece rest hpiece hrest ih =>
    rw [hrest.glyphs_append, hpiece.glyphs_eq, List.singleton_append]
    cases skip with
    | succ skip => exact ih skip _
    | zero =>
      rw [nameTupleFields]
      split
      · exact .cons hpiece (ih 0 _)
      next name field haccess =>
        obtain ⟨digit, behind, -, hname, hfield⟩ := exists_of_tupleAccess? haccess
        have hident : Braced [] name.flatten := .of_ident fun b hb => by
          obtain ⟨glyph, hglyph, hmem⟩ := List.mem_flatten.mp hb
          have hall := hname glyph hglyph
          rw [Glyph.isIdent, Bool.and_eq_true, List.all_eq_true] at hall
          exact hall.2 b hmem
        have hbehind : field.isFree = true := by
          rcases hfield with rfl | rfl <;> decide
        have hdot : (ofString ".").isFree = true := by decide
        exact ((hident.append (.of_isFree hdot)).append (.of_isFree hbehind)).append (ih _ _)

/-- Without a dot nothing is selected. -/
theorem nameTupleFields_of_not_mem {gs : List Glyph} (h : [Byte.dot] ∉ gs) (before : Bool) :
    nameTupleFields 0 before gs = gs.flatten := by
  induction gs generalizing before with
  | nil => rfl
  | cons glyph gs ih =>
    have hnone : tupleAccess? before (glyph :: gs) = none := by
      by_contra hsome
      obtain ⟨access, haccess⟩ := Option.ne_none_iff_exists'.mp hsome
      obtain ⟨digit, rest, hglyphs, -⟩ := exists_of_tupleAccess? haccess
      exact h (hglyphs ▸ by simp)
    simp only [List.mem_cons, not_or] at h
    simp only [nameTupleFields, hnone, ih h.2, List.flatten_cons]

theorem separable_nameTupleFields : Separable (nameTupleFields 0 false) where
  brace _ hb first rest := nameTupleFields_append hb (Nat.zero_le first.length) false rest
  plain h := braced_nameTupleFields 0 false h

/-- A placeholder declares without a dot, so no position is selected in it. -/
theorem Text.Braced.nameTuples (hinert : ∀ body ∈ bodies, body.Inert)
    (h : Braced bodies text) :
    Braced bodies (text.mapCode fun code => nameTupleFields 0 false (glyphs code)) := by
  refine h.mapCode fun hcode => separable_nameTupleFields.braced (fun body hbody => ?_) hcode
  have hdot : [Byte.dot] ∉ glyphs body := fun hmem => by
    have hbyte : Byte.dot ∈ body := by
      rw [← glyphs_flatten body]
      exact List.mem_flatten_of_mem hmem List.mem_cons_self
    exact absurd ((hinert body hbody).bytes _ hbyte) (by decide)
  rw [nameTupleFields_of_not_mem hdot, glyphs_flatten]

end Tuples

end QueryBridge
