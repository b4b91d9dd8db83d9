import QueryBridge.Proofs.Braces.Code

/-!
# Searches that pass over placeholders

A search that counts brackets passes over a group, since its parentheses are nested. So a bracket
that closes one outside all groups is outside all groups, and so are the end of a clause and the
commas between arguments.
-/

namespace QueryBridge

open Text

variable {bodies : List Text} {text : Text}

section Searches

/-- The code in a group, `depth` parentheses inside it. -/
inductive Nested : Nat → List Cursor → Prop where
  | nil : Nested 0 []
  | byte {depth : Nat} {c : Cursor} {b : UInt8} {code : List Cursor} (hb : c.byte? = some b)
    (hbracket : Byte.isBracket b = false) (hcomma : b ≠ Byte.comma) (hcode : Nested depth code) :
    Nested depth (c :: code)
  | opening {depth : Nat} {c : Cursor} {code : List Cursor} (hb : c.byte? = some Byte.openParen)
    (hcode : Nested (depth + 1) code) : Nested depth (c :: code)
  | closing {depth : Nat} {c : Cursor} {code : List Cursor} (hb : c.byte? = some Byte.closeParen)
    (hcode : Nested depth code) : Nested (depth + 1) (c :: code)

theorem nested_along {depth offset : Nat} {before rest run : Text} (h : run.closes depth = true)
    (hrun : ∀ b ∈ run, Byte.isDeclarator b = true) :
    Nested depth (Cursor.along offset before rest run) := by
  induction run generalizing depth offset before with
  | nil =>
    obtain rfl : depth = 0 := by simpa [closes] using h
    exact .nil
  | cons b run ih =>
    obtain ⟨hb, hlater⟩ := List.forall_mem_cons.mp hrun
    unfold closes at h
    split at h
    next hopen =>
      obtain rfl : b = Byte.openParen := by simpa using hopen
      exact .opening rfl (ih h hlater)
    next hopen =>
      split at h
      next hclose =>
        obtain rfl : b = Byte.closeParen := by simpa using hclose
        split at h
        · simp at h
        · exact .closing rfl (ih h hlater)
      next hclose =>
        refine .byte rfl ?_ ?_ (ih h hlater)
        · exact Byte.isBracket_of_isDeclarator hb (by simpa using hopen) (by simpa using hclose)
        · rintro rfl
          exact absurd hb (by decide)

/-- The code of a group: its braces, and the code between them. -/
theorem along_inBraces (offset : Nat) (before rest body : Text) :
    Cursor.along offset before rest body.inBraces =
      ⟨offset, before, body.inBraces ++ rest⟩ ::
        (Cursor.along (offset + 1) (Byte.openBrace :: before) (Byte.closeBrace :: rest) body ++
          [⟨offset + 1 + body.length, body.reverse ++ Byte.openBrace :: before,
            Byte.closeBrace :: rest⟩]) := by
  have hsplit {offset : Nat} {before run : Text} :
      Cursor.along offset before rest (run ++ [Byte.closeBrace]) =
        Cursor.along offset before (Byte.closeBrace :: rest) run ++
          [⟨offset + run.length, run.reverse ++ before, Byte.closeBrace :: rest⟩] := by
    induction run generalizing offset before with
    | nil => rfl
    | cons b run ih => simp [Cursor.along, ih, Nat.add_assoc, Nat.add_comm 1]
  rw [inBraces, Cursor.along, hsplit]
  rfl

theorem Text.Inert.nested_along {body : Text} (h : body.Inert) (offset : Nat)
    (before rest : Text) : Nested 0 (Cursor.along offset before rest body) :=
  QueryBridge.nested_along h.nested h.bytes

section Steps

variable {c : Cursor} {code : List Cursor} {stops : List Text} {commaEnds : Bool} {depth : Nat}

theorem clauseStop_of_opening (h : c.byte?.any Byte.opensLevel = true) :
    clauseStop stops commaEnds depth (c :: code) = clauseStop stops commaEnds (depth + 1) code := by
  rw [clauseStop.eq_def]
  simp [h]

theorem clauseStop_of_closing (hopen : c.byte?.any Byte.opensLevel = false)
    (h : c.byte?.any Byte.closesLevel = true) :
    clauseStop stops commaEnds (depth + 1) (c :: code) = clauseStop stops commaEnds depth code := by
  rw [clauseStop.eq_def]
  simp [hopen, h]

theorem clauseStop_inside (hopen : c.byte?.any Byte.opensLevel = false)
    (hclose : c.byte?.any Byte.closesLevel = false) :
    clauseStop stops commaEnds (depth + 1) (c :: code) =
      clauseStop stops commaEnds (depth + 1) code := by
  rw [clauseStop.eq_def]
  simp [hopen, hclose]

theorem isBracket_byte? {b : UInt8} (hb : c.byte? = some b) (h : Byte.isBracket b = false) :
    c.byte?.any Byte.opensLevel = false ∧ c.byte?.any Byte.closesLevel = false := by
  rw [Byte.isBracket, Bool.or_eq_false_iff] at h
  simpa [hb] using h

theorem sees_of_byte? {b : UInt8} (hb : c.byte? = some b) (x : UInt8) :
    c.sees x = (b == x) := by
  simp [Cursor.sees, hb]

theorem lastAs_of_idle {found : Option Cursor} {b : UInt8} (h : c.Idle) (hb : c.byte? = some b)
    (hbracket : Byte.isBracket b = false ∨ b = Byte.openBrace ∨ b = Byte.closeBrace) :
    ArrayItem.lastAs found depth (c :: code) = ArrayItem.lastAs found depth code := by
  have hne {x : UInt8} (hx : Byte.isBracket x = true) (hopen : x ≠ Byte.openBrace)
      (hclose : x ≠ Byte.closeBrace) : c.sees x = false := by
    rw [sees_of_byte? hb, beq_eq_false_iff_ne]
    rintro rfl
    rcases hbracket with hbracket | rfl | rfl
    · simp [hbracket] at hx
    · exact hopen rfl
    · exact hclose rfl
  have hword : (depth == 0 && c.startsWord && c.keyword "AS") = false := by
    rw [Bool.and_assoc, h.element, Bool.and_false]
  rw [ArrayItem.lastAs, hne (by decide) (by decide) (by decide),
    hne (by decide) (by decide) (by decide), hne (by decide) (by decide) (by decide),
    hne (by decide) (by decide) (by decide), hword]
  rfl

end Steps

section Groups

variable {depth : Nat} {inner : List Cursor}

theorem clauseStop_nested {stops : List Text} {commaEnds : Bool} (h : Nested depth inner)
    (level : Nat) (code : List Cursor) :
    clauseStop stops commaEnds (level + 1 + depth) (inner ++ code) =
      clauseStop stops commaEnds (level + 1) code := by
  induction h with
  | nil => rfl
  | @byte depth c b inner hb hbracket hcomma hinner ih =>
    obtain ⟨hopen, hclose⟩ := isBracket_byte? hb hbracket
    have hdepth : level + 1 + depth = level + depth + 1 := by omega
    rw [← ih, hdepth, List.cons_append, clauseStop_inside hopen hclose]
  | opening hb hinner ih =>
    rw [← ih, List.cons_append, clauseStop_of_opening (by rw [hb]; rfl), Nat.add_assoc]
  | closing hb hinner ih =>
    rw [← ih, List.cons_append, ← Nat.add_assoc,
      clauseStop_of_closing (by rw [hb]; rfl) (by rw [hb]; rfl)]

theorem closing?_paren_nested (h : Nested depth inner) (level : Nat) (code : List Cursor) :
    closing? Byte.openParen Byte.closeParen (level + 1 + depth) (inner ++ code) =
      closing? Byte.openParen Byte.closeParen (level + 1) code := by
  induction h with
  | nil => rfl
  | @byte depth c b inner hb hbracket hcomma hinner ih =>
    obtain ⟨rest, hafter⟩ : ∃ rest, c.after = b :: rest := List.head?_eq_some_iff.mp hb
    obtain ⟨hopen, hclose⟩ : c.sees Byte.openParen = false ∧ c.sees Byte.closeParen = false :=
      Phrase.sees_of_isBracket hafter hbracket .paren
    rw [← ih, List.cons_append, closing?_of_other hopen hclose]
  | opening hb hinner ih =>
    rw [← ih, List.cons_append, closing?_of_opening (by rw [sees_of_byte? hb]; rfl),
      Nat.add_assoc]
  | @closing depth c inner hb hinner ih =>
    have hdepth : level + 1 + (depth + 1) = level + depth + 2 := by omega
    rw [← ih, hdepth, List.cons_append, closing?_of_closing (by rw [sees_of_byte? hb]; rfl)
      (by rw [sees_of_byte? hb]; rfl), Nat.add_right_comm]

theorem closing?_square_nested (h : Nested depth inner) (level : Nat) (code : List Cursor) :
    closing? Byte.openBracket Byte.closeBracket level (inner ++ code) =
      closing? Byte.openBracket Byte.closeBracket level code := by
  have hother {c : Cursor} {b : UInt8} {rest : List Cursor} (hb : c.byte? = some b)
      (hopen : b ≠ Byte.openBracket) (hclose : b ≠ Byte.closeBracket) :
      closing? Byte.openBracket Byte.closeBracket level (c :: rest) =
        closing? Byte.openBracket Byte.closeBracket level rest :=
    closing?_of_other (by simpa [sees_of_byte? hb] using hopen)
      (by simpa [sees_of_byte? hb] using hclose)
  induction h with
  | nil => rfl
  | byte hb hbracket hcomma hinner ih =>
    rw [List.cons_append, hother hb, ih] <;> rintro rfl <;> exact absurd hbracket (by decide)
  | opening hb hinner ih => rw [List.cons_append, hother hb (by decide) (by decide), ih]
  | closing hb hinner ih => rw [List.cons_append, hother hb (by decide) (by decide), ih]

theorem commaSpans_nested (h : Nested depth inner) (stop start : Nat) (level : Int)
    (code : List Cursor) :
    commaSpans stop (level + depth) start (inner ++ code) = commaSpans stop level start code := by
  induction h with
  | nil => simp
  | @byte depth c b inner hb hbracket hcomma hinner ih =>
    obtain ⟨hopen, hclose⟩ := isBracket_byte? hb hbracket
    rw [← ih, List.cons_append, Phrase.commaSpans_of_other hopen hclose]
    exact Or.inl (by simpa [sees_of_byte? hb] using hcomma)
  | @opening depth c inner hb hinner ih =>
    have hdepth : level + ((depth + 1 : Nat) : Int) = level + depth + 1 := by omega
    rw [← ih, hdepth, List.cons_append, Phrase.commaSpans_of_opening (by rw [hb]; rfl)]
  | @closing depth c inner hb hinner ih =>
    have hdepth : level + ((depth + 1 : Nat) : Int) - 1 = level + depth := by omega
    rw [← ih, List.cons_append, Phrase.commaSpans_of_closing (by rw [hb]; rfl) (by rw [hb]; rfl),
      hdepth]

theorem lastAs_nested (h : Nested depth inner) (hidle : ∀ c ∈ inner, c.Idle)
    (found : Option Cursor) (level : Nat) (code : List Cursor) :
    ArrayItem.lastAs found (level + depth) (inner ++ code) = ArrayItem.lastAs found level code := by
  induction h with
  | nil => rfl
  | @byte depth c b inner hb hbracket hcomma hinner ih =>
    obtain ⟨hc, hidle⟩ := List.forall_mem_cons.mp hidle
    rw [← ih hidle, List.cons_append, lastAs_of_idle hc hb (Or.inl hbracket)]
  | @opening depth c inner hb hinner ih =>
    obtain ⟨-, hidle⟩ := List.forall_mem_cons.mp hidle
    rw [← ih hidle, List.cons_append, ArrayItem.lastAs, sees_of_byte? hb, Nat.add_assoc]
    rfl
  | @closing depth c inner hb hinner ih =>
    obtain ⟨-, hidle⟩ := List.forall_mem_cons.mp hidle
    rw [← ih hidle, List.cons_append, ArrayItem.lastAs, sees_of_byte? hb, sees_of_byte? hb,
      sees_of_byte? hb]
    rfl

end Groups

end Searches

section Found

variable {c d : Cursor} {code : List Cursor}

theorem sees_of_le {b x : UInt8} (hb : c.byte? = some b) (hwide : 128 ≤ b.toNat)
    (hx : x.toNat < 128) : c.sees x = false := by
  rw [sees_of_byte? hb, beq_eq_false_iff_ne]
  rintro rfl
  omega

theorem startsWord_of_le {b : UInt8} (hb : c.byte? = some b) (hwide : 128 ≤ b.toNat) :
    c.startsWord = false :=
  Cursor.startsWord_of_not_isIdent (Cursor.not_isIdent_of_le hb hwide)

/-- What a search for the end of a clause stops at, and the code behind it. -/
theorem Laid.clauseStop (h : Laid bodies text code) (stops : List Text) (commaEnds : Bool)
    (depth : Nat) :
    clauseStop stops commaEnds depth code = [] ∨
      ∃ c b rest, clauseStop stops commaEnds depth code = c :: rest ∧ c.Outside bodies text ∧
        c.byte? = some b ∧ Byte.isFree b = true ∧ Laid bodies text rest := by
  induction h generalizing depth with
  | nil => exact Or.inl rfl
  | @byte c b code hc hb hfree hcode ih =>
    rw [QueryBridge.clauseStop.eq_def]
    dsimp only
    split
    · exact ih _
    · split
      · split
        · exact Or.inr ⟨c, b, code, rfl, hc, hb, hfree, hcode⟩
        · exact ih _
      · split
        · exact Or.inr ⟨c, b, code, rfl, hc, hb, hfree, hcode⟩
        · exact ih _
  | @wide c b code hb hwide hcode ih =>
    obtain ⟨hopen, hclose⟩ := isBracket_byte? hb (Byte.isBracket_of_le hwide)
    have hcomma := sees_of_le hb hwide (by decide : Byte.comma.toNat < 128)
    have hsemicolon := sees_of_le hb hwide (by decide : Byte.semicolon.toNat < 128)
    have hstop : QueryBridge.clauseStop stops commaEnds depth (c :: code) =
        QueryBridge.clauseStop stops commaEnds depth code := by
      rw [QueryBridge.clauseStop.eq_def]
      simp [hopen, hclose, hcomma, hsemicolon, startsWord_of_le hb hwide]
    rw [hstop]
    exact ih depth
  | @group before body rest code hmem hinert hopen hcode ih =>
    have hstop : QueryBridge.clauseStop stops commaEnds depth
        (Cursor.along before.length before rest body.inBraces ++ code) =
          QueryBridge.clauseStop stops commaEnds depth code := by
      rw [along_inBraces, List.cons_append, List.append_assoc, clauseStop_of_opening rfl,
        show depth + 1 = depth + 1 + 0 from rfl, clauseStop_nested (hinert.nested_along _ _ _),
        List.singleton_append, clauseStop_of_closing rfl rfl]
    rw [hstop]
    exact ih depth

theorem Cursor.Outside.firstOf (h : c.Outside bodies text)
    (hcode : ∀ d ∈ code.head?, d.Outside bodies text) : (c.firstOf code).Outside bodies text := by
  cases code with
  | nil => exact h.toEnd
  | cons d code => exact hcode d rfl

theorem Cursor.Outside.clauseEnd (h : c.Outside bodies text) (stops : List Text)
    (commaEnds : Bool) : (c.clauseEnd stops commaEnds).Outside bodies text := by
  refine h.firstOf ?_
  rcases (Laid.code h).clauseStop stops commaEnds 0 with hnone | ⟨d, b, rest, hsome, hd, -⟩
  · simp [hnone]
  · rw [hsome]
    rintro _ ⟨rfl⟩
    exact hd

theorem Laid.listStop (h : Laid bodies text code) (stops : List Text) :
    ∀ d ∈ (listStop stops code).head?, d.Outside bodies text := by
  induction hlength : code.length using Nat.strongRecOn generalizing code with
  | ind n ih =>
    rw [QueryBridge.listStop]
    have hle := length_clauseStop_le stops true 0 code
    split
    · simp
    next c rest hstop =>
      rcases h.clauseStop stops true 0 with hnone | ⟨d, b, later, hsome, hd, -, -, hlater⟩
      · simp [hnone] at hstop
      · obtain ⟨rfl, rfl⟩ := List.cons.inj (hsome.symm.trans hstop)
        rw [hsome, List.length_cons] at hle
        split
        · exact ih later.length (by omega) hlater rfl
        · rintro _ ⟨rfl⟩
          exact hd

theorem Cursor.Outside.listEnd (h : c.Outside bodies text) (stops : List Text) :
    (c.listEnd stops).Outside bodies text := h.firstOf ((Laid.code h).listStop stops)

/-- The bracket that closes one outside all groups is outside all groups, if the search for it
passes over groups. -/
theorem Laid.closing? {opening closing : UInt8} (h : Laid bodies text code)
    (hopening : opening.toNat < 128) (hclosing : closing.toNat < 128)
    (hgroup : ∀ {body : Text}, body.Inert → ∀ (offset : Nat) (before rest : Text) (level : Nat)
      (code : List Cursor), QueryBridge.closing? opening closing (level + 1)
        (Cursor.along offset before rest body.inBraces ++ code) =
          QueryBridge.closing? opening closing (level + 1) code)
    {depth : Nat} (hd : QueryBridge.closing? opening closing (depth + 1) code = some d) :
    d.Outside bodies text := by
  induction h generalizing depth with
  | nil => simp [QueryBridge.closing?] at hd
  | @byte c b code hc hb hfree hcode ih =>
    cases hopen : c.sees opening with
    | true =>
      rw [closing?_of_opening hopen] at hd
      exact ih hd
    | false =>
      cases hclose : c.sees closing with
      | false =>
        rw [closing?_of_other hopen hclose] at hd
        exact ih hd
      | true =>
        cases depth with
        | zero =>
          rw [closing?_of_last hopen hclose] at hd
          exact Option.some.inj hd ▸ hc
        | succ depth =>
          rw [closing?_of_closing hopen hclose] at hd
          exact ih hd
  | wide hb hwide hcode ih =>
    rw [closing?_of_other (sees_of_le hb hwide hopening)
      (sees_of_le hb hwide hclosing)] at hd
    exact ih hd
  | group hmem hinert hopen hcode ih =>
    rw [hgroup hinert] at hd
    exact ih hd

theorem Cursor.Outside.closingParen? (h : c.Outside bodies text)
    (hc : c.byte? = some Byte.openParen) (hd : c.closingParen? = some d) :
    d.Outside bodies text ∧ d.byte? = some Byte.closeParen := by
  have hsees := (mem_of_closing? hd).2
  refine ⟨?_, by simpa [Cursor.sees] using hsees⟩
  rw [Cursor.closingParen?, Cursor.code_cons hc (by decide),
    closing?_of_opening (by rw [sees_of_byte? hc]; rfl)] at hd
  refine (Laid.code (h.forward_one hc (by decide))).closing? (by decide) (by decide) ?_ hd
  intro body hinert offset before rest level code
  rw [along_inBraces, List.cons_append, List.append_assoc, closing?_of_other rfl rfl,
    show level + 1 = level + 1 + 0 from rfl, closing?_paren_nested (hinert.nested_along _ _ _),
    List.singleton_append, closing?_of_other rfl rfl]

theorem Cursor.Outside.closingBracket? (h : c.Outside bodies text)
    (hc : c.byte? = some Byte.openBracket) (hd : c.closingBracket? = some d) :
    d.Outside bodies text ∧ d.byte? = some Byte.closeBracket := by
  have hsees := (mem_of_closing? hd).2
  refine ⟨?_, by simpa [Cursor.sees] using hsees⟩
  rw [Cursor.closingBracket?, Cursor.code_cons hc (by decide),
    closing?_of_opening (by rw [sees_of_byte? hc]; rfl)] at hd
  refine (Laid.code (h.forward_one hc (by decide))).closing? (by decide) (by decide) ?_ hd
  intro body hinert offset before rest level code
  rw [along_inBraces, List.cons_append, List.append_assoc, closing?_of_other rfl rfl,
    closing?_square_nested (hinert.nested_along _ _ _), List.singleton_append,
    closing?_of_other rfl rfl]

/-- The stretches between commas begin and end outside all groups. -/
theorem Laid.commaSpans (h : Laid bodies text code) {start stop : Nat}
    (hstart : ClearAt bodies text start) (hstop : ClearAt bodies text stop) (depth : Int) :
    ∀ span ∈ commaSpans stop depth start code,
      ClearAt bodies text span.1 ∧ ClearAt bodies text span.2 := by
  induction h generalizing depth start with
  | nil => simpa [Text.commaSpans] using ⟨hstart, hstop⟩
  | @byte c b code hc hb hfree hcode ih =>
    rw [Text.commaSpans]
    split
    · exact ih hstart _
    · split
      · exact ih hstart _
      · split
        · exact List.forall_mem_cons.mpr
            ⟨⟨hstart, hc.clearAt⟩, ih (hc.clearAt_succ hb hfree) _⟩
        · exact ih hstart _
  | wide hb hwide hcode ih =>
    obtain ⟨hopen, hclose⟩ := isBracket_byte? hb (Byte.isBracket_of_le hwide)
    rw [Phrase.commaSpans_of_other hopen hclose (Or.inl (sees_of_le hb hwide (by decide)))]
    exact ih hstart depth
  | @group before body rest code hmem hinert hopen hcode ih =>
    have hskip := commaSpans_nested (hinert.nested_along (before.length + 1)
      (Byte.openBrace :: before) (Byte.closeBrace :: rest)) stop start (depth + 1)
    rw [Int.natCast_zero, Int.add_zero] at hskip
    rw [along_inBraces, List.cons_append, List.append_assoc, Phrase.commaSpans_of_opening rfl,
      hskip, List.singleton_append, Phrase.commaSpans_of_closing rfl rfl, Int.add_sub_cancel]
    exact ih hstart depth

theorem Braced.of_mem_arguments {start stop : Nat} (hstart : ClearAt bodies text start)
    (hstop : ClearAt bodies text stop) (hbound : stop ≤ text.length) :
    ∀ argument ∈ text.arguments start stop, Braced bodies argument := by
  intro argument hargument
  unfold arguments at hargument
  split at hargument
  · simp at hargument
  · obtain ⟨span, hspan, rfl⟩ := List.mem_map.mp hargument
    obtain ⟨hfirst, hlast⟩ := (Laid.codeBetween hstart hstop hbound).commaSpans hstart hstop 0
      span hspan
    exact (Braced.slice hfirst hlast).trim

theorem Laid.lastAs (h : Laid bodies text code) {found : Option Cursor}
    (hfound : ∀ d ∈ found, d.Outside bodies text ∧ d.keyword "AS" = true) (depth : Nat) :
    ∀ d ∈ ArrayItem.lastAs found depth code, d.Outside bodies text ∧ d.keyword "AS" = true := by
  induction h generalizing found depth with
  | nil => exact hfound
  | @byte c b code hc hb hfree hcode ih =>
    rw [ArrayItem.lastAs]
    split
    · exact ih hfound _
    · split
      · exact ih hfound _
      · split
        next hword =>
          refine ih (fun d hd => ?_) _
          obtain rfl := Option.some.inj hd
          simp only [Bool.and_eq_true] at hword
          exact ⟨hc, hword.2⟩
        · exact ih hfound _
  | wide hb hwide hcode ih =>
    rw [ArrayItem.lastAs, sees_of_le hb hwide (by decide), sees_of_le hb hwide (by decide),
      sees_of_le hb hwide (by decide), sees_of_le hb hwide (by decide), startsWord_of_le hb hwide]
    simpa using ih hfound depth
  | @group before body rest code hmem hinert hopen hcode ih =>
    have hidle : ∀ c ∈ Cursor.along before.length before rest body.inBraces, c.Idle :=
      fun c => hinert.idle_along
    rw [along_inBraces] at hidle ⊢
    obtain ⟨hfirst, hidle⟩ := List.forall_mem_cons.mp hidle
    obtain ⟨hinner, hlast⟩ := List.forall_mem_append.mp hidle
    rw [List.cons_append, List.append_assoc, lastAs_of_idle hfirst rfl (Or.inr (Or.inl rfl)),
      show depth = depth + 0 from rfl, lastAs_nested (hinert.nested_along _ _ _) hinner,
      List.singleton_append, lastAs_of_idle (hlast _ List.mem_cons_self) rfl (Or.inr (Or.inr rfl))]
    exact ih hfound depth

end Found

end QueryBridge
