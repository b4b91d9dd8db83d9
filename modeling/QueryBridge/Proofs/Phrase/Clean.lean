import QueryBridge.Proofs.Lexical.Silent
import QueryBridge.Proofs.Phrase.Calls
import QueryBridge.Proofs.Phrase.Outline

/-!
# Clean statements

A statement is clean if it has no comment, every quoted run in it ends, every bracket of its code is
closed by its own kind, and every call of `multiIf` has at least two arguments. A clean statement is
a phrase: read from its end, each byte extends the phrases between the brackets that are still open.
-/

namespace QueryBridge

open Text

/-- Whether a byte read in this mode belongs to a comment that has been opened. -/
def Mode.isComment : Mode → Bool
  | .lineComment | .blockOpening | .blockComment | .blockClosing => true
  | .code | .quoted _ | .doubled _ => false

/-- Whether brackets are nested by kind: each one that closes is of the kind of the last one left
open, and in the end none is. -/
def Bracket.nests : List Bracket → Text → Bool
  | stack, [] => stack.isEmpty
  | stack, b :: code =>
    if Byte.opensLevel b then nests (ofOpening b :: stack) code
    else if Byte.closesLevel b then
      stack.head?.map closing == some b && nests stack.tail code
    else nests stack code

/-- The function that gives the first value whose condition holds. -/
def branching : Callee := ⟨"multiIf", .exact⟩

theorem callee_of_firstBranch :
    ∀ rule ∈ builtinRules, rule.replacement = .firstBranch → rule.callee = branching := by
  decide

theorem branching_of_unnamed {name : Text} (h : Unnamed name) : branching.names name = false := by
  have hmember : ∃ rule ∈ builtinRules, rule.callee = branching := by decide
  obtain ⟨rule, hrule, hcallee⟩ := hmember
  rw [← hcallee]
  exact h rule hrule

namespace Text

/-- No byte of a text belongs to a comment. -/
def Silent (text : Text) : Prop := ∀ offset ≤ text.length, (text.modeAt offset).isComment = false

/-- A statement without comments whose quoted runs end, whose brackets are nested by kind, and whose
calls of `multiIf` have at least two arguments. -/
structure Clean (text : Text) : Prop where
  silent : text.Silent
  closed : text.Sealed
  nested : Bracket.nests [] text.codeBytes = true
  branches : ∀ c ∈ text.code, ∀ opening ∈ branching.opening? c, ∀ closing ∈ opening.closingParen?,
    2 ≤ (text.arguments (opening.offset + 1) closing.offset).length

instance (text : Text) : Decidable text.Silent :=
  inferInstanceAs (Decidable (∀ offset ≤ text.length, (text.modeAt offset).isComment = false))

instance (text : Text) : Decidable text.Clean :=
  decidable_of_iff (text.Silent ∧ text.Sealed ∧ Bracket.nests [] text.codeBytes = true ∧
    ∀ c ∈ text.code, ∀ opening ∈ branching.opening? c, ∀ closing ∈ opening.closingParen?,
      2 ≤ (text.arguments (opening.offset + 1) closing.offset).length)
    ⟨fun ⟨hsilent, hclosed, hnested, hbranches⟩ => ⟨hsilent, hclosed, hnested, hbranches⟩,
      fun h => ⟨h.silent, h.closed, h.nested, h.branches⟩⟩

section Behind

variable {run rest : Text}

theorem Silent.behind (h : (run ++ rest).Silent)
    (hcode : Mode.code.after rest.head? run = .code) : rest.Silent := by
  intro offset hle
  have hrun := h (run.length + offset) (by rw [List.length_append]; omega)
  have hhead : (rest.take offset).head?.or (rest.drop offset).head? = rest.head? := by
    rw [← List.head?_append, List.take_append_drop]
  rw [modeAt_eq, List.take_length_add_append, List.drop_length_add_append, Mode.after_append, hhead,
    hcode] at hrun
  rwa [modeAt_eq]

theorem Sealed.behind (h : (run ++ rest).Sealed)
    (hcode : Mode.code.after rest.head? run = .code) : rest.Sealed := by
  unfold Sealed at h
  rwa [Mode.after_append, Option.or_none, hcode] at h

/-- The code behind a run that leads from code to code. -/
theorem codeBytes_append (hcode : Mode.code.after rest.head? run = .code) :
    (run ++ rest).codeBytes =
      pick (fun _ => true) 0 run (Mode.code.marks rest.head? run) ++ rest.codeBytes := by
  rw [codeBytes_eq_pick, codeBytes_eq_pick, Mode.marks_append, Option.or_none, hcode,
    pick_append _ _ _ _ (Mode.length_marks _ _ _), pick_true_eq (0 + run.length) 0]

end Behind

/-- A quoted run that ends is a value with its quotes written twice. -/
theorem exists_quoteRun {q : UInt8} {text : Text}
    (h : (Mode.quoted q).after none text = .code) :
    ∃ value rest, q :: text = quoteRun q value ++ rest ∧ rest.head? ≠ some q := by
  induction hlength : text.length using Nat.strongRecOn generalizing text with
  | ind n ih =>
    cases text with
    | nil => simp [Mode.after] at h
    | cons b text =>
      by_cases hb : b = q
      · subst hb
        by_cases hnext : text.head? = some b
        · obtain ⟨text, rfl⟩ := List.head?_eq_some_iff.mp hnext
          have hlater : (Mode.quoted b).after none text = .code := by
            simpa [Mode.after, Mode.step] using h
          obtain ⟨value, rest, htext, hrest⟩ :=
            ih text.length (by rw [← hlength]; simp only [List.length_cons]; omega) hlater rfl
          refine ⟨b :: value, rest, ?_, hrest⟩
          have hrun : text = replaceByte b [b, b] value ++ b :: rest := by
            simpa [quoteRun] using htext
          simp [quoteRun, replaceByte_cons, hrun]
        · exact ⟨[], text, rfl, hnext⟩
      · have hlater : (Mode.quoted q).after none text = .code := by
          simpa [Mode.after, Mode.step, hb] using h
        obtain ⟨value, rest, htext, hrest⟩ :=
          ih text.length (by rw [← hlength]; simp) hlater rfl
        have hrun : text = replaceByte q [q, q] value ++ q :: rest := by
          simpa [quoteRun] using htext
        exact ⟨b :: value, rest, by simp [quoteRun, replaceByte_cons, hb, hrun], hrest⟩

end Text

namespace Phrase

/-- A text as phrases, one before each bracket that a stack leaves open and one behind them all. -/
inductive Splits : List Bracket → Text → Prop where
  /-- Nothing is left open. -/
  | last {p : Phrase} (hreads : p.Reads none) : Splits [] p.text
  /-- A bracket is left open, and closed behind a phrase. -/
  | before {kind : Bracket} {stack : List Bracket} {p : Phrase} {rest : Text}
    (hreads : p.Reads (some kind.closing)) (hrest : Splits stack rest) :
    Splits (kind :: stack) (p.text ++ kind.closing :: rest)

section Splits

variable {stack : List Bracket} {text : Text}

/-- The first phrase can be exchanged for another that is read as it is built. -/
theorem Splits.exists_first (h : Splits stack text) :
    ∃ (p : Phrase) (tail : Text), text = p.text ++ tail ∧ p.Reads tail.head? ∧
      ∀ q : Phrase, q.Reads tail.head? → Splits stack (q.text ++ tail) := by
  cases h with
  | last hreads =>
    refine ⟨_, [], by simp, hreads, fun q hq => ?_⟩
    rw [List.append_nil]
    exact .last hq
  | before hreads hrest => exact ⟨_, _, rfl, hreads, fun q hq => .before hq hrest⟩

theorem Splits.byte (h : Splits stack text) {b : UInt8} (hquote : Byte.isQuote b = false)
    (hbracket : Byte.isBracket b = false) (hopens : Mode.opensComment b text.head? = false) :
    Splits stack (b :: text) := by
  obtain ⟨p, tail, rfl, hreads, hfirst⟩ := h.exists_first
  rw [List.head?_append] at hopens
  exact hfirst (.byte b p) ⟨hquote, hbracket, hopens, hreads⟩

theorem Splits.quoted (h : Splits stack text) {q : UInt8} (hquote : Byte.isQuote q = true)
    (hnext : text.head? ≠ some q) (value : Text) : Splits stack (quoteRun q value ++ text) := by
  obtain ⟨p, tail, rfl, hreads, hfirst⟩ := h.exists_first
  rw [List.head?_append] at hnext
  rw [← List.append_assoc]
  exact hfirst (.quoted q value p) ⟨hquote, hnext, hreads⟩

theorem Splits.opening {kind : Bracket} (h : Splits (kind :: stack) text) :
    Splits stack (kind.opening :: text) := by
  cases h with
  | @before _ _ p rest hreads hrest =>
    obtain ⟨later, tail, rfl, hlater, hfirst⟩ := hrest.exists_first
    have hgroup := hfirst (.group kind p later) ⟨hreads, hlater⟩
    simpa [Phrase.text] using hgroup

theorem Splits.closing (h : Splits stack text) (kind : Bracket) :
    Splits (kind :: stack) (kind.closing :: text) :=
  .before (p := .nil) trivial h

end Splits

theorem opening_ofOpening {b : UInt8} (h : Byte.opensLevel b = true) :
    (Bracket.ofOpening b).opening = b := by
  simp only [Byte.opensLevel, Bool.or_eq_true, beq_iff_eq] at h
  rcases h with (rfl | rfl) | rfl <;> rfl

/-- Where a comment opens, a byte of it follows. -/
theorem isComment_of_opensComment {b : UInt8} {next : Option UInt8}
    (hquote : Byte.isQuote b = false) (h : Mode.opensComment b next = true) :
    (Mode.code.step b next).isComment = true := by
  simp only [Mode.opensComment, Bool.or_eq_true, Bool.and_eq_true, beq_iff_eq] at h
  rcases h with ⟨rfl, rfl⟩ | ⟨rfl, rfl⟩ <;> rfl

/-- A silent and sealed text that starts with a quote starts with a quoted run. Behind it the text is
silent and sealed as well, and has the same code. -/
theorem exists_quoteRun_of_sealed {q : UInt8} {text : Text} (hquote : Byte.isQuote q = true)
    (hsilent : Text.Silent (q :: text)) (hclosed : Text.Sealed (q :: text)) :
    ∃ value rest : Text, q :: text = quoteRun q value ++ rest ∧ rest.head? ≠ some q ∧
      rest.Silent ∧ rest.Sealed ∧ codeBytes (q :: text) = codeBytes rest := by
  have hbody : (Mode.quoted q).after none text = .code := by
    simpa [Sealed, Mode.after, Mode.step, Mode.opened?, hquote] using hclosed
  obtain ⟨value, rest, htext, hrest⟩ := exists_quoteRun hbody
  have hcode : Mode.code.after rest.head? (quoteRun q value) = .code := by
    rw [after_quoteRun hquote, if_neg hrest]
  rw [htext] at hsilent hclosed ⊢
  refine ⟨value, rest, rfl, hrest, hsilent.behind hcode, hclosed.behind hcode, ?_⟩
  rw [codeBytes_append hcode, pick_eq_nil_of_unmarked (marks_quoteRun hquote _ value),
    List.nil_append]

/-- A silent and sealed text that starts with no quote starts with code. Behind it the text is silent
and sealed as well. -/
theorem code_of_sealed {b : UInt8} {text : Text} (hquote : Byte.isQuote b = false)
    (hsilent : Text.Silent (b :: text)) (hclosed : Text.Sealed (b :: text)) :
    Mode.opensComment b text.head? = false ∧ text.Silent ∧ text.Sealed ∧
      codeBytes (b :: text) = b :: codeBytes text := by
  have hopens : Mode.opensComment b text.head? = false := by
    by_contra hopens
    have hcomment := isComment_of_opensComment hquote (by simpa using hopens)
    have hnone := hsilent 1 (by simp)
    simp [modeAt_eq, Mode.after, hcomment] at hnone
  have hopened : Mode.opened? b text.head? = none :=
    Mode.opened?_eq_none_iff.mpr ⟨hquote, hopens⟩
  have hcode : Mode.code.after text.head? [b] = .code := by
    simp [Mode.after, Mode.step, hopened]
  have hbytes : codeBytes (b :: text) = b :: codeBytes text := by
    have := @codeBytes_append [b] text hcode
    simpa [pick, Mode.marks, Mode.shows, hopened] using this
  rw [← List.singleton_append] at hsilent hclosed
  exact ⟨hopens, hsilent.behind hcode, hclosed.behind hcode, hbytes⟩

/-- Read from its end, a text whose brackets close those of a stack is split by them. -/
theorem splits_of_nests {stack : List Bracket} {text : Text} (hsilent : text.Silent)
    (hclosed : text.Sealed) (hnests : Bracket.nests stack text.codeBytes = true) :
    Splits stack text := by
  induction hlength : text.length using Nat.strongRecOn generalizing stack text with
  | ind n ih =>
    cases text with
    | nil =>
      cases stack with
      | nil => exact .last (p := .nil) trivial
      | cons kind stack =>
        have hnone : codeBytes [] = [] := rfl
        simp [hnone, Bracket.nests] at hnests
    | cons b text =>
      by_cases hquote : Byte.isQuote b = true
      · obtain ⟨value, rest, htext, hrest, hsilent, hclosed, hbytes⟩ :=
          exists_quoteRun_of_sealed hquote hsilent hclosed
        have hshort : rest.length < n := by
          have := congrArg List.length htext
          simp only [quoteRun, List.length_append, List.length_cons] at this hlength
          omega
        rw [hbytes] at hnests
        rw [htext]
        exact (ih _ hshort hsilent hclosed hnests rfl).quoted hquote hrest value
      · rw [Bool.not_eq_true] at hquote
        obtain ⟨hopens, hsilent, hclosed, hbytes⟩ := code_of_sealed hquote hsilent hclosed
        have hlater {stack : List Bracket} (hnests : Bracket.nests stack (codeBytes text) = true) :
            Splits stack text :=
          ih text.length (by rw [← hlength]; simp) hsilent hclosed hnests rfl
        rw [hbytes, Bracket.nests] at hnests
        split at hnests
        next hopening =>
          have hsplits := (hlater hnests).opening
          rwa [opening_ofOpening hopening] at hsplits
        next hopening =>
          split at hnests
          next hclosing =>
            cases stack with
            | nil => simp at hnests
            | cons kind stack =>
              simp only [List.head?_cons, Option.map_some, List.tail_cons, Bool.and_eq_true,
                beq_iff_eq, Option.some.injEq] at hnests
              obtain ⟨rfl, hnests⟩ := hnests
              exact (hlater hnests).closing kind
          next hclosing =>
            exact (hlater hnests).byte hquote (by simp [Byte.isBracket, hopening, hclosing]) hopens

section Calls

variable {callee : Callee} {whole word front tail : Text} {p : Phrase} {c : Cursor}

/-- The code of a phrase is code of the one it is put behind. -/
theorem mem_cursors_append {run : Phrase}
    (h : c ∈ p.cursors (front ++ run.text).length (front ++ run.text).reverse tail) :
    c ∈ (run.append p).cursors front.length front.reverse tail := by
  rw [cursors_append]
  exact List.mem_append_right _ (by simpa using h)

/-- The code in a bracket is code of the whole. -/
theorem mem_cursors_group {kind : Bracket} {rest : Phrase}
    (h : c ∈ p.cursors (front ++ [kind.opening]).length (front ++ [kind.opening]).reverse
      (kind.closing :: (rest.text ++ tail))) :
    c ∈ (group kind p rest).cursors front.length front.reverse tail := by
  rw [cursors]
  exact List.mem_cons_of_mem _ (List.mem_append_left _ (by simpa using h))

/-- The name of a callee stands in code before the parenthesis of a call. -/
theorem mem_cursors_of_names (hnames : callee.names word = true) :
    (⟨front.length, front.reverse, word ++ (p.text ++ tail)⟩ : Cursor) ∈
      ((ofBytes word).append p).cursors front.length front.reverse tail := by
  cases word with
  | nil =>
    rw [Callee.names_nil] at hnames
    simp at hnames
  | cons b later =>
    rw [ofBytes, append, cursors]
    refine List.mem_cons.mpr (Or.inl ?_)
    simp

/-- If the call that a word and the parentheses behind it make has at least two arguments, the
phrase between the parentheses holds a comma. -/
theorem commas_of_arguments (hname : callee.IsWord) (hnames : callee.names word = true)
    {inner : Phrase} (hinner : inner.Reads (some Byte.closeParen))
    (hword : ∀ b ∈ word, Byte.isIdent b = true)
    (hfront : front.reverse.head?.any Byte.isIdent = false)
    (hwhole : whole = front ++ (word ++ Byte.openParen ::
      (inner.text ++ Byte.closeParen :: tail)))
    (h : ∀ opening ∈ callee.opening? ⟨front.length, front.reverse,
        word ++ Byte.openParen :: (inner.text ++ Byte.closeParen :: tail)⟩,
      ∀ closing ∈ opening.closingParen?,
        2 ≤ (whole.arguments (opening.offset + 1) closing.offset).length) :
    inner.commas ≠ 0 := by
  obtain ⟨opening, closing, hopening, hstart, hclosing, hstop⟩ :=
    @call_of_names callee word front.reverse front.length hname hnames hword hfront inner hinner
      tail
  have htwo := h opening hopening closing hclosing
  have hargs := @arguments_text inner (Byte.closeParen :: tail) hinner
    (front ++ (word ++ [Byte.openParen]))
  have hlength : (front ++ (word ++ [Byte.openParen])).length =
      front.length + word.length + 1 := by
    simp only [List.length_append, List.length_singleton, Nat.add_assoc]
  rw [hlength] at hargs
  rw [hstart, hstop, hwhole] at htwo
  refine two_le_length_arguments.mp ?_
  rw [← hargs]
  simpa using htwo

/-- If every call of a callee in some code has at least two arguments, then every parenthesis of the
phrase that stands there holds a comma if the name of the callee stands before it. -/
theorem allCalls_of_arguments (hname : callee.IsWord) (hreads : p.Reads tail.head?)
    (hword : ∀ b ∈ word, Byte.isIdent b = true)
    (hfront : front.reverse.head?.any Byte.isIdent = false)
    (hwhole : whole = front ++ (word ++ (p.text ++ tail)))
    (h : ∀ c ∈ ((ofBytes word).append p).cursors front.length front.reverse tail,
      ∀ opening ∈ callee.opening? c, ∀ closing ∈ opening.closingParen?,
        2 ≤ (whole.arguments (opening.offset + 1) closing.offset).length) :
    p.AllCalls (fun name inner => callee.names name = true → inner.commas ≠ 0) word := by
  induction p generalizing word front tail with
  | nil => trivial
  | byte b rest ih =>
    obtain ⟨-, -, -, hrest⟩ := hreads
    rw [AllCalls, wordWith]
    by_cases hident : Byte.isIdent b = true
    · rw [ofBytes_append_byte] at h
      rw [if_pos hident]
      exact ih hrest (List.forall_mem_append.mpr ⟨hword, by simpa using hident⟩) hfront
        (by simpa [text] using hwhole) h
    · rw [append_byte] at h
      rw [if_neg hident]
      exact @ih [] (front ++ ((ofBytes word).append (byte b nil)).text) tail hrest (by simp)
        (by simpa [text] using hident) (by simpa [text] using hwhole)
        fun c hc => h c (mem_cursors_append hc)
  | quoted q value rest ih =>
    obtain ⟨hquote, -, hrest⟩ := hreads
    rw [append_quoted] at h
    exact @ih [] (front ++ ((ofBytes word).append (quoted q value nil)).text) tail hrest (by simp)
      (by simpa [text, quoteRun] using isIdent_of_isQuote hquote) (by simpa [text] using hwhole)
      fun c hc => h c (mem_cursors_append hc)
  | group kind inner rest ihinner ih =>
    obtain ⟨hinner, hrest⟩ := hreads
    refine ⟨?_, ?_, ?_⟩
    · rintro rfl hnames
      have htext : (group .paren inner rest).text ++ tail =
          Byte.openParen :: (inner.text ++ Byte.closeParen :: (rest.text ++ tail)) := by
        simp [text, Bracket.opening, Bracket.closing]
      have hmem := @mem_cursors_of_names callee word front tail (group .paren inner rest) hnames
      rw [htext] at hmem hwhole
      exact commas_of_arguments hname hnames hinner hword hfront hwhole (h _ hmem)
    · exact @ihinner [] (front ++ (ofBytes word).text ++ [kind.opening])
        (kind.closing :: (rest.text ++ tail)) hinner (by simp)
        (by simpa using isIdent_opening kind) (by simpa [text] using hwhole)
        fun c hc => h c (mem_cursors_append (mem_cursors_group hc))
    · rw [append_group] at h
      exact @ih [] (front ++ ((ofBytes word).append (group kind inner nil)).text) tail hrest
        (by simp) (by simpa [text] using isIdent_closing kind) (by simpa [text] using hwhole)
        fun c hc => h c (mem_cursors_append hc)

end Calls

/-- A clean statement is a phrase whose calls of `multiIf` hold a comma. -/
theorem fits_of_clean {text : Text} (h : text.Clean) :
    text.Fits fun name inner => branching.names name = true → inner.commas ≠ 0 := by
  have hsplits := splits_of_nests h.silent h.closed h.nested
  generalize hstack : ([] : List Bracket) = stack at hsplits
  cases hsplits with
  | @last p hreads =>
    refine ⟨p, rfl, hreads, ?_⟩
    have hbranches := h.branches
    rw [code_text hreads] at hbranches
    exact @allCalls_of_arguments branching p.text [] [] [] p (by decide) hreads (by simp) rfl
      (by simp) hbranches
  | before => cases hstack

end Phrase

end QueryBridge
