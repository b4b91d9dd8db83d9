import QueryBridge.Proofs.Lexical.Call
import QueryBridge.Proofs.Lexical.Walk
import QueryBridge.Proofs.Phrase.Basic

/-!
# The code of a phrase

The cursors of a phrase are read off its tree, so that a search through them is a recursion over the
tree: a matching bracket is found behind its group, and the arguments in a pair of parentheses are
the trimmed pieces of what the group holds.
-/

namespace QueryBridge

open Text

namespace Cursor

/-- The code after a place is the code of as many bytes as there are. -/
theorem codeFrom_eq_codeWithinFrom (mode : Mode) (offset : Nat) (before text : Text) :
    codeFrom mode offset before text = codeWithinFrom text.length mode offset before text := by
  induction text generalizing mode offset before with
  | nil => rfl
  | cons b text ih => simp only [codeFrom, List.length_cons, codeWithinFrom, ih]

/-- A stretch without code holds no cursor of the code. -/
theorem codeWithinFrom_of_marks {mode : Mode} {run rest : Text}
    (hmarks : ∀ mark ∈ mode.marks rest.head? run, mark = false) (count offset : Nat)
    (before : Text) :
    codeWithinFrom (run.length + count) mode offset before (run ++ rest) =
      codeWithinFrom count (mode.after rest.head? run) (offset + run.length)
        (run.reverse ++ before) rest := by
  induction run generalizing mode offset before with
  | nil => simp
  | cons b run ih =>
    rw [Mode.marks] at hmarks
    obtain ⟨hb, hmarks⟩ := List.forall_mem_cons.mp hmarks
    have hcount : (b :: run).length + count = run.length + count + 1 := by
      rw [List.length_cons]
      omega
    have hoffset : offset + (b :: run).length = offset + 1 + run.length := by
      rw [List.length_cons]
      omega
    rw [hcount, hoffset, List.cons_append, codeWithinFrom, List.head?_append, hb, ih hmarks,
      Mode.after, List.reverse_cons, List.append_assoc]
    rfl

end Cursor

namespace Phrase

/-- The code of a phrase that stands at an offset between two texts. -/
def cursors (offset : Nat) (before tail : Text) : Phrase → List Cursor
  | nil => []
  | byte b rest =>
    ⟨offset, before, b :: (rest.text ++ tail)⟩ :: rest.cursors (offset + 1) (b :: before) tail
  | quoted q value rest =>
    rest.cursors (offset + (quoteRun q value).length) ((quoteRun q value).reverse ++ before) tail
  | group kind inner rest =>
    let behind := rest.text ++ tail
    let within := inner.text.reverse ++ kind.opening :: before
    let stop := offset + 1 + inner.text.length
    ⟨offset, before, kind.opening :: (inner.text ++ kind.closing :: behind)⟩ ::
      (inner.cursors (offset + 1) (kind.opening :: before) (kind.closing :: behind) ++
        ⟨stop, within, kind.closing :: behind⟩ ::
          rest.cursors (stop + 1) (kind.closing :: within) tail)

theorem isPlain_opening (kind : Bracket) : Byte.isPlain kind.opening = true := by
  cases kind <;> decide

theorem isPlain_closing (kind : Bracket) : Byte.isPlain kind.closing = true := by
  cases kind <;> decide

/-- Reading a byte of code. -/
theorem codeWithinFrom_cons {b : UInt8} {rest : Text}
    (hopened : Mode.opened? b rest.head? = none) (count offset : Nat) (before : Text) :
    Cursor.codeWithinFrom (count + 1) .code offset before (b :: rest) =
      ⟨offset, before, b :: rest⟩ ::
        Cursor.codeWithinFrom count .code (offset + 1) (b :: before) rest := by
  have hstep : Mode.code.step b rest.head? = .code := Mode.step_code_eq_code_iff.mpr hopened
  have hshows : Mode.code.shows b rest.head? = true := by simp [Mode.shows, hopened]
  rw [Cursor.codeWithinFrom, hstep, if_pos hshows]

/-- Reading a phrase from code on goes over its cursors and is back in code behind it. -/
theorem codeWithinFrom_text {p : Phrase} {tail : Text} (h : p.Reads tail.head?)
    (count offset : Nat) (before : Text) :
    Cursor.codeWithinFrom (p.text.length + count) .code offset before (p.text ++ tail) =
      p.cursors offset before tail ++
        Cursor.codeWithinFrom count .code (offset + p.text.length) (p.text.reverse ++ before)
          tail := by
  induction p generalizing tail count offset before with
  | nil => simp [text, cursors]
  | byte b rest ih =>
    obtain ⟨hquote, -, hopens, hrest⟩ := h
    rw [← List.head?_append] at hopens
    have hopened : Mode.opened? b (rest.text ++ tail).head? = none :=
      Mode.opened?_eq_none_iff.mpr ⟨hquote, hopens⟩
    have hcount : rest.text.length + 1 + count = rest.text.length + count + 1 := by omega
    have hoffset : offset + (rest.text.length + 1) = offset + 1 + rest.text.length := by omega
    rw [text, List.length_cons, List.cons_append, hcount, codeWithinFrom_cons hopened, ih hrest,
      cursors, hoffset]
    simp
  | quoted q value rest ih =>
    obtain ⟨hquote, hnext, hrest⟩ := h
    rw [← List.head?_append] at hnext
    have hafter : Mode.code.after (rest.text ++ tail).head? (quoteRun q value) = .code := by
      rw [after_quoteRun hquote, if_neg hnext]
    rw [text, List.length_append, Nat.add_assoc, List.append_assoc,
      Cursor.codeWithinFrom_of_marks (marks_quoteRun hquote _ value), hafter, ih hrest, cursors,
      Nat.add_assoc]
    simp
  | group kind inner rest ihinner ih =>
    obtain ⟨hinner, hrest⟩ := h
    have hbehind : inner.Reads (kind.closing :: (rest.text ++ tail)).head? := hinner
    have hopened (b : Option UInt8) : Mode.opened? kind.opening b = none :=
      Mode.opened?_eq_none_of_isPlain (isPlain_opening kind) b
    have hclosed (b : Option UInt8) : Mode.opened? kind.closing b = none :=
      Mode.opened?_eq_none_of_isPlain (isPlain_closing kind) b
    have hcount : (kind.opening :: (inner.text ++ kind.closing :: rest.text)).length + count =
        inner.text.length + (rest.text.length + count + 1) + 1 := by
      simp only [List.length_cons, List.length_append]
      omega
    have hoffset : offset + (kind.opening :: (inner.text ++ kind.closing :: rest.text)).length =
        offset + 1 + inner.text.length + 1 + rest.text.length := by
      simp only [List.length_cons, List.length_append]
      omega
    rw [text, hcount, hoffset, List.cons_append, List.append_assoc, List.cons_append,
      codeWithinFrom_cons (hopened _), ihinner hbehind, codeWithinFrom_cons (hclosed _), ih hrest,
      cursors]
    simp

/-- The code of a statement that is a phrase. -/
theorem code_text {p : Phrase} (h : p.Reads none) : p.text.code = p.cursors 0 [] [] := by
  have hcode := @codeWithinFrom_text p [] h 0 0 []
  simpa [Text.code, Cursor.code, Text.cursor, Cursor.codeFrom_eq_codeWithinFrom,
    Cursor.codeWithinFrom] using hcode

/-- The code of a phrase stands where the phrase does. -/
theorem offset_of_mem_cursors {p : Phrase} {offset : Nat} {before tail : Text} {c : Cursor}
    (h : c ∈ p.cursors offset before tail) :
    offset ≤ c.offset ∧ c.offset < offset + p.text.length := by
  induction p generalizing offset before tail with
  | nil => simp [cursors] at h
  | byte b rest ih =>
    rw [text, List.length_cons]
    rcases List.mem_cons.mp h with rfl | h
    · exact ⟨Nat.le_refl _, by dsimp only; omega⟩
    · have := ih h
      omega
  | quoted q value rest ih =>
    have := ih h
    rw [text, List.length_append]
    omega
  | group kind inner rest ihinner ih =>
    simp only [text, List.length_cons, List.length_append]
    rcases List.mem_cons.mp h with rfl | h
    · exact ⟨Nat.le_refl _, by dsimp only; omega⟩
    · rcases List.mem_append.mp h with h | h
      · have := ihinner h
        omega
      · rcases List.mem_cons.mp h with rfl | h
        · dsimp only
          omega
        · have := ih h
          omega

/-- A cursor before a byte that is no bracket sees none. -/
theorem sees_of_isBracket {c : Cursor} {b : UInt8} {rest : Text} (hafter : c.after = b :: rest)
    (h : Byte.isBracket b = false) (kind : Bracket) :
    c.sees kind.opening = false ∧ c.sees kind.closing = false := by
  simp only [Byte.isBracket, Byte.opensLevel, Byte.closesLevel, Bool.or_eq_false_iff] at h
  simp only [Cursor.sees, Cursor.byte?, hafter, List.head?_cons]
  cases kind with
  | paren => exact ⟨h.1.1.1, h.2.1.1⟩
  | square => exact ⟨h.1.1.2, h.2.1.2⟩
  | brace => exact ⟨h.1.2, h.2.2⟩

/-- A bracket of one kind is none of another. -/
theorem sees_of_ne {c : Cursor} {kind other : Bracket} (hne : other ≠ kind)
    (h : c.byte? = some other.opening ∨ c.byte? = some other.closing) :
    c.sees kind.opening = false ∧ c.sees kind.closing = false := by
  simp only [Cursor.sees]
  rcases h with h | h <;> rw [h] <;> revert hne <;> cases kind <;> cases other <;> decide

theorem sees_opening_of_closing {c : Cursor} {kind : Bracket} (h : c.byte? = some kind.closing) :
    c.sees kind.opening = false := by
  rw [Cursor.sees, h]
  cases kind <;> decide

/-- Inside a bracket, the search for the one that closes it passes over a phrase. -/
theorem closing?_cursors (kind : Bracket) {p : Phrase} {next : Option UInt8} (h : p.Reads next)
    (depth offset : Nat) (before tail : Text) (code : List Cursor) :
    closing? kind.opening kind.closing (depth + 1) (p.cursors offset before tail ++ code) =
      closing? kind.opening kind.closing (depth + 1) code := by
  induction p generalizing next depth offset before tail code with
  | nil => rfl
  | byte b rest ih =>
    rw [cursors, List.cons_append]
    obtain ⟨hopen, hclose⟩ := sees_of_isBracket
      (show Cursor.after ⟨offset, before, b :: (rest.text ++ tail)⟩ = _ from rfl) h.2.1 kind
    rw [closing?_of_other hopen hclose]
    exact ih h.2.2.2 depth _ _ _ code
  | quoted q value rest ih => exact ih h.2.2 depth _ _ _ code
  | group other inner rest ihinner ih =>
    obtain ⟨hinner, hrest⟩ := h
    simp only [cursors, List.cons_append, List.append_assoc]
    by_cases hkind : other = kind
    · subst hkind
      rw [closing?_of_opening (by simp [Cursor.sees, Cursor.byte?]), ihinner hinner,
        closing?_of_closing (sees_opening_of_closing rfl) (by simp [Cursor.sees, Cursor.byte?])]
      exact ih hrest depth _ _ _ code
    · obtain ⟨hopen, hopen'⟩ := sees_of_ne hkind (Or.inl (show Cursor.byte? ⟨offset, before,
        other.opening :: (inner.text ++ other.closing :: (rest.text ++ tail))⟩ = _ from rfl))
      rw [closing?_of_other hopen hopen', ihinner hinner]
      obtain ⟨hclose, hclose'⟩ := sees_of_ne hkind (Or.inr (show Cursor.byte?
        ⟨offset + 1 + inner.text.length, inner.text.reverse ++ other.opening :: before,
          other.closing :: (rest.text ++ tail)⟩ = _ from rfl))
      rw [closing?_of_other hclose hclose']
      exact ih hrest depth _ _ _ code

/-- The search for the bracket that closes one finds it behind the phrase between them. -/
theorem closing?_group (kind : Bracket) {inner : Phrase} (h : inner.Reads (some kind.closing))
    (offset : Nat) (before behind : Text) :
    closing? kind.opening kind.closing 0
        (Cursor.code ⟨offset, before, kind.opening :: (inner.text ++ kind.closing :: behind)⟩) =
      some ⟨offset + 1 + inner.text.length, inner.text.reverse ++ kind.opening :: before,
        kind.closing :: behind⟩ := by
  have hreads : (group kind inner nil).Reads behind.head? := ⟨h, trivial⟩
  have hcode := codeWithinFrom_text hreads behind.length offset before
  have htext : (group kind inner nil).text ++ behind =
      kind.opening :: (inner.text ++ kind.closing :: behind) := by simp [text]
  rw [Cursor.code, Cursor.codeFrom_eq_codeWithinFrom]
  dsimp only
  rw [← htext, List.length_append, hcode]
  simp only [cursors, List.cons_append, List.append_assoc]
  rw [closing?_of_opening (by simp [Cursor.sees, Cursor.byte?]), closing?_cursors kind h,
    closing?_of_last (sees_opening_of_closing rfl) (by simp [Cursor.sees, Cursor.byte?])]
  simp [text]

section Spans

variable {stop start : Nat} {depth : Int} {c : Cursor} {code : List Cursor}

theorem commaSpans_of_opening (h : c.byte?.any Byte.opensLevel = true) :
    commaSpans stop depth start (c :: code) = commaSpans stop (depth + 1) start code := by
  rw [commaSpans, if_pos h]

theorem commaSpans_of_closing (hopen : c.byte?.any Byte.opensLevel = false)
    (h : c.byte?.any Byte.closesLevel = true) :
    commaSpans stop depth start (c :: code) = commaSpans stop (depth - 1) start code := by
  rw [commaSpans, if_neg (by simp [hopen]), if_pos h]

theorem commaSpans_of_other (hopen : c.byte?.any Byte.opensLevel = false)
    (hclose : c.byte?.any Byte.closesLevel = false) (h : c.sees Byte.comma = false ∨ depth ≠ 0) :
    commaSpans stop depth start (c :: code) = commaSpans stop depth start code := by
  have hcomma : (c.sees Byte.comma && depth == 0) = false := by
    rcases h with h | h <;> simp [h]
  rw [commaSpans, if_neg (by simp [hopen]), if_neg (by simp [hclose]), if_neg (by simp [hcomma])]

theorem commaSpans_of_comma (hopen : c.byte?.any Byte.opensLevel = false)
    (hclose : c.byte?.any Byte.closesLevel = false) (h : c.sees Byte.comma = true) :
    commaSpans stop 0 start (c :: code) =
      (start, c.offset) :: commaSpans stop 0 (c.offset + 1) code := by
  rw [commaSpans, if_neg (by simp [hopen]), if_neg (by simp [hclose]), if_pos (by simp [h])]

end Spans

/-- The search for commas passes over a phrase without any outside all brackets. -/
theorem commaSpans_cursors {p : Phrase} {next : Option UInt8} (h : p.Reads next) {depth : Nat}
    (hcommas : depth ≠ 0 ∨ p.commas = 0) (stop start offset : Nat) (before tail : Text)
    (code : List Cursor) :
    commaSpans stop depth start (p.cursors offset before tail ++ code) =
      commaSpans stop depth start code := by
  induction p generalizing next depth offset before tail code with
  | nil => rfl
  | byte b rest ih =>
    have hlevel := h.2.1
    simp only [Byte.isBracket, Bool.or_eq_false_iff] at hlevel
    rw [cursors, List.cons_append, commaSpans_of_other (by simpa [Cursor.byte?] using hlevel.1)
      (by simpa [Cursor.byte?] using hlevel.2)]
    · refine ih h.2.2.2 (hcommas.imp_right fun hcommas => ?_) _ _ _ code
      rw [commas] at hcommas
      split at hcommas
      · omega
      · exact hcommas
    · rcases hcommas with hdepth | hcommas
      · exact Or.inr (by simpa using hdepth)
      · rw [commas] at hcommas
        split at hcommas
        · omega
        next hb => exact Or.inl (by simp [Cursor.sees, Cursor.byte?, hb])
  | quoted q value rest ih => exact ih h.2.2 hcommas _ _ _ code
  | group kind inner rest ihinner ih =>
    obtain ⟨hinner, hrest⟩ := h
    have hopening (rest : Text) : (Option.any Byte.opensLevel
        (Cursor.byte? ⟨offset, before, kind.opening :: rest⟩)) = true := by
      cases kind <;> rfl
    have hclosing (offset : Nat) (before rest : Text) : (Option.any Byte.opensLevel
        (Cursor.byte? ⟨offset, before, kind.closing :: rest⟩)) = false ∧
        (Option.any Byte.closesLevel
          (Cursor.byte? ⟨offset, before, kind.closing :: rest⟩)) = true := by
      cases kind <;> exact ⟨rfl, rfl⟩
    have hdeeper : (depth : Int) + 1 = (depth + 1 : Nat) := rfl
    simp only [cursors, List.cons_append, List.append_assoc]
    rw [commaSpans_of_opening (hopening _), hdeeper,
      ihinner hinner (Or.inl (Nat.succ_ne_zero depth)),
      commaSpans_of_closing (hclosing _ _ _).1 (hclosing _ _ _).2, ← hdeeper, Int.add_sub_cancel]
    exact ih hrest hcommas _ _ _ code

theorem cursors_append (first last : Phrase) (offset : Nat) (before tail : Text) :
    (first.append last).cursors offset before tail =
      first.cursors offset before (last.text ++ tail) ++
        last.cursors (offset + first.text.length) (first.text.reverse ++ before) tail := by
  induction first generalizing offset before with
  | nil => simp [append, cursors, text]
  | byte b rest ih =>
    have hoffset : offset + (rest.text.length + 1) = offset + 1 + rest.text.length := by omega
    simp [append, cursors, text, ih, hoffset]
  | quoted q value rest ih => simp [append, cursors, text, ih, Nat.add_assoc]
  | group kind inner rest _ ih =>
    have hoffset : offset + (inner.text.length + (rest.text.length + 1) + 1) =
        offset + 1 + inner.text.length + 1 + rest.text.length := by omega
    simp [append, cursors, text, ih, hoffset]

/-- The arguments that a phrase lists. -/
def arguments (p : Phrase) : List Text :=
  if (trim p.text).isEmpty then [] else p.pieces.map fun piece => trim piece.text

theorem slice_append (front middle tail : Text) :
    Text.slice (front ++ (middle ++ tail)) front.length (front.length + middle.length) =
      middle := by
  rw [slice, List.drop_left, Nat.add_sub_cancel_left, List.take_left]

/-- The stretches between the commas of a phrase are its pieces. -/
theorem map_slice_commaSpans {p : Phrase} {next : Option UInt8} (h : p.Reads next)
    (front tail : Text) :
    (commaSpans (front.length + p.text.length) 0 front.length
        (p.cursors front.length front.reverse tail)).map
        (fun span => Text.slice (front ++ (p.text ++ tail)) span.1 span.2) =
      p.pieces.map text := by
  have hzero : (0 : Int) = (0 : Nat) := rfl
  induction p using piecesInduction generalizing front with
  | last p hcommas hpieces =>
    have hspans := @commaSpans_cursors p next h 0 (Or.inr hcommas)
      (front.length + p.text.length) front.length front.length front.reverse tail []
    rw [List.append_nil] at hspans
    rw [hpieces, hzero, hspans, commaSpans]
    simp [slice_append]
  | more first rest hcommas hpieces ih =>
    rw [reads_append] at h
    have hlength : (front ++ first.text ++ [Byte.comma]).length =
        front.length + first.text.length + 1 := by simp; omega
    have hreverse : (front ++ first.text ++ [Byte.comma]).reverse =
        Byte.comma :: (first.text.reverse ++ front.reverse) := by simp
    have hstop : front.length + (first.append (byte Byte.comma rest)).text.length =
        (front ++ first.text ++ [Byte.comma]).length + rest.text.length := by
      rw [hlength, text_append, List.length_append, text, List.length_cons]
      omega
    have htext : front ++ ((first.append (byte Byte.comma rest)).text ++ tail) =
        front ++ first.text ++ [Byte.comma] ++ (rest.text ++ tail) := by
      simp [text]
    have hfirst : Text.slice (front ++ first.text ++ [Byte.comma] ++ (rest.text ++ tail))
        front.length (front.length + first.text.length) = first.text := by
      have := slice_append front first.text (Byte.comma :: (rest.text ++ tail))
      simpa using this
    have hlater := ih h.2.2.2.2 (front ++ first.text ++ [Byte.comma])
    rw [hlength, hreverse] at hlater
    rw [cursors_append, hstop, htext, hlength, hzero,
      commaSpans_cursors h.1 (Or.inr hcommas), ← hzero, cursors,
      commaSpans_of_comma rfl rfl rfl, List.map_cons, hlater, hpieces, List.map_cons, hfirst]

/-- The arguments between two offsets are those of the phrase that stands there. -/
theorem arguments_text {p : Phrase} {tail : Text} (h : p.Reads tail.head?) (front : Text) :
    Text.arguments (front ++ (p.text ++ tail)) front.length (front.length + p.text.length) =
      p.arguments := by
  have hcursor : Text.cursor (front ++ (p.text ++ tail)) front.length =
      ⟨front.length, front.reverse, p.text ++ tail⟩ := by
    simp [Text.cursor]
  have hcode : Text.codeBetween (front ++ (p.text ++ tail)) front.length
      (front.length + p.text.length) = p.cursors front.length front.reverse tail := by
    have hwithin := codeWithinFrom_text h 0 front.length front.reverse
    rw [codeBetween, Nat.min_eq_left (Nat.le_add_right _ _), Nat.add_sub_cancel_left, hcursor,
      Cursor.codeWithin]
    simpa [Cursor.codeWithinFrom] using hwithin
  rw [Text.arguments, slice_append, hcode, arguments]
  split
  · rfl
  · have hpieces := congrArg (List.map trim) (map_slice_commaSpans h front tail)
    simpa [Function.comp_def] using hpieces

/-- Every argument of a phrase is the text of a phrase again, with the same property of its calls. -/
theorem fits_of_mem_arguments {P : Text → Phrase → Prop} {p : Phrase} {next : Option UInt8}
    (hreads : p.Reads next) (hcalls : p.AllCalls P []) {argument : Text}
    (h : argument ∈ p.arguments) : ∃ q : Phrase, q.text = argument ∧ q.Fits P := by
  unfold arguments at h
  split at h
  · simp at h
  · obtain ⟨piece, hpiece, rfl⟩ := List.mem_map.mp h
    exact (fits_of_mem_pieces hreads hcalls hpiece).trim

theorem length_le_of_mem_arguments {p : Phrase} {next : Option UInt8} (hreads : p.Reads next)
    {argument : Text} (h : argument ∈ p.arguments) : argument.length ≤ p.text.length := by
  have hargs := @arguments_text p [] hreads.to_none [Byte.openParen]
  rw [← hargs] at h
  have hlt := Text.length_lt_of_mem_arguments (Nat.le_refl 1) h
  simp only [List.append_nil, List.singleton_append, List.length_cons] at hlt
  omega

/-- A phrase with a comma outside all brackets lists at least two arguments. -/
theorem two_le_length_arguments {p : Phrase} : 2 ≤ p.arguments.length ↔ p.commas ≠ 0 := by
  constructor
  · intro hlength hzero
    unfold arguments at hlength
    split at hlength
    · simp at hlength
    · simp [hzero] at hlength
  · intro hcommas
    obtain ⟨first, rest, hp, -⟩ := exists_first_piece hcommas
    have hmem : Byte.comma ∈ p.text := by simp [hp, text]
    have htrim : trim p.text ≠ [] := by
      intro hnil
      obtain ⟨before, behind, htext, hbefore, hbehind, -⟩ := exists_trim_filler p.text
      rw [hnil, List.append_nil] at htext
      rw [htext] at hmem
      rcases List.mem_append.mp hmem with hmem | hmem
      · exact absurd (hbefore _ hmem) (by decide)
      · exact absurd (hbehind _ hmem) (by decide)
    rw [arguments, if_neg (by simpa using htrim), List.length_map, length_pieces]
    omega

end Phrase

end QueryBridge
