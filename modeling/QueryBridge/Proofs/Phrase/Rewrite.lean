import QueryBridge.Proofs.Phrase.Calls

/-!
# Calls replaced in a phrase

Replacing the calls of a statement that is a phrase puts a phrase in the place of each outermost
call. If those that are put in stand by themselves, the result is read as it is built, and every
parenthesis in it is one of theirs or one that was there before.
-/

namespace QueryBridge

open Text

namespace Phrase

/-- Puts a phrase in the place of each outermost call, in a phrase that stands behind a word. -/
def rewrite (callee : Callee) (replace : Phrase → Phrase) (word : Text) : Phrase → Phrase
  | nil => ofBytes word
  | byte b rest =>
    if Byte.isIdent b then rest.rewrite callee replace (word ++ [b])
    else (ofBytes word).append (byte b (rest.rewrite callee replace []))
  | quoted q value rest =>
    (ofBytes word).append (quoted q value (rest.rewrite callee replace []))
  | group kind inner rest =>
    if kind = .paren ∧ callee.names word = true then
      (replace inner).append (rest.rewrite callee replace [])
    else
      (ofBytes word).append
        (group kind (inner.rewrite callee replace []) (rest.rewrite callee replace []))

section Sites

variable {callee : Callee} {replace : Phrase → Phrase} {word : Text} {offset : Nat}

/-- The calls in a phrase stand where the phrase does, or start with the word before it. -/
theorem bounds_of_mem_sites {p : Phrase} {found : CallSite × Phrase} (hle : word.length ≤ offset)
    (h : found ∈ p.sites callee offset word) :
    offset - word.length ≤ found.1.start ∧ found.1.stop ≤ offset + p.text.length := by
  induction p generalizing offset word with
  | nil => simp [sites] at h
  | byte b rest ih =>
    have hword : (wordWith word b).length ≤ word.length + 1 := by
      unfold wordWith
      split <;> simp
    have := ih (by omega) h
    rw [text, List.length_cons]
    omega
  | quoted q value rest ih =>
    have := ih (Nat.zero_le _) h
    rw [List.length_nil] at this
    rw [text, List.length_append]
    omega
  | group kind inner rest ihinner ih =>
    have hlength : (group kind inner rest).text.length =
        inner.text.length + rest.text.length + 2 := by
      simp only [text, List.length_cons, List.length_append]
      omega
    have hrest (h : found ∈ rest.sites callee (offset + 1 + inner.text.length + 1) []) :
        offset - word.length ≤ found.1.start ∧
          found.1.stop ≤ offset + (group kind inner rest).text.length := by
      have := ih (Nat.zero_le _) h
      rw [List.length_nil] at this
      omega
    rw [sites] at h
    split at h
    · rcases List.mem_cons.mp h with rfl | h
      · dsimp only [CallSite.stop]
        omega
      · exact hrest h
    · rcases List.mem_append.mp h with h | h
      · have := ihinner (Nat.zero_le _) h
        rw [List.length_nil] at this
        omega
      · exact hrest h

/-- What a call holds is a phrase with the properties of the whole. -/
theorem spec_of_mem_sites {P : Text → Phrase → Prop} {p : Phrase} {next : Option UInt8}
    {found : CallSite × Phrase} (hreads : p.Reads next) (hcalls : p.AllCalls P word)
    (h : found ∈ p.sites callee offset word) :
    ∃ name, callee.names name = true ∧ P name found.2 := by
  induction p generalizing offset word next with
  | nil => simp [sites] at h
  | byte b rest ih => exact ih hreads.2.2.2 hcalls h
  | quoted q value rest ih => exact ih hreads.2.2 hcalls h
  | group kind inner rest ihinner ih =>
    obtain ⟨hcall, hinner, hrest⟩ := hcalls
    rw [sites] at h
    split at h
    next hhit =>
      rcases List.mem_cons.mp h with rfl | h
      · exact ⟨word, hhit.2, hcall hhit.1⟩
      · exact ih hreads.2 hrest h
    · rcases List.mem_append.mp h with h | h
      · exact ihinner hreads.1 hinner h
      · exact ih hreads.2 hrest h

/-- The arguments of a call are those of the phrase that it holds. -/
theorem arguments_of_mem_sites {p : Phrase} {front tail : Text} {found : CallSite × Phrase}
    (hreads : p.Reads tail.head?) (h : found ∈ p.sites callee front.length word) :
    found.1.arguments (front ++ (p.text ++ tail)) = found.2.arguments := by
  induction p generalizing front tail word with
  | nil => simp [sites] at h
  | byte b rest ih =>
    have hfront : (front ++ [b]).length = front.length + 1 := by simp
    rw [sites, ← hfront] at h
    have := ih hreads.2.2.2 h
    simpa [text] using this
  | quoted q value rest ih =>
    rw [sites, ← List.length_append] at h
    have := ih hreads.2.2 h
    simpa [text] using this
  | group kind inner rest ihinner ih =>
    obtain ⟨hinner, hrest⟩ := hreads
    have hopen : (front ++ [kind.opening]).length = front.length + 1 := by simp
    have hclosed : (front ++ [kind.opening] ++ inner.text ++ [kind.closing]).length =
        front.length + 1 + inner.text.length + 1 := by simp; omega
    have hsplit : front ++ ((group kind inner rest).text ++ tail) = front ++ [kind.opening] ++
        (inner.text ++ kind.closing :: (rest.text ++ tail)) := by simp [text]
    have hlast : front ++ ((group kind inner rest).text ++ tail) =
        front ++ [kind.opening] ++ inner.text ++ [kind.closing] ++ (rest.text ++ tail) := by
      simp [text]
    rw [sites, ← hclosed, ← hopen] at h
    have hlater (h : found ∈ rest.sites callee
        (front ++ [kind.opening] ++ inner.text ++ [kind.closing]).length []) :
        found.1.arguments (front ++ ((group kind inner rest).text ++ tail)) =
          found.2.arguments := by
      rw [hlast]
      exact ih hrest h
    split at h
    · rcases List.mem_cons.mp h with rfl | h
      · rw [CallSite.arguments, hsplit]
        dsimp only
        rw [← hopen]
        exact @arguments_text inner (kind.closing :: (rest.text ++ tail)) hinner _
      · exact hlater h
    · rcases List.mem_append.mp h with h | h
      · rw [hsplit]
        exact ihinner hinner h
      · exact hlater h

/-- The edits that put phrases in the places of calls. -/
def editsOf (replace : Phrase → Phrase) (sites : List (CallSite × Phrase)) : List Edit :=
  sites.map fun found => ⟨found.1.start, found.1.stop, (replace found.2).text⟩

theorem editsOf_cons (found : CallSite × Phrase) (sites : List (CallSite × Phrase)) :
    editsOf replace (found :: sites) =
      ⟨found.1.start, found.1.stop, (replace found.2).text⟩ :: editsOf replace sites := rfl

theorem editsOf_append (first last : List (CallSite × Phrase)) :
    editsOf replace (first ++ last) = editsOf replace first ++ editsOf replace last :=
  List.map_append

theorem start_of_mem_editsOf {p : Phrase} {edit : Edit} (hle : word.length ≤ offset)
    (h : edit ∈ editsOf replace (p.sites callee offset word)) :
    offset - word.length ≤ edit.start := by
  obtain ⟨found, hfound, rfl⟩ := List.mem_map.mp h
  exact (bounds_of_mem_sites hle hfound).1

/-- Splicing copies what stands before all edits. -/
theorem spliceFrom_of_drop {whole run rest : Text} {place : Nat} {edits : List Edit}
    (hdrop : whole.drop place = run ++ rest)
    (h : ∀ edit ∈ edits, place + run.length ≤ edit.start) :
    whole.spliceFrom place edits = run ++ whole.spliceFrom (place + run.length) edits := by
  have hslice : whole.slice place (place + run.length) = run := by
    rw [slice, hdrop, Nat.add_sub_cancel_left, List.take_left]
  rw [Text.spliceFrom_eq_slice_append (Nat.le_add_right _ _) h, hslice]

theorem drop_of_drop {whole run rest : Text} {place : Nat} (hdrop : whole.drop place = run ++ rest) :
    whole.drop (place + run.length) = rest := by
  rw [← List.drop_drop, hdrop, List.drop_left]

/-- Splicing copies what stands before a phrase and all edits in it and behind it. -/
theorem spliceFrom_before {whole run tail : Text} {p : Phrase} {place : Nat} {edits : List Edit}
    (hdrop : whole.drop place = run ++ (p.text ++ tail))
    (h : ∀ edit ∈ edits, place + run.length + p.text.length ≤ edit.start) :
    whole.spliceFrom place (editsOf replace (p.sites callee (place + run.length) []) ++ edits) =
      run ++ whole.spliceFrom (place + run.length)
        (editsOf replace (p.sites callee (place + run.length) []) ++ edits) := by
  refine spliceFrom_of_drop hdrop (List.forall_mem_append.mpr ⟨fun edit hedit => ?_, ?_⟩)
  · exact start_of_mem_editsOf (Nat.zero_le _) hedit
  · intro edit hedit
    have := h edit hedit
    omega

/-- Splicing copies the brackets of a group that is no call, before and behind what it makes of the
phrase between them. -/
theorem spliceFrom_group {kind : Bracket} {inner rest : Phrase} {whole tail made : Text}
    {place : Nat} {edits : List Edit}
    (hdrop : whole.drop place = (word ++ [kind.opening]) ++
      (inner.text ++ ([kind.closing] ++ (rest.text ++ tail))))
    (h : ∀ edit ∈ edits, place + (word ++ [kind.opening]).length + inner.text.length +
      [kind.closing].length + rest.text.length ≤ edit.start)
    (hinner : ∀ later : List Edit,
      (∀ edit ∈ later, place + (word ++ [kind.opening]).length + inner.text.length ≤ edit.start) →
      whole.spliceFrom (place + (word ++ [kind.opening]).length)
          (editsOf replace (inner.sites callee (place + (word ++ [kind.opening]).length) []) ++
            later) =
        made ++ whole.spliceFrom (place + (word ++ [kind.opening]).length + inner.text.length)
          later) :
    whole.spliceFrom place
        (editsOf replace (inner.sites callee (place + (word ++ [kind.opening]).length) []) ++
          (editsOf replace (rest.sites callee (place + (word ++ [kind.opening]).length +
            inner.text.length + [kind.closing].length) []) ++ edits)) =
      (word ++ [kind.opening]) ++ (made ++ ([kind.closing] ++
        whole.spliceFrom (place + (word ++ [kind.opening]).length + inner.text.length +
            [kind.closing].length)
          (editsOf replace (rest.sites callee (place + (word ++ [kind.opening]).length +
            inner.text.length + [kind.closing].length) []) ++ edits))) := by
  have hbehind : ∀ edit ∈ editsOf replace (rest.sites callee (place +
      (word ++ [kind.opening]).length + inner.text.length + [kind.closing].length) []) ++ edits,
      place + (word ++ [kind.opening]).length + inner.text.length ≤ edit.start := by
    refine List.forall_mem_append.mpr ⟨fun edit hedit => ?_, fun edit hedit => ?_⟩
    · have := start_of_mem_editsOf (Nat.zero_le _) hedit
      rw [List.length_nil] at this
      omega
    · have := h edit hedit
      omega
  rw [spliceFrom_before hdrop hbehind, hinner _ hbehind,
    spliceFrom_before (drop_of_drop (drop_of_drop hdrop)) h]

/-- Splicing the replacements of the calls of a phrase rewrites the phrase. -/
theorem spliceFrom_sites {p : Phrase} {whole tail : Text} {place : Nat} {edits : List Edit}
    (hdrop : whole.drop place = word ++ (p.text ++ tail))
    (h : ∀ edit ∈ edits, place + word.length + p.text.length ≤ edit.start) :
    whole.spliceFrom place (editsOf replace (p.sites callee (place + word.length) word) ++ edits) =
      (p.rewrite callee replace word).text ++
        whole.spliceFrom (place + word.length + p.text.length) edits := by
  induction p generalizing place word tail edits with
  | nil =>
    rw [rewrite, text_ofBytes]
    exact spliceFrom_of_drop hdrop h
  | byte b rest ih =>
    have hlength : place + (word ++ [b]).length = place + word.length + 1 := by
      rw [List.length_append, List.length_singleton, Nat.add_assoc]
    have hstop : place + word.length + (byte b rest).text.length =
        place + (word ++ [b]).length + rest.text.length := by
      rw [text, List.length_cons]
      omega
    have hdrop' : whole.drop place = (word ++ [b]) ++ (rest.text ++ tail) := by
      simpa [text] using hdrop
    rw [hstop] at h ⊢
    rw [sites, wordWith, rewrite, ← hlength]
    split
    · exact ih hdrop' h
    · have hlater := @ih [] tail _ _ (drop_of_drop hdrop') h
      rw [List.length_nil, Nat.add_zero] at hlater
      rw [spliceFrom_before hdrop' h, hlater]
      simp [text]
  | quoted q value rest ih =>
    have hlength : place + (word ++ quoteRun q value).length =
        place + word.length + (quoteRun q value).length := by
      rw [List.length_append, Nat.add_assoc]
    have hstop : place + word.length + (quoted q value rest).text.length =
        place + (word ++ quoteRun q value).length + rest.text.length := by
      rw [text, List.length_append]
      omega
    have hdrop' : whole.drop place = (word ++ quoteRun q value) ++ (rest.text ++ tail) := by
      simpa [text] using hdrop
    have hlater := @ih [] tail _ _ (drop_of_drop hdrop') (hstop ▸ h)
    rw [List.length_nil, Nat.add_zero] at hlater
    rw [hstop] at h ⊢
    rw [sites, rewrite, ← hlength, spliceFrom_before hdrop' h, hlater]
    simp [text]
  | group kind inner rest ihinner ih =>
    have hclosed : place + (word ++ kind.opening :: (inner.text ++ [kind.closing])).length =
        place + word.length + 1 + inner.text.length + 1 := by
      simp only [List.length_append, List.length_cons, List.length_nil]
      omega
    have hstop : place + word.length + (group kind inner rest).text.length =
        place + (word ++ kind.opening :: (inner.text ++ [kind.closing])).length +
          rest.text.length := by
      simp only [text, List.length_append, List.length_cons, List.length_nil]
      omega
    have hdrop' : whole.drop place =
        (word ++ kind.opening :: (inner.text ++ [kind.closing])) ++ (rest.text ++ tail) := by
      simpa [text] using hdrop
    have hlater := @ih [] tail _ _ (drop_of_drop hdrop') (hstop ▸ h)
    rw [List.length_nil, Nat.add_zero] at hlater
    rw [hstop] at h ⊢
    rw [sites, rewrite, ← hclosed]
    split
    · rw [editsOf_cons, List.cons_append, Text.spliceFrom]
      dsimp only [CallSite.stop]
      rw [← hclosed, Nat.add_sub_cancel, hlater, text_append, slice, Nat.sub_self,
        List.take_zero, List.nil_append, List.append_assoc]
    · have hopen : place + (word ++ [kind.opening]).length = place + word.length + 1 := by
        rw [List.length_append, List.length_singleton, Nat.add_assoc]
      have hclosing : place + (word ++ [kind.opening]).length + inner.text.length +
          [kind.closing].length =
          place + (word ++ kind.opening :: (inner.text ++ [kind.closing])).length := by
        rw [hopen, hclosed, List.length_singleton]
      have hdropInner : whole.drop place = (word ++ [kind.opening]) ++
          (inner.text ++ ([kind.closing] ++ (rest.text ++ tail))) := by
        simpa using hdrop'
      have hinner (later : List Edit) (hlater : ∀ edit ∈ later,
          place + (word ++ [kind.opening]).length + inner.text.length ≤ edit.start) :=
        @ihinner [] ([kind.closing] ++ (rest.text ++ tail)) _ later (drop_of_drop hdropInner) hlater
      have hgroup := spliceFrom_group hdropInner (hclosing ▸ h) hinner
      rw [hclosing, hlater] at hgroup
      rw [← hopen, editsOf_append, List.append_assoc, hgroup]
      simp [text]

/-- Replacing calls without the bookkeeping that makes the recursion end. -/
theorem replaceCalls_eq (callee : Callee) (render : List Text → Text) (text : Text) :
    replaceCalls callee render text =
      ⟨text.splice ((callee.survey 0 text.code).calls.map fun site => ⟨site.start, site.stop,
          render ((site.arguments text).map fun argument =>
            (replaceCalls callee render argument).sql)⟩),
        (callee.survey 0 text.code).calls.flatMap (fun site =>
          (site.arguments text).flatMap fun argument =>
            (replaceCalls callee render argument).warnings)
          ++ callee.warnings (callee.survey 0 text.code).unbalanced⟩ := by
  rw [replaceCalls]
  simp [Function.comp_def, List.flatMap_map]

/-- Replacing the calls of a statement that is a phrase rewrites the phrase, if what is put in the
place of a call is made from its arguments, with their calls replaced. -/
theorem replaceCalls_text {render : List Text → Text} (hname : callee.IsWord) {p : Phrase}
    (hreads : p.Reads none)
    (h : p.AllCalls (fun name inner => callee.names name = true →
      (replace inner).text =
          render (inner.arguments.map fun argument => (replaceCalls callee render argument).sql) ∧
        ∀ argument ∈ inner.arguments, (replaceCalls callee render argument).warnings = []) []) :
    replaceCalls callee render p.text = ⟨(p.rewrite callee replace []).text, []⟩ := by
  have hsites (found : CallSite × Phrase) (hfound : found ∈ p.sites callee 0 []) :
      found.1.arguments p.text = found.2.arguments ∧
        (replace found.2).text = render (found.2.arguments.map fun argument =>
          (replaceCalls callee render argument).sql) ∧
        ∀ argument ∈ found.2.arguments, (replaceCalls callee render argument).warnings = [] := by
    obtain ⟨name, hnames, hspec⟩ := spec_of_mem_sites hreads h hfound
    have hargs := @arguments_of_mem_sites callee [] p [] [] found hreads hfound
    exact ⟨by simpa using hargs, hspec hnames⟩
  have hedits : (p.sites callee 0 []).map (fun found => (⟨found.1.start, found.1.stop,
      render ((found.1.arguments p.text).map fun argument =>
        (replaceCalls callee render argument).sql)⟩ : Edit)) =
      editsOf replace (p.sites callee 0 []) := by
    refine List.map_congr_left fun found hfound => ?_
    obtain ⟨hargs, hrender, -⟩ := hsites found hfound
    rw [hargs, hrender]
  have hsplice : p.text.splice (editsOf replace (p.sites callee 0 [])) =
      (p.rewrite callee replace []).text := by
    have := @spliceFrom_sites callee replace [] p p.text [] 0 [] (by simp) (by simp)
    simpa [splice, Text.spliceFrom] using this
  have hwarnings : (p.sites callee 0 []).flatMap (fun found =>
      (found.1.arguments p.text).flatMap fun argument =>
        (replaceCalls callee render argument).warnings) = [] := by
    refine List.flatMap_eq_nil_iff.mpr fun found hfound => ?_
    obtain ⟨hargs, -, hnone⟩ := hsites found hfound
    rw [hargs]
    exact List.flatMap_eq_nil_iff.mpr hnone
  rw [replaceCalls_eq, survey_text hname hreads]
  dsimp only
  rw [List.map_map, List.flatMap_map]
  simp only [Function.comp_def]
  rw [hedits, hsplice, hwarnings]
  rfl

end Sites

section Laws

variable {callee : Callee} {replace : Phrase → Phrase} {P Q : Text → Phrase → Prop} {word : Text}
  {p : Phrase} {next : Option UInt8}

/-- A rewritten phrase starts as it did, or as a replacement does. -/
theorem head?_rewrite {f : UInt8 → Bool}
    (hstarts : p.AllCalls (fun name inner => callee.names name = true →
      ∃ b, (replace inner).text.head? = some b ∧ f b = true) word) :
    (p.rewrite callee replace word).text.head? = (word ++ p.text).head? ∨
      ∃ b, (p.rewrite callee replace word).text.head? = some b ∧ f b = true := by
  induction p generalizing word with
  | nil => simp [rewrite, text]
  | byte b rest ih =>
    rw [AllCalls, wordWith] at hstarts
    rw [rewrite]
    split
    next hident =>
      rw [if_pos hident] at hstarts
      simpa [text] using ih hstarts
    · left
      cases word <;> simp [text]
  | quoted q value rest ih =>
    left
    cases word <;> simp [rewrite, text, quoteRun]
  | group kind inner rest ihinner ih =>
    rw [rewrite]
    split
    next hhit =>
      obtain ⟨b, hb, hf⟩ := hstarts.1 hhit.1 hhit.2
      exact Or.inr ⟨b, by rw [text_append, List.head?_append, hb, Option.some_or], hf⟩
    · left
      cases word <;> simp [text]

/-- Where a phrase is read as it is built, it is after a rewrite. -/
theorem reads_rewrite (hreads : p.Reads next) (hword : ∀ b ∈ word, Byte.isIdent b = true)
    (hstands : p.AllCalls (fun name inner => callee.names name = true → (replace inner).Stands Q)
      word) : (p.rewrite callee replace word).Reads next := by
  induction p generalizing word next with
  | nil => exact reads_ofBytes hword next
  | byte b rest ih =>
    obtain ⟨hquote, hbracket, hopens, hrest⟩ := hreads
    rw [AllCalls, wordWith] at hstands
    rw [rewrite]
    split
    next hident =>
      rw [if_pos hident] at hstands
      exact ih hrest (List.forall_mem_append.mpr ⟨hword, by simpa using hident⟩) hstands
    next hident =>
      rw [if_neg hident] at hstands
      refine (reads_append _ _ _).mpr ⟨reads_ofBytes hword _, hquote, hbracket, ?_,
        ih hrest (by simp) hstands⟩
      have hstarts := hstands.mono fun _ _ hstand hnames => (hstand hnames).calm
      rcases head?_rewrite hstarts with hhead | ⟨x, hhead, hcalm⟩
      · rwa [hhead, List.nil_append]
      · rw [hhead, Option.some_or]
        exact opensComment_of_isCalm (by simpa using hcalm)
  | quoted q value rest ih =>
    obtain ⟨hquote, hnext, hrest⟩ := hreads
    rw [AllCalls] at hstands
    rw [rewrite]
    refine (reads_append _ _ _).mpr ⟨reads_ofBytes hword _, hquote, ?_, ih hrest (by simp) hstands⟩
    have hstarts := hstands.mono fun _ _ hstand hnames => (hstand hnames).calm
    rcases head?_rewrite hstarts with hhead | ⟨x, hhead, hcalm⟩
    · rwa [hhead, List.nil_append]
    · rw [hhead, Option.some_or]
      rintro ⟨rfl⟩
      simp [Byte.isCalm, hquote] at hcalm
  | group kind inner rest ihinner ih =>
    obtain ⟨hcall, hinnerStands, hrestStands⟩ := hstands
    obtain ⟨hinner, hrest⟩ := hreads
    rw [rewrite]
    split
    next hhit =>
      have hreplaced := hcall hhit.1 hhit.2
      obtain ⟨b, hb, hsafe⟩ := hreplaced.safe
      exact (reads_append _ _ _).mpr ⟨hreplaced.reads.of_isSafe (by simpa [hb] using hsafe) _,
        ih hrest (by simp) hrestStands⟩
    · exact (reads_append _ _ _).mpr ⟨reads_ofBytes hword _, ihinner hinner (by simp) hinnerStands,
        ih hrest (by simp) hrestStands⟩

/-- A rewrite loses none of the commas that stand outside all brackets. -/
theorem commas_le_rewrite (callee : Callee) (replace : Phrase → Phrase) (word : Text)
    (p : Phrase) : p.commas ≤ (p.rewrite callee replace word).commas := by
  induction p generalizing word with
  | nil => exact Nat.zero_le _
  | byte b rest ih =>
    rw [rewrite, commas]
    split
    next hcomma =>
      have := ih []
      rw [if_neg (by rw [hcomma]; decide), commas_append, commas, if_pos hcomma]
      omega
    next hcomma =>
      split
      · exact ih _
      · have := ih []
        rw [commas_append, commas, if_neg hcomma]
        omega
  | quoted q value rest ih =>
    have := ih []
    rw [rewrite, commas_append, commas, commas]
    omega
  | group kind inner rest _ ih =>
    have := ih []
    rw [rewrite, commas]
    split
    · rw [commas_append]
      omega
    · rw [commas_append, commas]
      omega

/-- Every parenthesis of a rewritten phrase is one of the replacements, or one that was there and
is no call to the callee. -/
theorem allCalls_rewrite (hword : ∀ b ∈ word, Byte.isIdent b = true) (hcalls : p.AllCalls P word)
    (hstands : p.AllCalls (fun name inner => callee.names name = true → (replace inner).Stands Q)
      word)
    (hkeep : ∀ name inner inner', P name inner → callee.names name = false →
      inner.commas ≤ inner'.commas → Q name inner') :
    (p.rewrite callee replace word).AllCalls Q [] := by
  induction p generalizing word with
  | nil => exact allCalls_ofBytes Q word []
  | byte b rest ih =>
    rw [AllCalls] at hcalls hstands
    rw [wordWith] at hcalls hstands
    rw [rewrite]
    split
    next hident =>
      rw [if_pos hident] at hcalls hstands
      exact ih (List.forall_mem_append.mpr ⟨hword, by simpa using hident⟩) hcalls hstands
    next hident =>
      rw [if_neg hident] at hcalls hstands
      refine (allCalls_append _ _ _ _).mpr ⟨allCalls_ofBytes Q word [], ?_⟩
      rw [AllCalls, wordWith, if_neg hident]
      exact ih (by simp) hcalls hstands
  | quoted q value rest ih =>
    rw [rewrite]
    exact (allCalls_append _ _ _ _).mpr ⟨allCalls_ofBytes Q word [], ih (by simp) hcalls hstands⟩
  | group kind inner rest ihinner ih =>
    obtain ⟨hcall, hinnerStands, hrestStands⟩ := hstands
    obtain ⟨hP, hinner, hrest⟩ := hcalls
    have hlater := ih (by simp) hrest hrestStands
    rw [rewrite]
    split
    next hhit =>
      have hreplaced := hcall hhit.1 hhit.2
      refine (allCalls_append _ _ _ _).mpr ⟨hreplaced.calls, ?_⟩
      rcases hreplaced.behind with hnone | hbehind
      · rwa [hnone]
      · simpa using @AllCalls.behind _ _ _ [] hlater hbehind
    next hmiss =>
      refine (allCalls_append _ _ _ _).mpr ⟨allCalls_ofBytes Q word [], ?_,
        ihinner (by simp) hinner hinnerStands, hlater⟩
      rintro rfl
      rw [lastWord_ofBytes_of_isIdent hword, List.nil_append]
      exact hkeep word inner _ (hP rfl) (by simpa using hmiss)
        (commas_le_rewrite callee replace [] inner)

end Laws

end Phrase

end QueryBridge
