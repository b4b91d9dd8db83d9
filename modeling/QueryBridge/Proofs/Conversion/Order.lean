import QueryBridge.Proofs.Conversion.Builtins
import QueryBridge.Proofs.Phrase.Tidy

/-!
# The order of the rules

No two builtins share a name, and in a clean statement where no name goes on from a closing
parenthesis, what one rule puts in makes no call of another builtin with what stands next to it. So
two rules can change places, whichever of their calls is inside the other, and the rules make the
same of the statement in any order.
-/

namespace QueryBridge

open Text

namespace Rule

/-- What a rule makes of a text. -/
def result (rule : Rule) (text : Text) : Text := (replaceBuiltin rule text).sql

/-- The whole phrase that takes the place of a call, if there is one. -/
noncomputable def phrase (rule : Rule) (inner : Phrase) : Phrase :=
  @Classical.epsilon Phrase ⟨.nil⟩ fun p =>
    p.text = rule.apply (inner.arguments.map rule.result) ∧ p.Whole

variable {rule : Rule}

theorem spec_phrase (hrule : rule ∈ builtinRules) {name : Text} {inner : Phrase}
    (hnames : rule.callee.names name = true) (hbranched : Branched name inner)
    (h : ∀ argument ∈ inner.arguments, (rule.result argument).Lone) :
    (rule.phrase inner).text = rule.apply (inner.arguments.map rule.result) ∧
      (rule.phrase inner).Whole := by
  refine @Classical.epsilon_spec Phrase _
    (Replacement.exists_whole (Replacement.isShaped_builtinRules rule hrule) ?_ ?_)
  · intro hfirst
    rw [callee_of_firstBranch rule hrule hfirst] at hnames
    rw [List.length_map]
    exact Phrase.two_le_length_arguments.mpr (hbranched hnames)
  · simpa using h

/-- A rule rewrites a tidy statement to another one with as many commas, without a warning. -/
theorem replaceBuiltin_text (hrule : rule ∈ builtinRules) {p : Phrase} (h : p.Tidy) :
    replaceBuiltin rule p.text = ⟨(p.rewrite rule.callee rule.phrase []).text, []⟩ ∧
      (p.rewrite rule.callee rule.phrase []).Tidy ∧
      (p.rewrite rule.callee rule.phrase []).commas = p.commas := by
  induction hlength : p.text.length using Nat.strongRecOn generalizing p with
  | ind n ih =>
    have hcall : p.AllCalls (fun name inner => rule.callee.names name = true →
        ((rule.phrase inner).text = rule.apply (inner.arguments.map rule.result) ∧
          (rule.phrase inner).Whole) ∧
        ∀ argument ∈ inner.arguments, (replaceBuiltin rule argument).warnings = []) [] := by
      refine h.within.mono fun name inner ⟨hbranched, hinner, hlt⟩ hnames => ?_
      have hargument : ∀ argument ∈ inner.arguments, (rule.result argument).Lone ∧
          (replaceBuiltin rule argument).warnings = [] := by
        intro argument hargument
        have hle := Phrase.length_le_of_mem_arguments hinner.reads hargument
        obtain ⟨q, rfl, htidy, hcommas⟩ := hinner.lone_of_mem_arguments hargument
        obtain ⟨hresult, hnew, hkept⟩ := ih q.text.length (by omega) htidy rfl
        exact ⟨⟨_, by rw [result, hresult], hnew, hkept.trans hcommas⟩, by rw [hresult]⟩
      exact ⟨spec_phrase hrule hnames hbranched fun argument hmem => (hargument argument hmem).1,
        fun argument hmem => (hargument argument hmem).2⟩
    refine ⟨?_, h.rewrite (hcall.mono fun _ _ hcall hnames => (hcall hnames).1.2)⟩
    exact Phrase.replaceCalls_text (isWord_builtinRules rule hrule) h.reads
      (hcall.mono fun _ _ hcall hnames => ⟨(hcall hnames).1.1, (hcall hnames).2⟩)

theorem result_text (hrule : rule ∈ builtinRules) {p : Phrase} (h : p.Tidy) :
    rule.result p.text = (p.rewrite rule.callee rule.phrase []).text := by
  rw [result, (replaceBuiltin_text hrule h).1]

/-- What a rule makes of a text that stands alone stands alone. -/
theorem lone_result (hrule : rule ∈ builtinRules) {text : Text} (h : text.Lone) :
    (rule.result text).Lone := by
  obtain ⟨p, rfl, htidy, hcommas⟩ := h
  obtain ⟨-, hnew, hkept⟩ := replaceBuiltin_text hrule htidy
  exact ⟨_, (result_text hrule htidy).symm, hnew, hkept.trans hcommas⟩

section Call

variable {name : Text} {inner : Phrase}

theorem phrase_of_names (hrule : rule ∈ builtinRules) (hnames : rule.callee.names name = true)
    (hbranched : Branched name inner) (hinner : inner.Tidy) :
    (rule.phrase inner).text = rule.apply (inner.arguments.map rule.result) ∧
      (rule.phrase inner).Whole :=
  spec_phrase hrule hnames hbranched fun _ hargument =>
    lone_result hrule (hinner.lone_of_mem_arguments hargument)

theorem steady_phrase (hrule : rule ∈ builtinRules) :
    Phrase.Steady rule.callee rule.phrase where
  unnamed h := h rule hrule
  whole hnames hbranched hinner := (phrase_of_names hrule hnames hbranched hinner).2

variable {other : Rule}

/-- What takes the place of a call is rewritten to what takes the place of the rewritten call, if
two rules can change places on its arguments. -/
theorem rewrite_phrase (hrule : rule ∈ builtinRules) (hother : other ∈ builtinRules)
    (hnames : rule.callee.names name = true) (hbranched : Branched name inner)
    (hinner : inner.Tidy)
    (hcommute : ∀ argument ∈ inner.arguments,
      other.result (rule.result argument) = rule.result (other.result argument)) :
    ((rule.phrase inner).rewrite other.callee other.phrase []).text =
      (rule.phrase (inner.rewrite other.callee other.phrase [])).text := by
  have hsteady := steady_phrase hother
  obtain ⟨htext, hwhole⟩ := phrase_of_names hrule hnames hbranched hinner
  obtain ⟨hnew, hkept⟩ := hinner.rewrite (hsteady.calls hinner)
  have hlater := (phrase_of_names hrule hnames (fun hbranching => by
    rw [hkept]
    exact hbranched hbranching) hnew).1
  have hrelated : List.Forall₂ (Rewrites other.callee other.phrase true)
      (inner.arguments.map rule.result) ((inner.arguments.map rule.result).map other.result) := by
    rw [List.forall₂_map_right_iff, List.forall₂_same, List.forall_mem_map]
    intro argument hargument
    obtain ⟨p, hp, htidy, hcommas⟩ :=
      lone_result hrule (hinner.lone_of_mem_arguments hargument)
    exact ⟨p, hp, by rw [← hp, result_text hother htidy], htidy, fun _ => hcommas⟩
  -- The template respects what the other rule makes of the arguments.
  obtain ⟨p, hp, hrewritten, htidy, -⟩ :=
    (congruence_rewrites hsteady).apply (Replacement.isShaped_builtinRules rule hrule) hrelated
  calc ((rule.phrase inner).rewrite other.callee other.phrase []).text
      = other.result p.text := by
        rw [← result_text hother hwhole.toTidy, htext, hp]
        rfl
    _ = rule.apply ((inner.arguments.map rule.result).map other.result) := by
        rw [result_text hother htidy, hrewritten]
        rfl
    _ = rule.apply ((inner.arguments.map other.result).map rule.result) := by
        rw [List.map_map, List.map_map]
        exact congrArg rule.apply (List.map_congr_left hcommute)
    _ = (rule.phrase (inner.rewrite other.callee other.phrase [])).text := by
        rw [hlater, hsteady.arguments hinner fun q hq => result_text hother hq]

/-- Two rules can change places on a call of the first one, if they can on its arguments and on what
follows. -/
theorem rewrite_rewrite_call (hrule : rule ∈ builtinRules) (hother : other ∈ builtinRules)
    (hident : ∀ b ∈ name, Byte.isIdent b = true) (hnames : rule.callee.names name = true)
    (hnot : other.callee.names name = false) (hbranched : Branched name inner)
    (hinner : inner.Tidy) {rest : Phrase} (hhead : rest.text.head?.any Byte.isIdent = false)
    (hcommute : ∀ argument ∈ inner.arguments,
      other.result (rule.result argument) = rule.result (other.result argument))
    (hrest : ((rest.rewrite rule.callee rule.phrase []).rewrite other.callee other.phrase []).text =
      ((rest.rewrite other.callee other.phrase []).rewrite rule.callee rule.phrase []).text) :
    (((Phrase.group .paren inner rest).rewrite rule.callee rule.phrase name).rewrite
        other.callee other.phrase []).text =
      (((Phrase.group .paren inner rest).rewrite other.callee other.phrase name).rewrite
        rule.callee rule.phrase []).text := by
  have hwhole := (phrase_of_names hrule hnames hbranched hinner).2
  have hcall := rewrite_phrase hrule hother hnames hbranched hinner hcommute
  -- One after the other, the call is gone before the other rule runs.
  have hfirst : (Phrase.group .paren inner rest).rewrite rule.callee rule.phrase name =
      (rule.phrase inner).append (rest.rewrite rule.callee rule.phrase []) := by
    rw [Phrase.rewrite, if_pos ⟨rfl, hnames⟩]
  have hseam : (rest.rewrite rule.callee rule.phrase []).text.head?.any Byte.isIdent = false := by
    rwa [Phrase.head?_rewrite_of_break hhead]
  rw [hfirst, Phrase.rewrite_append hseam (Or.inl (hwhole.unnamed_lastWord other hother)),
    Phrase.text_append, hcall, hrest]
  -- The other way round, it is still there with other arguments.
  have hsecond : (Phrase.group .paren inner rest).rewrite other.callee other.phrase name =
      (Phrase.ofBytes name).append (.group .paren (inner.rewrite other.callee other.phrase [])
        (rest.rewrite other.callee other.phrase [])) := by
    rw [Phrase.rewrite, if_neg (by simp [hnot])]
  rw [hsecond, Phrase.rewrite_ofBytes_append hident, List.nil_append, Phrase.rewrite,
    if_pos ⟨rfl, hnames⟩, Phrase.text_append]

end Call

variable {other : Rule}

/-- Two rules can change places on a phrase, if they can on the arguments of its calls. -/
theorem rewrite_rewrite (hrule : rule ∈ builtinRules) (hother : other ∈ builtinRules)
    (hne : rule ≠ other) {p : Phrase} {word : Text} (hword : ∀ b ∈ word, Byte.isIdent b = true)
    (hparted : p.Parted Byte.isIdent)
    (hcalls : p.AllCalls (fun name inner => Branched name inner ∧ inner.Tidy ∧
      ∀ argument ∈ inner.arguments,
        other.result (rule.result argument) = rule.result (other.result argument)) word) :
    ((p.rewrite rule.callee rule.phrase word).rewrite other.callee other.phrase []).text =
      ((p.rewrite other.callee other.phrase word).rewrite rule.callee rule.phrase []).text := by
  induction p generalizing word with
  | nil => rw [Phrase.rewrite, Phrase.rewrite, Phrase.rewrite_ofBytes, Phrase.rewrite_ofBytes]
  | byte b rest ih =>
    rw [Phrase.AllCalls, wordWith] at hcalls
    rw [Phrase.rewrite, Phrase.rewrite]
    split
    next hb =>
      rw [if_pos hb] at hcalls
      exact ih (List.forall_mem_append.mpr ⟨hword, by simpa using hb⟩) hparted hcalls
    next hb =>
      rw [if_neg hb] at hcalls
      rw [Phrase.rewrite_ofBytes_append hword, Phrase.rewrite_ofBytes_append hword]
      simp [Phrase.rewrite, hb, Phrase.text, ih (by simp) hparted hcalls]
  | quoted q value rest ih =>
    rw [Phrase.rewrite, Phrase.rewrite, Phrase.rewrite_ofBytes_append hword,
      Phrase.rewrite_ofBytes_append hword]
    simp [Phrase.rewrite, Phrase.text, ih (by simp) hparted hcalls]
  | group kind inner rest ihinner ih =>
    obtain ⟨hcall, hinner, hrest⟩ := hcalls
    obtain ⟨hhead, hpartedInner, hpartedRest⟩ := hparted
    have hlater := ih (by simp) hpartedRest hrest
    by_cases hnames : kind = .paren ∧ rule.callee.names word = true
    · obtain ⟨rfl, hnames⟩ := hnames
      obtain ⟨hbranched, htidy, hcommute⟩ := hcall rfl
      have hnot : other.callee.names word = false := by
        by_contra hnot
        exact hne (eq_of_names hrule hother hnames (by simpa using hnot))
      exact rewrite_rewrite_call hrule hother hword hnames hnot hbranched htidy (hhead rfl) hcommute
        hlater
    · by_cases hnames' : kind = .paren ∧ other.callee.names word = true
      · obtain ⟨rfl, hnames'⟩ := hnames'
        obtain ⟨hbranched, htidy, hcommute⟩ := hcall rfl
        exact (rewrite_rewrite_call hother hrule hword hnames' (by simpa using hnames) hbranched
          htidy (hhead rfl) (fun argument hargument => (hcommute argument hargument).symm)
          hlater.symm).symm
      · rw [Phrase.rewrite, if_neg hnames, Phrase.rewrite, if_neg hnames',
          Phrase.rewrite_ofBytes_append hword, Phrase.rewrite_ofBytes_append hword, List.nil_append,
          Phrase.rewrite, if_neg hnames', Phrase.rewrite, if_neg hnames]
        simp [Phrase.text, hlater, ihinner (by simp) hpartedInner hinner]

/-- Two rules can change places on a tidy statement. -/
theorem result_result (hrule : rule ∈ builtinRules) (hother : other ∈ builtinRules) {p : Phrase}
    (h : p.Tidy) : other.result (rule.result p.text) = rule.result (other.result p.text) := by
  by_cases hne : rule = other
  · rw [hne]
  induction hlength : p.text.length using Nat.strongRecOn generalizing p with
  | ind n ih =>
    have hcalls := h.within.mono (Q := fun name inner => Branched name inner ∧ inner.Tidy ∧
      ∀ argument ∈ inner.arguments,
        other.result (rule.result argument) = rule.result (other.result argument))
      fun name inner ⟨hbranched, hinner, hlt⟩ => by
        refine ⟨hbranched, hinner, fun argument hargument => ?_⟩
        have hle := Phrase.length_le_of_mem_arguments hinner.reads hargument
        obtain ⟨q, rfl, htidy, -⟩ := hinner.lone_of_mem_arguments hargument
        exact ih q.text.length (by omega) htidy rfl
    rw [result_text hrule h, result_text hother h,
      result_text hother (replaceBuiltin_text hrule h).2.1,
      result_text hrule (replaceBuiltin_text hother h).2.1]
    exact rewrite_rewrite hrule hother hne (by simp) h.parted hcalls

end Rule

/-- Steps that change places on everything they can be given do the same in any order. -/
theorem forEach_perm {α : Type} {elements later : List α} {run : α → Text → Converted}
    {Q : Text → Prop} (hperm : elements.Perm later)
    (hkeeps : ∀ element ∈ elements, ∀ text, Q text →
      ∃ out, run element text = ⟨out, []⟩ ∧ Q out)
    (hcommute : ∀ element ∈ elements, ∀ other ∈ elements, ∀ text, Q text →
      (run other (run element text).sql).sql = (run element (run other text).sql).sql)
    {text : Text} (hQ : Q text) :
    Converted.forEach elements run text = Converted.forEach later run text := by
  induction hperm generalizing text with
  | nil => rfl
  | cons element _ ih =>
    obtain ⟨out, hout, hQ⟩ := hkeeps element List.mem_cons_self text hQ
    rw [forEach_cons hout, forEach_cons hout]
    exact ih (fun element helement => hkeeps element (List.mem_cons_of_mem _ helement))
      (fun element helement other hother =>
        hcommute element (List.mem_cons_of_mem _ helement) other (List.mem_cons_of_mem _ hother)) hQ
  | swap first second others =>
    have hsecond : second ∈ second :: first :: others := by simp
    have hfirst : first ∈ second :: first :: others := by simp
    obtain ⟨a, ha, hQa⟩ := hkeeps second hsecond text hQ
    obtain ⟨b, hb, hQb⟩ := hkeeps first hfirst text hQ
    obtain ⟨c, hc, -⟩ := hkeeps first hfirst a hQa
    obtain ⟨d, hd, -⟩ := hkeeps second hsecond b hQb
    have hsame := hcommute second hsecond first hfirst text hQ
    simp only [ha, hb, hc, hd] at hsame
    rw [forEach_cons ha, forEach_cons hc, forEach_cons hb, forEach_cons hd, hsame]
  | trans hperm _ ih ih' =>
    rw [ih hkeeps hcommute hQ]
    exact ih' (fun element helement => hkeeps element (hperm.mem_iff.mpr helement))
      (fun element helement other hother =>
        hcommute element (hperm.mem_iff.mpr helement) other (hperm.mem_iff.mpr hother)) hQ

/-- In a clean statement where no name goes on from a closing parenthesis, the rules make the same
of it in any order. -/
theorem replaceBuiltins_of_perm {rules : List Rule} {text : Text} (h : text.Clean)
    (hspaced : text.Spaced) (hperm : rules.Perm builtinRules) :
    Converted.forEach rules replaceBuiltin text = replaceBuiltins text := by
  refine @forEach_perm _ _ _ _ (fun text => ∃ p : Phrase, p.text = text ∧ p.Tidy) hperm ?_ ?_ text
    (h.tidy hspaced)
  · rintro rule hrule _ ⟨p, rfl, htidy⟩
    obtain ⟨hout, hnew, -⟩ := Rule.replaceBuiltin_text (hperm.mem_iff.mp hrule) htidy
    exact ⟨_, hout, _, rfl, hnew⟩
  · rintro rule hrule other hother _ ⟨p, rfl, htidy⟩
    exact Rule.result_result (hperm.mem_iff.mp hrule) (hperm.mem_iff.mp hother) htidy

/-- From the last rule to the first, with calls in calls, a keyword in front of one and a literal
that looks like one. -/
theorem replaceBuiltins_of_perm_reverse :
    Clean "multiIf(p, 'now()', countIf(DISTINCT toDate(d), q))" ∧
      Spaced "multiIf(p, 'now()', countIf(DISTINCT toDate(d), q))" ∧
      (replaceBuiltins "multiIf(p, 'now()', countIf(DISTINCT toDate(d), q))").sql =
        ofString "CASE WHEN p THEN 'now()' ELSE " ++
          ofString "COUNT(DISTINCT CASE WHEN q THEN CAST(d AS DATE) END) END" ∧
      Converted.forEach builtinRules.reverse replaceBuiltin
          "multiIf(p, 'now()', countIf(DISTINCT toDate(d), q))" =
        replaceBuiltins "multiIf(p, 'now()', countIf(DISTINCT toDate(d), q))" := by
  have hclean : Clean "multiIf(p, 'now()', countIf(DISTINCT toDate(d), q))" := by decide +kernel
  have hspaced : Spaced "multiIf(p, 'now()', countIf(DISTINCT toDate(d), q))" := by decide +kernel
  exact ⟨hclean, hspaced, by decide +kernel,
    replaceBuiltins_of_perm hclean hspaced (List.reverse_perm builtinRules)⟩

/-- A name behind a parenthesis would go on from END, if that takes the place of the parenthesis
before the name is replaced. -/
example : (Converted.forEach builtinRules.reverse replaceBuiltin "multiIf(p, 1)now()").sql ≠
    (replaceBuiltins "multiIf(p, 1)now()").sql := by
  decide +kernel

end QueryBridge
