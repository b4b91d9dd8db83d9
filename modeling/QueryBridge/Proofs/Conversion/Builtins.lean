import QueryBridge.Conversion.Pipeline
import QueryBridge.Proofs.Conversion.Calls
import QueryBridge.Proofs.Phrase.Builtin
import QueryBridge.Proofs.Phrase.Clean
import QueryBridge.Proofs.Phrase.Rewrite

/-!
# No builtin is left behind

The rules run one after the other, each on what the ones before it have made. In a clean statement
no replacement spells the name of a builtin before a parenthesis, neither by itself nor at a seam.
So a rule that has run has nothing left to do, whatever the rules behind it put in.
-/

namespace QueryBridge

open Text

/-- What holds of every parenthesis once some rules have run: the word before it names none of their
builtins, and if it names `multiIf` then the parenthesis holds a comma. -/
def Avoids (done : List Rule) (name : Text) (inner : Phrase) : Prop :=
  (∀ rule ∈ done, rule.callee.names name = false) ∧
    (branching.names name = true → inner.commas ≠ 0)

/-- Steps that go on from what the first one makes without a warning. -/
theorem forEach_cons {α : Type} {element : α} {elements : List α} {run : α → Text → Converted}
    {text out : Text} (h : run element text = ⟨out, []⟩) :
    Converted.forEach (element :: elements) run text = Converted.forEach elements run out := by
  rw [Converted.forEach, List.foldl_cons, Converted.start, Converted.andThen]
  simp only [h, List.append_nil]
  rfl

section Step

variable {rule : Rule} {done : List Rule}

theorem avoids_of_unnamed (hdone : ∀ rule ∈ done, rule ∈ builtinRules) {name : Text}
    (inner : Phrase) (h : Unnamed name) : Avoids done name inner := by
  refine ⟨fun rule hrule => h rule (hdone rule hrule), fun hbranching => ?_⟩
  rw [branching_of_unnamed h] at hbranching
  simp at hbranching

/-- If the arguments of a call are converted as they should be, what takes the place of the call can
stand there. -/
theorem stands_apply_of_avoids (hrule : rule ∈ builtinRules)
    (hdone : ∀ rule ∈ done, rule ∈ builtinRules) {name : Text} {inner : Phrase}
    (hnames : rule.callee.names name = true) (havoids : Avoids done name inner)
    (hargument : ∀ argument ∈ inner.arguments, ∃ out,
      replaceBuiltin rule argument = ⟨out, []⟩ ∧ out.Fits (Avoids (rule :: done))) :
    (rule.apply (inner.arguments.map fun argument =>
      (replaceBuiltin rule argument).sql)).Stands (Avoids (rule :: done)) ∧
      ∀ argument ∈ inner.arguments, (replaceBuiltin rule argument).warnings = [] := by
  have hP : ∀ name inner, Unnamed name → Avoids (rule :: done) name inner := fun name inner =>
    avoids_of_unnamed (List.forall_mem_cons.mpr ⟨hrule, hdone⟩) inner
  refine ⟨Replacement.stands_apply (Replacement.isShaped_builtinRules rule hrule) hP ?_ ?_, ?_⟩
  · intro out hout
    obtain ⟨argument, hmem, rfl⟩ := List.mem_map.mp hout
    obtain ⟨out, hreplace, hfits⟩ := hargument argument hmem
    rwa [hreplace]
  · intro hfirst
    rw [callee_of_firstBranch rule hrule hfirst] at hnames
    rw [List.length_map]
    exact Phrase.two_le_length_arguments.mpr (havoids.2 hnames)
  · intro argument hmem
    obtain ⟨out, hreplace, -⟩ := hargument argument hmem
    rw [hreplace]

/-- One rule leaves none of its calls behind, and brings back none of those that are gone. -/
theorem exists_replaceBuiltin (hrule : rule ∈ builtinRules)
    (hdone : ∀ rule ∈ done, rule ∈ builtinRules) {text : Text} (h : text.Fits (Avoids done)) :
    ∃ out, replaceBuiltin rule text = ⟨out, []⟩ ∧ out.Fits (Avoids (rule :: done)) := by
  induction hlength : text.length using Nat.strongRecOn generalizing text with
  | ind n ih =>
    obtain ⟨p, rfl, hreads, hcalls⟩ := h
    have hname := isWord_builtinRules rule hrule
    -- What takes the place of a call, by induction on what its parentheses hold.
    have hcall (name : Text) (inner : Phrase) (hnames : rule.callee.names name = true)
        (havoids : Avoids done name inner) (hinner : inner.Reads none)
        (hcalls : inner.AllCalls (Avoids done) []) (hlt : inner.text.length < p.text.length) :=
      stands_apply_of_avoids hrule hdone hnames havoids fun argument hargument => by
        have hle := Phrase.length_le_of_mem_arguments hinner hargument
        exact ih argument.length (by omega) (Phrase.fits_of_mem_arguments hinner hcalls hargument)
          rfl
    have hreplace (inner : Phrase) : ∃ replaced : Phrase, ∀ name,
        rule.callee.names name = true → Avoids done name inner ∧ inner.Reads none ∧
          inner.AllCalls (Avoids done) [] ∧ inner.text.length < p.text.length →
        replaced.text = rule.apply (inner.arguments.map fun argument =>
          (replaceBuiltin rule argument).sql) ∧ replaced.Stands (Avoids (rule :: done)) := by
      by_cases hhit : ∃ name, rule.callee.names name = true ∧ Avoids done name inner ∧
          inner.Reads none ∧ inner.AllCalls (Avoids done) [] ∧ inner.text.length < p.text.length
      · obtain ⟨name, hnames, havoids, hinner, hcalls, hlt⟩ := hhit
        obtain ⟨replaced, htext, hstands⟩ := (hcall name inner hnames havoids hinner hcalls hlt).1
        exact ⟨replaced, fun _ _ _ => ⟨htext, hstands⟩⟩
      · exact ⟨.nil, fun name hnames hspec => absurd ⟨name, hnames, hspec⟩ hhit⟩
    choose replace hreplace using hreplace
    have hwithin := hcalls.within hreads
    have hstands : p.AllCalls (fun name inner => rule.callee.names name = true →
        (replace inner).Stands (Avoids (rule :: done))) [] :=
      hwithin.mono fun name inner hspec hnames => (hreplace inner name hnames hspec).2
    refine ⟨(p.rewrite rule.callee replace []).text, ?_, _, rfl, ?_, ?_⟩
    · refine Phrase.replaceCalls_text hname hreads (hwithin.mono fun name inner hspec hnames => ?_)
      obtain ⟨havoids, hinner, hcalls, hlt⟩ := hspec
      exact ⟨(hreplace inner name hnames ⟨havoids, hinner, hcalls, hlt⟩).1,
        (hcall name inner hnames havoids hinner hcalls hlt).2⟩
    · exact Phrase.reads_rewrite hreads (by simp) hstands
    · refine Phrase.allCalls_rewrite (by simp) hcalls hstands
        fun name inner inner' havoids hnames hcommas => ⟨?_, fun hbranching => ?_⟩
      · exact List.forall_mem_cons.mpr ⟨hnames, havoids.1⟩
      · have := havoids.2 hbranching
        omega

/-- Rules that run one after the other leave none of their calls behind. -/
theorem exists_forEach {rules done : List Rule} (hrules : ∀ rule ∈ rules, rule ∈ builtinRules)
    (hdone : ∀ rule ∈ done, rule ∈ builtinRules) {text : Text} (h : text.Fits (Avoids done)) :
    ∃ out, Converted.forEach rules replaceBuiltin text = ⟨out, []⟩ ∧
      out.Fits (Avoids (rules.reverse ++ done)) := by
  induction rules generalizing done text with
  | nil => exact ⟨text, rfl, h⟩
  | cons rule rules ih =>
    obtain ⟨hrule, hrules⟩ := List.forall_mem_cons.mp hrules
    obtain ⟨middle, hmiddle, hfits⟩ := exists_replaceBuiltin hrule hdone h
    obtain ⟨out, hout, hfits⟩ := ih hrules (List.forall_mem_cons.mpr ⟨hrule, hdone⟩) hfits
    exact ⟨out, (forEach_cons hmiddle).trans hout, by simpa using hfits⟩

end Step

/-- Where no call of a builtin starts, its rule changes nothing. -/
theorem replaceBuiltin_of_survey {rule : Rule} {text : Text}
    (h : rule.callee.survey 0 text.code = ⟨[], none⟩) : replaceBuiltin rule text = ⟨text, []⟩ := by
  rw [replaceBuiltin, Phrase.replaceCalls_eq, h]
  rfl

/-- Steps that change nothing. -/
theorem forEach_of_eq {α : Type} {elements : List α} {run : α → Text → Converted} {text : Text}
    (h : ∀ element ∈ elements, run element text = ⟨text, []⟩) :
    Converted.forEach elements run text = ⟨text, []⟩ := by
  induction elements with
  | nil => rfl
  | cons element elements ih =>
    obtain ⟨helement, helements⟩ := List.forall_mem_cons.mp h
    rw [forEach_cons helement, ih helements]

/-- What every step keeps, without a warning, is kept by all of them. -/
theorem forEach_keeps {α : Type} {elements : List α} {run : α → Text → Converted}
    {Q : Text → Prop}
    (h : ∀ element ∈ elements, ∀ text, Q text →
      Q (run element text).sql ∧ (run element text).warnings = []) {text : Text} (hQ : Q text) :
    Q (Converted.forEach elements run text).sql ∧
      (Converted.forEach elements run text).warnings = [] := by
  refine List.foldlRecOn (motive := fun converted : Converted =>
    Q converted.sql ∧ converted.warnings = []) elements _ ⟨hQ, rfl⟩
    fun converted hkept element helement => ?_
  obtain ⟨hsql, hwarnings⟩ := h element helement _ hkept.1
  exact ⟨hsql, by simp [Converted.andThen, hkept.2, hwarnings]⟩

/-- A phrase without a call of a callee has none to survey. -/
theorem survey_of_avoids {done : List Rule} {rule : Rule} (hrule : rule ∈ done)
    (hname : rule.callee.IsWord) {text : Text} (h : text.Fits (Avoids done)) :
    rule.callee.survey 0 text.code = ⟨[], none⟩ := by
  obtain ⟨p, rfl, hreads, hcalls⟩ := h
  have hsites : p.sites rule.callee 0 [] = [] := by
    refine List.eq_nil_iff_forall_not_mem.mpr fun found hfound => ?_
    obtain ⟨name, hnames, havoids⟩ := Phrase.spec_of_mem_sites hreads hcalls hfound
    rw [havoids.1 rule hrule] at hnames
    simp at hnames
  rw [Phrase.survey_text hname hreads, hsites]
  rfl

/-- A clean statement has nothing to avoid before a rule has run. -/
theorem fits_avoids {text : Text} (h : text.Clean) : text.Fits (Avoids []) := by
  obtain ⟨p, rfl, hreads, hcalls⟩ := Phrase.fits_of_clean h
  exact ⟨p, rfl, hreads, hcalls.mono fun name inner hcommas => ⟨by simp, hcommas⟩⟩

/-- In a clean statement the rules leave no call of a builtin behind, give no warning, and find
nothing to do when they run again. -/
theorem replaceBuiltins_leaves_none {text : Text} (h : text.Clean) :
    (∀ rule ∈ builtinRules, ∀ c ∈ (replaceBuiltins text).sql.code,
      rule.callee.opening? c = none) ∧
    (replaceBuiltins text).warnings = [] ∧
    replaceBuiltins (replaceBuiltins text).sql = ⟨(replaceBuiltins text).sql, []⟩ := by
  obtain ⟨out, hout, hfits⟩ := exists_forEach (fun _ hrule => hrule) (by simp) (fits_avoids h)
  have hsurvey : ∀ rule ∈ builtinRules, rule.callee.survey 0 out.code = ⟨[], none⟩ :=
    fun rule hrule => survey_of_avoids (by simpa using hrule) (isWord_builtinRules rule hrule) hfits
  rw [replaceBuiltins, hout]
  refine ⟨fun rule hrule => Callee.opening?_of_survey (hsurvey rule hrule), rfl, ?_⟩
  exact forEach_of_eq fun rule hrule => replaceBuiltin_of_survey (hsurvey rule hrule)

/-- A call in a call, one behind a branch, and a literal that looks like one. -/
theorem replaceBuiltins_leaves_none_nested :
    Clean "SELECT uniq(toDate(d)), multiIf(p, 'now()', toHour(t))" ∧
      (replaceBuiltins "SELECT uniq(toDate(d)), multiIf(p, 'now()', toHour(t))").sql =
        "SELECT COUNT(DISTINCT CAST(d AS DATE)), CASE WHEN p THEN 'now()' ELSE hour(t) END" ∧
      ∀ rule ∈ builtinRules, ∀ c ∈ (replaceBuiltins
        "SELECT uniq(toDate(d)), multiIf(p, 'now()', toHour(t))").sql.code,
        rule.callee.opening? c = none := by
  have hclean : Clean "SELECT uniq(toDate(d)), multiIf(p, 'now()', toHour(t))" := by
    decide +kernel
  exact ⟨hclean, by decide +kernel, (replaceBuiltins_leaves_none hclean).1⟩

end QueryBridge
