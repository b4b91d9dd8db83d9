import QueryBridge.Proofs.Binding.Placement
import QueryBridge.Proofs.Lexical.Silent

/-!
# What binding leaves as it is

A value can change what the author of a statement wrote in one way only: a minus sign at its
start, put right behind a minus sign of the statement, opens a line comment. Strings never do, and
each string stands in the bound statement as a literal of its own.
-/

namespace QueryBridge

open Text Edit

/-- The edits of binding remove exactly the placeholders. -/
theorem spans_of_bindEdits {text : Text} {params : Params} {edits : List Edit}
    (h : bindEdits text params = .ok edits) :
    edits.map (fun edit => (edit.start, edit.stop)) =
      text.placeholders.map fun placeholder => (placeholder.start, placeholder.stop) := by
  have hall := forall₂_of_bindEdits h
  symm
  rw [← List.forall₂_eq_eq_eq, List.forall₂_map_left_iff, List.forall₂_map_right_iff]
  exact hall.imp fun placeholder edit hedit => by simp [hedit.1, hedit.2.1]

/-- Every edit of binding stands in the place of a placeholder, with a guarded text. -/
theorem exists_placeholder_of_mem_bindEdits {text : Text} {params : Params} {edits : List Edit}
    (h : bindEdits text params = .ok edits) {edit : Edit} (hmem : edit ∈ edits) :
    edit.text.Guarded ∧ ∃ placeholder ∈ text.placeholders,
      edit.start = placeholder.start ∧ edit.stop = placeholder.stop := by
  obtain ⟨placeholder, hplaceholder, hstart, hstop, value, -, hvalue⟩ :=
    exists_of_forall₂_right (forall₂_of_bindEdits h) hmem
  exact ⟨guarded_of_renderValue hvalue, placeholder, hplaceholder, hstart, hstop⟩

/-- The edits of binding cover the braces of their placeholders. -/
theorem covers_of_bindEdits {text : Text} {params : Params} {edits : List Edit}
    (h : bindEdits text params = .ok edits) : ∀ edit ∈ edits, edit.Covers text := by
  intro edit hedit
  obtain ⟨-, placeholder, hmem, hstart, hstop⟩ := exists_placeholder_of_mem_bindEdits h hedit
  exact (standsIn_of_mem_placeholders hmem).covers hstart hstop

/-- The edits of binding are in order. -/
theorem ordered_of_bindEdits {text : Text} {params : Params} {edits : List Edit}
    (h : bindEdits text params = .ok edits) : Ordered text 0 edits := by
  refine ordered_of_covers (covers_of_bindEdits h) ?_
  have hpairwise : (text.placeholders.map fun placeholder =>
      (placeholder.start, placeholder.stop)).Pairwise fun p q => p.2 ≤ q.1 :=
    List.pairwise_map.mpr text.pairwise_placeholders
  rw [← spans_of_bindEdits h, List.pairwise_map] at hpairwise
  exact hpairwise

/-- Binding keeps the class of every byte outside the placeholders, unless a value that starts
with a minus sign is put right behind a minus sign. -/
theorem bindParams_keepsClass_iff {text bound : Text} {params : Params}
    (h : bindParams text params = .ok bound) :
    ∃ edits, bindEdits text params = .ok edits ∧ bound = text.splice edits ∧
      edits.map (fun edit => (edit.start, edit.stop)) =
        text.placeholders.map (fun placeholder => (placeholder.start, placeholder.stop)) ∧
      (text.KeepsClass edits ↔ ∀ edit ∈ edits,
        ¬((text.take edit.start).getLast? = some Byte.hyphen ∧
          edit.text.head? = some Byte.hyphen)) := by
  rw [bindParams_eq] at h
  cases hedits : bindEdits text params with
  | error cause => simp [hedits] at h
  | ok edits =>
    rw [hedits] at h
    have hordered := ordered_of_bindEdits hedits
    have hsound := fun edit hedit => (covers_of_bindEdits hedits edit hedit).sound
    have hguarded : ∀ edit ∈ edits, edit.text.Guarded := fun edit hedit =>
      (exists_placeholder_of_mem_bindEdits hedits hedit).1
    refine ⟨edits, rfl, (Except.ok.inj h).symm, spans_of_bindEdits hedits, ?_⟩
    have hsettled : ∀ edit ∈ edits, edit.Settled text := fun edit hedit =>
      (hsound edit hedit).settled
    rw [keepsClass_iff_seamless hordered hsettled fun edit hedit _ =>
      Or.inl ⟨(hguarded edit hedit).isSealed, (hguarded edit hedit).seam⟩]
    refine seamless_iff_of_guarded hordered (modeAt_zero text) hsound hguarded (by simp) ?_
    intro edit hedit
    obtain ⟨-, placeholder, hmem, -, hstop⟩ := exists_placeholder_of_mem_bindEdits hedits hedit
    rw [hstop, (standsIn_of_mem_placeholders hmem).getLast?_take_stop]
    decide

/-- Behind a minus sign of the statement a negative number opens a comment. -/
theorem bindParams_negative_behind_minus :
    bindParams "SELECT 10 -{n:Int32} AS x, y FROM t" [("n", .int (-5))] =
        .ok "SELECT 10 --5 AS x, y FROM t" ∧
      ∃ edits, bindEdits "SELECT 10 -{n:Int32} AS x, y FROM t" [("n", .int (-5))] = .ok edits ∧
        ¬KeepsClass "SELECT 10 -{n:Int32} AS x, y FROM t" edits := by
  have hbound : bindParams "SELECT 10 -{n:Int32} AS x, y FROM t" [("n", .int (-5))] =
      .ok "SELECT 10 --5 AS x, y FROM t" := by decide +kernel
  have hmade : bindEdits "SELECT 10 -{n:Int32} AS x, y FROM t" [("n", .int (-5))] =
      .ok [⟨11, 20, "-5"⟩] := by decide +kernel
  obtain ⟨edits, hedits, -, -, hiff⟩ := bindParams_keepsClass_iff hbound
  refine ⟨hbound, edits, hedits, fun hkeeps => ?_⟩
  rw [hmade, Except.ok.injEq] at hedits
  refine hiff.mp hkeeps ⟨11, 20, "-5"⟩ (by rw [← hedits]; exact List.mem_singleton_self _) ?_
  decide +kernel

/-- The string given for a parameter. -/
def Params.string (params : Params) (name : Text) : Text :=
  match params.get? name with
  | some (.string content) => content
  | _ => []

/-- The edit that puts a string in the place of a placeholder. -/
def Placeholder.literalEdit (params : Params) (placeholder : Placeholder) : Edit :=
  ⟨placeholder.start, placeholder.stop, quoteLiteral (params.string placeholder.name)⟩

/-- Whether a placeholder takes a literal for a string: a scalar, but not a number. -/
def Placeholder.takesLiteral (placeholder : Placeholder) : Prop :=
  ∃ typeName kind, placeholder.type = .scalar typeName kind ∧ kind ≠ .numeric

/-- Strings are put in as literals. -/
theorem bindEdits_of_strings {text : Text} {params : Params}
    (htype : ∀ placeholder ∈ text.placeholders, placeholder.takesLiteral)
    (hvalue : ∀ placeholder ∈ text.placeholders, ∃ content,
      params.get? placeholder.name = some (.string content)) :
    bindEdits text params = .ok (text.placeholders.map (Placeholder.literalEdit params)) := by
  have hresolve : resolve params text.placeholders = .ok (text.placeholders.map
      fun placeholder => (placeholder, .string (params.string placeholder.name))) := by
    refine mapM_eq_ok_iff.mpr ?_
    rw [List.forall₂_map_right_iff, List.forall₂_same]
    intro placeholder hmem
    obtain ⟨content, hcontent⟩ := hvalue placeholder hmem
    simp only [Params.string, hcontent]
  rw [bindEdits, hresolve]
  refine mapM_eq_ok_iff.mpr ?_
  rw [List.forall₂_map_left_iff, List.forall₂_map_right_iff, List.forall₂_same]
  intro placeholder hmem
  obtain ⟨typeName, kind, htype, hkind⟩ := htype placeholder hmem
  simp [Placeholder.edit, htype, renderValue, renderScalar, hkind, Placeholder.literalEdit, bind,
    Except.bind, pure, Except.pure]

/-- Whether a placeholder touches neither a quote of the statement nor another placeholder. -/
structure Placeholder.StandsAlone (placeholder : Placeholder) (text : Text) : Prop where
  before : (text.take placeholder.start).getLast? ≠ some Byte.quote
  behind : (text.drop placeholder.stop).head? ≠ some Byte.quote
  others : ∀ other ∈ text.placeholders,
    other.stop ≠ placeholder.start ∧ other.start ≠ placeholder.stop

/-- A literal put in where no quote and no other edit touches it is a literal run. -/
theorem literalRun_splice {text value : Text} {before behind : List Edit} {edit : Edit}
    (hordered : Ordered text 0 (before ++ edit :: behind))
    (hsound : ∀ e ∈ before ++ edit :: behind, e.Sound text)
    (hframed : ∀ e ∈ before, e.text.Framed) (htext : edit.text = quoteLiteral value)
    (hlast : (text.take edit.start).getLast? ≠ some Byte.quote)
    (hhead : (text.drop edit.stop).head? ≠ some Byte.quote)
    (hbefore : ∀ e ∈ before, e.stop ≠ edit.start) (hbehind : ∀ e ∈ behind, e.start ≠ edit.stop) :
    ∃ front back : Text, text.splice (before ++ edit :: behind) =
        front ++ quoteLiteral value ++ back ∧
      front.length = moved (before ++ edit :: behind) edit.start ∧
      LiteralRun (front ++ quoteLiteral value ++ back) front.length
        (front.length + (quoteLiteral value).length) := by
  have hsealed := sealed_splice_take hordered hsound hframed
  obtain ⟨htake, hbound⟩ := hordered.take
  have hlength : (text.take edit.start).length = edit.start := by
    rw [List.length_take, Nat.min_eq_left hbound]
  have hfront : (splice (text.take edit.start) before).getLast? ≠ some Byte.quote := by
    rcases Nat.eq_zero_or_pos edit.start with hzero | hpos
    · cases before with
      | nil => simp [hzero, splice, spliceFrom]
      | cons e before =>
        have := htake.bounds e List.mem_cons_self
        omega
    · rw [splice, getLast?_spliceFrom (by omega) fun e he => ?_]
      · exact hlast
      · have := htake.bounds e he
        have := hbefore e he
        omega
  have hback : (text.spliceFrom edit.stop behind).head? ≠ some Byte.quote := by
    rw [head?_spliceFrom hordered.behind hbehind]
    exact hhead
  refine ⟨_, _, ?_, length_spliceFrom_take hordered, literalRun_append value ?_ hback⟩
  · rw [splice, spliceFrom_append_cons hordered, htext]
  · exact after_quote_of_sealed_init hsealed (by decide) hfront

theorem framed_of_mem_literalEdits {params : Params} {found : List Placeholder} {edit : Edit}
    (h : edit ∈ found.map (Placeholder.literalEdit params)) : edit.text.Framed := by
  obtain ⟨placeholder, -, rfl⟩ := List.mem_map.mp h
  exact framed_quoteLiteral _

/-- The literal of a placeholder that stands alone is a literal run of the bound statement. -/
theorem literalRun_literalEdit {text content : Text} {params : Params} {placeholder : Placeholder}
    (hordered : Ordered text 0 (text.placeholders.map (Placeholder.literalEdit params)))
    (hsound : ∀ edit ∈ text.placeholders.map (Placeholder.literalEdit params), edit.Sound text)
    (hmem : placeholder ∈ text.placeholders) (halone : placeholder.StandsAlone text)
    (hliteral : (placeholder.literalEdit params).text = quoteLiteral content) :
    ∃ bound start, bound = text.splice (text.placeholders.map (Placeholder.literalEdit params)) ∧
      start = moved (text.placeholders.map (Placeholder.literalEdit params)) placeholder.start ∧
      bound.slice start (start + (quoteLiteral content).length) = quoteLiteral content ∧
      bound.LiteralRun start (start + (quoteLiteral content).length) := by
  obtain ⟨earlier, later, hfound⟩ := List.append_of_mem hmem
  have hothers (others : List Placeholder) (hothers : ∀ other ∈ others,
      other ∈ text.placeholders) : ∀ edit ∈ others.map (Placeholder.literalEdit params),
        edit.stop ≠ placeholder.start ∧ edit.start ≠ placeholder.stop := by
    intro edit hedit
    obtain ⟨other, hother, rfl⟩ := List.mem_map.mp hedit
    exact halone.others other (hothers other hother)
  rw [hfound, List.map_append, List.map_cons] at hordered hsound ⊢
  obtain ⟨front, back, hbound, hlength, hrun⟩ :=
    literalRun_splice hordered hsound (fun _ => framed_of_mem_literalEdits) hliteral halone.before
      halone.behind (fun edit hedit => (hothers earlier (by simp_all) edit hedit).1)
      fun edit hedit => (hothers later (by simp_all) edit hedit).2
  refine ⟨_, front.length, hbound.symm, hlength, ?_, hrun⟩
  rw [slice, List.append_assoc, List.drop_left, Nat.add_sub_cancel_left, List.take_left]

/-- Strings are inert and faithful: binding them to placeholders that are no numbers succeeds,
leaves exactly the code outside the placeholders, and puts a literal run of its own for each
string that no quote and no other placeholder touches. -/
theorem bindParams_strings {text : Text} {params : Params}
    (htype : ∀ placeholder ∈ text.placeholders, placeholder.takesLiteral)
    (hvalue : ∀ placeholder ∈ text.placeholders, ∃ content,
      params.get? placeholder.name = some (.string content)) :
    ∃ edits bound, bindEdits text params = .ok edits ∧ bindParams text params = .ok bound ∧
      bound = text.splice edits ∧
      edits.map (fun edit => (edit.start, edit.stop)) =
        text.placeholders.map (fun placeholder => (placeholder.start, placeholder.stop)) ∧
      bound.codeBytes = (text.code.filter fun c => text.placeholders.all fun placeholder =>
        c.offset < placeholder.start || placeholder.stop ≤ c.offset).filterMap Cursor.byte? ∧
      ∀ placeholder ∈ text.placeholders, placeholder.StandsAlone text →
        ∀ content, params.get? placeholder.name = some (.string content) →
          ∃ edit ∈ edits, edit.start = placeholder.start ∧ edit.stop = placeholder.stop ∧
            unquoteLiteral? edit.text = some content ∧
            ∃ start, start = moved edits edit.start ∧
              bound.slice start (start + edit.text.length) = edit.text ∧
              bound.LiteralRun start (start + edit.text.length) := by
  have hedits := bindEdits_of_strings htype hvalue
  have hordered := ordered_of_bindEdits hedits
  have hsound := fun edit hedit => (covers_of_bindEdits hedits edit hedit).sound
  refine ⟨_, _, hedits, by rw [bindParams_eq, hedits]; rfl, rfl, spans_of_bindEdits hedits, ?_, ?_⟩
  · rw [codeBytes_splice hordered hsound fun _ => framed_of_mem_literalEdits]
    · simp only [sparedBy, Placeholder.literalEdit, List.all_map, Function.comp_def]
      rfl
    · intro edit hedit next mark hmark
      obtain ⟨placeholder, -, rfl⟩ := List.mem_map.mp hedit
      rw [Placeholder.literalEdit, marks_quoteLiteral] at hmark
      exact List.eq_of_mem_replicate hmark
  · intro placeholder hmem halone content hcontent
    have hliteral : (placeholder.literalEdit params).text = quoteLiteral content := by
      simp [Placeholder.literalEdit, Params.string, hcontent]
    obtain ⟨bound, start, rfl, hstart, hslice, hrun⟩ :=
      literalRun_literalEdit hordered hsound hmem halone hliteral
    refine ⟨placeholder.literalEdit params, List.mem_map_of_mem hmem, rfl, rfl, ?_, start, hstart,
      ?_, ?_⟩
    · rw [hliteral, unquoteLiteral?_literal]
    · rw [hliteral, hslice]
    · rw [hliteral]
      exact hrun

/-- A quote in a string adds nothing to the code of the statement. -/
theorem bindParams_strings_apostrophe :
    ∃ bound, bindParams "SELECT {s:String}" [("s", .string "it's")] = .ok bound ∧
      bound = "SELECT 'it''s'" ∧ bound.codeBytes = "SELECT " := by
  have hfound : placeholders "SELECT {s:String}" = [⟨7, 17, "s", .scalar "String" .text⟩] := by
    decide +kernel
  have htype : ∀ placeholder ∈ placeholders "SELECT {s:String}", placeholder.takesLiteral := by
    rw [hfound, List.forall_mem_singleton]
    exact ⟨"String", .text, rfl, by decide⟩
  have hvalue : ∀ placeholder ∈ placeholders "SELECT {s:String}", ∃ content,
      Keyed.get? placeholder.name [("s", Json.string "it's")] = some (.string content) := by
    rw [hfound, List.forall_mem_singleton]
    exact ⟨"it's", rfl⟩
  obtain ⟨edits, bound, -, hbound, -, -, hcode, -⟩ := bindParams_strings htype hvalue
  have hmade : bindParams "SELECT {s:String}" [("s", .string "it's")] = .ok "SELECT 'it''s'" := by
    decide +kernel
  refine ⟨bound, hbound, Except.ok.inj (hbound.symm.trans hmade), ?_⟩
  rw [hcode]
  decide +kernel

end QueryBridge
