import QueryBridge.Client
import QueryBridge.Proofs.Binding.Missing
import QueryBridge.Proofs.Braces.Clauses
import QueryBridge.Proofs.Braces.Names
import QueryBridge.Proofs.Braces.Statement

/-!
# Placeholders through the passes

No pass opens or closes a brace, and none edits a placeholder in which it finds nothing. So the
placeholders of a converted statement declare what those of the statement do, unless an alias
renames a word in one of them: the alias of a table also names a parameter.
-/

namespace QueryBridge

open Text

variable {bodies : List Text} {text : Text}

section Found

/-- A search for placeholders passes over code without opening braces. -/
theorem Placeholder.findAll_append {run code : List Cursor}
    (h : ∀ c ∈ run, c.sees Byte.openBrace = false) (place : Nat) :
    findAll place (run ++ code) = findAll place code := by
  induction run with
  | nil => rfl
  | cons c run ih =>
    obtain ⟨hc, hrun⟩ := List.forall_mem_cons.mp h
    have hnone : at? c (run ++ code) = none := by simp [at?, hc, guard]
    rw [List.cons_append, findAll, hnone]
    split <;> exact ih hrun

/-- A placeholder is read up to the first brace behind its opening one. -/
theorem Placeholder.ofBody?_of_first {c last : Cursor} {inner code : List Cursor}
    {placeholder : Placeholder}
    (hinner : ∀ d ∈ inner, d.sees Byte.openBrace = false ∧ d.sees Byte.closeBrace = false)
    (hlast : last.sees Byte.closeBrace = true)
    (h : at? c (inner ++ last :: code) = some placeholder) :
    ofBody? placeholder.start placeholder.stop
      ((c.forward 1).after.take (last.offset - c.offset - 1)) = some placeholder := by
  simp only [at?, Option.bind_eq_bind, Option.bind_eq_some_iff, Option.guard_eq_some'] at h
  obtain ⟨_, -, closing, hfind, _, -, hbody⟩ := h
  have hnone : inner.find? (fun d => d.sees Byte.openBrace || d.sees Byte.closeBrace) = none := by
    simpa [List.find?_eq_none] using hinner
  rw [List.find?_append, hnone, Option.none_or, List.find?_cons_of_pos (by simp [hlast])] at hfind
  obtain rfl := Option.some.inj hfind
  obtain ⟨hstart, hstop⟩ := span_of_ofBody? hbody
  rw [hstart, hstop]
  exact hbody

/-- No brace stands in what a placeholder declares. -/
theorem Text.Inert.sees_along {body : Text} (h : body.Inert) {offset : Nat} {before rest : Text} :
    ∀ c ∈ Cursor.along offset before rest body,
      c.sees Byte.openBrace = false ∧ c.sees Byte.closeBrace = false := by
  intro c hc
  obtain ⟨first, b, later, hsplit, rfl⟩ := Cursor.mem_along.mp hc
  obtain ⟨-, hopen, hclose⟩ := Byte.isFree_iff.mp (h.isFree b (by simp [hsplit]))
  simp [Cursor.sees, Cursor.byte?, hopen, hclose]

/-- The placeholders found in some code declare what stands in the groups. -/
theorem Laid.placeholders {code : List Cursor} (h : Laid bodies text code) (place : Nat) :
    ∀ placeholder ∈ Placeholder.findAll place code, ∃ body ∈ bodies,
      Placeholder.ofBody? placeholder.start placeholder.stop body = some placeholder := by
  have hskip {c : Cursor} {b : UInt8} {code : List Cursor} (hb : c.byte? = some b)
      (hne : b ≠ Byte.openBrace) (place : Nat) :
      Placeholder.findAll place (c :: code) = Placeholder.findAll place code :=
    Placeholder.findAll_append (List.forall_mem_singleton.mpr (by simp [Cursor.sees, hb, hne])) place
  induction h generalizing place with
  | nil => simp [Placeholder.findAll]
  | byte hc hb hfree hcode ih =>
    rw [hskip hb (Byte.isFree_iff.mp hfree).2.1]
    exact ih place
  | wide hb hwide hcode ih =>
    rw [hskip hb]
    · exact ih place
    · rintro rfl
      exact absurd hwide (by decide)
  | @group before body rest code hmem hinert hopen hcode ih =>
    have hinner := @hinert.sees_along _ (before.length + 1) (Byte.openBrace :: before)
      (Byte.closeBrace :: rest)
    rw [along_inBraces, List.cons_append, List.append_assoc, List.singleton_append,
      Placeholder.findAll]
    split
    · rw [Placeholder.findAll_append fun c hc => (hinner c hc).1, hskip rfl (by decide)]
      exact ih place
    · split
      · rw [Placeholder.findAll_append fun c hc => (hinner c hc).1, hskip rfl (by decide)]
        exact ih place
      next placeholder hat =>
        rw [Placeholder.findAll_append fun c hc => (hinner c hc).1, hskip rfl (by decide)]
        refine List.forall_mem_cons.mpr ⟨⟨body, hmem, ?_⟩, ih _⟩
        have hread := Placeholder.ofBody?_of_first hinner rfl hat
        have hlength : before.length + 1 + body.length - before.length - 1 = body.length := by omega
        simpa [Cursor.forward, inBraces, hlength] using hread

end Found

section Passes

theorem Text.Braced.unnestArrays (hinert : ∀ body ∈ bodies, body.Inert) (h : Braced bodies text) :
    Braced bodies (unnestArrays text).sql := by
  obtain ⟨harray, hentries, helement⟩ : callee "arrayJoin" ∈ replacedCallees ∧
      callee "JSONExtractKeysAndValues" ∈ replacedCallees ∧
      callee "tupleElement" ∈ replacedCallees := by simp [replacedCallees]
  have hcalls := ((h.replaceCalls harray braced_unnest).replaceCalls hentries
    braced_keysAndValues).replaceCalls helement braced_tupleElement
  exact hcalls.expandArrayJoins.nameTuples hinert

/-- An alias that renames nothing in the placeholders of a statement, without braces of its own. -/
structure SparesPlaceholders (text : Text) (entry : Text × Text) : Prop where
  key : entry.1 ≠ []
  encoding : entry.2.IsEncoding
  opening : Byte.openBrace ∉ entry.1 ++ entry.2
  closing : Byte.closeBrace ∉ entry.1 ++ entry.2
  bodies : ∀ body ∈ text.bodies, renameIn body entry = body

theorem SparesPlaceholders.isBraceless {entry : Text × Text} (h : SparesPlaceholders text entry) :
    IsBraceless entry where
  key := h.key
  opening hmem := h.opening (List.mem_append_left _ hmem)
  closing hmem := h.closing (List.mem_append_left _ hmem)
  target := h.encoding.whole.braced (fun hmem => h.opening (List.mem_append_right _ hmem))
    fun hmem => h.closing (List.mem_append_right _ hmem)

/-- All passes together keep the placeholders. -/
theorem Text.Braced.convert {aliases : Keyed Text}
    (haliases : ∀ entry ∈ aliases, IsBraceless entry ∧ ∀ body ∈ bodies, renameIn body entry = body)
    (hinert : ∀ body ∈ bodies, body.Inert) (h : Braced bodies text) :
    Braced bodies ((Converter.standard aliases).convert text).sql := by
  refine h.forEach fun pass hpass text htext => ?_
  simp only [Converter.standard, List.mem_cons, List.not_mem_nil, or_false] at hpass
  rcases hpass with rfl | rfl | rfl | rfl | rfl | rfl
  · exact htext.dropModifiers
  · exact htext.renameTables haliases
  · exact htext.unnestArrays hinert
  · exact htext.replaceParametrics
  · exact htext.extractSubscripts
  · exact htext.replaceBuiltins

end Passes

/-- What a placeholder declares depends on what stands between its braces only. -/
theorem Placeholder.declares_of_ofBody? {start stop first last : Nat} {body : Text}
    {p q : Placeholder} (hp : ofBody? start stop body = some p)
    (hq : ofBody? first last body = some q) : p.name = q.name ∧ p.type = q.type := by
  simp only [ofBody?, Option.bind_eq_bind, Option.bind_eq_some_iff, Option.pure_def,
    Option.some.injEq] at hp hq
  obtain ⟨pair, hpair, _, _, rfl⟩ := hp
  obtain ⟨other, hother, _, _, rfl⟩ := hq
  obtain rfl := Option.some.inj (hpair.symm.trans hother)
  exact ⟨rfl, rfl⟩

/-- Conversion leaves placeholders alone. If every brace of a statement belongs to a placeholder in
which no pass finds anything to edit and no alias renames anything, each placeholder of the
converted statement has the name and the type of one of the statement, and values for these leave
no parameter missing. -/
theorem convert_keepsPlaceholders (config : Config) (sql : Text) (hsql : sql.Plain)
    (haliases : ∀ entry ∈ config.tableAliases, SparesPlaceholders sql entry) :
    (∀ p ∈ ((Converter.standard config.tableAliases).convert sql).sql.placeholders,
        ∃ q ∈ sql.placeholders, p.name = q.name ∧ p.type = q.type) ∧
      ∀ params : Params, (∀ q ∈ sql.placeholders, (params.get? q.name).isSome = true) →
        ∀ name, config.prepare sql params ≠ .error (.missingParameter name) := by
  have hconverted := hsql.braced.convert
    (fun entry hentry => ⟨(haliases entry hentry).isBraceless, (haliases entry hentry).bodies⟩)
    hsql.inert
  have hdeclares : ∀ p ∈ ((Converter.standard config.tableAliases).convert sql).sql.placeholders,
      ∃ q ∈ sql.placeholders, p.name = q.name ∧ p.type = q.type := by
    intro p hp
    obtain ⟨body, hbody, hread⟩ := (Laid.code_text hconverted).placeholders 0 p hp
    obtain ⟨q, hq, rfl⟩ := List.mem_map.mp hbody
    exact ⟨q, hq, Placeholder.declares_of_ofBody? hread (ofBody?_of_mem_placeholders hq)⟩
  refine ⟨hdeclares, fun params hparams name hmissing => ?_⟩
  unfold Config.prepare at hmissing
  dsimp only at hmissing
  split at hmissing
  · cases hmissing
  · obtain ⟨p, hp, -, hnone⟩ := exists_placeholder_of_missing hmissing
    obtain ⟨q, hq, hname, -⟩ := hdeclares p hp
    have hsome := hparams q hq
    simp [← hname, hnone] at hsome

/-- The alias of a table spares a placeholder of another name, around which a modifier, a call and
the name of the table are replaced. It renames the parameter of its own name, which is missed. -/
theorem convert_keepsPlaceholders_alias :
    let config : Config := { Config.inMemory with tableAliases := [("events", "raw_events")] }
    let statement : Text := "SELECT toDate(at) FROM events FINAL WHERE id = {id:Int32}"
    let clashing : Text := "SELECT * FROM events WHERE id = {events:Int32}"
    (∀ p ∈ ((Converter.standard config.tableAliases).convert statement).sql.placeholders,
        ∃ q ∈ statement.placeholders, p.name = q.name ∧ p.type = q.type) ∧
      (∀ name, config.prepare statement [("id", .int 1)] ≠ .error (.missingParameter name)) ∧
      config.prepare statement [("id", .int 1)] =
        .ok "SELECT CAST(at AS DATE) FROM raw_events WHERE id = 1" ∧
      config.prepare clashing [("events", .int 1)] = .error (.missingParameter "raw_events") ∧
      renameIn "events:Int32" ("events", "raw_events") = "raw_events:Int32" := by
  intro config statement clashing
  have hplain : statement.Plain := ⟨⟨_, rfl⟩, by decide +kernel, by decide +kernel, by decide +kernel⟩
  have hspares : ∀ entry ∈ config.tableAliases, SparesPlaceholders statement entry := by
    intro entry hentry
    obtain rfl := List.mem_singleton.mp hentry
    exact ⟨by decide, ⟨"raw_events", rfl⟩, by decide, by decide, by decide +kernel⟩
  obtain ⟨hdeclares, hbound⟩ := convert_keepsPlaceholders config statement hplain hspares
  exact ⟨hdeclares, hbound [("id", .int 1)] (by decide +kernel), by decide +kernel,
    by decide +kernel, by decide +kernel⟩

end QueryBridge
