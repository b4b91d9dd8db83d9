import QueryBridge.Client
import QueryBridge.Proofs.Text.Stretch

/-!
# A table under its logical name

Rows for a table are written to the table that one lookup of its name gives. A statement gets what
all aliases make of the name, one after the other. Both agree up to the alias of the name itself;
the aliases behind it then apply to its target as well. So a statement may read another table than
the one that rows are written to, and does exactly if the later aliases change the target.
-/

namespace QueryBridge

/-- Inside a word no name begins. -/
theorem renameGlyphs_inside {name : List Glyph} (hname : name ≠ []) (replacement : Text)
    {word : List Glyph} (hword : ∀ glyph ∈ word, glyph.isWord = true) :
    renameGlyphs name replacement 0 true word = word.flatten := by
  induction word with
  | nil => simp [renameGlyphs, hname]
  | cons glyph word ih =>
    obtain ⟨hglyph, hword⟩ := List.forall_mem_cons.mp hword
    have hinside : afterName? name true (glyph :: word) = none := by
      simp [afterName?, isWordBoundary, hglyph]
    simp only [renameGlyphs, hinside, hglyph, ih hword, List.flatten_cons]

/-- What is to be dropped of a word leaves nothing. -/
theorem renameGlyphs_drop {name : List Glyph} (hname : name ≠ []) (replacement : Text)
    (before : Bool) (word : List Glyph) :
    renameGlyphs name replacement word.length before word = [] := by
  induction word generalizing before with
  | nil => simp [renameGlyphs, hname]
  | cons glyph word ih => exact ih _

/-- A name stands in a word only if it is the word. -/
theorem afterName?_word {name : List Glyph} (hname : name ≠ []) {word : List Glyph}
    (hword : ∀ glyph ∈ word, glyph.isWord = true) :
    afterName? name false word = if name = word then some [] else none := by
  unfold afterName?
  by_cases hstarts : name <+: word
  · obtain ⟨rest, rfl⟩ := hstarts
    obtain ⟨first, tail, rfl⟩ := List.exists_cons_of_ne_nil hname
    have hlast : ((first :: tail).getLast?.map Glyph.isWord).getD false = true := by
      rw [List.getLast?_eq_some_getLast hname, Option.map_some, Option.getD_some]
      exact hword _ (List.mem_append_left _ (List.getLast_mem hname))
    have hfirst : first.isWord = true := hword first (by simp)
    cases rest with
    | nil =>
      simp [isWordBoundary, hfirst]
      simpa using hlast
    | cons next rest =>
      have hnext : next.isWord = true := hword next (by simp)
      rw [hlast]
      simp [isWordBoundary, hnext]
  · have hne : name ≠ word := fun heq => hstarts (heq ▸ List.prefix_rfl)
    simp [hstarts, hne]

/-- A word is replaced as a whole or not at all. -/
theorem renameGlyphs_word {name : List Glyph} (hname : name ≠ []) (replacement : Text)
    {word : List Glyph} (hne : word ≠ []) (hword : ∀ glyph ∈ word, glyph.isWord = true) :
    renameGlyphs name replacement 0 false word = if name = word then replacement else word.flatten := by
  have hafter := afterName?_word hname hword
  obtain ⟨glyph, rest, rfl⟩ := List.exists_cons_of_ne_nil hne
  obtain ⟨hglyph, hrest⟩ := List.forall_mem_cons.mp hword
  simp only [renameGlyphs, hafter]
  by_cases heq : name = glyph :: rest
  · rw [if_pos heq, if_pos heq]
    simp only [heq, List.length_cons]
    rw [renameGlyphs_drop (List.cons_ne_nil _ _), List.append_nil]
  · rw [if_neg heq, if_neg heq]
    simp only [hglyph, renameGlyphs_inside hname _ hrest, List.flatten_cons]

/-- An alias changes an identifier only if it is an alias of the identifier. -/
theorem renameIn_identifier {word : Text} (hword : word.all Byte.isIdent = true)
    (hne : word ≠ []) {entry : Text × Text} (hkey : entry.1 ≠ []) :
    renameIn word entry = if entry.1 = word then entry.2 else word := by
  have hname : Text.glyphs entry.1 ≠ [] := fun h => hkey (Text.glyphs_inj.mp h)
  have hglyphs : Text.glyphs word ≠ [] := fun h => hne (Text.glyphs_inj.mp h)
  rw [renameIn, renameGlyphs_word hname _ hglyphs (Text.isWord_of_mem_glyphs hword),
    Text.glyphs_flatten]
  simp only [Text.glyphs_inj]

section Separators

variable {name : List Glyph} {separator : Glyph}

theorem isWordBoundary_append (hword : separator.isWord = false) (before : Bool)
    (first rest : List Glyph) :
    isWordBoundary before (first ++ separator :: rest) = isWordBoundary before first := by
  cases first <;> simp [isWordBoundary, hword]

theorem prefix_append_separator {first : List Glyph} (hname : separator ∉ name)
    (rest : List Glyph) : name <+: first ++ separator :: rest ↔ name <+: first := by
  refine ⟨fun h => ?_, fun h => h.trans (List.prefix_append _ _)⟩
  rcases List.prefix_or_prefix_of_prefix h (List.prefix_append first _) with hshort | ⟨more, rfl⟩
  · exact hshort
  · cases more with
    | nil => simp
    | cons glyph more =>
      obtain ⟨rfl, -⟩ := List.cons_prefix_cons.mp ((List.prefix_append_right_inj first).mp h)
      simp at hname

/-- Whether a name stands at a place is told before the next separator. -/
theorem isSome_afterName?_append (hname : separator ∉ name) (hword : separator.isWord = false)
    (before : Bool) (first rest : List Glyph) :
    (afterName? name before (first ++ separator :: rest)).isSome =
      (afterName? name before first).isSome := by
  simp only [afterName?, isWordBoundary_append hword, Bool.and_eq_true, List.isPrefixOf_iff_prefix,
    prefix_append_separator hname]
  split
  next hstarts =>
    obtain ⟨tail, rfl⟩ := hstarts.2
    rw [List.append_assoc, List.drop_left, List.drop_left, isWordBoundary_append hword]
    split <;> rfl
  · rfl

theorem length_le_of_afterName? {before : Bool} {glyphs : List Glyph}
    (h : (afterName? name before glyphs).isSome = true) : name.length ≤ glyphs.length := by
  unfold afterName? at h
  split at h
  next hstarts =>
    rw [Bool.and_eq_true, List.isPrefixOf_iff_prefix] at hstarts
    exact hstarts.2.length_le
  · simp at h

/-- A name is looked for on either side of a separator. -/
theorem renameGlyphs_append (hne : name ≠ []) (hname : separator ∉ name)
    (hword : separator.isWord = false) (replacement : Text) {skip : Nat} {first : List Glyph}
    (hskip : skip ≤ first.length) (before : Bool) (rest : List Glyph) :
    renameGlyphs name replacement skip before (first ++ separator :: rest) =
      renameGlyphs name replacement skip before first ++
        (separator ++ renameGlyphs name replacement 0 false rest) := by
  have hsome := isSome_afterName?_append hname hword before first rest
  induction first generalizing skip before with
  | nil =>
    obtain rfl : skip = 0 := by simpa using hskip
    have hnone : afterName? name before (separator :: rest) = none := by
      simpa [afterName?, hne] using hsome
    simp [renameGlyphs, hnone, hword, hne]
  | cons glyph first ih =>
    have hlater {skip : Nat} (hskip : skip ≤ first.length) := ih hskip glyph.isWord
      (isSome_afterName?_append hname hword glyph.isWord first rest)
    cases skip with
    | succ skip => exact hlater (Nat.le_of_succ_le_succ hskip)
    | zero =>
      rw [List.cons_append] at hsome ⊢
      cases hfound : afterName? name before (glyph :: first) with
      | none =>
        have hnone : afterName? name before (glyph :: (first ++ separator :: rest)) = none := by
          simpa [hfound] using hsome
        simp only [renameGlyphs, hfound, hnone, hlater (Nat.zero_le _), List.append_assoc]
      | some behind =>
        have hlength := length_le_of_afterName? (Option.isSome_of_eq_some hfound)
        obtain ⟨other, hother⟩ : ∃ other,
            afterName? name before (glyph :: (first ++ separator :: rest)) = some other := by
          rwa [hfound, Option.isSome_some, Option.isSome_iff_exists] at hsome
        obtain ⟨head, tail, rfl⟩ := List.exists_cons_of_ne_nil hne
        rw [List.length_cons, List.length_cons] at hlength
        simp only [renameGlyphs, hfound, hother, List.length_cons,
          hlater (Nat.le_of_succ_le_succ hlength), List.append_assoc]

end Separators

/-- The aliases behind the one of a name. -/
def aliasesBehind (name : Text) (aliases : Keyed Text) : Keyed Text :=
  (aliases.dropWhile fun entry => entry.1 != name).drop 1

theorem aliasesBehind_eq_nil {name : Text} {aliases : Keyed Text}
    (h : aliases.get? name = none) : aliasesBehind name aliases = [] := by
  have hall : ∀ entry ∈ aliases, (entry.1 != name) = true := by
    intro entry hentry
    have := List.lookup_eq_none_iff.mp h entry hentry
    simpa [bne, Bool.beq_comm] using this
  simp [aliasesBehind, List.dropWhile_eq_nil_iff.mpr hall]

/-- All aliases together make of an identifier what the later ones make of its own target. -/
theorem foldl_renameIn_identifier {name : Text} (hname : isIdentifier name = true)
    {aliases : Keyed Text} (hkeys : [] ∉ aliases.keys) :
    aliases.foldl renameIn name =
      (aliasesBehind name aliases).foldl renameIn ((aliases.get? name).getD name) := by
  obtain ⟨hne, hall⟩ := Text.isIdentifier_spec hname
  induction aliases with
  | nil => rfl
  | cons entry aliases ih =>
    obtain ⟨key, table⟩ := entry
    simp only [Keyed.keys, List.map_cons, List.mem_cons, not_or] at hkeys
    rw [List.foldl_cons, renameIn_identifier hall hne (Ne.symm hkeys.1)]
    by_cases heq : key = name
    · simp [aliasesBehind, Keyed.get?, heq]
    · have hbeq : (name == key) = false := by simpa using Ne.symm heq
      rw [if_neg heq, ih hkeys.2]
      simp [aliasesBehind, Keyed.get?, List.lookup_cons, heq, hbeq]

/-- Plain bytes make a single run of code. -/
theorem Text.runs_of_isPlain {text : Text} (h : ∀ b ∈ text, Byte.isPlain b = true)
    (hne : text ≠ []) : text.runs = [⟨true, text⟩] := by
  induction text with
  | nil => exact absurd rfl hne
  | cons b text ih =>
    obtain ⟨hb, htext⟩ := List.forall_mem_cons.mp h
    rw [runs_cons_of_isPlain hb]
    cases text with
    | nil => rfl
    | cons next text => simp [ih htext (List.cons_ne_nil _ _), Run.cons]

/-- A table that stands alone in a statement becomes what the later aliases make of the table that
rows are written to. If that is an identifier without an alias among them, both are the same table.
If it has one, they are the same only if the aliases behind lead back to it. -/
theorem renameTables_identifier {config : Config} {name : Text} (hname : isIdentifier name = true)
    (hkeys : [] ∉ config.tableAliases.keys) :
    renameTables config.tableAliases name =
        (aliasesBehind name config.tableAliases).foldl renameIn (config.physicalTable name) ∧
      (isIdentifier (config.physicalTable name) = true →
        ((aliasesBehind name config.tableAliases).get? (config.physicalTable name) = none →
          renameTables config.tableAliases name = config.physicalTable name) ∧
        ∀ target,
          (aliasesBehind name config.tableAliases).get? (config.physicalTable name) = some target →
          (renameTables config.tableAliases name = config.physicalTable name ↔
            (aliasesBehind (config.physicalTable name)
              (aliasesBehind name config.tableAliases)).foldl renameIn target =
                config.physicalTable name)) := by
  have hparts : name.head?.any Byte.isIdentStart = true ∧ name.all Byte.isIdent = true := by
    simpa [isIdentifier] using hname
  have hne : name ≠ [] := by
    rintro rfl
    simp at hparts
  have hplain : ∀ b ∈ name, Byte.isPlain b = true := fun b hb =>
    Byte.isPlain_of_isIdent (List.all_eq_true.mp hparts.2 b hb)
  have hrename : renameTables config.tableAliases name =
      (aliasesBehind name config.tableAliases).foldl renameIn (config.physicalTable name) := by
    rw [Config.physicalTable, ← foldl_renameIn_identifier hname hkeys]
    simp [renameTables, Text.mapCode, Text.runs_of_isPlain hplain hne]
  refine ⟨hrename, fun hphysical => ?_⟩
  have hbehind : [] ∉ (aliasesBehind name config.tableAliases).keys := fun hmem =>
    hkeys (((List.drop_sublist _ _).trans (List.dropWhile_sublist _)).map Prod.fst |>.mem hmem)
  have hfold := foldl_renameIn_identifier hphysical hbehind
  refine ⟨fun hnone => ?_, fun target htarget => ?_⟩
  · rw [hrename, hfold, hnone, aliasesBehind_eq_nil hnone]
    rfl
  · rw [hrename, hfold, htarget]
    rfl

/-- Where the target of an alias has an alias of its own, a statement reads the second target, while
rows go to the first one. For the target itself both are the same table. -/
theorem renameTables_chained_alias :
    let config : Config :=
      { Config.inMemory with tableAliases := [("events", "raw_events"), ("raw_events", "archive")] }
    isIdentifier "events" = true ∧ [] ∉ config.tableAliases.keys ∧
      renameTables config.tableAliases "events" = "archive" ∧
      config.physicalTable "events" = "raw_events" ∧
      renameTables config.tableAliases "events" ≠ config.physicalTable "events" ∧
      renameTables config.tableAliases "raw_events" = config.physicalTable "raw_events" := by
  intro config
  have hkeys : [] ∉ config.tableAliases.keys := by decide +kernel
  have hevents : isIdentifier "events" = true := by decide +kernel
  obtain ⟨hchain, hagree⟩ := renameTables_identifier hevents hkeys
  refine ⟨hevents, hkeys, ?_, by decide +kernel, fun heq => ?_, ?_⟩
  · rw [hchain]
    decide +kernel
  · obtain ⟨-, hback⟩ := hagree (by decide +kernel)
    have hsame := (hback "archive" (by decide +kernel)).mp heq
    exact absurd hsame (by decide +kernel)
  · obtain ⟨-, hraw⟩ := renameTables_identifier (by decide +kernel : isIdentifier "raw_events" = true)
      hkeys
    exact (hraw (by decide +kernel)).1 (by decide +kernel)

end QueryBridge
