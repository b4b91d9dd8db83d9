import QueryBridge.Proofs.Conversion.TableName
import QueryBridge.Proofs.Keyed
import QueryBridge.Proofs.Lexical.Run

/-!
# All tables renamed at once

The aliases are applied one after the other, to all of the code. If they and their targets are
identifiers and no target has an alias of its own, this is one substitution of the words of the
code: the order of the aliases does not matter, and what is put in is not renamed again.
-/

namespace QueryBridge

open Text

variable {aliases : Keyed Text} {entry : Text × Text} {name : List Glyph} {word : Bool}
  {parts : List Text}

/-! ### One alias -/

theorem renameGlyphs_separator (hname : name ≠ []) {separator : Glyph} (hmem : separator ∉ name)
    (hword : separator.isWord = false) (replacement : Text) (before : Bool) (rest : List Glyph) :
    renameGlyphs name replacement 0 before (separator :: rest) =
      separator ++ renameGlyphs name replacement 0 false rest := by
  have happend := renameGlyphs_append hname hmem hword replacement (Nat.zero_le ([] : List Glyph).length)
    before rest
  simpa [renameGlyphs, hname] using happend

theorem renameGlyphs_separators (hname : name ≠ []) (hnames : ∀ glyph ∈ name, glyph.isWord = true)
    {stretch : List Glyph} (hne : stretch ≠ []) (hstretch : ∀ glyph ∈ stretch, glyph.isWord = false)
    (replacement : Text) (before : Bool) (rest : List Glyph) :
    renameGlyphs name replacement 0 before (stretch ++ rest) =
      stretch.flatten ++ renameGlyphs name replacement 0 false rest := by
  induction stretch generalizing before with
  | nil => exact absurd rfl hne
  | cons glyph stretch ih =>
    obtain ⟨hglyph, hstretch⟩ := List.forall_mem_cons.mp hstretch
    have hmem : glyph ∉ name := fun hmem => by simp [hnames glyph hmem] at hglyph
    rw [List.cons_append, renameGlyphs_separator hname hmem hglyph, List.flatten_cons,
      List.append_assoc]
    cases stretch with
    | nil => rfl
    | cons next stretch => rw [ih (List.cons_ne_nil _ _) hstretch]

theorem renameGlyphs_word_append (hname : name ≠ []) (hnames : ∀ glyph ∈ name, glyph.isWord = true)
    (replacement : Text) (stretch : List Glyph) {rest : List Glyph}
    (hrest : ∀ glyph ∈ rest.head?, glyph.isWord = false) :
    renameGlyphs name replacement 0 false (stretch ++ rest) =
      renameGlyphs name replacement 0 false stretch ++
        renameGlyphs name replacement 0 false rest := by
  cases rest with
  | nil => simp [renameGlyphs]
  | cons separator rest =>
    have hword : separator.isWord = false := hrest separator rfl
    have hmem : separator ∉ name := fun hmem => by simp [hnames separator hmem] at hword
    rw [renameGlyphs_append hname hmem hword replacement (Nat.zero_le _),
      renameGlyphs_separator hname hmem hword]

/-- In stretches in alternation a name is replaced where it is a whole stretch. -/
theorem renameGlyphs_alternates (hname : name ≠ []) (hnames : ∀ glyph ∈ name, glyph.isWord = true)
    (replacement : Text) (h : Alternates word parts) {before : Bool}
    (hbefore : word = true → before = false) :
    renameGlyphs name replacement 0 before (parts.map glyphs).flatten =
      parts.flatMap fun part => if name = glyphs part then replacement else part := by
  induction h generalizing before with
  | nil => simp [renameGlyphs, hname]
  | @cons word stretch others hne hkind _ hrest ih =>
    have hglyphs : glyphs stretch ≠ [] := fun hnil => hne (glyphs_inj.mp hnil)
    rw [List.map_cons, List.flatten_cons, List.flatMap_cons]
    cases word with
    | false =>
      have hother : name ≠ glyphs stretch := by
        rintro rfl
        obtain ⟨glyph, hglyph⟩ := List.exists_mem_of_ne_nil _ hname
        exact absurd ((hkind glyph hglyph).symm.trans (hnames glyph hglyph)) (by decide)
      rw [renameGlyphs_separators hname hnames hglyphs hkind, ih fun _ => rfl, if_neg hother,
        glyphs_flatten]
    | true =>
      have hhead : ∀ glyph ∈ (others.map glyphs).flatten.head?, glyph.isWord = false := by
        cases hrest with
        | nil => simp
        | @cons _ second later hsecond hother _ _ =>
          obtain ⟨first, rest, hcons⟩ :=
            List.exists_cons_of_ne_nil fun hnil => hsecond (glyphs_inj.mp hnil)
          rw [hcons] at hother
          simpa [hcons] using hother first List.mem_cons_self
      rw [hbefore rfl, renameGlyphs_word_append hname hnames replacement _ hhead,
        renameGlyphs_word hname replacement hglyphs hkind, ih fun _ => rfl, glyphs_flatten]

/-! ### All aliases -/

/-- The table that an alias makes of a stretch of code. -/
def renameStretch (stretch : Text) (entry : Text × Text) : Text :=
  if stretch = entry.1 then entry.2 else stretch

/-- The table that stands for a stretch of code. -/
def tableOf (aliases : Keyed Text) (stretch : Text) : Text := (aliases.get? stretch).getD stretch

/-- Puts the targets of all aliases in the places of the words that are aliases. -/
def renameWords (aliases : Keyed Text) (code : Text) : Text :=
  (stretches code).flatMap (tableOf aliases)

/-- Aliases and targets that are identifiers, where no target has an alias of its own. -/
structure IsOneStep (aliases : Keyed Text) : Prop where
  keys : ∀ entry ∈ aliases, isIdentifier entry.1 = true
  targets : ∀ entry ∈ aliases, isIdentifier entry.2 = true
  apart : ∀ entry ∈ aliases, entry.2 ∉ aliases.keys

theorem renameIn_flatten (hkey : isIdentifier entry.1 = true) (h : Alternates word parts) :
    renameIn parts.flatten entry = (parts.map (renameStretch · entry)).flatten := by
  obtain ⟨hne, hall⟩ := isIdentifier_spec hkey
  have hname : glyphs entry.1 ≠ [] := fun hnil => hne (glyphs_inj.mp hnil)
  rw [renameIn, h.glyphs_flatten,
    renameGlyphs_alternates hname (isWord_of_mem_glyphs hall) entry.2 h fun _ => rfl,
    List.flatMap_def]
  simp only [renameStretch, glyphs_inj, eq_comm]

/-- The aliases one after the other change every stretch by itself. -/
theorem foldl_renameIn_flatten (hkeys : ∀ entry ∈ aliases, isIdentifier entry.1 = true)
    (htargets : ∀ entry ∈ aliases, isIdentifier entry.2 = true) (h : Alternates word parts) :
    aliases.foldl renameIn parts.flatten =
      (parts.map fun part => aliases.foldl renameStretch part).flatten := by
  induction aliases generalizing parts with
  | nil => simp
  | cons entry aliases ih =>
    obtain ⟨hkey, hkeys⟩ := List.forall_mem_cons.mp hkeys
    obtain ⟨htarget, htargets⟩ := List.forall_mem_cons.mp htargets
    have hrenamed : Alternates word (parts.map (renameStretch · entry)) := by
      refine h.map fun part _ => ?_
      unfold renameStretch
      split
      next heq => exact Or.inr ⟨heq ▸ hkey, htarget⟩
      · exact Or.inl rfl
    rw [List.foldl_cons, renameIn_flatten hkey h, ih hkeys htargets hrenamed, List.map_map]
    rfl

theorem foldl_renameStretch_of_notMem {stretch : Text} (h : stretch ∉ aliases.keys) :
    aliases.foldl renameStretch stretch = stretch := by
  induction aliases with
  | nil => rfl
  | cons entry aliases ih =>
    rw [Keyed.keys_cons, List.mem_cons, not_or] at h
    rw [List.foldl_cons, renameStretch, if_neg h.1]
    exact ih h.2

theorem tableOf_cons (entry : Text × Text) (aliases : Keyed Text) (stretch : Text) :
    tableOf (entry :: aliases) stretch =
      if stretch = entry.1 then entry.2 else tableOf aliases stretch := by
  rw [tableOf, Keyed.get?, List.lookup_cons]
  by_cases heq : stretch = entry.1
  · simp [heq]
  · simp [heq, beq_eq_false_iff_ne.mpr heq, tableOf, Keyed.get?]

theorem tableOf_of_notMem {stretch : Text} (h : stretch ∉ aliases.keys) :
    tableOf aliases stretch = stretch := by
  induction aliases with
  | nil => rfl
  | cons entry aliases ih =>
    rw [Keyed.keys_cons, List.mem_cons, not_or] at h
    rw [tableOf_cons, if_neg h.1, ih h.2]

/-- If no target has an alias, the alias of a stretch is the only one that counts. -/
theorem foldl_renameStretch (h : ∀ entry ∈ aliases, entry.2 ∉ aliases.keys) (stretch : Text) :
    aliases.foldl renameStretch stretch = tableOf aliases stretch := by
  induction aliases with
  | nil => rfl
  | cons entry aliases ih =>
    have hkeys (other : Text × Text) (hother : other ∈ entry :: aliases) :
        other.2 ∉ Keyed.keys aliases := fun hmem => h other hother (List.mem_cons_of_mem _ hmem)
    rw [List.foldl_cons, renameStretch, tableOf_cons]
    split
    · exact foldl_renameStretch_of_notMem (hkeys entry List.mem_cons_self)
    · exact ih fun other hother => hkeys other (List.mem_cons_of_mem _ hother)

theorem mem_of_tableOf_ne {stretch : Text} (h : tableOf aliases stretch ≠ stretch) :
    (stretch, tableOf aliases stretch) ∈ aliases := by
  induction aliases with
  | nil => exact absurd rfl h
  | cons entry aliases ih =>
    rw [tableOf_cons] at h ⊢
    split at h
    next heq =>
      rw [if_pos heq, heq]
      exact List.mem_cons_self
    next hne =>
      rw [if_neg hne]
      exact List.mem_cons_of_mem _ (ih h)

namespace IsOneStep

/-- A stretch stays or is an identifier that gives way to another one. -/
theorem tableOf_spec (h : IsOneStep aliases) (stretch : Text) :
    tableOf aliases stretch = stretch ∨
      isIdentifier stretch = true ∧ isIdentifier (tableOf aliases stretch) = true := by
  by_cases hsame : tableOf aliases stretch = stretch
  · exact Or.inl hsame
  · have hmem := mem_of_tableOf_ne hsame
    exact Or.inr ⟨h.keys _ hmem, h.targets _ hmem⟩

/-- A target has no alias of its own. -/
theorem tableOf_tableOf (h : IsOneStep aliases) (stretch : Text) :
    tableOf aliases (tableOf aliases stretch) = tableOf aliases stretch := by
  by_cases hsame : tableOf aliases stretch = stretch
  · rw [hsame, hsame]
  · exact tableOf_of_notMem (h.apart _ (mem_of_tableOf_ne hsame))

/-- The aliases one after the other put their targets in the places of the words. -/
theorem foldl_renameIn_eq (h : IsOneStep aliases) (code : Text) :
    aliases.foldl renameIn code = renameWords aliases code := by
  obtain ⟨word, parts, hparts, rfl⟩ := exists_alternates code
  rw [foldl_renameIn_flatten h.keys h.targets hparts, renameWords, hparts.stretches_flatten,
    List.flatMap_def]
  simp only [foldl_renameStretch h.apart]

theorem renameWords_renameWords (h : IsOneStep aliases) (code : Text) :
    renameWords aliases (renameWords aliases code) = renameWords aliases code := by
  obtain ⟨word, parts, hparts, rfl⟩ := exists_alternates code
  have hrenamed : Alternates word (parts.map (tableOf aliases)) :=
    hparts.map fun part _ => h.tableOf_spec part
  have hcode : renameWords aliases parts.flatten = (parts.map (tableOf aliases)).flatten := by
    rw [renameWords, hparts.stretches_flatten, List.flatMap_def]
  rw [hcode, renameWords, hrenamed.stretches_flatten, List.flatMap_def, List.map_map]
  simp only [Function.comp_def, h.tableOf_tableOf]

end IsOneStep

/-- Identifiers in the places of others leave what is code apart from what stands around it. -/
theorem keepsCode_flatten {change : Text → Text}
    (hchange : ∀ part ∈ parts, part ≠ [] ∧
      (change part = part ∨ isIdentifier part = true ∧ isIdentifier (change part) = true))
    {old new : Option UInt8} (halike : Byte.Alike old new) :
    Byte.Alike (parts.flatten.head?.or old) ((parts.map change).flatten.head?.or new) ∧
      (IsCodeBefore old parts.flatten → IsCodeBefore new (parts.map change).flatten) := by
  induction parts with
  | nil => exact ⟨halike, fun h => h.of_alike halike⟩
  | cons part parts ih =>
    obtain ⟨⟨hne, hpart⟩, hparts⟩ := List.forall_mem_cons.mp hchange
    obtain ⟨hhead, hcode⟩ := ih hparts
    obtain ⟨b, rest, rfl⟩ := List.exists_cons_of_ne_nil hne
    rw [List.map_cons, List.flatten_cons, List.flatten_cons]
    rcases hpart with hsame | ⟨hword, hnew⟩
    · rw [hsame]
      refine ⟨Byte.alike_refl (some b), fun h => ?_⟩
      obtain ⟨hfirst, hrest⟩ := isCodeBefore_append.mp h
      exact isCodeBefore_append.mpr ⟨hfirst.of_alike hhead, hcode hrest⟩
    · have hplain := isPlain_of_mem_name hnew
      refine ⟨?_, fun h => ?_⟩
      · obtain ⟨c, changed, hcons⟩ := List.exists_cons_of_ne_nil (isIdentifier_spec hnew).1
        rw [hcons] at hplain ⊢
        exact Or.inr ⟨isPlain_of_mem_name hword b List.mem_cons_self, hplain c List.mem_cons_self⟩
      · obtain ⟨-, hrest⟩ := isCodeBefore_append.mp h
        exact isCodeBefore_append.mpr ⟨isCodeBefore_of_isPlain hplain _, hcode hrest⟩

theorem IsOneStep.keepsCode (h : IsOneStep aliases) (code : Text) :
    code.KeepsCode (renameWords aliases code) := by
  obtain ⟨word, parts, hparts, rfl⟩ := exists_alternates code
  have hchange : ∀ part ∈ parts, part ≠ [] ∧ (tableOf aliases part = part ∨
      isIdentifier part = true ∧ isIdentifier (tableOf aliases part) = true) :=
    fun part hpart => ⟨hparts.ne_nil part hpart, h.tableOf_spec part⟩
  have hkept {old new : Option UInt8} (halike : Byte.Alike old new) :=
    keepsCode_flatten hchange halike
  rw [renameWords, hparts.stretches_flatten, List.flatMap_def]
  refine ⟨?_, fun halike => (hkept halike).2⟩
  simpa using (hkept (Byte.alike_refl none)).1

theorem IsOneStep.of_perm (h : IsOneStep aliases) {other : Keyed Text} (hperm : other.Perm aliases) :
    IsOneStep other where
  keys entry hentry := h.keys entry (hperm.mem_iff.mp hentry)
  targets entry hentry := h.targets entry (hperm.mem_iff.mp hentry)
  apart entry hentry hmem :=
    h.apart entry (hperm.mem_iff.mp hentry) ((hperm.map Prod.fst).mem_iff.mp hmem)

/-! ### Statements -/

/-- If aliases and targets are identifiers and no target has an alias, the words of the code that
are aliases give way to their targets at once, in whatever order the aliases are applied, and
nothing is left to be renamed. -/
theorem renameTables_isOneStep (h : IsOneStep aliases) (text : Text) :
    renameTables aliases text = text.mapCode (renameWords aliases) ∧
      ((Keyed.keys aliases).Nodup → ∀ other : Keyed Text, other.Perm aliases →
        renameTables other text = renameTables aliases text) ∧
      renameTables aliases (renameTables aliases text) = renameTables aliases text := by
  have hrename {aliases : Keyed Text} (h : IsOneStep aliases) (text : Text) :
      renameTables aliases text = text.mapCode (renameWords aliases) := by
    simp only [renameTables, h.foldl_renameIn_eq]
  refine ⟨hrename h text, fun hnodup other hperm => ?_, ?_⟩
  · have htables : tableOf other = tableOf aliases := by
      funext stretch
      rw [tableOf, tableOf, Keyed.get?_eq_of_perm hnodup hperm]
    have hwords : renameWords other = renameWords aliases := by
      funext code
      rw [renameWords, renameWords, htables]
    rw [hrename h, hrename (h.of_perm hperm), hwords]
  · have hkept : ∀ run ∈ text.runs, run.isCode = true →
        run.text.KeepsCode (renameWords aliases run.text) := fun run _ _ => h.keepsCode run.text
    rw [hrename h (renameTables aliases text), hrename h text]
    refine mapCode_of_eq fun run hrun hcode => ?_
    rw [runs_mapCode hkept] at hrun
    obtain ⟨old, -, rfl⟩ := List.mem_map.mp hrun
    rw [Run.isCode_change] at hcode
    have hchange : old.change (renameWords aliases) = ⟨true, renameWords aliases old.text⟩ := by
      simp [Run.change, hcode]
    rw [hchange]
    exact h.renameWords_renameWords old.text

/-- A name is renamed where it is a whole word, not where it goes on with a letter outside ASCII,
nor in a literal or a comment. -/
theorem renameTables_whole_words :
    let aliases : Keyed Text := [("events", "raw_events"), ("visits", "page_views")]
    IsOneStep aliases ∧ aliases.keys.Nodup ∧
      renameTables aliases "SELECT events.id, 'visits' FROM events, eventsé -- visits" =
        "SELECT raw_events.id, 'visits' FROM raw_events, eventsé -- visits" ∧
      renameTables aliases "SELECT raw_events.id, 'visits' FROM raw_events, eventsé -- visits" =
        "SELECT raw_events.id, 'visits' FROM raw_events, eventsé -- visits" ∧
      renameTables aliases.reverse "SELECT events.id, 'visits' FROM events, eventsé -- visits" =
        "SELECT raw_events.id, 'visits' FROM raw_events, eventsé -- visits" := by
  intro aliases
  have hnodup : aliases.keys.Nodup := by decide
  have honce : IsOneStep aliases := by
    constructor
    · decide
    · decide
    · decide
  obtain ⟨hrename, hperm, htwice⟩ := renameTables_isOneStep honce
    "SELECT events.id, 'visits' FROM events, eventsé -- visits"
  have hresult : renameTables aliases "SELECT events.id, 'visits' FROM events, eventsé -- visits" =
      "SELECT raw_events.id, 'visits' FROM raw_events, eventsé -- visits" := by
    rw [hrename]
    decide
  have hreversed := hperm hnodup aliases.reverse aliases.reverse_perm
  rw [hresult] at htwice hreversed
  exact ⟨honce, hnodup, hresult, htwice, hreversed⟩

end QueryBridge
