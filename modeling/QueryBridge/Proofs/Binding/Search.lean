import QueryBridge.Proofs.Binding.Placement
import QueryBridge.Proofs.Lexical.Identifier
import QueryBridge.Proofs.Text.Cut

/-!
# Which placeholders are found

The search goes on behind a placeholder once it has found one, and at the next byte of code if not.
It misses nothing: between the braces of a placeholder there is no brace of the code, so no other
placeholder starts there.
-/

namespace QueryBridge

open Text

/-- The first of some code in order that has a property is the one with the least offset. -/
theorem Cursor.find?_eq_some_iff {code : List Cursor}
    (hsorted : code.Pairwise fun c d => c.offset < d.offset) {p : Cursor → Bool} {d : Cursor} :
    code.find? p = some d ↔
      d ∈ code ∧ p d = true ∧ ∀ c ∈ code, p c = true → d.offset ≤ c.offset := by
  induction code with
  | nil => simp
  | cons c code ih =>
    obtain ⟨hlater, hsorted⟩ := List.pairwise_cons.mp hsorted
    cases hc : p c with
    | true =>
      rw [List.find?_cons_of_pos hc, Option.some.injEq]
      constructor
      · rintro rfl
        refine ⟨List.mem_cons_self, hc, List.forall_mem_cons.mpr ⟨fun _ => Nat.le_refl _, ?_⟩⟩
        exact fun later hmem _ => (hlater later hmem).le
      · rintro ⟨hd, -, hleast⟩
        have hle := hleast c List.mem_cons_self hc
        exact ((List.mem_cons.mp hd).resolve_right fun hmem => by
          have := hlater d hmem
          omega).symm
    | false =>
      rw [List.find?_cons_of_neg (by simp [hc]), ih hsorted, List.forall_mem_cons, List.mem_cons]
      constructor
      · rintro ⟨hd, hp, hleast⟩
        exact ⟨Or.inr hd, hp, by simp [hc], hleast⟩
      · rintro ⟨hd, hp, -, hleast⟩
        refine ⟨hd.resolve_left ?_, hp, hleast⟩
        rintro rfl
        simp [hc] at hp

/-- Code in order stands behind another byte of it exactly if its offset is greater. -/
theorem Cursor.mem_later_iff {before later : List Cursor} {c d : Cursor}
    (hsorted : (before ++ c :: later).Pairwise fun c d => c.offset < d.offset) :
    d ∈ later ↔ d ∈ before ++ c :: later ∧ c.offset < d.offset := by
  obtain ⟨-, hlater, hbefore⟩ := List.pairwise_append.mp hsorted
  constructor
  · exact fun hd => ⟨by simp [hd], (List.pairwise_cons.mp hlater).1 d hd⟩
  · rintro ⟨hd, hlt⟩
    rcases List.mem_append.mp hd with hd | hd
    · have := hbefore d hd c List.mem_cons_self
      omega
    · refine (List.mem_cons.mp hd).resolve_left ?_
      rintro rfl
      omega

namespace Placeholder

variable {placeholder : Placeholder} {text : Text}

/-- What stands between the braces of a placeholder. -/
def body (placeholder : Placeholder) (text : Text) : Text :=
  text.slice (placeholder.start + 1) (placeholder.stop - 1)

/-- A text spells what a placeholder declares: up to its first colon the name, and behind it the
type, which is not empty and holds no apostrophe. White space around both does not count. -/
def SpelledBy (placeholder : Placeholder) (body : Text) : Prop :=
  ∃ name type, body = name ++ Byte.colon :: type ∧ Byte.colon ∉ name ∧
    trim name = placeholder.name ∧ placeholder.name.IsName ∧
    trim type ≠ [] ∧ Byte.quote ∉ trim type ∧ ParamType.ofText (trim type) = placeholder.type

theorem ofBody?_eq_some_iff {start stop : Nat} {body : Text} :
    ofBody? start stop body = some placeholder ↔
      placeholder.start = start ∧ placeholder.stop = stop ∧ placeholder.SpelledBy body := by
  simp only [ofBody?, Option.bind_eq_bind, Option.bind_eq_some_iff, Option.guard_eq_some',
    Option.pure_def, Option.some.injEq, Bool.and_eq_true, isIdentifier_iff]
  constructor
  · rintro ⟨⟨name, type⟩, hcut, _, hguard, rfl⟩
    obtain ⟨hbody, hname⟩ := cut?_eq_some_iff.mp hcut
    exact ⟨rfl, rfl, name, type, hbody, hname, rfl, by simpa [and_assoc] using hguard⟩
  · rintro ⟨rfl, rfl, name, type, rfl, hcolon, hname, hword, hne, hquote, htype⟩
    refine ⟨(name, type), cut?_eq_some_iff.mpr ⟨rfl, hcolon⟩, (), ?_, ?_⟩
    · simpa [hname, hword] using ⟨hne, hquote⟩
    · simp only [hname, htype]

/-- A placeholder is written in a text: an opening brace of the code, and as the next brace of the
code a closing one, with a name and a type spelled between them. -/
structure WrittenIn (placeholder : Placeholder) (text : Text) : Prop
    extends placeholder.StandsIn text where
  next : ∀ c ∈ text.code, placeholder.start < c.offset →
    (c.sees Byte.openBrace || c.sees Byte.closeBrace) = true → placeholder.stop ≤ c.offset + 1
  spelled : placeholder.SpelledBy (placeholder.body text)

/-- What is read at a byte of the code is a placeholder that is written there. -/
theorem at?_eq_some_iff {before later : List Cursor} {c : Cursor}
    (hsplit : text.code = before ++ c :: later) :
    at? c later = some placeholder ↔
      placeholder.start = c.offset ∧ placeholder.WrittenIn text := by
  have hlater {d : Cursor} : d ∈ later ↔ d ∈ text.code ∧ c.offset < d.offset := by
    rw [hsplit]
    exact Cursor.mem_later_iff (hsplit ▸ text.pairwise_code)
  have hsorted : later.Pairwise fun c d => c.offset < d.offset :=
    (List.pairwise_cons.mp (List.pairwise_append.mp (hsplit ▸ text.pairwise_code)).2.1).2
  have hc : c ∈ text.code := by simp [hsplit]
  have hbody (d : Cursor) : (c.forward 1).after.take (d.offset - c.offset - 1) =
      text.slice (c.offset + 1) d.offset := by
    rw [slice, ← List.drop_drop, (mem_code.mp hc).1.drop_eq, Nat.sub_sub, Cursor.forward]
  simp only [at?, Option.bind_eq_bind, Option.bind_eq_some_iff, Option.guard_eq_some', hbody,
    Cursor.find?_eq_some_iff hsorted, ofBody?_eq_some_iff]
  constructor
  · rintro ⟨_, hopen, d, ⟨hd, -, hleast⟩, _, hclose, hstart, hstop, hspelled⟩
    obtain ⟨hcode, hlt⟩ := hlater.mp hd
    refine ⟨hstart, ⟨⟨c, hc, hstart.symm, hopen⟩, ⟨d, hcode, hstop.symm, hclose⟩, by omega⟩, ?_, ?_⟩
    · intro e he hbehind hbrace
      have hle := hleast e (hlater.mpr ⟨he, by omega⟩) hbrace
      omega
    · rwa [body, hstart, hstop, Nat.add_sub_cancel]
  · rintro ⟨hstart, hwritten⟩
    obtain ⟨o, ho, hoffset, hopen⟩ := hwritten.opening
    obtain rfl := (mem_code.mp ho).1.ext (mem_code.mp hc).1 (hoffset.trans hstart)
    obtain ⟨d, hd, hstop, hclose⟩ := hwritten.closing
    have hnonempty := hwritten.nonempty
    have hne : o.offset ≠ d.offset := fun heq => by
      rw [(mem_code.mp ho).1.ext (mem_code.mp hd).1 heq] at hopen
      exact absurd (Cursor.eq_of_sees hopen hclose) (by decide)
    have hspelled := hwritten.spelled
    rw [body, hstart, ← hstop, Nat.add_sub_cancel] at hspelled
    refine ⟨(), hopen, d, ⟨hlater.mpr ⟨hd, by omega⟩, by simp [hclose], fun e he hbrace => ?_⟩,
      (), hclose, hstart, hstop.symm, hspelled⟩
    obtain ⟨hcode, hlt⟩ := hlater.mp he
    have hle := hwritten.next e hcode (by omega) hbrace
    omega

/-- Something stands at a byte of some code with the rest behind it: at the first one, or later. -/
theorem exists_split_cons {c : Cursor} {code : List Cursor} {P : Cursor → List Cursor → Prop} :
    (∃ before d later, c :: code = before ++ d :: later ∧ P d later) ↔
      P c code ∨ ∃ before d later, code = before ++ d :: later ∧ P d later := by
  constructor
  · rintro ⟨before, d, later, hsplit, h⟩
    cases before with
    | nil =>
      obtain ⟨rfl, rfl⟩ := List.cons.inj hsplit
      exact Or.inl h
    | cons b before => exact Or.inr ⟨before, d, later, (List.cons.inj hsplit).2, h⟩
  · rintro (h | ⟨before, d, later, rfl, h⟩)
    · exact ⟨[], c, code, rfl, h⟩
    · exact ⟨c :: before, d, later, rfl, h⟩

/-- Behind the opening brace of a placeholder, the next one starts behind its closing brace. -/
theorem stop_le_of_at? {c d : Cursor} {code : List Cursor}
    (hsorted : code.Pairwise fun c d => c.offset < d.offset) (h : at? c code = some placeholder)
    (hd : d ∈ code) (hopen : d.sees Byte.openBrace = true) : placeholder.stop ≤ d.offset := by
  simp only [at?, Option.bind_eq_bind, Option.bind_eq_some_iff, Option.guard_eq_some'] at h
  obtain ⟨_, -, closing, hfind, _, hclose, hbody⟩ := h
  obtain ⟨-, before, behind, rfl, hbefore⟩ := List.find?_eq_some_iff_append.mp hfind
  rw [(span_of_ofBody? hbody).2]
  rcases List.mem_append.mp hd with hd | hd
  · have hnone := hbefore d hd
    simp [hopen] at hnone
  · rcases List.mem_cons.mp hd with rfl | hd
    · exact absurd (Cursor.eq_of_sees hopen hclose) (by decide)
    · exact ((Cursor.mem_later_iff hsorted).mp hd).2

/-- The search finds what can be read at some byte of the code. -/
theorem mem_findAll_iff {place : Nat} {code : List Cursor}
    (hsorted : code.Pairwise fun c d => c.offset < d.offset) :
    placeholder ∈ findAll place code ↔ ∃ before c later, code = before ++ c :: later ∧
      (place ≤ c.offset ∧ at? c later = some placeholder) := by
  induction code generalizing place with
  | nil => simp [findAll]
  | cons c code ih =>
    obtain ⟨hlater, hsorted⟩ := List.pairwise_cons.mp hsorted
    rw [exists_split_cons, findAll]
    split
    next hplace =>
      rw [ih hsorted, or_iff_right]
      omega
    next hplace =>
      cases hat : at? c code with
      | none => simp [ih hsorted]
      | some found =>
        dsimp only
        rw [List.mem_cons, ih hsorted]
        -- The search goes on behind the closing brace, and everything else that can be read at a
        -- byte of the code behind `c` stands there.
        refine or_congr ?_ (exists_congr fun before => exists_congr fun e =>
          exists_congr fun later => and_congr_right fun hsplit => and_congr_left fun he => ?_)
        · rw [Option.some.injEq, eq_comm, and_iff_right (by omega)]
        · have hmem : e ∈ code := by simp [hsplit]
          have hbehind := hlater e hmem
          have hstop := stop_le_of_at? hsorted hat hmem (exists_closing_of_at? he).1
          exact iff_of_true hstop (by omega)

end Placeholder

namespace Text

/-- A placeholder is found if and only if it is written in the text. -/
theorem mem_placeholders_iff {text : Text} {placeholder : Placeholder} :
    placeholder ∈ text.placeholders ↔ placeholder.WrittenIn text := by
  rw [placeholders, Placeholder.mem_findAll_iff text.pairwise_code]
  constructor
  · rintro ⟨before, c, later, hsplit, -, hat⟩
    exact ((Placeholder.at?_eq_some_iff hsplit).mp hat).2
  · intro h
    obtain ⟨c, hc, hstart, -⟩ := h.opening
    obtain ⟨before, later, hsplit⟩ := List.append_of_mem hc
    exact ⟨before, c, later, hsplit, Nat.zero_le _,
      (Placeholder.at?_eq_some_iff hsplit).mpr ⟨hstart.symm, h⟩⟩

/-- The placeholders of a text are found in order, each one behind the one before, and they are
precisely those that are written in it: an opening brace of the code, and as the next brace of the
code a closing one, with a name, a colon and a type between them. -/
theorem placeholders_exact (text : Text) :
    (text.placeholders.Pairwise fun p q => p.stop ≤ q.start) ∧
      ∀ placeholder, placeholder ∈ text.placeholders ↔ placeholder.WrittenIn text :=
  ⟨text.pairwise_placeholders, fun _ => mem_placeholders_iff⟩

/-- A placeholder of a statement is read from what stands between its braces. -/
theorem ofBody?_of_mem_placeholders {text : Text} {placeholder : Placeholder}
    (h : placeholder ∈ text.placeholders) :
    Placeholder.ofBody? placeholder.start placeholder.stop (placeholder.body text) =
      some placeholder :=
  Placeholder.ofBody?_eq_some_iff.mpr ⟨rfl, rfl, (mem_placeholders_iff.mp h).spelled⟩

end Text

end QueryBridge
