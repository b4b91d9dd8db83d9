import QueryBridge.Proofs.Phrase.Builtin
import QueryBridge.Proofs.Phrase.Clean

/-!
# Tidy phrases

A phrase is tidy if every call of `multiIf` in it has at least two arguments and no name goes on
from a closing parenthesis. If whole phrases take the place of the calls of one builtin, then a tidy
phrase stays tidy, keeps its commas, and templates respect what the rewrite makes of their
arguments.
-/

namespace QueryBridge

open Text

/-- What a parenthesis holds: a comma, if the word before it is `multiIf`. -/
def Branched (name : Text) (inner : Phrase) : Prop :=
  branching.names name = true → inner.commas ≠ 0

theorem branched_of_unnamed {name : Text} (h : Unnamed name) (inner : Phrase) :
    Branched name inner := by
  simp [Branched, branching_of_unnamed h]

namespace Phrase

/-- A phrase whose calls of `multiIf` hold a comma, in which no name goes on from a closing
parenthesis. -/
structure Tidy (p : Phrase) : Prop extends p.Fits Branched where
  parted : p.Parted Byte.isIdent

/-- A tidy phrase without commas outside all brackets that is fit to take the place of a call. -/
structure Whole (p : Phrase) : Prop extends p.Tidy where
  lone : p.commas = 0
  whole : isWhole p.text p.text = true

theorem Whole.stands {p : Phrase} (h : p.Whole) : p.Stands Branched :=
  h.toFits.stands h.whole fun word => branched_of_unnamed (unnamed_end word)

/-- Behind a whole phrase no parenthesis makes a call of a builtin. -/
theorem Whole.unnamed_lastWord {p : Phrase} (h : p.Whole) : Unnamed (p.lastWord []) := by
  rcases lastWord_of_isWhole h.reads h.whole with hword | hword
  · rw [hword]
    exact unnamed_nil
  · rw [hword, ← List.append_nil (ofString "END")]
    exact unnamed_end []

end Phrase

/-- No name goes on from a closing parenthesis of code. -/
def Text.Spaced (text : Text) : Prop :=
  ∀ c ∈ text.code, c.sees Byte.closeParen = true → (c.forward 1).byte?.any Byte.isIdent = false

instance (text : Text) : Decidable text.Spaced :=
  inferInstanceAs (Decidable (∀ c ∈ text.code, c.sees Byte.closeParen = true →
    (c.forward 1).byte?.any Byte.isIdent = false))

theorem Phrase.parted_of_cursors {p : Phrase} {offset : Nat} {before tail : Text}
    (h : ∀ c ∈ p.cursors offset before tail, c.sees Byte.closeParen = true →
      (c.forward 1).byte?.any Byte.isIdent = false) : p.Parted Byte.isIdent := by
  induction p generalizing offset before tail with
  | nil => trivial
  | byte b rest ih => exact ih fun c hc => h c (List.mem_cons_of_mem _ hc)
  | quoted q value rest ih => exact ih h
  | group kind inner rest ihinner ih =>
    rw [cursors, List.forall_mem_cons, List.forall_mem_append, List.forall_mem_cons] at h
    obtain ⟨-, hinner, hclosing, hrest⟩ := h
    refine ⟨?_, ihinner hinner, ih hrest⟩
    rintro rfl
    have hbehind := hclosing rfl
    cases hfirst : rest.text.head? with
    | none => rfl
    | some b => simpa [Cursor.forward, Cursor.byte?, List.head?_append, hfirst] using hbehind

/-- A clean statement in which no name goes on from a closing parenthesis is a tidy phrase. -/
theorem Text.Clean.tidy {text : Text} (h : text.Clean) (hspaced : text.Spaced) :
    ∃ p : Phrase, p.text = text ∧ p.Tidy := by
  obtain ⟨p, rfl, hfits⟩ := Phrase.fits_of_clean h
  rw [Spaced, Phrase.code_text hfits.reads] at hspaced
  exact ⟨p, rfl, hfits, Phrase.parted_of_cursors hspaced⟩

/-- The text of a tidy phrase without commas outside all brackets. -/
def Text.Lone (text : Text) : Prop := ∃ p : Phrase, p.text = text ∧ p.Tidy ∧ p.commas = 0

namespace Phrase

section Tidy

variable {p first last : Phrase}

/-- What holds of what every parenthesis holds, holds with what holds of every call. -/
theorem AllCalls.and_parted {P : Text → Phrase → Prop} {f : UInt8 → Bool} {word : Text}
    (h : p.AllCalls P word) (hparted : p.Parted f) :
    p.AllCalls (fun name inner => P name inner ∧ inner.Parted f) word := by
  induction p generalizing word with
  | nil => trivial
  | byte b rest ih => exact ih h hparted
  | quoted q value rest ih => exact ih h hparted
  | group kind inner rest ihinner ih =>
    obtain ⟨hcall, hinner, hrest⟩ := h
    obtain ⟨-, hpartedInner, hpartedRest⟩ := hparted
    exact ⟨fun hkind => ⟨hcall hkind, hpartedInner⟩, ihinner hinner hpartedInner,
      ih hrest hpartedRest⟩

/-- What the calls of a tidy phrase hold is tidy and shorter. -/
theorem Tidy.within (h : p.Tidy) :
    p.AllCalls (fun name inner => Branched name inner ∧ inner.Tidy ∧
      inner.text.length < p.text.length) [] :=
  ((h.calls.within h.reads).and_parted h.parted).mono
    fun _ _ ⟨⟨hbranched, hreads, hcalls, hlt⟩, hparted⟩ =>
      ⟨hbranched, ⟨⟨hreads, hcalls⟩, hparted⟩, hlt⟩

theorem Tidy.of_append_left (h : (first.append last).Tidy) : first.Tidy :=
  ⟨⟨((reads_append first last none).mp h.reads).1.to_none,
    ((allCalls_append first last _ []).mp h.calls).1⟩, h.parted.of_append.1⟩

/-- A phrase behind bytes that belong to no name of a call in it. -/
theorem Tidy.of_append_right (h : (first.append last).Tidy)
    (hword : first.lastWord [] = [] ∨ last.text.head?.any Byte.isIdent = false) : last.Tidy := by
  have hcalls := ((allCalls_append first last _ []).mp h.calls).2
  refine ⟨⟨((reads_append first last none).mp h.reads).2, ?_⟩, h.parted.of_append.2⟩
  rcases hword with hword | hhead
  · rwa [hword] at hcalls
  · exact hcalls.of_head hhead fun inner => branched_of_unnamed unnamed_nil inner

theorem Tidy.of_mem_pieces {piece : Phrase} (h : p.Tidy) (hpiece : piece ∈ p.pieces) :
    piece.Tidy ∧ piece.commas = 0 := by
  induction p using piecesInduction with
  | last p hcommas hpieces =>
    obtain rfl : piece = p := by simpa [hpieces] using hpiece
    exact ⟨h, hcommas⟩
  | more first rest hcommas hpieces ih =>
    rw [hpieces, List.mem_cons] at hpiece
    rcases hpiece with rfl | hpiece
    · exact ⟨h.of_append_left, hcommas⟩
    · have hrest : (byte Byte.comma rest).Tidy := h.of_append_right (Or.inr rfl)
      exact ih (@Tidy.of_append_right (byte Byte.comma nil) rest hrest (Or.inl rfl)) hpiece

/-- What trimming leaves of a tidy phrase is tidy, and brings no commas. -/
theorem Trims.tidy {before behind : Text} {middle : Phrase} (h : p.Trims before middle behind)
    (hp : p.Tidy) : (middle.append (ofBytes behind)).Tidy ∧ middle.Tidy ∧
      (p.commas = 0 → (middle.append (ofBytes behind)).commas = 0 ∧ middle.commas = 0) := by
  rw [h.eq] at hp ⊢
  have hstart := hp.of_append_right (Or.inl h.lastWord)
  refine ⟨hstart, hstart.of_append_left, fun hcommas => ?_⟩
  simp only [commas_append] at hcommas ⊢
  omega

theorem Tidy.lone_of_mem_arguments {argument : Text} (h : p.Tidy)
    (hargument : argument ∈ p.arguments) : argument.Lone := by
  unfold arguments at hargument
  split at hargument
  · simp at hargument
  · obtain ⟨piece, hpiece, rfl⟩ := List.mem_map.mp hargument
    obtain ⟨htidy, hcommas⟩ := h.of_mem_pieces hpiece
    obtain ⟨before, middle, behind, htrims⟩ := exists_trims htidy.reads
    obtain ⟨-, hmiddle, hlone⟩ := htrims.tidy htidy
    exact ⟨middle, htrims.stop, hmiddle, (hlone hcommas).2⟩

end Tidy

section Rewrite

variable {callee : Callee} {replace : Phrase → Phrase} {p : Phrase}

/-- A tidy phrase stays so, and keeps its commas, if whole phrases take the place of calls. -/
theorem Tidy.rewrite (h : p.Tidy) (hwhole : p.AllCalls (fun name inner =>
      callee.names name = true → (replace inner).Whole) []) :
    (p.rewrite callee replace []).Tidy ∧ (p.rewrite callee replace []).commas = p.commas := by
  have hstands := hwhole.mono fun _ _ hwhole hnames => (hwhole hnames).stands
  refine ⟨⟨⟨reads_rewrite h.reads (by simp) hstands, ?_⟩, ?_⟩, ?_⟩
  · refine allCalls_rewrite (by simp) h.calls hstands
      fun name inner inner' hbranched _ hcommas hbranching => ?_
    have := hbranched hbranching
    omega
  · exact parted_rewrite h.parted (hwhole.mono fun _ _ hwhole hnames => (hwhole hnames).parted)
  · exact commas_rewrite (by simp) (hwhole.mono fun _ _ hwhole hnames => (hwhole hnames).lone)

/-- A rewrite of the calls of a builtin, in whose place it puts whole phrases. -/
structure Steady (callee : Callee) (replace : Phrase → Phrase) : Prop where
  unnamed : ∀ {name}, Unnamed name → callee.names name = false
  whole : ∀ {name inner}, callee.names name = true → Branched name inner → inner.Tidy →
    (replace inner).Whole

namespace Steady

variable (h : Steady callee replace)

include h

theorem calls (hp : p.Tidy) :
    p.AllCalls (fun name inner => callee.names name = true → (replace inner).Whole) [] :=
  hp.within.mono fun _ _ hspec hnames => h.whole hnames hspec.1 hspec.2.1

theorem firm (hp : p.Tidy) :
    p.AllCalls (fun name inner => callee.names name = true → (replace inner).text.Firm) [] :=
  (h.calls hp).mono fun _ _ hwhole hnames => firm_of_isWhole (hwhole hnames).whole

theorem names_filler (b : UInt8) (name : Text) (hb : Byte.isFiller b = true) :
    callee.names (b :: name) = false :=
  h.unnamed (unnamed_filler hb)

/-- The arguments of a rewritten phrase are those of the phrase, each rewritten by itself. -/
theorem arguments {s : Text → Text} (hp : p.Tidy)
    (hs : ∀ q : Phrase, q.Tidy → s q.text = (q.rewrite callee replace []).text) :
    (p.rewrite callee replace []).arguments = p.arguments.map s := by
  refine arguments_rewrite hp.reads (h.firm hp) h.names_filler
    ((h.calls hp).mono fun _ _ hwhole hnames => (hwhole hnames).lone) fun piece hpiece => ?_
  have hpiece := (hp.of_mem_pieces hpiece).1
  obtain ⟨before, middle, behind, htrims⟩ := exists_trims hpiece.reads
  rw [htrims.rewrite hpiece.reads (h.firm hpiece) h.names_filler, ← htrims.stop]
  exact hs middle (htrims.tidy hpiece).2.1

end Steady

end Rewrite

end Phrase

/-- A rewrite makes a text of the text of a tidy phrase. A lone one has no commas. -/
def Text.Rewrites (callee : Callee) (replace : Phrase → Phrase) (lone : Bool)
    (old new : Text) : Prop :=
  ∃ p : Phrase, p.text = old ∧ (p.rewrite callee replace []).text = new ∧ p.Tidy ∧
    (lone = true → p.commas = 0)

theorem Phrase.allBytes_mono {f g : UInt8 → Bool} {p : Phrase} (h : p.allBytes f = true)
    (hsub : ∀ b, f b = true → g b = true) : p.allBytes g = true := by
  induction p with
  | nil => rfl
  | byte b rest ih =>
    simp only [Phrase.allBytes, Bool.and_eq_true] at h ⊢
    exact ⟨hsub b h.1, ih h.2⟩
  | quoted q value rest ih => exact ih h
  | group kind inner rest _ ih => exact ih h

section Rewrites

variable {callee : Callee} {replace : Phrase → Phrase}

/-- A rewrite of a filled outline is one of what was filled in. -/
theorem Text.IsOutline.rewrites_fillHoles (h : Phrase.Steady callee replace) {lone : Bool}
    {outline : Text} {old new : UInt8 → Text} (houtline : outline.IsOutline lone)
    (hfill : ∀ hole, Rewrites callee replace (lone && hole != Part.spread) (old hole) (new hole)) :
    Rewrites callee replace lone (fillHoles old outline) (fillHoles new outline) := by
  choose fillers hold hnew htidy hcommas using hfill
  have hfilled {fillers : UInt8 → Phrase} :
      ((Phrase.read outline).plug fillers).text =
        fillHoles (fun hole => (fillers hole).text) outline := by
    rw [Phrase.text_plug houtline.reads houtline.hosts, houtline.reading]
  refine ⟨(Phrase.read outline).plug fillers, ?_, ?_, ⟨⟨?_, ?_⟩, ?_⟩, fun hlone => ?_⟩
  · rw [hfilled]
    exact congrArg (fillHoles · _) (funext hold)
  · have hmiss := houtline.unnamed.mono fun name _ hname => h.unnamed hname
    rw [Phrase.rewrite_plug houtline.hosts hmiss fun _ => rfl]
    exact hfilled.trans (congrArg (fillHoles · _) (funext hnew))
  · exact Phrase.reads_plug houtline.reads houtline.hosts fun hole _ => (htidy hole).reads
  · exact Phrase.allCalls_plug houtline.hosts houtline.unnamed (fun _ => rfl)
      (fun hole _ => (htidy hole).calls) fun _ _ inner hname => branched_of_unnamed hname inner
  · exact Phrase.parted_plug houtline.hosts houtline.parted fun hole _ => (htidy hole).parted
  · refine Phrase.commas_plug (Phrase.allBytes_mono (houtline.alone hlone) fun b hb => ?_)
    simp only [Bool.and_eq_true] at hb ⊢
    refine ⟨hb.1, ?_⟩
    simp [hcommas b (by simp [hlone, hb.2])]

/-- Templates respect what a rewrite makes of tidy phrases. -/
theorem congruence_rewrites (h : Phrase.Steady callee replace) :
    Congruence (Rewrites callee replace) where
  nil := ⟨.nil, rfl, rfl, ⟨⟨trivial, trivial⟩, trivial⟩, fun _ => rfl⟩
  weaken := by
    rintro old new ⟨p, hold, hnew, htidy, -⟩
    exact ⟨p, hold, hnew, htidy, by simp⟩
  literal value := by
    have htext : (Phrase.quoted Byte.quote value .nil).text = quoteLiteral value := by
      simp [Phrase.text, quoteLiteral_eq_quoteRun]
    exact ⟨.quoted Byte.quote value .nil, htext, htext,
      ⟨⟨⟨rfl, by simp [Phrase.text], trivial⟩, trivial⟩, trivial⟩, fun _ => rfl⟩
  fill := Text.IsOutline.rewrites_fillHoles h
  unquote := by
    rintro _ _ ⟨p, rfl, rfl, htidy, -⟩
    exact Phrase.unquoteLiteral?_rewrite htidy.reads (h.firm htidy) h.names_filler
  word := by
    rintro _ _ ⟨p, rfl, rfl, htidy, -⟩
    exact Phrase.toWord?_rewrite htidy.reads (h.firm htidy) h.names_filler
  distinct := by
    rintro _ _ ⟨p, rfl, rfl, htidy, hcommas⟩
    rcases Phrase.afterDistinct?_rewrite htidy.reads (h.firm htidy)
        fun name hname => h.unnamed (unnamed_distinct hname) with
      ⟨hnew, hold⟩ | ⟨name, q, rfl, hname, hhead, hnew, hold⟩
    · rw [hnew, hold]
      exact .none
    · rw [hnew, hold]
      have hq := htidy.of_append_right (Or.inr hhead)
      obtain ⟨before, middle, behind, htrims⟩ := Phrase.exists_trims hq.reads
      refine .some ⟨middle.append (.ofBytes behind), htrims.start, ?_, (htrims.tidy hq).1,
        fun hlone => ((htrims.tidy hq).2.2 ?_).1⟩
      · exact (Phrase.trimStart_rewrite hq.reads (h.firm hq) h.names_filler htrims.eq
          htrims.lastWord htrims.start).symm
      · have := hcommas hlone
        rw [Phrase.commas_append] at this
        omega

end Rewrites

/-- A callee without a name, which nothing calls. -/
def Callee.nobody : Callee := ⟨[], .exact⟩

theorem Phrase.steady_nobody (replace : Phrase → Phrase) : Steady Callee.nobody replace where
  unnamed _ := rfl
  whole hnames := by simp [Callee.names, Callee.nobody] at hnames

/-- What takes the place of a call with lone arguments is whole, except for a lone argument of
`multiIf`. -/
theorem Replacement.exists_whole {replacement : Replacement} {arguments : List Text}
    (hshaped : replacement.IsShaped) (hlength : replacement = .firstBranch → 2 ≤ arguments.length)
    (harguments : ∀ argument ∈ arguments, argument.Lone) :
    ∃ p : Phrase, p.text = replacement.apply arguments ∧ p.Whole := by
  have hsame (p : Phrase) : (p.rewrite Callee.nobody id []).text = p.text :=
    Phrase.text_rewrite_of_allCalls (p.allCalls_of_forall [] fun _ _ => rfl)
  have hrelated : List.Forall₂ (Rewrites Callee.nobody id true) arguments arguments := by
    refine List.forall₂_same.mpr fun argument hargument => ?_
    obtain ⟨p, hp, htidy, hcommas⟩ := harguments argument hargument
    exact ⟨p, hp, (hsame p).trans hp, htidy, fun _ => hcommas⟩
  obtain ⟨p, hp, -, htidy, hcommas⟩ :=
    (congruence_rewrites (Phrase.steady_nobody id)).apply hshaped hrelated
  exact ⟨p, hp, htidy, hcommas rfl, by rw [hp]; exact isWhole_apply hshaped hlength⟩

end QueryBridge
