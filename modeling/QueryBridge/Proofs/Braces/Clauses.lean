import QueryBridge.Proofs.Braces.Calls
import QueryBridge.Proofs.Conversion.ArrayJoin
import QueryBridge.Proofs.Conversion.Modifier

/-!
# Clauses and subscripts outside placeholders

A modifier, an ARRAY JOIN clause and a subscripted name begin and end outside all groups, and so do
the stretches that take their places.
-/

namespace QueryBridge

open Text

variable {bodies : List Text} {text : Text} {code : List Cursor}

theorem Cursor.Outside.trimmedStretch {start stop : Cursor} (hstart : start.Outside bodies text)
    (hstop : stop.Outside bodies text) :
    ClearAt bodies text (trimmedStretch start stop).1 ∧
      ClearAt bodies text (trimmedStretch start stop).2 :=
  ⟨(hstart.backWhile fun _ => Byte.isFree_of_isBlank).clearAt,
    (hstop.backWhile fun _ => Byte.isFree_of_isBlank).clearAt⟩

section Modifiers

namespace Modifier

variable {c : Cursor} {modifier : Modifier}

theorem outside_of_withFill? (hbehind : (c.forward 4).Outside bodies text)
    (h : withFill? c = some modifier) : modifier.stop.Outside bodies text := by
  simp only [withFill?, Option.bind_eq_bind, Option.bind_eq_some_iff, Option.guard_eq_some'] at h
  obtain ⟨fill, hfill, -, hword, hstop⟩ := h
  obtain rfl := Option.some.inj hstop
  have hlast : (fill.forward 4).Outside bodies text :=
    (hbehind.nextSignificant? hfill).forward_of_keyword hword (by decide)
  exact hlast.clauseEnd _ _

theorem outside_interpolate (hbehind : (c.forward 11).Outside bodies text) :
    (interpolate c).stop.Outside bodies text := by
  unfold interpolate
  dsimp only
  cases hnext : (c.forward 11).nextSignificant? with
  | none => exact hbehind
  | some next =>
    have hout := hbehind.nextSignificant? hnext
    dsimp only
    split
    next hopen =>
      cases hclosing : next.closingParen? with
      | none => exact hout.toEnd
      | some closing =>
        obtain ⟨hclosed, hclose⟩ := hout.closingParen? (by simpa [Cursor.sees] using hopen) hclosing
        exact hclosed.forward_one hclose (by decide)
    · exact hbehind

theorem outside_of_settings? (hbehind : (c.forward 8).Outside bodies text)
    (h : settings? c = some modifier) : modifier.stop.Outside bodies text := by
  simp only [settings?, Option.bind_eq_bind, Option.bind_eq_some_iff] at h
  obtain ⟨name, -, -, -, sign, -, -, -, hstop⟩ := h
  obtain rfl := Option.some.inj hstop
  exact hbehind.clauseEnd _ _

theorem outside_of_format? (hbehind : (c.forward 6).Outside bodies text)
    (h : format? c = some modifier) : modifier.stop.Outside bodies text := by
  simp only [format?, Option.bind_eq_bind, Option.bind_eq_some_iff] at h
  obtain ⟨name, hname, -, -, -, -, hstop⟩ := h
  obtain rfl := Option.some.inj hstop
  exact (hbehind.nextSignificant? hname).forwardWhile fun _ => Byte.isFree_of_isIdent

/-- A modifier that starts outside all groups ends outside them. -/
theorem outside_of_at? {depth : Nat} (hc : c.Outside bodies text)
    (h : at? depth c = some modifier) : modifier.stop.Outside bodies text := by
  cases startsAt_of_at? h with
  | final hword h =>
    simp only [final?, Option.ite_none_right_eq_some, Option.some.injEq] at h
    rw [← h.2]
    exact hc.forward_of_keyword hword (by decide)
  | withFill hword h => exact outside_of_withFill? (hc.forward_of_keyword hword (by decide)) h
  | interpolate hword h =>
    rw [← h]
    exact outside_interpolate (hc.forward_of_keyword hword (by decide))
  | settings _ hword h => exact outside_of_settings? (hc.forward_of_keyword hword (by decide)) h
  | format _ hword h => exact outside_of_format? (hc.forward_of_keyword hword (by decide)) h

/-- A search for modifiers passes over a run without any, perhaps to another depth. -/
theorem exists_findAll_append {run : List Cursor} (h : ∀ c ∈ run, c.Idle) (depth place : Nat) :
    ∃ inner, findAll depth place (run ++ code) = findAll inner place code := by
  induction run generalizing depth with
  | nil => exact ⟨depth, rfl⟩
  | cons c run ih =>
    obtain ⟨hc, hrun⟩ := List.forall_mem_cons.mp h
    rw [List.cons_append, findAll, at?_eq_none_of_zero depth hc.modifier]
    split
    · exact ih hrun depth
    · split
      · exact ih hrun (depth + 1)
      · split
        · exact ih hrun (depth - 1)
        · split <;> exact ih hrun depth

theorem outside_of_mem_findAll (h : Sparse bodies text code) (depth place : Nat) :
    ∀ found ∈ findAll depth place code,
      found.1.Outside bodies text ∧ found.2.stop.Outside bodies text := by
  induction h generalizing depth place with
  | nil => simp [findAll]
  | @byte c b code hc hb hfree hcode ih =>
    rw [findAll]
    split
    · exact ih depth place
    · split
      · exact ih (depth + 1) place
      · split
        · exact ih (depth - 1) place
        · split
          · cases hmodifier : at? depth c with
            | none => exact ih depth place
            | some modifier =>
              exact List.forall_mem_cons.mpr ⟨⟨hc, outside_of_at? hc hmodifier⟩, ih depth _⟩
          · exact ih depth place
  | idle hrun hbracket hcode ih =>
    obtain ⟨inner, hinner⟩ := exists_findAll_append hrun depth place
    rw [hinner]
    exact ih inner place

end Modifier

/-- Modifiers are removed from around the placeholders. -/
theorem Text.Braced.dropModifiers (h : Braced bodies text) :
    Braced bodies (dropModifiers text).sql := by
  rw [Modifier.dropModifiers_sql]
  refine h.splice fun edit hedit => ?_
  obtain ⟨found, hfound, rfl⟩ := List.mem_map.mp hedit
  obtain ⟨hstart, hstop⟩ :=
    Modifier.outside_of_mem_findAll (Laid.code_text h).sparse 0 0 found hfound
  obtain ⟨hfirst, hlast⟩ := hstart.trimmedStretch hstop
  exact ⟨hfirst, hlast, .nil⟩

end Modifiers

section ArrayJoins

/-- An item whose texts have the braces of the statement. -/
structure ArrayItem.IsBraced (bodies : List Text) (item : ArrayItem) : Prop where
  array : Braced bodies item.array
  element : Braced bodies item.element

namespace ArrayItem

theorem braced_defaultAlias (array : Text) : Braced bodies (defaultAlias array) := by
  unfold defaultAlias
  dsimp only
  split
  next hlast =>
    rw [Bool.and_eq_true, List.all_eq_true] at hlast
    exact .of_ident hlast.2
  · exact .of_isFree (by decide)

theorem isBraced_ofText (h : Braced bodies text) : (ofText text).IsBraced bodies := by
  unfold ofText
  split
  next c has =>
    obtain ⟨hc, hkeyword⟩ := (Laid.code_text h).lastAs (by simp) 0 c has
    have hbehind : (c.forward 2).Outside bodies text := hc.forward_of_keyword hkeyword (by decide)
    exact ⟨hc.before.trim, hbehind.after.trim⟩
  · exact ⟨h.trim, braced_defaultAlias _⟩

theorem braced_column {item : ArrayItem} (h : item.IsBraced bodies) :
    Braced bodies ("unnest(" ++ item.array ++ ") AS " ++ item.element) :=
  (h.array.enclose (by decide) (by decide)).append h.element

theorem braced_join (left : Bool) {items : List ArrayItem}
    (h : ∀ item ∈ items, item.IsBraced bodies) : Braced bodies (join left items) := by
  have hcondition : (if left then " ON true" else [] : Text).isFree = true := by
    cases left <;> decide
  unfold join
  dsimp only
  split
  next item =>
    obtain ⟨harray, helement⟩ := h item List.mem_cons_self
    refine Braced.append ?_ (.of_isFree hcondition)
    exact harray.enclosePair helement (by cases left <;> decide) (by decide) (by decide)
  · refine Braced.append (Braced.enclose ?_ (by cases left <;> decide) (by decide))
      (.of_isFree hcondition)
    refine Braced.join (.of_isFree (by decide)) fun column hcolumn => ?_
    obtain ⟨item, hitem, rfl⟩ := List.mem_map.mp hcolumn
    exact braced_column (h item hitem)

end ArrayItem

namespace ArrayJoin

/-- A clause that begins and ends outside all groups, as its items do. -/
structure Outside (bodies : List Text) (text : Text) (clause : ArrayJoin) : Prop where
  start : clause.start.Outside bodies text
  stop : clause.stop.Outside bodies text
  items : ClearAt bodies text clause.items

theorem outside_of_at? {c : Cursor} {clause : ArrayJoin} (hc : c.Outside bodies text)
    (h : at? c = some clause) : clause.Outside bodies text := by
  simp only [at?, Option.bind_eq_bind, Option.bind_eq_some_iff, Option.guard_eq_some',
    Bool.and_eq_true] at h
  obtain ⟨-, ⟨-, harray⟩, join, hjoin, -, hword, hclause⟩ := h
  have hbehind : (c.forward 5).Outside bodies text := hc.forward_of_keyword harray (by decide)
  have hitems : (join.forward 4).Outside bodies text :=
    (hbehind.nextSignificant? hjoin).forward_of_keyword hword (by decide)
  have hstop := hitems.listEnd arrayJoinStops
  split at hclause
  next word hprevious =>
    split at hclause
    · obtain rfl := Option.some.inj hclause
      exact ⟨hc.previousWord? hprevious, hstop, hitems.clearAt⟩
    · obtain rfl := Option.some.inj hclause
      exact ⟨hc, hstop, hitems.clearAt⟩
  · obtain rfl := Option.some.inj hclause
    exact ⟨hc, hstop, hitems.clearAt⟩

theorem findAll_append {run : List Cursor} (h : ∀ c ∈ run, c.Idle) (place : Nat) :
    findAll place (run ++ code) = findAll place code := by
  induction run with
  | nil => rfl
  | cons c run ih =>
    obtain ⟨hc, hrun⟩ := List.forall_mem_cons.mp h
    rw [List.cons_append, findAll, hc.arrayJoin]
    split <;> exact ih hrun

theorem outside_of_mem_findAll (h : Sparse bodies text code) (place : Nat) :
    ∀ clause ∈ findAll place code, clause.Outside bodies text := by
  induction h generalizing place with
  | nil => simp [findAll]
  | @byte c b code hc hb hfree hcode ih =>
    rw [findAll]
    split
    · exact ih place
    · cases hclause : at? c with
      | none => exact ih place
      | some clause => exact List.forall_mem_cons.mpr ⟨outside_of_at? hc hclause, ih _⟩
  | idle hrun hbracket hcode ih =>
    rw [findAll_append hrun]
    exact ih place

end ArrayJoin

/-- The arrays and names of a join are taken over with their braces. -/
theorem Text.Braced.expandArrayJoins (h : Braced bodies text) :
    Braced bodies (expandArrayJoins text) := by
  refine h.splice fun edit hedit => ?_
  obtain ⟨clause, hclause, rfl⟩ := List.mem_map.mp hedit
  have hout := ArrayJoin.outside_of_mem_findAll (Laid.code_text h).sparse 0 clause hclause
  obtain ⟨hfirst, hlast⟩ := hout.start.trimmedStretch hout.stop
  refine ⟨hfirst, hlast, .cons (.free (by decide)) (ArrayItem.braced_join _ fun item hitem => ?_)⟩
  obtain ⟨argument, hargument, rfl⟩ := List.mem_map.mp hitem
  exact ArrayItem.isBraced_ofText (Braced.of_mem_arguments hout.items hout.stop.clearAt
    hout.stop.lies.offset_le argument hargument)

end ArrayJoins

section Subscripts

/-- What stands between two places outside all groups. -/
theorem Cursor.Outside.between {c d : Cursor} (hc : c.Outside bodies text)
    (hd : d.Outside bodies text) : Braced bodies (c.after.take (d.offset - c.offset)) := by
  have hslice := Braced.slice hc.clearAt hd.clearAt
  rwa [Text.slice, hc.lies.drop_eq] at hslice

namespace Subscript

/-- A subscripted name outside all groups. -/
structure Outside (bodies : List Text) (text : Text) (subscript : Subscript) : Prop where
  start : ClearAt bodies text subscript.start
  subject : Braced bodies subscript.subject
  keys : ∀ key ∈ subscript.keys, Braced bodies key
  stop : ClearAt bodies text subscript.stop

theorem keysFrom_append {run : List Cursor} (h : ∀ c ∈ run, c.sees Byte.openBracket = false)
    (stop : Nat) :
    keysFrom stop (run ++ code) = keysFrom stop code ∨
      keysFrom stop (run ++ code) = ([], stop) := by
  induction run with
  | nil => exact Or.inl rfl
  | cons c run ih =>
    obtain ⟨hc, hrun⟩ := List.forall_mem_cons.mp h
    rw [List.cons_append, keysFrom, hc, Bool.and_false]
    split
    · exact ih hrun
    · exact Or.inr rfl

/-- Subscripts that follow a place outside all groups are outside them. -/
theorem braced_keysFrom (h : Sparse bodies text code) {stop : Nat}
    (hstop : ClearAt bodies text stop) :
    (∀ key ∈ (keysFrom stop code).1, Braced bodies key) ∧
      ClearAt bodies text (keysFrom stop code).2 := by
  have hnone : (∀ key ∈ ([] : List Text), Braced bodies key) ∧ ClearAt bodies text stop :=
    ⟨by simp, hstop⟩
  induction h generalizing stop with
  | nil => exact hnone
  | @byte c b code hc hb hfree hcode ih =>
    rw [keysFrom]
    split
    · exact ih hstop hnone
    · split
      next hopen =>
        simp only [Bool.and_eq_true, Cursor.sees, beq_iff_eq] at hopen
        cases hclosing : c.closingBracket? with
        | none => exact hnone
        | some closing =>
          obtain ⟨hclosed, hclose⟩ := hc.closingBracket? hopen.2 hclosing
          have hnext := hclosed.clearAt_succ hclose (by decide)
          have hkey := (hc.forward_one hopen.2 (by decide)).between hclosed
          rw [Cursor.offset_forward_one hopen.2, ← Nat.sub_sub] at hkey
          obtain ⟨hkeys, hlast⟩ := ih hnext ⟨by simp, hnext⟩
          dsimp only
          split
          · exact ⟨List.forall_mem_cons.mpr ⟨hkey.trim, hkeys⟩, hlast⟩
          · exact hnone
      · exact hnone
  | idle hrun hbracket hcode ih =>
    rcases keysFrom_append hbracket stop with hskip | hends
    · rw [hskip]
      exact ih hstop hnone
    · rw [hends]
      exact hnone

theorem outside_of_at? {c : Cursor} {subscript : Subscript} (hc : c.Outside bodies text)
    (hcode : Sparse bodies text (c :: code)) (h : at? c code = some subscript) :
    subscript.Outside bodies text := by
  simp only [at?, Option.bind_eq_bind, Option.bind_eq_some_iff, Option.guard_eq_some'] at h
  obtain ⟨-, -, -, -, hkeys⟩ := h
  have hstart : (c.backWhile fun b => Byte.isIdent b || b == Byte.dot).Outside bodies text := by
    refine hc.backWhile fun b hb => ?_
    rcases Bool.or_eq_true_iff.mp hb with hident | hdot
    · exact Byte.isFree_of_isIdent hident
    · rw [beq_iff_eq.mp hdot]
      decide
  obtain ⟨hbraced, hstop⟩ := braced_keysFrom hcode hc.clearAt
  split at hkeys
  · simp at hkeys
  next keys stop hne hfound =>
    obtain rfl := Option.some.inj hkeys
    rw [hfound] at hbraced hstop
    exact ⟨hstart.clearAt, hstart.between hc, hbraced, hstop⟩

theorem findAll_append {run : List Cursor} (h : ∀ c ∈ run, c.sees Byte.openBracket = false)
    (place : Nat) : findAll place (run ++ code) = findAll place code := by
  induction run with
  | nil => rfl
  | cons c run ih =>
    obtain ⟨hc, hrun⟩ := List.forall_mem_cons.mp h
    have hnone : at? c (run ++ code) = none := by simp [at?, hc, guard]
    rw [List.cons_append, findAll, hnone]
    split <;> exact ih hrun

theorem outside_of_mem_findAll (h : Sparse bodies text code) (place : Nat) :
    ∀ subscript ∈ findAll place code, subscript.Outside bodies text := by
  induction h generalizing place with
  | nil => simp [findAll]
  | @byte c b code hc hb hfree hcode ih =>
    rw [findAll]
    split
    · exact ih place
    · cases hsubscript : at? c code with
      | none => exact ih place
      | some subscript =>
        have hout := outside_of_at? hc (.byte hc hb hfree hcode) hsubscript
        exact List.forall_mem_cons.mpr ⟨hout, ih _⟩
  | idle hrun hbracket hcode ih =>
    rw [findAll_append hbracket]
    exact ih place

end Subscript

/-- The name and the subscripts are taken over with their braces. -/
theorem Text.Braced.extractSubscripts (h : Braced bodies text) :
    Braced bodies (extractSubscripts text) := by
  refine h.splice fun edit hedit => ?_
  obtain ⟨subscript, hsubscript, rfl⟩ := List.mem_map.mp hedit
  have hout := Subscript.outside_of_mem_findAll (Laid.code_text h).sparse 0 subscript hsubscript
  refine ⟨hout.start, hout.stop, ?_⟩
  exact hout.subject.enclosePair (braced_jsonPath hout.keys) (by decide) (by decide) (by decide)

end Subscripts

end QueryBridge
