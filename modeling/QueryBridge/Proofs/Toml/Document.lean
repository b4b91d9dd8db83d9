import QueryBridge.Proofs.Keyed
import QueryBridge.Proofs.Toml.Value

/-!
# Documents read back

A line with a key and a value is read as that assignment, and a header as that header, whatever
lines follow. A header with the lines behind it puts a table into the document.
-/

namespace QueryBridge

namespace Toml

variable {b : UInt8} {key spelled text rest : Text} {value : Toml} {fuel : Nat}

/-! ### Statements -/

theorem lineEnd?_of_isSolid (h : isSolid b = true) (rest : Text) : lineEnd? (b :: rest) = none := by
  have hhash : b ≠ Byte.hash := ne_of_class h (by decide)
  have hcomment : skipComment (b :: rest) = b :: rest :=
    skipComment.eq_2 _ fun _ heq => hhash (List.cons.inj heq).1
  rw [lineEnd?, skipLineBlanks_of_isSolid h, hcomment]
  exact lineBreak?_of_isSolid h rest

/-- A statement that starts with something solid is read after the blank lines. -/
theorem statements?_of_isSolid {statement : Statement} (h : isSolid b = true)
    (hread : statement? (b :: text) = some (statement, rest)) (fuel : Nat) :
    statements? (fuel + 1) (b :: text) = (statements? fuel rest).map (statement :: ·) := by
  rw [statements?.eq_def (fuel + 1)]
  simp only [skipLineBlanks_of_isSolid h, lineEnd?_of_isSolid h, hread, Option.bind_eq_bind,
    Option.bind_some, Option.map_eq_bind]
  rfl

theorem statements?_newline (fuel : Nat) (rest : Text) :
    statements? (fuel + 1) (Byte.newline :: rest) = statements? fuel rest := rfl

theorem lineText_append (key spelled rest : Text) : lineText key spelled ++ rest =
    keyText key ++
      Byte.space :: Byte.equals :: Byte.space :: (spelled ++ Byte.newline :: rest) := by
  simp only [lineText, List.append_assoc]
  rfl

theorem headerText_append (key rest : Text) : headerText key ++ rest =
    Byte.newline :: Byte.openBracket ::
      (keyText key ++ Byte.closeBracket :: Byte.newline :: rest) := by
  simp only [headerText, List.append_assoc]
  rfl

theorem keyText_append_ne_openBracket (key rest after : Text) :
    keyText key ++ rest ≠ Byte.openBracket :: after := by
  obtain ⟨first, others, hfirst, hstart⟩ := exists_cons_keyText key
  rw [hfirst]
  exact fun heq => ne_of_class hstart (by decide) (List.cons.inj heq).1

theorem statement?_lineText (h : Spells spelled value) (key rest : Text) :
    statement? (lineText key spelled ++ rest) = some (.assign [key] value, rest) := by
  obtain ⟨first, others, hfirst, hsolid⟩ := h.starts
  have hskip : skipLineBlanks (Byte.space :: (spelled ++ Byte.newline :: rest)) =
      spelled ++ Byte.newline :: rest := by
    rw [hfirst]
    exact skipLineBlanks_of_isSolid hsolid _
  have hkey : key? (nestingLimit - 1) (keyText key ++
      Byte.space :: Byte.equals :: Byte.space :: (spelled ++ Byte.newline :: rest)) =
      some ([key], Byte.equals :: Byte.space :: (spelled ++ Byte.newline :: rest)) :=
    key?_keyText _ key (by rintro _ ⟨⟩; decide) (show some Byte.equals ≠ some Byte.dot by decide)
  have hequals : Text.rest? .exact "="
      (Byte.equals :: Byte.space :: (spelled ++ Byte.newline :: rest)) =
      some (Byte.space :: (spelled ++ Byte.newline :: rest)) := rfl
  have hread := fun fuel hfuel => h.reads fuel hfuel rest
  rw [lineText_append]
  refine (statement?.eq_3 _ (fun _ => keyText_append_ne_openBracket key _ _)
    (keyText_append_ne_openBracket key _)).trans ?_
  simp only [hkey, hequals, hskip, Option.bind_eq_bind, Option.bind_some]
  rw [hread _ (by simp only [List.length_cons, List.length_append]; omega)]
  rfl

theorem statement?_header (key rest : Text) :
    statement? (Byte.openBracket :: (keyText key ++ Byte.closeBracket :: Byte.newline :: rest)) =
      some (.table [key], rest) := by
  have hkey : key? (nestingLimit - 1) (keyText key ++ Byte.closeBracket :: Byte.newline :: rest) =
      some ([key], Byte.closeBracket :: Byte.newline :: rest) :=
    key?_keyText _ key (by rintro _ ⟨⟩; decide)
      (show some Byte.closeBracket ≠ some Byte.dot by decide)
  refine (statement?.eq_2 _ (keyText_append_ne_openBracket key _)).trans ?_
  simp only [hkey, Option.bind_eq_bind, Option.bind_some]
  rfl

/-! ### Lines -/

/-- A text is read as a list of statements, by any fuel beyond its length. -/
def IsRead (text : Text) (statements : List Statement) : Prop :=
  ∀ fuel, text.length < fuel → statements? fuel text = some statements

/-- Whole lines are read as a list of statements, whatever lines follow. -/
def Holds (lines : Text) (statements : List Statement) : Prop :=
  ∀ rest others, IsRead rest others → IsRead (lines ++ rest) (statements ++ others)

theorem isRead_nil : IsRead [] [] := by
  intro fuel hfuel
  obtain ⟨fuel, rfl⟩ := Nat.exists_eq_add_one_of_ne_zero (Nat.ne_zero_of_lt hfuel)
  rfl

/-- Lines that nothing follows are read. -/
theorem Holds.isRead {lines : Text} {statements : List Statement} (h : Holds lines statements) :
    IsRead lines statements := by
  simpa using h [] [] isRead_nil

theorem holds_nil : Holds [] [] := fun _ _ h => h

theorem Holds.append {lines others : Text} {first second : List Statement}
    (hlines : Holds lines first) (hothers : Holds others second) :
    Holds (lines ++ others) (first ++ second) := by
  intro rest later hrest
  rw [List.append_assoc, List.append_assoc]
  exact hlines _ _ (hothers rest later hrest)

theorem holds_flatMap {α : Type} {line : α → Text} {statement : α → Statement}
    (h : ∀ item, Holds (line item) [statement item]) (items : List α) :
    Holds (items.flatMap line) (items.map statement) := by
  induction items with
  | nil => exact holds_nil
  | cons item items ih => exact (h item).append ih

theorem holds_lineText (h : Spells spelled value) (key : Text) :
    Holds (lineText key spelled) [.assign [key] value] := by
  intro rest others hrest fuel hfuel
  have hread := statement?_lineText h key rest
  obtain ⟨first, spelling, hfirst, hstart⟩ := exists_cons_keyText key
  rw [lineText_append, hfirst, List.cons_append] at hread hfuel ⊢
  obtain ⟨fuel, rfl⟩ := Nat.exists_eq_add_one_of_ne_zero (Nat.ne_zero_of_lt hfuel)
  simp only [List.length_append, List.length_cons] at hfuel
  rw [statements?_of_isSolid (isSolid_of_isKeyStart hstart) hread, hrest fuel (by omega)]
  rfl

theorem holds_headerText (key : Text) : Holds (headerText key) [.table [key]] := by
  intro rest others hrest fuel hfuel
  rw [headerText_append] at hfuel ⊢
  simp only [List.length_append, List.length_cons] at hfuel
  obtain ⟨fuel, rfl⟩ : ∃ less, fuel = less + 2 := ⟨fuel - 2, by omega⟩
  rw [statements?_newline, statements?_of_isSolid (by decide) (statement?_header key rest),
    hrest fuel (by omega)]
  rfl

/-! ### Entries -/

/-- The assignment of an entry. -/
def assignment (entry : Text × Toml) : Statement := .assign [entry.1] entry.2

/-- The statement of an entry that may be absent. -/
def assignments (key : Text) (value? : Option Toml) : List Statement :=
  value?.elim [] fun value => [assignment (key, value)]

theorem holds_assignments {α : Type} {setting : Option α} {spell : α → Text} {toToml : α → Toml}
    (h : ∀ x ∈ setting, Spells (spell x) (toToml x)) (key : Text) :
    Holds (setting.elim [] fun x => lineText key (spell x))
      (assignments key (setting.map toToml)) := by
  cases setting with
  | none => exact holds_nil
  | some x => exact holds_lineText (h x rfl) key

/-- The statements of a table: its header, and an assignment for every entry. -/
def tableStatements (name : Text) (entries : Entries) : List Statement :=
  .table [name] :: entries.map assignment

theorem Holds.table {lines : Text} {entries : Entries}
    (h : Holds lines (entries.map assignment)) (name : Text) :
    Holds (headerText name ++ lines) (tableStatements name entries) :=
  (holds_headerText name).append h

theorem assign_singleton (key : Text) (value : Toml) (entries : Entries) :
    assign [key] value entries =
      if entries.has key then none else some (entries.put key value) := rfl

/-- An assignment before the first header puts a value into the document itself. -/
theorem add_assign_root {root : Entries} (h : root.get? key = none) (value : Toml) :
    Document.add ⟨root, []⟩ (.assign [key] value) = some ⟨root.put key value, []⟩ := by
  simp [Document.add, changeAt, assign_singleton, Keyed.has, h]

theorem foldlM_add_assignments {root : Entries} (h : root.get? key = none) (value? : Option Toml) :
    (assignments key value?).foldlM Document.add ⟨root, []⟩ =
      some ⟨root.putAny key value?, []⟩ := by
  cases value? with
  | none => rfl
  | some value => exact congrArg (· >>= pure) (add_assign_root h value)

/-- A header with a name of its own opens an empty table. -/
theorem add_table {root : Entries} (h : root.get? key = none) (current : List Text) :
    Document.add ⟨root, current⟩ (.table [key]) =
      some ⟨root.put key (.table .header []), [key]⟩ := by
  simp [Document.add, openTable, changeAt, h]

/-- An assignment behind a header puts a value into the table of the header. -/
theorem add_assign_table {name : Text} {root entries : Entries} (h : entries.get? key = none)
    (value : Toml) :
    Document.add ⟨root.put name (.table .header entries), [name]⟩ (.assign [key] value) =
      some ⟨root.put name (.table .header (entries.put key value)), [name]⟩ := by
  simp [Document.add, changeAt, assign_singleton, Keyed.has, h, Keyed.get?_put_self,
    Keyed.put_put, guard]

/-- The assignments behind a header, in the order of their keys, fill its table. -/
theorem foldlM_add_assignment {name : Text} {root entries more : Entries}
    (h : Keyed.IsSorted (entries ++ more)) :
    (more.map assignment).foldlM Document.add ⟨root.put name (.table .header entries), [name]⟩ =
      some ⟨root.put name (.table .header (entries ++ more)), [name]⟩ := by
  induction more generalizing entries with
  | nil => simp
  | cons entry more ih =>
    have hless := h.forall_lt
    have hlater : Keyed.IsSorted (entries ++ [entry] ++ more) := by
      rwa [List.append_assoc, List.singleton_append]
    rw [List.map_cons, List.foldlM_cons, assignment,
      add_assign_table (Keyed.get?_eq_none_of_forall_lt hless), Keyed.put_of_forall_lt hless]
    simpa using ih hlater

/-- The statements of a table with a name of its own put the table into the document. -/
theorem foldlM_add_tableStatements {name : Text} {root entries : Entries}
    (hname : root.get? name = none) (h : Keyed.IsSorted entries) (current : List Text) :
    (tableStatements name entries).foldlM Document.add ⟨root, current⟩ =
      some ⟨root.put name (.table .header entries), [name]⟩ := by
  rw [tableStatements, List.foldlM_cons, add_table hname]
  exact foldlM_add_assignment h

end Toml

end QueryBridge
