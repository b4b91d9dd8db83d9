import Mathlib.Data.List.Induction
import QueryBridge.Proofs.Insert

/-!
# What an insertion writes

The columns of a plan are all names of the batch, each once and in the order in which they are first
seen. A planned row has a value for each column, which is that of the row. If rows are replaced, the
deletion has one marker for each key column, and the value bound to a marker is that of the row for
the key column before it.
-/

namespace QueryBridge

open Text

/-! ### Names in the order in which they are first seen -/

/-- Without repetition, elements are in the order in which they first come up. -/
theorem pairwise_idxOf_eraseDups (names : List Text) :
    names.eraseDups.Pairwise fun a b => names.idxOf a < names.idxOf b := by
  induction names using List.reverseRecOn with
  | nil => exact List.Pairwise.nil
  | append_singleton names last ih =>
    -- An element keeps its place when others are added behind it.
    have hplace : ∀ a ∈ names, (names ++ [last]).idxOf a = names.idxOf a := fun a ha =>
      List.idxOf_append_of_mem ha
    have hfront : names.eraseDups.Pairwise fun a b =>
        (names ++ [last]).idxOf a < (names ++ [last]).idxOf b := by
      refine ih.imp_of_mem fun ha hb hless => ?_
      rwa [hplace _ (List.mem_eraseDups.mp ha), hplace _ (List.mem_eraseDups.mp hb)]
    rw [List.eraseDups_append]
    by_cases hseen : last ∈ names
    · simpa [List.removeAll, hseen] using hfront
    · have hnew : ([last].removeAll names).eraseDups = [last] := by
        simp [List.removeAll, hseen, List.eraseDups_cons]
      rw [hnew]
      refine List.pairwise_append.mpr ⟨hfront, List.pairwise_singleton _ _, fun a ha b hb => ?_⟩
      obtain rfl := List.mem_singleton.mp hb
      have hmem := List.mem_eraseDups.mp ha
      rw [hplace a hmem, List.idxOf_append_of_notMem hseen]
      exact Nat.lt_add_right _ (List.idxOf_lt_length_of_mem hmem)

/-- The first row with one of two names has the first of them, before the second if it has both. -/
inductive SeenBefore (a b : Text) : List Row → Prop
  | here {row : Row} {rows : List Row} (first : row.keys.idxOf a < row.keys.idxOf b) :
      SeenBefore a b (row :: rows)
  | later {row : Row} {rows : List Row} (left : a ∉ row.keys) (right : b ∉ row.keys)
      (rest : SeenBefore a b rows) : SeenBefore a b (row :: rows)

theorem seenBefore_of_idxOf_lt {a b : Text} {rows : List Row}
    (h : (rows.flatMap Keyed.keys).idxOf a < (rows.flatMap Keyed.keys).idxOf b) :
    SeenBefore a b rows := by
  induction rows with
  | nil => exact absurd h (Nat.lt_irrefl _)
  | cons row rows ih =>
    rw [List.flatMap_cons] at h
    by_cases ha : a ∈ row.keys
    · refine .here ?_
      by_cases hb : b ∈ row.keys
      · rwa [List.idxOf_append_of_mem ha, List.idxOf_append_of_mem hb] at h
      · rw [List.idxOf_eq_length hb]
        exact List.idxOf_lt_length_of_mem ha
    · rw [List.idxOf_append_of_notMem ha] at h
      have hb : b ∉ row.keys := by
        intro hb
        rw [List.idxOf_append_of_mem hb] at h
        have hless := List.idxOf_lt_length_of_mem hb
        omega
      rw [List.idxOf_append_of_notMem hb] at h
      exact .later ha hb (ih (Nat.lt_of_add_lt_add_left h))

/-! ### Markers of a statement -/

/-- The byte that marks the place of a bound value in a statement. -/
abbrev Byte.questionMark : UInt8 := 63

/-- For each marker in the code of some runs, the last quoted run before it. -/
def Run.marked (last : Text) : List Run → List Text
  | [] => []
  | run :: runs =>
    if run.isCode then List.replicate (run.text.count Byte.questionMark) last ++ marked last runs
    else marked run.text runs

/-- For each marker in the code of a text, the last quoted run before it. -/
def Text.markedNames (text : Text) : List Text := Run.marked [] text.runs

namespace Run

theorem marked_cons (last : Text) (b : UInt8) (runs : List Run) :
    marked last (cons true b runs) =
      (if b = Byte.questionMark then [last] else []) ++ marked last runs := by
  have hcount : List.replicate ([b].count Byte.questionMark) last =
      if b = Byte.questionMark then [last] else [] := by
    by_cases hb : b = Byte.questionMark <;> simp [hb]
  cases runs with
  | nil => simp only [cons, marked, if_pos, hcount]
  | cons run runs =>
    cases hcode : run.isCode with
    | false => simp [cons, marked, hcode, hcount]
    | true =>
      have hsplit : (b :: run.text).count Byte.questionMark =
          [b].count Byte.questionMark + run.text.count Byte.questionMark := by
        rw [← List.count_append]
        rfl
      simp only [cons, hcode, beq_self_eq_true, if_pos, marked, hsplit, ← hcount,
        List.replicate_append_replicate, ← List.append_assoc]

/-- Plain text without markers marks nothing. -/
theorem marked_append_of_isPlain {plain : Text} (h : ∀ b ∈ plain, Byte.isPlain b = true)
    (hmark : Byte.questionMark ∉ plain) (last rest : Text) :
    marked last (plain ++ rest).runs = marked last rest.runs := by
  induction plain with
  | nil => rfl
  | cons b plain ih =>
    obtain ⟨hb, hplain⟩ := List.forall_mem_cons.mp h
    obtain ⟨hne, hmark⟩ := List.ne_and_not_mem_of_not_mem_cons hmark
    rw [List.cons_append, runs_cons_of_isPlain hb, marked_cons, if_neg (Ne.symm hne),
      List.nil_append, ih hplain hmark]

theorem marked_quoteIdentifier {name : Text} (h : isIdentifier name = true) {rest : Text}
    (hrest : ∀ b ∈ rest.head?, Byte.isPlain b = true) (last : Text) :
    marked last (quoteIdentifier name ++ rest).runs = marked (quoteIdentifier name) rest.runs := by
  rw [runs_quoteIdentifier h hrest]
  rfl

end Run

namespace InsertPlan

variable {table : Text} {rows : List Row} {keys : List Text} {plan : InsertPlan}

/-- The comparison with a key column marks that column. -/
theorem marked_comparison {key : Text} (h : isIdentifier key = true) (last rest : Text) :
    Run.marked last ((quoteIdentifier key ++ " IS NOT DISTINCT FROM ?") ++ rest).runs =
      quoteIdentifier key :: Run.marked (quoteIdentifier key) rest.runs := by
  have hplain : ∀ b ∈ ofString " IS NOT DISTINCT FROM ", Byte.isPlain b = true :=
    List.all_eq_true.mp (by decide)
  have hsplit : (quoteIdentifier key ++ ofString " IS NOT DISTINCT FROM ?") ++ rest =
      quoteIdentifier key ++ (" IS NOT DISTINCT FROM " ++ Byte.questionMark :: rest) := by
    rw [List.append_assoc]
    rfl
  rw [hsplit, Run.marked_quoteIdentifier h (isPlain_of_mem_head?_append (by decide) hplain _),
    Run.marked_append_of_isPlain hplain (by decide), runs_cons_of_isPlain (by decide),
    Run.marked_cons, if_pos rfl]
  rfl

/-- Comparisons with key columns mark those columns, in order. -/
theorem marked_comparisons (h : ∀ key ∈ keys, isIdentifier key = true) (last : Text) :
    Run.marked last
      (join " AND " (keys.map fun key => quoteIdentifier key ++ " IS NOT DISTINCT FROM ?")).runs =
        keys.map quoteIdentifier := by
  induction keys generalizing last with
  | nil => rfl
  | cons key keys ih =>
    obtain ⟨hkey, hkeys⟩ := List.forall_mem_cons.mp h
    cases keys with
    | nil =>
      have honly := marked_comparison hkey last []
      rwa [List.append_nil] at honly
    | cons other others =>
      have hlater := ih hkeys (quoteIdentifier key)
      simp only [List.map_cons, join, List.append_assoc] at hlater ⊢
      rw [← List.append_assoc (quoteIdentifier key), marked_comparison hkey,
        Run.marked_append_of_isPlain (List.all_eq_true.mp (by decide)) (by decide), hlater]

/-- The markers of a deletion stand behind its key columns, one behind each. -/
theorem markedNames_deleteStatement (h : ∀ name ∈ table :: keys, isIdentifier name = true) :
    markedNames (deleteStatement table keys) = keys.map quoteIdentifier := by
  obtain ⟨htable, hkeys⟩ := List.forall_mem_cons.mp h
  have hwhere : ∀ b ∈ ofString " WHERE ", Byte.isPlain b = true := List.all_eq_true.mp (by decide)
  rw [markedNames, deleteStatement, List.append_assoc, List.append_assoc,
    Run.marked_append_of_isPlain (List.all_eq_true.mp (by decide)) (by decide),
    Run.marked_quoteIdentifier htable (isPlain_of_mem_head?_append (by decide) hwhere _),
    Run.marked_append_of_isPlain hwhere (by decide), marked_comparisons hkeys]

/-! ### Values -/

/-- The value that is bound for a column of a row: that of its field, or null if it has none. -/
def valueOf (row : Row) (column : Text) : EngineValue :=
  (row.get? column).elim .null EngineValue.ofJson

theorem columnsOf_eq_ok {columns : List Text} (h : columnsOf rows = .ok columns) :
    columns = (rows.flatMap Keyed.keys).eraseDups := by
  unfold columnsOf at h
  dsimp only at h
  split at h
  · cases h
  · cases h
    rfl

/-- If all keys are columns, the values at their positions are those of the row for the keys. -/
theorem filterMap_positions {columns : List Text} (h : keys ⊆ columns) (row : Row) :
    (keys.filterMap columns.idxOf?).filterMap (fun position => (valuesOf columns row)[position]?) =
      keys.map (valueOf row) := by
  have hvalue : ∀ key ∈ keys,
      (columns.idxOf? key).bind (fun position => (valuesOf columns row)[position]?) =
        some (valueOf row key) := by
    intro key hkey
    obtain ⟨position, hposition⟩ := Option.isSome_iff_exists.mp (List.isSome_idxOf?.mpr (h hkey))
    obtain ⟨hbound, hfound, -⟩ := List.idxOf?_eq_some_iff.mp hposition
    rw [hposition, Option.bind_some, valuesOf, List.getElem?_map, List.getElem?_eq_getElem hbound,
      hfound]
    rfl
  rw [List.filterMap_filterMap, List.filterMap_congr hvalue]
  exact congrFun (List.filterMap_eq_map (f := valueOf row)) keys

/-! ### Plans -/

/-- A plan writes a batch as it is, and deletes by key what the batch replaces. -/
structure Writes (plan : InsertPlan) (rows : List Row) (keys : List Text) : Prop where
  /-- No column comes twice. -/
  nodup : plan.columns.Nodup
  /-- The columns are the names of the rows. -/
  mem_columns : ∀ name, name ∈ plan.columns ↔ ∃ row ∈ rows, name ∈ row.keys
  /-- The columns are in the order in which they are first seen. -/
  firstSeen : plan.columns.Pairwise fun a b => SeenBefore a b rows
  /-- There is a planned row for each row, in order. It has one value for each column, which is that
  of the row. -/
  values : List.Forall₂ (fun (row : Row) (planned : List EngineValue) =>
    planned.length = plan.columns.length ∧
      ∀ (position : Nat) (column : Text), plan.columns[position]? = some column →
        planned[position]? = some (valueOf row column)) rows plan.rows
  /-- Rows are deleted by key exactly if there are keys and all of them are columns. -/
  deletes_iff : plan.deleteSql.isSome ↔ keys ≠ [] ∧ keys ⊆ plan.columns
  /-- The deletion has one marker for each key, behind the name of the key. -/
  markers : plan.table.IsName → ∀ sql, plan.deleteSql = some sql →
    sql.markedNames = keys.map quoteIdentifier
  /-- The values bound to the markers for a planned row are those of the row for the keys. -/
  keyValues : plan.deleteSql.isSome → List.Forall₂ (fun row planned =>
    plan.keyValues planned = keys.map (valueOf row)) rows plan.rows

/-- All keys have positions among the columns exactly if all are columns. -/
theorem length_positions_eq_iff {columns : List Text} :
    (keys.filterMap columns.idxOf?).length = keys.length ↔ keys ⊆ columns := by
  rw [List.filterMap_length_eq_length]
  simp only [List.isSome_idxOf?]
  rfl

/-- Every plan that is made writes its batch as it is. -/
theorem writes_of_build (h : build table rows keys = .ok plan) : plan.Writes rows keys := by
  obtain ⟨columns, hcolumns, h⟩ := bind_eq_ok_iff.mp h
  have hsafe := isIdentifier_of_columnsOf hcolumns
  have hnames := columnsOf_eq_ok hcolumns
  have horder : columns.Pairwise fun a b =>
      (rows.flatMap Keyed.keys).idxOf a < (rows.flatMap Keyed.keys).idxOf b := by
    rw [hnames]
    exact pairwise_idxOf_eraseDups _
  cases h
  constructor
  case nodup =>
    refine horder.imp ?_
    rintro a _ hless rfl
    exact Nat.lt_irrefl _ hless
  case mem_columns =>
    intro name
    rw [hnames, List.mem_eraseDups, List.mem_flatMap]
  case firstSeen => exact horder.imp seenBefore_of_idxOf_lt
  case values =>
    refine List.forall₂_map_right_iff.mpr (List.forall₂_same.mpr fun row _ => ⟨?_, ?_⟩)
    · exact List.length_map _
    · intro position column hcolumn
      rw [valuesOf, List.getElem?_map, hcolumn]
      rfl
  case deletes_iff => simp [List.subset_def]
  case markers =>
    intro htable sql hsql
    simp only [Option.ite_none_right_eq_some, Bool.and_eq_true, beq_iff_eq,
      Option.some.injEq] at hsql
    obtain ⟨⟨-, hlength⟩, rfl⟩ := hsql
    exact markedNames_deleteStatement (List.forall_mem_cons.mpr ⟨isIdentifier_iff.mpr htable,
      fun key hkey => hsafe key (length_positions_eq_iff.mp hlength hkey)⟩)
  case keyValues =>
    intro hdeletes
    simp only [Option.isSome_ite, Bool.and_eq_true, beq_iff_eq] at hdeletes
    have hkeys := length_positions_eq_iff.mp hdeletes.2
    exact List.forall₂_map_right_iff.mpr (List.forall₂_same.mpr fun row _ =>
      filterMap_positions hkeys row)

/-- A key that comes twice and one that only the second row has: the values of the row without it
are null at its markers. -/
theorem writes_of_build_repeated_key :
    let rows : List Row := [[("b", .int 1)], [("a", .string "x"), ("b", .null), ("c", .int 2)]]
    ∃ plan, build "events" rows ["c", "b", "c"] = .ok plan ∧ plan.columns = ["b", "a", "c"] ∧
      plan.rows.map plan.keyValues =
        [[.null, .integer .bigInt 1, .null], [.integer .bigInt 2, .null, .integer .bigInt 2]] ∧
      plan.Writes rows ["c", "b", "c"] :=
  ⟨_, rfl, rfl, rfl, writes_of_build rfl⟩

end InsertPlan

end QueryBridge
