import QueryBridge.Client
import QueryBridge.Proofs.Binding.Missing
import QueryBridge.Proofs.Keyed
import QueryBridge.Proofs.Lexical.Identifier
import QueryBridge.Proofs.Queue

/-!
# The names in an insertion

An insertion is refused before anything is queued if its table or a column is no identifier. So the
quoted names in the statements of a plan are identifiers, those of the key columns included, which
nobody checks: a deletion by key is planned only if all of them are among the columns.
-/

namespace QueryBridge

open Text

/-! ### Statements -/

namespace InsertPlan

/-- Quoted names with plain text behind each, between plain separators. -/
theorem quotedRuns_join (separator behind : Text)
    (hseparator : ∀ b ∈ separator, Byte.isPlain b = true) (hne : separator ≠ [])
    (hbehind : ∀ b ∈ behind, Byte.isPlain b = true) {names : List Text}
    (hnames : ∀ name ∈ names, isIdentifier name = true) (rest : Text)
    (hrest : ∀ b ∈ (behind ++ rest).head?, Byte.isPlain b = true) :
    quotedRuns (join separator (names.map fun name => quoteIdentifier name ++ behind) ++ rest) =
      names.map quoteIdentifier ++ quotedRuns rest := by
  induction names with
  | nil => rfl
  | cons name names ih =>
    obtain ⟨hname, hnames⟩ := List.forall_mem_cons.mp hnames
    cases names with
    | nil =>
      rw [List.map_singleton, join, List.append_assoc, quotedRuns_quoteIdentifier hname hrest,
        quotedRuns_append_of_isPlain hbehind]
      rfl
    | cons other others =>
      have hlater := ih hnames
      simp only [List.map_cons, join, List.append_assoc] at hlater ⊢
      rw [← List.append_assoc behind, quotedRuns_quoteIdentifier_append hname
        (List.append_ne_nil_of_right_ne_nil behind hne)
        (List.forall_mem_append.mpr ⟨hbehind, hseparator⟩), hlater]
      rfl

/-- The quoted names of a deletion are the table and its key columns. -/
theorem quotedRuns_deleteStatement {table : Text} {keys : List Text}
    (h : ∀ name ∈ table :: keys, isIdentifier name = true) :
    quotedRuns (deleteStatement table keys) = (table :: keys).map quoteIdentifier := by
  obtain ⟨htable, hkeys⟩ := List.forall_mem_cons.mp h
  have hjoin := quotedRuns_join " AND " " IS NOT DISTINCT FROM ?"
    (List.all_eq_true.mp (by decide)) (by decide) (List.all_eq_true.mp (by decide)) hkeys []
    (by rintro _ ⟨⟩; decide)
  rw [List.append_nil] at hjoin
  rw [deleteStatement, List.append_assoc, List.append_assoc,
    quotedRuns_append_of_isPlain (List.all_eq_true.mp (by decide)),
    quotedRuns_quoteIdentifier_append htable (by decide) (List.all_eq_true.mp (by decide)), hjoin]
  exact congrArg _ (List.append_nil _)

/-- The quoted names of an insertion are the table and the columns. Any others come from the
defaults of columns. -/
theorem quotedRuns_insertSql {plan : InsertPlan}
    (h : ∀ name ∈ plan.table :: plan.columns, isIdentifier name = true)
    (defaults : Keyed ColumnDefault) : ∃ others,
      quotedRuns (plan.insertSql defaults) =
        (plan.table :: plan.columns).map quoteIdentifier ++ others ∧
      ((∀ column ∈ plan.columns, defaults.get? (column.map Byte.toLower) = none) →
        others = []) := by
  obtain ⟨htable, hcolumns⟩ := List.forall_mem_cons.mp h
  unfold insertSql
  split
  next hempty =>
    have hnone : plan.columns = [] := List.isEmpty_iff.mp hempty
    have hruns := quotedRuns_quoteIdentifier_append htable
      (show ofString " DEFAULT VALUES" ≠ [] by decide) (List.all_eq_true.mp (by decide)) []
    rw [List.append_nil] at hruns
    refine ⟨[], ?_, fun _ => rfl⟩
    rw [List.append_assoc, quotedRuns_append_of_isPlain (List.all_eq_true.mp (by decide)), hruns,
      hnone]
    rfl
  · refine ⟨quotedRuns (join ", " (plan.columns.map (marker defaults)) ++ ")"), ?_, ?_⟩
    · have hvalues : ∀ b ∈ ofString ") VALUES (", Byte.isPlain b = true :=
        List.all_eq_true.mp (by decide)
      have hjoin := quotedRuns_join ", " [] (List.all_eq_true.mp (by decide)) (by decide) (by simp)
        hcolumns (") VALUES (" ++ (join ", " (plan.columns.map (marker defaults)) ++ ")"))
        (isPlain_of_mem_head?_append (by decide) hvalues _)
      simp only [List.append_nil] at hjoin
      simp only [List.append_assoc]
      rw [quotedRuns_append_of_isPlain (List.all_eq_true.mp (by decide)),
        quotedRuns_quoteIdentifier_append htable (by decide) (List.all_eq_true.mp (by decide)),
        hjoin, quotedRuns_append_of_isPlain hvalues]
      rfl
    · intro hnone
      have hmarkers : ∀ item ∈ plan.columns.map (marker defaults), ∀ b ∈ item,
          Byte.isPlain b = true := by
        intro item hitem
        obtain ⟨column, hcolumn, rfl⟩ := List.mem_map.mp hitem
        rw [marker, hnone column hcolumn]
        exact List.all_eq_true.mp (by decide)
      have hplain : ∀ b ∈ join ", " (plan.columns.map (marker defaults)) ++ ofString ")",
          Byte.isPlain b = true :=
        List.forall_mem_append.mpr ⟨forall_mem_join (List.all_eq_true.mp (by decide)) hmarkers,
          List.all_eq_true.mp (by decide)⟩
      rw [← List.append_nil (_ ++ _), quotedRuns_append_of_isPlain hplain]
      rfl

end InsertPlan

/-! ### Names of columns -/

/-- The name is the first one in a batch that is no identifier: that of the first row that has such
a name, and the least one there. -/
inductive FirstUnsafe : List Row → Text → Prop
  | here {row : Row} {rows : List Row} {name : Text} (mem : name ∈ row.keys)
      (isUnsafe : ¬ name.IsName) (least : ∀ key ∈ row.keys, ¬ key.IsName → name ≤ key) :
      FirstUnsafe (row :: rows) name
  | later {row : Row} {rows : List Row} {name : Text} (safe : ∀ key ∈ row.keys, key.IsName)
      (rest : FirstUnsafe rows name) : FirstUnsafe (row :: rows) name

theorem find?_unsafe_eq_some_iff {names : List Text} (hsorted : names.Pairwise (· < ·))
    {name : Text} : names.find? (!isIdentifier ·) = some name ↔
      name ∈ names ∧ ¬ name.IsName ∧ ∀ key ∈ names, ¬ key.IsName → name ≤ key := by
  simp only [← isIdentifier_iff, Bool.not_eq_true, List.find?_eq_some_iff_append,
    Bool.not_eq_eq_eq_not, Bool.not_true, Bool.not_not]
  constructor
  · rintro ⟨hfaulty, before, behind, rfl, hbefore⟩
    refine ⟨by simp, hfaulty, fun key hkey hbad => ?_⟩
    rcases List.mem_append.mp hkey with hearlier | hlater
    · rw [hbefore key hearlier] at hbad
      cases hbad
    · rcases List.mem_cons.mp hlater with rfl | hlater
      · exact List.le_refl _
      · have hlt := (List.pairwise_cons.mp (List.pairwise_append.mp hsorted).2.1).1 key hlater
        exact List.le_of_lt hlt
  · rintro ⟨hmem, hfaulty, hleast⟩
    obtain ⟨before, behind, rfl⟩ := List.append_of_mem hmem
    refine ⟨hfaulty, before, behind, rfl, fun key hkey => ?_⟩
    have hlt := (List.pairwise_append.mp hsorted).2.2 key hkey name List.mem_cons_self
    by_contra hbad
    exact hleast key (List.mem_append_left _ hkey) (by simpa using hbad) hlt

/-- Looking through the rows in order finds the first name that is no identifier. -/
theorem find?_unsafe_eq_some_iff_firstUnsafe {rows : List Row}
    (hsorted : ∀ row ∈ rows, row.IsSorted) {name : Text} :
    (rows.flatMap Keyed.keys).find? (!isIdentifier ·) = some name ↔ FirstUnsafe rows name := by
  induction rows with
  | nil => exact iff_of_false nofun nofun
  | cons row rows ih =>
    obtain ⟨hrow, hrows⟩ := List.forall_mem_cons.mp hsorted
    have hsafe : row.keys.find? (!isIdentifier ·) = none ↔ ∀ key ∈ row.keys, key.IsName := by
      simp [List.find?_eq_none, isIdentifier_iff]
    rw [List.flatMap_cons, List.find?_append, Option.or_eq_some_iff, ih hrows, hsafe,
      find?_unsafe_eq_some_iff hrow]
    constructor
    · rintro (⟨hmem, hfaulty, hleast⟩ | ⟨hsafe, hlater⟩)
      · exact .here hmem hfaulty hleast
      · exact .later hsafe hlater
    · rintro (⟨hmem, hfaulty, hleast⟩ | ⟨hsafe, hlater⟩)
      · exact .inl ⟨hmem, hfaulty, hleast⟩
      · exact .inr ⟨hsafe, hlater⟩

/-! ### Plans -/

namespace InsertPlan

/-- The names that the statements of a plan quote are identifiers, those of the key columns
included. -/
structure IsSafe (keys : List Text) (plan : InsertPlan) : Prop where
  /-- The insertion quotes the table and the columns. Anything else that is quoted comes from the
  defaults of columns. -/
  insertion : ∀ defaults, ∃ others,
    quotedRuns (plan.insertSql defaults) =
      (plan.table :: plan.columns).map quoteIdentifier ++ others ∧
    ((∀ column ∈ plan.columns, defaults.get? (column.map Byte.toLower) = none) → others = [])
  /-- The deletion quotes the table and the key columns. -/
  deletion : ∀ sql, plan.deleteSql = some sql →
    quotedRuns sql = (plan.table :: keys).map quoteIdentifier ∧ ∀ name ∈ keys, name.IsName
  /-- The table and the columns are identifiers. -/
  names : ∀ name ∈ plan.table :: plan.columns, name.IsName

theorem columnsOf_eq_error_iff {rows : List Row} {cause : Error} :
    columnsOf rows = .error cause ↔ ∃ name,
      (rows.flatMap Keyed.keys).find? (!isIdentifier ·) = some name ∧
        cause = .unsafeIdentifier name := by
  unfold columnsOf
  dsimp only
  split
  next name hname => simp [hname, eq_comm]
  next hnone => simp [hnone]

theorem isIdentifier_of_columnsOf {rows : List Row} {columns : List Text}
    (h : columnsOf rows = .ok columns) : ∀ column ∈ columns, isIdentifier column = true := by
  unfold columnsOf at h
  dsimp only at h
  split at h
  · cases h
  next hnone =>
    cases h
    intro column hcolumn
    simpa using List.find?_eq_none.mp hnone column (List.mem_eraseDups.mp hcolumn)

/-- Making a plan fails only over the first name of a column that is no identifier. -/
theorem build_eq_error_iff {table : Text} {rows : List Row} {keys : List Text} {cause : Error} :
    build table rows keys = .error cause ↔ ∃ name,
      (rows.flatMap Keyed.keys).find? (!isIdentifier ·) = some name ∧
        cause = .unsafeIdentifier name := by
  rw [← columnsOf_eq_error_iff, build, bind_eq_error_iff]
  exact or_iff_left nofun

theorem table_of_build {table : Text} {rows : List Row} {keys : List Text} {plan : InsertPlan}
    (h : build table rows keys = .ok plan) : plan.table = table := by
  obtain ⟨columns, -, h⟩ := bind_eq_ok_iff.mp h
  cases h
  rfl

/-- If all of some keys have positions among the columns, all are columns. -/
theorem subset_of_length_filterMap {keys columns : List Text}
    (h : (keys.filterMap columns.idxOf?).length = keys.length) : keys ⊆ columns := by
  intro key hkey
  have hsome := List.filterMap_length_eq_length.mp h key hkey
  simpa using hsome

theorem isSafe_of_build {table : Text} (htable : isIdentifier table = true) {rows : List Row}
    {keys : List Text} {plan : InsertPlan} (h : build table rows keys = .ok plan) :
    plan.IsSafe keys := by
  obtain ⟨columns, hcolumns, h⟩ := bind_eq_ok_iff.mp h
  replace hcolumns := isIdentifier_of_columnsOf hcolumns
  cases h
  constructor
  case insertion => exact quotedRuns_insertSql (List.forall_mem_cons.mpr ⟨htable, hcolumns⟩)
  case deletion =>
    intro sql hsql
    simp only [Option.ite_none_right_eq_some, Bool.and_eq_true, beq_iff_eq,
      Option.some.injEq] at hsql
    obtain ⟨⟨-, hlength⟩, rfl⟩ := hsql
    have hkeys : ∀ key ∈ keys, isIdentifier key = true := fun key hkey =>
      hcolumns key (subset_of_length_filterMap hlength hkey)
    exact ⟨quotedRuns_deleteStatement (List.forall_mem_cons.mpr ⟨htable, hkeys⟩),
      fun key hkey => isIdentifier_iff.mp (hkeys key hkey)⟩
  case names =>
    refine List.forall_mem_cons.mpr ⟨isIdentifier_iff.mp htable, fun column hcolumn => ?_⟩
    exact isIdentifier_iff.mp (hcolumns column hcolumn)

end InsertPlan

namespace Config

variable {config : Config} {table : Text} {rows : List Row}

/-- The columns of a table by which its rows are replaced. -/
def keysOf (config : Config) (table : Text) : List Text :=
  (config.replacingTables.get? (config.physicalTable table)).getD []

theorem planInsert_of_isIdentifier (h : isIdentifier (config.physicalTable table) = true) :
    config.planInsert table rows =
      if rows.isEmpty then .ok none
      else some <$> InsertPlan.build (config.physicalTable table) rows (config.keysOf table) := by
  simp only [planInsert, checkIdentifier, h, if_pos, keysOf]
  split
  · rfl
  · cases InsertPlan.build (config.physicalTable table) rows
      ((config.replacingTables.get? (config.physicalTable table)).getD []) <;> rfl

theorem planInsert_of_not_isIdentifier (h : isIdentifier (config.physicalTable table) = false) :
    config.planInsert table rows = .error (.unsafeIdentifier (config.physicalTable table)) := by
  simp [planInsert, checkIdentifier, h, bind, Except.bind]

/-- No plan is made over a table that is no identifier, or else over the first name of a column that
is none. -/
theorem planInsert_eq_error_iff {cause : Error} : config.planInsert table rows = .error cause ↔
    ∃ name, cause = .unsafeIdentifier name ∧
      (isIdentifier (config.physicalTable table) = false ∧ name = config.physicalTable table ∨
        isIdentifier (config.physicalTable table) = true ∧
          (rows.flatMap Keyed.keys).find? (!isIdentifier ·) = some name) := by
  cases htable : isIdentifier (config.physicalTable table) with
  | false => simp [planInsert_of_not_isIdentifier htable, eq_comm]
  | true =>
    rw [planInsert_of_isIdentifier htable]
    cases hrows : rows.isEmpty with
    | true =>
      obtain rfl := List.isEmpty_iff.mp hrows
      simp
    | false =>
      cases hbuild : InsertPlan.build (config.physicalTable table) rows (config.keysOf table) with
      | ok plan =>
        have hnone : (rows.flatMap Keyed.keys).find? (!isIdentifier ·) = none := by
          by_contra hsome
          obtain ⟨name, hname⟩ := Option.ne_none_iff_exists'.mp hsome
          cases hbuild.symm.trans (InsertPlan.build_eq_error_iff.mpr ⟨name, hname, rfl⟩)
        simp [hnone]
      | error found =>
        obtain ⟨name, hname, rfl⟩ := InsertPlan.build_eq_error_iff.mp hbuild
        simp [hname, eq_comm]

/-- If there are rows, an insertion into an identifier has the plan that is made of them. -/
theorem planInsert_eq_ok {planned : Option InsertPlan}
    (h : config.planInsert table rows = .ok planned) :
    isIdentifier (config.physicalTable table) = true ∧
      (rows = [] ∧ planned = none ∨ ∃ plan, planned = some plan ∧
        InsertPlan.build (config.physicalTable table) rows (config.keysOf table) = .ok plan) := by
  cases htable : isIdentifier (config.physicalTable table) with
  | false => cases (planInsert_of_not_isIdentifier htable).symm.trans h
  | true =>
    refine ⟨rfl, ?_⟩
    rw [planInsert_of_isIdentifier htable] at h
    split at h
    next hempty => exact .inl ⟨List.isEmpty_iff.mp hempty, (Except.ok.inj h).symm⟩
    · cases hbuild : InsertPlan.build (config.physicalTable table) rows (config.keysOf table) with
      | error cause =>
        rw [hbuild] at h
        cases h
      | ok plan =>
        rw [hbuild] at h
        exact .inr ⟨plan, (Except.ok.inj h).symm, rfl⟩

end Config

/-! ### Insertions -/

namespace Queue

variable {σ : Type} {engine : Engine σ} {queue : Queue σ}

theorem issued_work (engine : Engine σ) (queue : Queue σ) :
    (queue.work engine).issued = queue.issued := by
  unfold work
  split
  · rw [issued_deliver]
  · rfl
  · rfl

/-- A call is one more request. -/
theorem issued_call (engine : Engine σ) (queue : Queue σ) (job : Job) :
    (queue.call engine job).2.issued = queue.issued + 1 := by
  have hwork (count : Nat) (queue : Queue σ) :
      (queue.run engine (List.replicate count .work)).issued = queue.issued := by
    induction count generalizing queue with
    | zero => rfl
    | succ count ih => rw [List.replicate_succ, run_cons, ih, step, issued_work]
  rw [call, settle, hwork, enqueue]
  split
  · rfl
  · rw [issued_deliver]

end Queue

namespace Client

variable {σ : Type} {client : Client σ} {table : Text} {rows : List Row}

/-- The insertion is refused over a name before anything is queued. -/
def Refuses (client : Client σ) (table : Text) (rows : List Row) (name : Text) : Prop :=
  client.insert table rows = (.error (.unsafeIdentifier name), client)

/-- The client asks the engine to run a plan, and that is one request in its queue. -/
def Runs (client : Client σ) (table : Text) (rows : List Row) (plan : InsertPlan) : Prop :=
  client.config.planInsert table rows = .ok (some plan) ∧
    client.insert table rows =
      ((client.call (.run (.insert plan))).1.map fun reply =>
          ⟨client.config.physicalTable table, reply.count⟩,
        (client.call (.run (.insert plan))).2) ∧
    (client.insert table rows).2.queue.issued = client.queue.issued + 1

theorem runs_of_planInsert {plan : InsertPlan}
    (h : client.config.planInsert table rows = .ok (some plan)) : client.Runs table rows plan := by
  have hinsert : client.insert table rows =
      ((client.call (.run (.insert plan))).1.map fun reply =>
          ⟨client.config.physicalTable table, reply.count⟩,
        (client.call (.run (.insert plan))).2) := by
    rw [insert, h]
  exact ⟨h, hinsert, by rw [hinsert]; exact Queue.issued_call _ _ _⟩

/-- An insertion is refused exactly if no plan is made. -/
theorem refuses_iff {name : Text} : client.Refuses table rows name ↔
    client.config.planInsert table rows = .error (.unsafeIdentifier name) := by
  unfold Refuses
  constructor
  · intro h
    cases hplan : client.config.planInsert table rows with
    | error cause =>
      rw [insert, hplan] at h
      cases h
      rfl
    | ok plan =>
      cases plan with
      | none =>
        rw [insert, hplan] at h
        cases h
      | some plan =>
        have hissued := (runs_of_planInsert hplan).2.2
        rw [h] at hissued
        exact absurd hissued (Nat.succ_ne_self _).symm
  · intro h
    rw [insert, h]

/-- Only identifiers reach the statements of an insertion. It is refused over its table if that is
no identifier, and else over the first name of a column that is none; and if it is not refused,
either there are no rows, or its plan has only identifiers between its quotes. -/
theorem insert_identifiers (client : Client σ) (table : Text) {rows : List Row}
    (sorted : ∀ row ∈ rows, row.IsSorted) :
    (∀ name, client.Refuses table rows name ↔
      ¬ (client.config.physicalTable table).IsName ∧ name = client.config.physicalTable table ∨
        (client.config.physicalTable table).IsName ∧ FirstUnsafe rows name) ∧
    ((∃ name, client.Refuses table rows name) ↔
      ¬ (client.config.physicalTable table).IsName ∨ ∃ row ∈ rows, ∃ key ∈ row.keys, ¬ key.IsName) ∧
    ((∃ name, client.Refuses table rows name) ∨
      rows = [] ∧ client.insert table rows = (.ok ⟨client.config.physicalTable table, 0⟩, client) ∨
      ∃ plan, client.Runs table rows plan ∧ plan.table = client.config.physicalTable table ∧
        plan.IsSafe (client.config.keysOf table)) := by
  have hnot : isIdentifier (client.config.physicalTable table) = false ↔
      ¬ (client.config.physicalTable table).IsName := by
    rw [← isIdentifier_iff, Bool.not_eq_true]
  have hrefuses : ∀ name, client.Refuses table rows name ↔
      ¬ (client.config.physicalTable table).IsName ∧ name = client.config.physicalTable table ∨
        (client.config.physicalTable table).IsName ∧ FirstUnsafe rows name := by
    intro name
    simp only [refuses_iff, Config.planInsert_eq_error_iff, hnot, isIdentifier_iff,
      find?_unsafe_eq_some_iff_firstUnsafe sorted, Error.unsafeIdentifier.injEq, exists_eq_left']
  have hfirst : (∃ name, FirstUnsafe rows name) ↔ ∃ row ∈ rows, ∃ key ∈ row.keys, ¬ key.IsName := by
    simp only [← find?_unsafe_eq_some_iff_firstUnsafe sorted, ← Option.isSome_iff_exists,
      List.find?_isSome, List.mem_flatMap, Bool.not_eq_eq_eq_not, Bool.not_true, ← isIdentifier_iff,
      Bool.not_eq_true]
    exact ⟨fun ⟨key, ⟨row, hrow, hkey⟩, hbad⟩ => ⟨row, hrow, key, hkey, hbad⟩,
      fun ⟨row, hrow, key, hkey, hbad⟩ => ⟨key, ⟨row, hrow, hkey⟩, hbad⟩⟩
  refine ⟨hrefuses, ?_, ?_⟩
  · simp only [hrefuses, exists_or, exists_and_left, hfirst, exists_eq, and_true]
    tauto
  · cases hplan : client.config.planInsert table rows with
    | error cause =>
      obtain ⟨name, rfl, -⟩ := Config.planInsert_eq_error_iff.mp hplan
      exact .inl ⟨name, refuses_iff.mpr hplan⟩
    | ok planned =>
      obtain ⟨htable, ⟨hrows, rfl⟩ | ⟨plan, rfl, hbuild⟩⟩ := Config.planInsert_eq_ok hplan
      · exact .inr (.inl ⟨hrows, by rw [insert, hplan]⟩)
      · exact .inr (.inr ⟨plan, runs_of_planInsert hplan, InsertPlan.table_of_build hbuild,
          InsertPlan.isSafe_of_build htable hbuild⟩)

/-- A quote in the name of a column is refused, also when a later one is no identifier either. -/
theorem insert_identifiers_quote :
    let config : Config := { Config.inMemory with tableAliases := [("pings", "pongs")] }
    let client := Client.start config (.unavailable .inMemory)
    let rows : List Row :=
      [[("id", .int 1)], [("a\" = 1 --", .int 2), ("b c", .int 3), ("id", .int 4)]]
    (∀ row ∈ rows, row.IsSorted) ∧ client.Refuses "pings" rows "a\" = 1 --" := by
  intro config client rows
  have hsorted : ∀ row ∈ rows, row.IsSorted := by decide +kernel
  have htable : (client.config.physicalTable "pings").IsName :=
    isIdentifier_iff.mp (by decide +kernel)
  have hfirst : FirstUnsafe rows "a\" = 1 --" := by
    refine .later ?_ (.here (by decide +kernel) ?_ ?_)
    · simp only [← isIdentifier_iff]
      decide +kernel
    · simp only [← isIdentifier_iff]
      decide +kernel
    · simp only [← isIdentifier_iff]
      decide +kernel
  exact ⟨hsorted, ((insert_identifiers client "pings" hsorted).1 _).mpr (.inr ⟨htable, hfirst⟩)⟩

end Client

end QueryBridge
