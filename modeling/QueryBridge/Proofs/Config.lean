import QueryBridge.Config
import QueryBridge.Proofs.Toml.Document

/-!
# Saved settings

The text of a configuration file is read as the settings it was written from, down to an empty map
and an empty list of keys. Nothing that is written falls back to a default.
-/

namespace QueryBridge

namespace Config

open Toml

variable {config : Config}

/-! ### The document of the settings -/

/-- The entries of the table for the place of the database. -/
def storageEntries : Storage → Entries
  | .inMemory => [("mode", .string "in_memory")]
  | .file path => [("mode", .string "file"), ("path", .string path)]

/-- The entries of the table for the physical names. -/
def aliasEntries (aliases : Keyed Text) : Entries :=
  aliases.map fun entry => (entry.1, .string entry.2)

/-- The entries of the table for the key columns. -/
def replacingEntries (replacing : Keyed (List Text)) : Entries :=
  replacing.map fun entry => (entry.1, .array (entry.2.map .string))

/-- The entries before the first table. -/
def plainEntries (config : Config) : Entries :=
  let flags : Entries := [("strict_rewrite", .boolean config.isStrict)]
  (flags.putAny "threads" (config.threads.map fun n : Nat => .integer n)).putAny "memory_limit"
    (config.memoryLimit.map .string)

/-- The entries of the document. -/
def entries (config : Config) : Entries :=
  let storage := config.plainEntries.put "storage" (.table .header (storageEntries config.storage))
  let aliases := storage.put "table_aliases" (.table .header (aliasEntries config.tableAliases))
  aliases.put "replacing_tables" (.table .header (replacingEntries config.replacingTables))

/-- The statements before the first table. -/
def plainStatements (config : Config) : List Statement :=
  assignment ("strict_rewrite", .boolean config.isStrict)
    :: (assignments "threads" (config.threads.map fun n : Nat => .integer n)
      ++ assignments "memory_limit" (config.memoryLimit.map .string))

/-- The statements of a configuration file. -/
def statements (config : Config) : List Statement :=
  config.plainStatements
    ++ tableStatements "storage" (storageEntries config.storage)
    ++ tableStatements "table_aliases" (aliasEntries config.tableAliases)
    ++ tableStatements "replacing_tables" (replacingEntries config.replacingTables)

theorem isSigned_of_le {n : Nat} (h : n ≤ 4294967295) : isSigned n = true := by
  have hleast : leastSigned ≤ (n : Int) := by
    unfold leastSigned
    omega
  have hgreatest : (n : Int) ≤ greatestSigned := by
    unfold greatestSigned
    omega
  exact Bool.and_eq_true_iff.mpr ⟨decide_eq_true hleast, decide_eq_true hgreatest⟩

/-! ### The lines of the file -/

theorem holds_storageText (storage : Storage) :
    Holds (storageText storage) ((storageEntries storage).map assignment) := by
  cases storage with
  | inMemory => exact holds_lineText (spells_stringText _) _
  | file path =>
    exact (holds_lineText (spells_stringText _) _).append (holds_lineText (spells_stringText _) _)

theorem holds_aliases (aliases : Keyed Text) :
    Holds (aliases.flatMap fun (name, physical) => lineText name (stringText physical))
      ((aliasEntries aliases).map assignment) := by
  rw [aliasEntries, List.map_map]
  exact holds_flatMap (fun (name, physical) => holds_lineText (spells_stringText physical) name)
    aliases

theorem holds_replacing (replacing : Keyed (List Text)) :
    Holds (replacing.flatMap fun (name, keys) => lineText name (arrayText keys))
      ((replacingEntries replacing).map assignment) := by
  rw [replacingEntries, List.map_map]
  exact holds_flatMap (fun (name, keys) => holds_lineText (spells_arrayText keys) name) replacing

theorem holds_plain (hthreads : ∀ n ∈ config.threads, n ≤ 4294967295) :
    Holds (lineText "strict_rewrite" (if config.isStrict then "true" else "false")
        ++ (config.threads.elim [] (fun n => lineText "threads" (Text.ofNat n))
          ++ config.memoryLimit.elim [] (fun s => lineText "memory_limit" (stringText s))))
      config.plainStatements := by
  have hcount := holds_assignments
    (fun n hn => spells_ofNat (isSigned_of_le (hthreads n hn))) "threads"
  have hlimit := holds_assignments
    (fun s (_ : s ∈ config.memoryLimit) => spells_stringText s) "memory_limit"
  exact (holds_lineText (spells_boolean config.isStrict) "strict_rewrite").append
    (hcount.append hlimit)

/-- The lines of a configuration file are its statements. -/
theorem holds_text (hthreads : ∀ n ∈ config.threads, n ≤ 4294967295) :
    Holds config.text config.statements := by
  have hall := ((holds_plain hthreads).append
    ((holds_storageText config.storage).table "storage")).append
      ((holds_aliases config.tableAliases).table "table_aliases") |>.append
        ((holds_replacing config.replacingTables).table "replacing_tables")
  simpa only [text, statements, List.append_assoc] using hall

/-! ### The document of the file -/

theorem get?_plainEntries {key : Text} (hflag : key ≠ "strict_rewrite") (hcount : key ≠ "threads")
    (hlimit : key ≠ "memory_limit") : config.plainEntries.get? key = none := by
  rw [plainEntries, Keyed.get?_putAny_of_ne hlimit, Keyed.get?_putAny_of_ne hcount, Keyed.get?,
    List.lookup_cons, beq_eq_false_iff_ne.mpr hflag]
  rfl

/-- The statements before the first table make its entries. -/
theorem foldlM_add_plainStatements (config : Config) :
    config.plainStatements.foldlM Document.add Document.empty =
      some ⟨config.plainEntries, []⟩ := by
  have hflag : Document.add Document.empty
      (assignment ("strict_rewrite", .boolean config.isStrict)) =
        some ⟨[("strict_rewrite", .boolean config.isStrict)], []⟩ := rfl
  have hcount : Keyed.get? "threads" [("strict_rewrite", Toml.boolean config.isStrict)] = none :=
    rfl
  have hlimit (count? : Option Toml) : Keyed.get? "memory_limit"
      (Keyed.putAny "threads" count? [("strict_rewrite", Toml.boolean config.isStrict)]) = none :=
    (Keyed.get?_putAny_of_ne (by decide)).trans rfl
  rw [plainStatements, List.foldlM_cons, hflag, Option.bind_eq_bind, Option.bind_some,
    List.foldlM_append, foldlM_add_assignments hcount, Option.bind_eq_bind, Option.bind_some,
    foldlM_add_assignments (hlimit _), plainEntries]

/-- The statements of a configuration file make the document of the settings. -/
theorem ofStatements?_statements (haliases : config.tableAliases.IsSorted)
    (hreplacing : config.replacingTables.IsSorted) :
    ofStatements? config.statements = some config.entries := by
  have hstorage : Keyed.IsSorted (storageEntries config.storage) := by
    cases config.storage with
    | inMemory => exact List.pairwise_singleton _ _
    | file path => exact List.pairwise_pair.mpr (show Text.ofString "mode" < "path" by decide)
  have hstorageName : config.plainEntries.get? "storage" = none :=
    get?_plainEntries (by decide) (by decide) (by decide)
  have haliasesName (storage : Toml) :
      (config.plainEntries.put "storage" storage).get? "table_aliases" = none :=
    (Keyed.get?_put_of_ne (by decide)).trans
      (get?_plainEntries (by decide) (by decide) (by decide))
  have hreplacingName (storage aliases : Toml) :
      ((config.plainEntries.put "storage" storage).put "table_aliases" aliases).get?
        "replacing_tables" = none :=
    ((Keyed.get?_put_of_ne (by decide)).trans (Keyed.get?_put_of_ne (by decide))).trans
      (get?_plainEntries (by decide) (by decide) (by decide))
  simp only [ofStatements?, statements, List.foldlM_append, foldlM_add_plainStatements,
    foldlM_add_tableStatements hstorageName hstorage,
    foldlM_add_tableStatements (haliasesName _) (haliases.map Toml.string),
    foldlM_add_tableStatements (hreplacingName _ _)
      (hreplacing.map fun keys => Toml.array (keys.map .string)), aliasEntries, replacingEntries,
    Option.bind_eq_bind, Option.bind_some, Option.map_some, entries]

/-! ### The settings of the document -/

/-- Items that are read as what they were made of are read as the whole list. -/
theorem mapM_map_eq_some {α β : Type} {make : α → β} {read : β → Option α}
    (h : ∀ item, read (make item) = some item) (items : List α) :
    (items.map make).mapM read = some items := by
  induction items with
  | nil => rfl
  | cons item items ih => simp [List.mapM_cons, h item, ih]

theorem count?_integer {n : Nat} (h : n ≤ 4294967295) : count? (.integer n) = some n := by
  simp [count?]
  omega

theorem storage?_storageEntries (storage : Storage) :
    storage? (.table .header (storageEntries storage)) = some storage := by
  cases storage with
  | inMemory => rfl
  | file path => rfl

theorem table?_aliasEntries (aliases : Keyed Text) :
    table? string? (.table .header (aliasEntries aliases)) = some aliases := by
  refine mapM_map_eq_some (fun entry => ?_) aliases
  rfl

theorem strings?_array (texts : List Text) :
    strings? (.array (texts.map .string)) = some texts := by
  refine mapM_map_eq_some (fun text => ?_) texts
  rfl

theorem table?_replacingEntries (replacing : Keyed (List Text)) :
    table? strings? (.table .header (replacingEntries replacing)) = some replacing := by
  refine mapM_map_eq_some (fun entry => ?_) replacing
  simp [strings?_array]

theorem field_of_get? {α : Type} {entries : Entries} {name : Text} {value : Toml}
    (h : entries.get? name = some value) (default : α) (ofToml : Toml → Option α) :
    field entries name default ofToml = ofToml value := by
  rw [field, h]

/-- A setting that may be absent is read from an entry that may be absent. -/
theorem field_of_get?_map {α : Type} {entries : Entries} {name : Text} {setting : Option α}
    {toToml : α → Toml} (h : entries.get? name = setting.map toToml)
    {ofToml : Toml → Option α} (hread : ∀ x ∈ setting, ofToml (toToml x) = some x) :
    field entries name none (fun value => (ofToml value).map some) = some setting := by
  cases setting with
  | none => rw [field, h, Option.map_none]
  | some x => rw [field_of_get? h, hread x rfl, Option.map_some]

/-- The document of settings has all of them. -/
theorem ofEntries?_entries (storage : Storage)
    (hthreads : ∀ n ∈ config.threads, n ≤ 4294967295) :
    ofEntries? storage config.entries = some config := by
  have hflag : config.entries.get? "strict_rewrite" = some (.boolean config.isStrict) := by
    simp (disch := decide) only [entries, plainEntries, Keyed.get?_put_of_ne,
      Keyed.get?_putAny_of_ne]
    rfl
  have hcount : config.entries.get? "threads" = config.threads.map fun n : Nat => .integer n := by
    simp (disch := decide) only [entries, plainEntries, Keyed.get?_put_of_ne,
      Keyed.get?_putAny_of_ne]
    exact Keyed.get?_putAny_self rfl
  have hlimit : config.entries.get? "memory_limit" = config.memoryLimit.map .string := by
    simp (disch := decide) only [entries, plainEntries, Keyed.get?_put_of_ne]
    exact Keyed.get?_putAny_self ((Keyed.get?_putAny_of_ne (by decide)).trans rfl)
  have hstorage : config.entries.get? "storage" =
      some (.table .header (storageEntries config.storage)) := by
    simp (disch := decide) only [entries, Keyed.get?_put_of_ne, Keyed.get?_put_self]
  have haliases : config.entries.get? "table_aliases" =
      some (.table .header (aliasEntries config.tableAliases)) := by
    simp (disch := decide) only [entries, Keyed.get?_put_of_ne, Keyed.get?_put_self]
  have hreplacing : config.entries.get? "replacing_tables" =
      some (.table .header (replacingEntries config.replacingTables)) :=
    Keyed.get?_put_self
  simp only [ofEntries?, standard, field_of_get? hflag, field_of_get? hstorage,
    field_of_get? haliases, field_of_get? hreplacing,
    field_of_get?_map hcount fun n hn => count?_integer (hthreads n hn),
    field_of_get?_map hlimit fun s _ => show string? (.string s) = some s from rfl,
    storage?_storageEntries, table?_aliasEntries, table?_replacingEntries]
  rfl

/-- Saved settings are loaded as they were, whatever the defaults are. The number of threads fits 32
bits, the maps are in the order of their keys, and texts and keys are arbitrary. -/
theorem ofFile?_text (storage : Storage) (config : Config)
    (hthreads : ∀ n ∈ config.threads, n ≤ 4294967295) (haliases : config.tableAliases.IsSorted)
    (hreplacing : config.replacingTables.IsSorted) :
    ofFile? storage (.holds config.text) = some config := by
  have hlines := (holds_text hthreads).isRead
  have hmark : skipByteOrderMark config.text = config.text := rfl
  have hread : read? config.text = some config.entries := by
    rw [read?, hmark, hlines _ (Nat.lt_succ_self _)]
    exact ofStatements?_statements haliases hreplacing
  exact (congrArg (Option.bind · (ofEntries? storage)) hread).trans
    (ofEntries?_entries storage hthreads)

/-- An emptied map stays empty, and so do an empty key, an empty text and an empty list of keys. -/
theorem ofFile?_text_emptied :
    let config : Config := {
      isStrict := true
      threads := some 4294967295
      memoryLimit := some ""
      storage := .file "/tmp/é \"a\" 'b'\\\r\n\x01"
      tableAliases := []
      replacingTables := [("", []), ("a.b\n", ["", "x\"\"\"\n'''", "[#]"])] }
    (∀ n ∈ config.threads, n ≤ 4294967295) ∧ config.tableAliases.IsSorted ∧
      config.replacingTables.IsSorted ∧
        ofFile? .inMemory (.holds config.text) = some config :=
  ⟨by decide, by decide, by decide,
    ofFile?_text .inMemory _ (by decide) (by decide) (by decide)⟩

end Config

end QueryBridge
