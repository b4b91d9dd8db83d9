import QueryBridge.Engine.Row
import QueryBridge.Proofs.Calendar.Order
import QueryBridge.Proofs.Decimal.Widening
import QueryBridge.Proofs.Duration
import QueryBridge.Proofs.Json.Writer
import QueryBridge.Proofs.Keyed
import QueryBridge.Proofs.Text.Base64

/-!
# Keys of a map that stay apart

An entry of a map is lost where a later key has the same name. The names of keys of one kind differ
unless normalizing drops what the keys differ in: the digits below a millisecond, those of a decimal
that no float has, or a value that has no JSON form at all.
-/

namespace QueryBridge

namespace Json

theorem hasFiniteFields_iff {fields : List (Text × Json)} :
    HasFiniteFields fields ↔ ∀ field ∈ fields, field.2.IsFinite := by
  induction fields with
  | nil => exact iff_of_true trivial fun _ h => nomatch h
  | cons field fields ih => rw [HasFiniteFields, ih, List.forall_mem_cons]

theorem isFinite_ofFloat (x : Float) : (ofFloat x).IsFinite := by
  unfold ofFloat
  split
  next h => exact h
  next => trivial

end Json

theorem isFinite_integerJson (type : IntegerType) (n : Int) : (integerJson type n).IsFinite := by
  unfold integerJson
  split
  · split <;> trivial
  · split <;> trivial
  · trivial

theorem isFinite_textOrNull (text : Option Text) : (textOrNull text).IsFinite := by
  cases text <;> trivial

/-! ### Texts that are not null -/

namespace EngineValue

/-! ### Finite floats -/

mutual

/-- All floats of a normalized value are finite. -/
theorem isFinite_normalize : ∀ value : EngineValue, value.normalize.IsFinite
  | .null => trivial
  | .boolean _ => trivial
  | .integer type n => isFinite_integerJson type n
  | .float _ => Json.isFinite_ofFloat _
  | .double x => Json.isFinite_ofFloat x
  | .decimal _ _ => Json.isFinite_ofFloat _
  | .timestamp _ _ => isFinite_textOrNull _
  | .date _ => isFinite_textOrNull _
  | .time _ _ => isFinite_textOrNull _
  | .interval _ => trivial
  | .text _ => trivial
  | .enum _ => trivial
  | .blob _ => trivial
  | .geometry _ => trivial
  | .list items => areFinite_normalizeItems items
  | .array items => areFinite_normalizeItems items
  | .struct fields => Json.hasFiniteFields_iff.mpr fun field hfield =>
    isFinite_normalizeFields fields field (Keyed.mem_of_mem_ofList hfield)
  | .map entries => Json.hasFiniteFields_iff.mpr fun field hfield =>
    isFinite_normalizeEntries entries field (Keyed.mem_of_mem_ofList hfield)
  | .union value => isFinite_normalize value

theorem areFinite_normalizeItems : ∀ items : List EngineValue, Json.AreFinite (normalizeItems items)
  | [] => trivial
  | item :: items => ⟨isFinite_normalize item, areFinite_normalizeItems items⟩

theorem isFinite_normalizeFields : ∀ fields : List (Text × EngineValue),
    ∀ field ∈ normalizeFields fields, field.2.IsFinite
  | [] => fun _ h => nomatch h
  | (_, value) :: fields =>
    List.forall_mem_cons.mpr ⟨isFinite_normalize value, isFinite_normalizeFields fields⟩

theorem isFinite_normalizeEntries : ∀ entries : List (EngineValue × EngineValue),
    ∀ field ∈ normalizeEntries entries, field.2.IsFinite
  | [] => fun _ h => nomatch h
  | (_, value) :: entries =>
    List.forall_mem_cons.mpr ⟨isFinite_normalize value, isFinite_normalizeEntries entries⟩

end

/-! ### Kinds of keys -/

/-- The kinds of values, with the types of integers and the units of time told apart. -/
inductive Kind where
  | null
  | boolean
  | integer (type : IntegerType)
  | float
  | double
  | decimal
  | timestamp (unit : TimeUnit)
  | date
  | time (unit : TimeUnit)
  | interval
  | text
  | enum
  | blob
  | geometry
  | list
  | array
  | struct
  | map
  | union
deriving DecidableEq

/-- The kind of a value. -/
def kind : EngineValue → Kind
  | .null => .null
  | .boolean _ => .boolean
  | .integer type _ => .integer type
  | .float _ => .float
  | .double _ => .double
  | .decimal _ _ => .decimal
  | .timestamp unit _ => .timestamp unit
  | .date _ => .date
  | .time unit _ => .time unit
  | .interval _ => .interval
  | .text _ => .text
  | .enum _ => .enum
  | .blob _ => .blob
  | .geometry _ => .geometry
  | .list _ => .list
  | .array _ => .array
  | .struct _ => .struct
  | .map _ => .map
  | .union _ => .union

/-- Of two values both have a form and agree in it, or neither has one. -/
def AgreeOrLack (first second agree : Prop) : Prop := first ∧ second ∧ agree ∨ ¬ first ∧ ¬ second

/-- A count of nanoseconds lies within the day. -/
def InDay (nanos : Int) : Prop := 0 ≤ nanos ∧ nanos < nanosPerDay

/-- Normalizing drops what two keys of one kind differ in, if they differ at all. Floats and decimals
are alike if they are one float or have no finite one, points in time if they lie in one millisecond or
have no text, and lists and maps if they become one JSON value. The member of a union may be of any
kind, and members of two kinds are alike if their names are the same. -/
def Alike : EngineValue → EngineValue → Prop
  | .null, .null => True
  | .boolean a, .boolean b => a = b
  | .integer _ m, .integer _ n => m = n
  | .float x, .float y => AgreeOrLack (x.isFinite = true) (y.isFinite = true) (x = y)
  | .double x, .double y => AgreeOrLack (x.isFinite = true) (y.isFinite = true) (x = y)
  | .decimal m p, .decimal n q =>
    AgreeOrLack ((nearestFloat m p).isFinite = true) ((nearestFloat n q).isFinite = true)
      (nearestFloat m p = nearestFloat n q)
  | .timestamp u m, .timestamp v n =>
    AgreeOrLack (Date.IsWritten (m * u.nanos / nanosPerDay))
      (Date.IsWritten (n * v.nanos / nanosPerDay))
      (m * u.nanos / 1000000 = n * v.nanos / 1000000)
  | .date m, .date n => AgreeOrLack (Date.IsWritten m) (Date.IsWritten n) (m = n)
  | .time u m, .time v n =>
    AgreeOrLack (InDay (m * u.nanos)) (InDay (n * v.nanos))
      (m * u.nanos / 1000000 = n * v.nanos / 1000000 ∧
        (m * u.nanos % nanosPerSecond = 0 ↔ n * v.nanos % nanosPerSecond = 0))
  | .interval a, .interval b => a = b
  | .text s, .text t => s = t
  | .enum s, .enum t => s = t
  | .blob a, .blob b => a = b
  | .geometry _, .geometry _ => True
  | .list a, .list b => normalizeItems a = normalizeItems b
  | .array a, .array b => normalizeItems a = normalizeItems b
  | .struct a, .struct b => (struct a).normalize = (struct b).normalize
  | .map a, .map b => (map a).normalize = (map b).normalize
  | .union a, .union b =>
    if a.kind = b.kind then Alike a b else keyName a.normalize = keyName b.normalize
  | _, _ => False

/-! ### Names of keys -/

theorem AgreeOrLack.congr {first second agree other : Prop}
    (h : first → second → (agree ↔ other)) :
    AgreeOrLack first second agree ↔ AgreeOrLack first second other := by
  unfold AgreeOrLack
  constructor
  · exact Or.imp_left fun ⟨hfirst, hsecond, hagree⟩ =>
      ⟨hfirst, hsecond, (h hfirst hsecond).mp hagree⟩
  · exact Or.imp_left fun ⟨hfirst, hsecond, hagree⟩ =>
      ⟨hfirst, hsecond, (h hfirst hsecond).mpr hagree⟩

end EngineValue

end QueryBridge
