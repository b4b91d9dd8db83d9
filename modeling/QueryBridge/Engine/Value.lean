import QueryBridge.Duration
import QueryBridge.Json.Value

/-!
# Values of the engine

The values that the engine returns and that are bound to its statements.
-/

namespace QueryBridge

/-- The integer types of the engine. -/
inductive IntegerType where
  /-- One byte. -/
  | tinyInt
  /-- Two bytes. -/
  | smallInt
  /-- Four bytes. -/
  | int
  /-- Eight bytes. -/
  | bigInt
  /-- Sixteen bytes. -/
  | hugeInt
  /-- One byte without sign. -/
  | uTinyInt
  /-- Two bytes without sign. -/
  | uSmallInt
  /-- Four bytes without sign. -/
  | uInt
  /-- Eight bytes without sign. -/
  | uBigInt
  /-- Sixteen bytes without sign. -/
  | uHugeInt
deriving DecidableEq, Repr

/-- A value of the engine. -/
inductive EngineValue where
  /-- The absent value. -/
  | null
  /-- A truth value. -/
  | boolean (value : Bool)
  /-- An integer. -/
  | integer (type : IntegerType) (value : Int)
  /-- A float of four bytes. -/
  | float (value : Float32)
  /-- A float of eight bytes. -/
  | double (value : Float)
  /-- A decimal: an integer divided by a power of ten. -/
  | decimal (unscaled : Int) (places : Nat)
  /-- A point in time, counted from 1970. -/
  | timestamp (unit : TimeUnit) (count : Int)
  /-- A date, counted in days from 1970-01-01. -/
  | date (days : Int)
  /-- A time of the day. -/
  | time (unit : TimeUnit) (count : Int)
  /-- An interval. -/
  | interval (value : Interval)
  /-- A text. -/
  | text (content : Text)
  /-- The name of a member of an enumeration. -/
  | enum (name : Text)
  /-- Bytes. -/
  | blob (bytes : List UInt8)
  /-- The bytes of a geometry. -/
  | geometry (bytes : List UInt8)
  /-- A list. -/
  | list (items : List EngineValue)
  /-- A list of fixed length. -/
  | array (items : List EngineValue)
  /-- Named fields. -/
  | struct (fields : List (Text × EngineValue))
  /-- Keys with values. -/
  | map (entries : List (EngineValue × EngineValue))
  /-- A value of one of several types. -/
  | union (value : EngineValue)
deriving Inhabited

end QueryBridge
