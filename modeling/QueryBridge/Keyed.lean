import QueryBridge.Text.Byte

/-!
# Keyed collections

A collection of values under text keys, in the order of the bytes of the keys. A value put
under a key that is present takes the place of the old one.
-/

namespace QueryBridge

/-- Values under keys. -/
abbrev Keyed (α : Type) := List (Text × α)

namespace Keyed

variable {α : Type}

/-- The value under a key. -/
def get? (key : Text) (entries : Keyed α) : Option α := List.lookup key entries

/-- Whether there is a value under a key. -/
def has (key : Text) (entries : Keyed α) : Bool := (entries.get? key).isSome

/-- Puts a value under a key. -/
def put (key : Text) (value : α) : Keyed α → Keyed α
  | [] => [(key, value)]
  | (k, v) :: entries =>
    if key < k then (key, value) :: (k, v) :: entries
    else if key = k then (key, value) :: entries
    else (k, v) :: put key value entries

/-- Puts entries one after the other; the last value of a key stays. -/
def ofList (entries : List (Text × α)) : Keyed α :=
  entries.foldl (fun found entry => put entry.1 entry.2 found) []

/-- The keys, in order. -/
def keys (entries : Keyed α) : List Text := entries.map Prod.fst

end Keyed

end QueryBridge
