import QueryBridge.Error

/-!
# Where the database lives

A database lives in memory or in a file. The place of a file is a path; its parent is the
directory that has to exist before the file can be made.
-/

namespace QueryBridge

/-- Where a database lives. -/
inductive Storage where
  /-- In memory. -/
  | inMemory
  /-- In a file. -/
  | file (path : Text)
deriving DecidableEq, Repr

namespace Storage

/-- The name of the memory. -/
def memoryName : Text := ":memory:"

/-- The place that a text names; nothing at all names the memory too. -/
def ofText (text : Text) : Storage :=
  let name := Text.trim text
  if name.isEmpty || name == memoryName then .inMemory else .file name

/-- The name of a place. -/
def display : Storage → Text
  | .inMemory => memoryName
  | .file path => path

end Storage

/-- A path, cut at its slashes. -/
structure Path where
  /-- Whether the path starts at the root. -/
  absolute : Bool
  /-- The parts between the slashes after the root, empty ones included. -/
  parts : List Text
deriving DecidableEq, Repr

namespace Path

/-- Cuts a text at its slashes; `part` is what stands since the last one, reversed. -/
def cut (part : Text) : Text → List Text
  | [] => [part.reverse]
  | b :: text => if b == Byte.slash then part.reverse :: cut [] text else cut (b :: part) text

/-- The path that a text spells. -/
def ofText (text : Text) : Path :=
  match text with
  | Byte.slash :: rest => ⟨true, cut [] rest⟩
  | _ => ⟨false, cut [] text⟩

/-- The text of a path. -/
def text (path : Path) : Text :=
  Text.when path.absolute [Byte.slash] ++ Text.join [Byte.slash] path.parts

/-- Whether a part names nothing: it is empty or the directory itself. -/
def isIdle (part : Text) : Bool := part.isEmpty || part == "."

/-- Drops the parts at the end that name nothing. A first part of a relative path that names the
directory itself stays. -/
def trimParts (path : Path) : Path :=
  match path.parts with
  | [] => path
  | first :: others =>
    let others := (others.reverse.dropWhile isIdle).reverse
    let stays := !first.isEmpty && (!isIdle first || !path.absolute)
    if others.isEmpty && !stays then { path with parts := [] }
    else { path with parts := first :: others }

/-- The directory that holds what a path names. -/
def parent? (path : Path) : Option Path :=
  let trimmed := path.trimParts
  if trimmed.parts.isEmpty then none
  else some { trimmed with parts := trimmed.parts.dropLast }.trimParts

/-- The parts that name something. -/
def names (path : Path) : List Text := path.parts.filter fun part => !isIdle part

end Path

/-- Why the file system refuses a path. -/
inductive PathFault where
  /-- There is a file where a directory is wanted. -/
  | fileExists
  /-- A part on the way is no directory. -/
  | notDirectory
  /-- There is a directory where a file is wanted. -/
  | isDirectory
  /-- The path names nothing. -/
  | notFound
deriving DecidableEq, Repr

namespace PathFault

/-- The wording of the file system. -/
def message : PathFault → Text
  | .fileExists => "File exists (os error 17)"
  | .notDirectory => "Not a directory (os error 20)"
  | .isDirectory => "Is a directory (os error 21)"
  | .notFound => "No such file or directory (os error 2)"

end PathFault

namespace Path

/-- The device that is a file on every system. -/
def device : List Text := ["dev", "null"]

/-- Whether a path leads through the device. -/
def throughDevice (path : Path) : Bool :=
  path.absolute && device.isPrefixOf path.names && path.names != device

/-- Why a directory cannot be made, as far as the path tells. -/
def makeFault? (path : Path) : Option PathFault :=
  if path.absolute && path.names == device then some .fileExists
  else if path.throughDevice then some .notDirectory
  else none

/-- Whether a path ends in parts that name nothing. -/
def endsIdle (path : Path) : Bool := path.parts.getLast?.any isIdle

/-- Whether a path surely leads to a directory: the root, the directory of devices, or one that is
reached by steps upwards alone. -/
def isDirectory (path : Path) : Bool :=
  path.names.all (· == "..") || path.absolute && path.names == [("dev" : Text)]

/-- Why a file cannot be opened, as far as the path tells. -/
def openFault? (path : Path) : Option PathFault :=
  if path.text.isEmpty then some .notFound
  else if path.isDirectory then some .isDirectory
  else if path.throughDevice || path.absolute && path.names == device && path.endsIdle then
    some .notDirectory
  else none

/-- Why a file cannot be written after its directory is made, as far as the path tells. -/
def saveFault? (path : Path) : Option PathFault :=
  let opened :=
    if path.absolute && path.names == device && path.parts.getLast? == some [] then
      some .isDirectory
    else path.openFault?
  (path.parent?.bind makeFault?).or opened

end Path

namespace Storage

/-- The error of opening a file whose directory cannot be made, as far as the path tells. -/
def openError? : Storage → Option Error
  | .inMemory => none
  | .file path => do
    let parent ← (Path.ofText path).parent?
    let fault ← parent.makeFault?
    return .connection ("failed to create " ++ parent.text ++ ": " ++ fault.message)

end Storage

end QueryBridge
