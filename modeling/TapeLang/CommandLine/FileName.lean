import TapeLang.Text.Quoted

/-!
# File names

The normal form of a file name, why a file cannot be read, and a working directory held in memory.
-/

set_option autoImplicit false

namespace TapeLang.CommandLine

/-! ## Names -/

/-- The parts that name something: not the empty ones, and not the dot that means "here". -/
def pathParts (name : String) : List String :=
  ((name.toList.splitOn '/').filter fun part => part ≠ [] ∧ part ≠ ['.']).map String.ofList

/-- The slashes that a name starts with, as far as they matter: exactly two are kept apart from one,
and more count as one. -/
def pathRoot (name : String) : String :=
  match (name.toList.takeWhile (· == '/')).length with
  | 0 => ""
  | 2 => "//"
  | _ => "/"

/-- A name without needless slashes and dots. -/
def normalName (name : String) : String :=
  let text := pathRoot name ++ "/".intercalate (pathParts name)
  if text = "" then "." else text

/-- Why a file cannot be read. -/
inductive FileError where
  | notFound
  | notADirectory
  | isADirectory
  | nameTooLong
  /-- Some other failure, in words. -/
  | other (text : String)
deriving DecidableEq, Repr

/-- The text about a file that cannot be read. -/
def FileError.message (name : String) : FileError → String
  | notFound => "[Errno 2] No such file or directory: " ++ quoted name
  | notADirectory => "[Errno 20] Not a directory: " ++ quoted name
  | isADirectory => "[Errno 21] Is a directory: " ++ quoted name
  | nameTooLong => "[Errno 36] File name too long: " ++ quoted name
  | other text => text

/-! ## Directories -/

/-- The content of a working directory: names with bytes, where a name that ends in a slash is a
directory. The parts before the last one of a name are directories too. -/
structure Directory where
  entries : List (String × List UInt8)
deriving DecidableEq, Repr

namespace Directory

/-- What a path leads to. -/
inductive Node where
  | file (bytes : List UInt8)
  /-- A directory inside, by its path from here. -/
  | inside (path : List String)
  /-- A directory that is not under this one, of which nothing else is known. -/
  | outside
deriving DecidableEq, Repr

/-- The entry names a directory. -/
def isFolder (name : String) : Bool := name.toList.getLast? == some '/'

/-- What stands at a path from here. -/
def at? (d : Directory) (path : List String) : Option Node :=
  match d.entries.find? fun (name, _) => !isFolder name && pathParts name == path with
  | some (_, bytes) => some (.file bytes)
  | none =>
    if d.entries.any fun (name, _) => path.isPrefixOf (pathParts name) then some (.inside path)
    else none

/-- The most bytes that one part of a name may have. -/
def maxPartBytes : Nat := 255

/-- The most bytes that a whole name may have. -/
def maxNameBytes : Nat := 4095

/-- Goes from a node by one part of a name. -/
def enter (d : Directory) (node : Node) (part : String) : Except FileError Node :=
  match node with
  | .file _ => .error .notADirectory
  | .outside =>
    if part = ".." then .ok .outside
    else if maxPartBytes < part.utf8ByteSize then .error .nameTooLong
    else .error .notFound
  | .inside path =>
    if part = ".." then .ok (if path = [] then .outside else .inside path.dropLast)
    else if maxPartBytes < part.utf8ByteSize then .error .nameTooLong
    else match d.at? (path ++ [part]) with
      | some node => .ok node
      | none => .error .notFound

/-- The content of the file of a name. -/
def read (d : Directory) (name : String) : Except FileError (List UInt8) :=
  if maxNameBytes < name.utf8ByteSize then .error .nameTooLong
  else do
    let start := if pathRoot name = "" then Node.inside [] else .outside
    match ← (pathParts name).foldlM d.enter start with
    | .file bytes => .ok bytes
    | _ => .error .isADirectory

end Directory

end TapeLang.CommandLine
