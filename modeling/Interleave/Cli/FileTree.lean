set_option autoImplicit false

/-! A tree of files is a list of files by their places. A place is given by names from the working
directory on; it starts with `..` above that directory and with `/` at the root of the system.
`FileTree.walk` finds the place that a path names, component by component. Directories are those
that hold a file, those above the working directory, and those of every system. -/

namespace Interleave.Cli

inductive FileProblem where
  | missing
  | notDirectory
  | isDirectory
  | nameTooLong
  | notText
  | other (message : String)
deriving DecidableEq

def FileProblem.message : FileProblem → String
  | missing => "No such file or directory (os error 2)"
  | notDirectory => "Not a directory (os error 20)"
  | isDirectory => "Is a directory (os error 21)"
  | nameTooLong => "File name too long (os error 36)"
  | notText => "stream did not contain valid UTF-8"
  | other message => message

structure FileTree where
  files : List (List String × ByteArray)

def maxNameSize : Nat := 255

def maxPathSize : Nat := 4095

def systemDirectories : List String := [
  "bin", "boot", "dev", "etc", "home", "lib", "media", "mnt", "opt", "proc", "root", "run", "sbin",
  "srv", "sys", "tmp", "usr", "var"]

def nullDevice : List String := ["/", "dev", "null"]

def parentPlace (dir : List String) : List String :=
  if dir = ["/"] then dir
  else if dir.all (· = "..") then ".." :: dir
  else dir.dropLast

namespace FileTree

def find? (t : FileTree) (place : List String) : Option ByteArray :=
  if place = nullDevice then some .empty else t.files.lookup place

def isFixed : List String → Bool
  | ["/"] => true
  | ["/", name] => name ∈ systemDirectories
  | place => place.all (· = "..")

def isDirectory (t : FileTree) (place : List String) : Bool :=
  isFixed place || t.files.any fun (file, _) => place.isPrefixOf file && file ≠ place

/-- Follows the components of a path from a directory. The last one need not exist. -/
def walk (t : FileTree) (dir : List String) : List String → Except FileProblem (List String)
  | [] => .ok dir
  | name :: rest =>
    if name = "" ∨ name = "." then t.walk dir rest
    else if name = ".." then t.walk (parentPlace dir) rest
    else if maxNameSize < name.utf8ByteSize then .error .nameTooLong
    else if rest.isEmpty ∨ t.isDirectory (dir ++ [name]) then t.walk (dir ++ [name]) rest
    else if (t.find? (dir ++ [name])).isSome then .error .notDirectory
    else .error .missing

def locate (t : FileTree) (path : String) : Except FileProblem (List String) :=
  if maxPathSize < path.utf8ByteSize then .error .nameTooLong
  else t.walk (if path.startsWith "/" then ["/"] else []) (path.splitOn "/")

def read (t : FileTree) (path : String) : Except FileProblem ByteArray := do
  let place ← t.locate path
  match t.find? place with
  | some bytes => return bytes
  | none => .error (if t.isDirectory place then .isDirectory else .missing)

def put (t : FileTree) (place : List String) (bytes : ByteArray) : FileTree :=
  ⟨(place, bytes) :: t.files.filter (·.1 ≠ place)⟩

def write (t : FileTree) (path : String) (bytes : ByteArray) : Except FileProblem FileTree := do
  let place ← t.locate path
  if t.isDirectory place then .error .isDirectory else return t.put place bytes

def rename (t : FileTree) (source target : String) : Except FileProblem FileTree := do
  let source ← t.locate source
  let target ← t.locate target
  if t.isDirectory target then .error .isDirectory
  else
    match t.find? source with
    | none => .error .missing
    | some bytes => return (FileTree.mk (t.files.filter (·.1 ≠ source))).put target bytes

def names (t : FileTree) : List String :=
  let heads := t.files.filterMap fun (place, _) => place.head?
  (heads.filter fun name => name ≠ ".." && name ≠ "/").eraseDups.mergeSort (· ≤ ·)

end FileTree

def dropTrailing (reversed : List Char) : List Char :=
  match reversed with
  | '/' :: rest => dropTrailing rest
  | '.' :: '/' :: rest => dropTrailing ('/' :: rest)
  | chars => chars

/-- The path with another extension; a path that ends in no name stays as it is. The old extension
is taken off first, and where that leaves a path to `..` this is the result. -/
def withExtension (path extension : String) : String :=
  let reversed := dropTrailing path.toList.reverse
  let name := reversed.takeWhile (· ≠ '/')
  let before := reversed.dropWhile (· ≠ '/')
  let stem := match name.dropWhile (· ≠ '.') with
    | '.' :: c :: rest => c :: rest
    | _ => name
  if name = [] ∨ name = ['.'] ∨ name = ['.', '.'] then path
  else if stem = ['.'] ∧ reversed.length = path.length then
    String.ofList ('.' :: '.' :: before).reverse
  else String.ofList (stem ++ before).reverse ++ "." ++ extension

end Interleave.Cli
