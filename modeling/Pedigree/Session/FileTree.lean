import Pedigree.Keyed

/-! A tree of files and directories, without links. A path is a list of names from the root. A text
names a path from the root if it starts with a slash, and from the working directory otherwise. -/
namespace Pedigree

abbrev FilePath := List String

structure FileTree where
  files : List (FilePath × ByteArray)
  /-- Directories that need no file in them. -/
  folders : List FilePath
  /-- The working directory. -/
  working : FilePath

namespace FileTree

/-- No files, and somewhere below the root to work in. -/
def empty : FileTree := ⟨[], [], ["home"]⟩

def get? (t : FileTree) (path : FilePath) : Option ByteArray := t.files.lookup path

/-- The directories are those that are given and all that something lies in. -/
def isDirectory (t : FileTree) (path : FilePath) : Bool :=
  (t.working :: t.folders).any path.isPrefixOf ||
    t.files.any fun f => path.isPrefixOf f.1 && path != f.1

/-- Puts a file, with the directories above it. -/
def put (t : FileTree) (path : FilePath) (content : ByteArray) : FileTree :=
  { t with files := Keyed.set t.files path content }

/-- Puts a file below the working directory. -/
def insert (t : FileTree) (path : FilePath) (content : ByteArray) : FileTree :=
  t.put (t.working ++ path) content

theorem get?_put (t : FileTree) (path other : FilePath) (content : ByteArray) :
    (t.put path content).get? other = if other = path then some content else t.get? other :=
  Keyed.lookup_set ..

/-- The longest name and the longest path that can be looked up, in bytes. -/
def nameLimit : Nat := 255

def pathLimit : Nat := 4095

/-- One name further. A name leads on only from a directory. Above the root is the root. -/
def enter? (t : FileTree) (path : FilePath) (name : String) : Option FilePath :=
  if !t.isDirectory path || nameLimit < name.utf8ByteSize then none
  else if name = "." ∨ name = "" then some path
  else if name = ".." then some path.dropLast
  else some (path ++ [name])

/-- The names between the slashes of a text. -/
def names (s : String) : List String := (s.toList.splitOn '/').map String.ofList

/-- Where a text starts. -/
def base (t : FileTree) (s : String) : FilePath :=
  if s.toList.head? = some '/' then [] else t.working

/-- The path that a text names. -/
def locate? (t : FileTree) (s : String) : Option FilePath :=
  if s = "" ∨ '\x00' ∈ s.toList ∨ pathLimit < s.utf8ByteSize then none
  else (names s).foldlM t.enter? (t.base s)

/-- Whether there is a file or a directory. -/
def holds (t : FileTree) (s : String) : Bool :=
  match t.locate? s with
  | some path => t.isDirectory path || (t.get? path).isSome
  | none => false

/-- The text of a file. -/
def read? (t : FileTree) (s : String) : Option String := do
  String.fromUTF8? (← t.get? (← t.locate? s))

/-- Writes a file in a directory. -/
def write? (t : FileTree) (s : String) (text : String) : Option FileTree := do
  let path ← t.locate? s
  if t.isDirectory path || !t.isDirectory path.dropLast then none
  else some (t.put path text.toUTF8)

/-- The files below the working directory that an earlier tree lacks or holds with another
content, by their paths from there. -/
def changes (t earlier : FileTree) : List (FilePath × ByteArray) :=
  (t.files.filter fun f =>
    t.working.isPrefixOf f.1 && (earlier.get? f.1).map (·.data) != some f.2.data).map fun f =>
      (f.1.drop t.working.length, f.2)

end FileTree

end Pedigree
