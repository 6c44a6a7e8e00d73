import ChainMachine.Script.Source
import ChainMachine.Text.Utf8

/-!
# Folders held in memory

A folder of files in which paths are looked up by name, step by step.

* `Folder`: files by path, each path a list of names;
* `Folder.write`, `Folder.ofFiles`: a file written again is replaced, by whatever
  path it is named;
* `Folder.source?`: the source that opening a path gives.  A folder can be opened
  as well, but fails to be read; a path that is too long cannot be opened.
-/

namespace ChainMachine

/-- Files by path, the one written last first.  Whatever comes before the last name of a path
is a folder too. -/
structure Folder where
  files : List (List (List UInt8) × List UInt8)
  deriving DecidableEq, Repr

namespace Folder

/-- The names of a path, cut at each slash.  The names between slashes that touch are empty. -/
def names (path : List UInt8) : List (List UInt8) :=
  path.foldr (fun b names =>
    if b = 0x2F then [] :: names
    else match names with
      | [] => [[b]]
      | name :: names => (b :: name) :: names) [[]]

/-- Whether a name in a path leads nowhere else: the empty name and the lone dot. -/
def staysPut (name : List UInt8) : Bool := name == [] || name == Utf8.encode "."

/-- Write a file.  It hides the one written to the same place before. -/
def write (folder : Folder) (path bytes : List UInt8) : Folder :=
  { files := ((names path).filter (!staysPut ·), bytes) :: folder.files }

/-- The folder after the given files, each a path and its bytes, have been written in order. -/
def ofFiles (files : List (List UInt8 × List UInt8)) : Folder :=
  files.foldl (fun folder (path, bytes) => folder.write path bytes) { files := [] }

/-- The number of bytes in the longest path that can be opened. -/
def longestPath : Nat := 4095

/-- The texts of the failures. -/
def notFound : String := "No such file or directory (os error 2)"
@[inherit_doc notFound] def tooLong : String := "File name too long (os error 36)"
@[inherit_doc notFound] def notFolder : String := "Not a directory (os error 20)"
@[inherit_doc notFound] def isFolder : String := "Is a directory (os error 21)"

/-- Look up names one after another, starting in the folder `place`.  There is no `place`
outside the folder, where nothing but further folders is known. -/
def lookup (folder : Folder) (place : Option (List (List UInt8))) :
    List (List UInt8) → Except String Source
  | [] => .ok { bytes := [], failure := some isFolder }
  | name :: rest =>
    if staysPut name then folder.lookup place rest
    else match place with
      | none => if name = Utf8.encode ".." then folder.lookup none rest else .error notFound
      | some names =>
        if name = Utf8.encode ".." then
          folder.lookup (if names.isEmpty then none else some names.dropLast) rest
        else match folder.files.lookup (names ++ [name]) with
          | some bytes => if rest.isEmpty then .ok { bytes } else .error notFolder
          | none =>
            if folder.files.any fun file => (names ++ [name]).isPrefixOf file.1 then
              folder.lookup (some (names ++ [name])) rest
            else .error notFound

/-- The source that opening a path gives, or the text of the failure to open it.  A path that
begins with a slash leads outside the folder. -/
def source? (folder : Folder) (path : List UInt8) : Except String Source :=
  if longestPath < path.length then .error tooLong
  else match path with
    | [] => .error notFound
    | 0x2F :: _ => folder.lookup none (names path)
    | _ => folder.lookup (some []) (names path)

end Folder

end ChainMachine
