import CursorCommand.CommandLine.Run

/-!
# Files in memory

A file tree holds the contents of files under their paths from the root. A path is followed one part
at a time: an empty part and `.` stay, `..` goes up, and every part but the last has to lead to a
directory, so that a slash behind the name of a file leads nowhere.
-/
namespace CursorCommand

/-- Files by their paths, and the directories that exist without holding any. -/
structure FileTree where
  files : List (List String × ByteArray)
  directories : List (List String)

namespace FileTree

def parts (path : String) : List String :=
  (path.toList.splitOnP fun c => c == '/').map String.ofList

/-- A directory is the root, a path to something, or listed. -/
def isDirectory (t : FileTree) (path : List String) : Bool :=
  path.isEmpty ||
    (t.files.any fun f => path.length < f.1.length && path.isPrefixOf f.1) ||
    t.directories.any fun d => path.isPrefixOf d

def step? (t : FileTree) (path : List String) (part : String) : Option (List String) :=
  if t.isDirectory path then
    if part = "" ∨ part = "." then some path
    else if part = ".." then some path.dropLast
    else some (path ++ [part])
  else none

def bytes? (t : FileTree) (path : String) : Option ByteArray := do
  let place ← (parts path).foldlM t.step? []
  (t.files.find? fun f => f.1 == place).map (·.2)

/-- The text of the file at an absolute path, if it is valid UTF-8. -/
def text? (t : FileTree) (path : String) : Option String := (t.bytes? path).bind String.fromUTF8?

/-- A machine with nothing but the files of a tree. -/
def machine (t : FileTree) (directory : String) (parse : String → Node) : Machine :=
  { directory := directory
    text? := t.text?
    tree := parse }

end FileTree

end CursorCommand
