import FormSchema.PathText

/-!
# File trees

Files and directories below a place, as values.

* `FileTree.find` — what a path leads to.
* `FileTree.files` — every file below a directory, in the order of the names on the way to it.
-/

namespace FormSchema

inductive FileTree where
  -- a file with its text, unless its bytes are no text
  | file (text : Option String)
  | directory (entries : List (String × FileTree))
deriving Inhabited

/-- Why nothing can be read at a path. -/
inductive ReadFault where
  | missing
  -- a step leads on from a file
  | notDirectory
  | isDirectory
  -- the bytes of the file are no text
  | notText
deriving DecidableEq

def ReadFault.message : ReadFault → String
  | .missing => "No such file or directory (os error 2)"
  | .notDirectory => "Not a directory (os error 20)"
  | .isDirectory => "Is a directory (os error 21)"
  | .notText => "stream did not contain valid UTF-8"

namespace FileTree

def empty : FileTree := .directory []

/-! ### Paths -/

/-- Follows steps from the first of the given trees; those behind it are the directories around it.
Nothing is known beyond the last of them. -/
def follow : List FileTree → List String → Except ReadFault FileTree
  | [], _ => .error .missing
  | here :: _, [] => .ok here
  | .file _ :: _, _ :: _ => .error .notDirectory
  | .directory entries :: around, step :: rest =>
    if PathText.staysPut step then follow (.directory entries :: around) rest
    else if step = PathText.back then follow around rest
    else
      match entries.lookup step with
      | some t => follow (t :: .directory entries :: around) rest
      | none => .error .missing

/-- What a path leads to from a tree. The empty path leads nowhere, and an absolute one out of the
tree. -/
def find (t : FileTree) (path : String) : Except ReadFault FileTree :=
  if path.isEmpty || path.toList.head? = some '/' then .error .missing
  else follow [t] (PathText.steps path)

def text : FileTree → Except ReadFault String
  | .file (some text) => .ok text
  | .file none => .error .notText
  | .directory _ => .error .isDirectory

def read (t : FileTree) (path : String) : Except ReadFault String := t.find path >>= text

/-- The entries of a directory; a file has none. -/
def entries : FileTree → List (String × FileTree)
  | .directory entries => entries
  | .file _ => []

/-- Puts a tree at the end of a way of names, making directories on the way. -/
def put (t : FileTree) (node : FileTree) : List String → FileTree
  | [] => node
  | name :: rest =>
    let old := (t.entries.lookup name).getD empty
    .directory ((name, old.put node rest) :: t.entries.filter fun e => e.1 ≠ name)

/-! ### Files -/

def byName {α : Type} (entries : List (String × α)) : List (String × α) :=
  entries.mergeSort fun a b => !(b.1 < a.1)

mutual

/-- Every file of a tree: the names on the way to it, and its text. -/
def files : FileTree → List (List String × Option String)
  | .file text => [([], text)]
  | .directory entries =>
    (byName (filesOf entries)).flatMap fun (name, found) =>
      found.map fun (way, text) => (name :: way, text)

/-- The files of every entry, under the name of the entry. -/
def filesOf : List (String × FileTree) → List (String × List (List String × Option String))
  | [] => []
  | (name, t) :: rest => (name, t.files) :: filesOf rest

end

end FileTree

end FormSchema
