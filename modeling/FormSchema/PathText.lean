/-!
# Paths

A path is a text of steps that are separated by slashes. An empty step and a single dot stay where
they are, and two dots lead back.
-/

namespace FormSchema.PathText

def steps (path : String) : List String := path.splitOn "/"

def staysPut (step : String) : Bool := step = "" || step = "."

def back : String := ".."

/-- The name at the end of a path. A path that ends by leading back has none. -/
def fileName? (path : String) : Option String :=
  ((steps path).filter fun s => !staysPut s).getLast?.filter fun s => s ≠ back

/-- What stands behind the last dot of a name, unless that dot begins the name. -/
def nameExtension? (name : String) : Option String :=
  let behind := name.toList.reverse.takeWhile (· ≠ '.')
  if behind.length + 1 < name.length then some (String.ofList behind.reverse) else none

def extension? (path : String) : Option String := fileName? path >>= nameExtension?

/-- A path behind another one. The empty path leads nowhere. -/
def join (path rest : String) : String :=
  if rest.isEmpty then path
  else if path.isEmpty || path.toList.getLast? = some '/' then path ++ rest
  else path ++ "/" ++ rest

def ofNames (names : List String) : String := "/".intercalate names

end FormSchema.PathText
