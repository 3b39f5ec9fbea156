import FormSchema.CommandLine.Report

/-!
# The program

Reads the files that a command line asks for, and prints the report on them.
-/

namespace FormSchema.CommandLine

/-- The code of the system for a directory where a file is needed. -/
def isDirectoryCode : UInt32 := 21

def readFile (path : String) : IO (Except ReadFault String) := do
  try
    let bytes ← IO.FS.readBinFile path
    return match String.fromUTF8? bytes with
      | some text => .ok text
      | none => .error .notText
  catch e =>
    return .error <| match e with
      | .inappropriateType _ code _ => if code = isDirectoryCode then .isDirectory else .notDirectory
      | _ => .missing

partial def readTree (path : String) : IO (Option FileTree) := do
  try
    let mut found := #[]
    for e in ← (← IO.FS.realPath path).readDir do
      if let some t ← readTree e.path.toString then found := found.push (e.fileName, t)
    return some (.directory found.toList)
  catch _ =>
    match ← readFile path with
    | .ok text => return some (.file (some text))
    | .error .notText => return some (.file none)
    | .error _ => return none

def readFiles : Request → IO Files
  | .run i => do
    let tree ← readTree i.forms
    let document := match i.command with
      | .bind _ _ _ path => [path]
      | .check _ => []
    let texts ← (i.config.toList ++ document).mapM fun path => return (path, ← readFile path)
    return ⟨fun path => (texts.lookup path).getD (.error .missing), fun path => ⟨path, tree⟩⟩
  | _ => return .ofTree .empty

def wantsColour : IO Bool := return (← IO.getEnv "FORCE_COLOR").any (· ≠ "0")

end FormSchema.CommandLine

open FormSchema.CommandLine in
def main (words : List String) : IO UInt32 := do
  let request := Request.ofWords words
  let report := request.report (← readFiles request) (← wantsColour)
  IO.print report.output
  if let some message := report.error then IO.eprintln s!"Error: {message}"
  if request = .misuse then IO.eprintln (usage "[OPTIONS] <COMMAND>")
  return report.code.toUInt32
