import IndentMarkup.Command.Arguments
import IndentMarkup.Value.Words

/-! The command line: reads the files that a command asks for, carries it out, and writes its output
and its log. -/
namespace IndentMarkup.Command

/-- The content of a file, or why it cannot be read. -/
def loadFile (path : String) : IO (Except String String) := do
  try
    return .ok (← IO.FS.readFile path)
  catch error =>
    match error with
    | .noFileOrDirectory .. => return .error missingFile
    | other => return .error (toString other)

def loadFiles (paths : List String) : IO Files := do
  let loaded ← paths.mapM fun path => return (path, ← loadFile path)
  return fun path => ((loaded.find? (·.1 == path)).map (·.2)).getD (.error missingFile)

end IndentMarkup.Command

open IndentMarkup Command in
def main (arguments : List String) : IO UInt32 := do
  let read := Arguments.read {} arguments
  match read.bind fun found => found.request?.map fun request => (request, found.verbosity) with
  | none =>
    IO.eprint usage
    return 2
  | some (request, verbosity) =>
    -- the values come from a file, which holds no references
    have : Host NodeId := .ofWords
    let result := run (← loadFiles request.paths) request
    IO.eprint (result.errorOutput verbosity)
    IO.print result.output
    return result.exitCode.toUInt32
