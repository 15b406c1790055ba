import Grammarian.Command.Answer

/-!
# The program

Reads the files that a command line names and prints the answer.
-/

open Grammarian.Command

/-- The text of a file. -/
def readText (path : String) : IO (Except FileError String) := do
  try
    let bytes ← IO.FS.readBinFile path
    match String.fromUTF8? bytes with
    | some text => pure (.ok text)
    | none => pure (.error .notText)
  catch
    | .permissionDenied .. => pure (.error .forbidden)
    | .inappropriateType .. => pure (.error .directory)
    | _ => pure (.error .missing)

/-- The words of a command line that may name files. -/
def pathsIn (words : List String) : List String :=
  match Request.ofWords? words with
  | some (.compile grammar _ _) => [grammar]
  | some (.parse r) => r.config.toList ++ [r.grammar, r.input]
  | _ => []

def main (words : List String) : IO UInt32 := do
  let texts ← (pathsIn words).mapM fun path => do pure (path, ← readText path)
  let files : Files := fun path => (texts.lookup path).getD (.error .missing)
  let a := answer files words
  IO.print a.output
  IO.eprint a.errors
  pure a.code.toUInt32
