import OrderedChoice.CommandLine.Run

/-! The program. It reads the files that its words may name, and prints what the
command line comes to. -/

namespace OrderedChoice

namespace CommandLine

def readFile? (path : String) : IO (Option String) := do
  try
    return some (← IO.FS.readFile path)
  catch _ =>
    return none

def paths (words : List String) : List String :=
  match Request.ofWords words with
  | .ok (.perform options) => options.grammarPath :: options.inputPath.toList
  | _ => []

def Result.print : Result → IO UInt32
  | .answer reply => do
      IO.print reply.stdout
      IO.eprint reply.stderr
      return reply.status.toUInt32
  | .missingFile path => do
      IO.eprintln (missingFileMessage path)
      return 1

end CommandLine

end OrderedChoice

def main (words : List String) : IO UInt32 := do
  let files ← (OrderedChoice.CommandLine.paths words).mapM fun path =>
    return (path, ← OrderedChoice.CommandLine.readFile? path)
  (OrderedChoice.CommandLine.run (fun path => (files.lookup path).join) words).print
