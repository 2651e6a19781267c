import LogProbe.CommandLine.Workspace

/-! The command line. What surrounds a run is described on standard input. -/
namespace LogProbe

def usage : String :=
  "Usage: loghaste insert FILE --at LINE:COL[..LINE:COL]... [OPTIONS]\n" ++
  "       loghaste delete PATH... [OPTIONS]\n" ++
  "\n" ++
  "Options:\n" ++
  "  --write                 change the files instead of printing them\n" ++
  "  --dry-run               print the planned changes\n" ++
  "  --tab-size N            width of an indentation level [4]\n" ++
  "  --use-tabs              indent with tabs\n" ++
  "  --language ID           language of the files\n" ++
  "  --format-cmd CMD        formatter to run on changed text\n" ++
  "  --format-arg ARG        argument of the formatter\n" ++
  "  --format-timeout TIME   time that the formatter may take [10s]\n"

def name : String := "loghaste"

def version : String := name ++ " 1.0.0"

/-- Prints what a run prints, writes the files that it saves, and ends as it does. -/
def deliver (o : Outcome) : IO UInt32 := do
  for (path, text) in o.saved do
    IO.FS.writeFile (String.ofList path.shown) (String.ofList text)
  IO.print (String.ofList o.output)
  IO.eprint (String.ofList o.messages)
  match o.ending with
  | .exit code => return UInt32.ofNat code
  | .crash => return 101
  | .endless =>
    repeat IO.sleep 1000
    return 1

def program (arguments : List String) : IO UInt32 := do
  let description ← (← IO.getStdin).readToEnd
  match Workspace.parse description.toList with
  | .error line =>
    IO.eprintln ("no record in line " ++ toString line)
    return 2
  | .ok w =>
    let arguments := arguments.map fun argument => Bytes.ofText argument.toList
    match runProgram (w.surroundings Workspace.idle) arguments with
    | .ok o => deliver o
    | .error .help =>
      IO.print usage
      return 0
    | .error .version =>
      IO.println version
      return 0
    | .error .wrong =>
      IO.eprint usage
      return 2

end LogProbe

def main (arguments : List String) : IO UInt32 := LogProbe.program arguments
