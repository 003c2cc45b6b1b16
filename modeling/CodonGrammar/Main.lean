import CodonGrammar.CommandLine.Execution

/-!
# The program

The outer layer: it looks up the environment, reads the files that an invocation is about, runs the
program on them, and writes what comes out of that.
-/

namespace CodonGrammar

/-- The generator of random numbers, whose numbers are spread evenly over a range. -/
def generatorSource : RandomSource StdGen := fun lower upper generator =>
  let (drawn, generator) := randNat generator 0 (upper - lower - 1).toNat
  (lower + drawn, generator)

def variableNames : List String :=
  ["CFGEVO_LIMIT", "CFGEVO_CODON_COUNT", "CFGEVO_CODON_MAX", "LOG_LEVEL", "LOG_FILE", "NO_COLOR",
    "COLUMNS"]

def currentEnvironment : IO Environment := do
  let entries ← variableNames.filterMapM fun name => do
    return (← IO.getEnv name).map fun text => (name, text)
  return ⟨entries⟩

/-- The error for a system's number and text, where the number may be negated. -/
def fileErrorOf (number : UInt32) (text : String) : CommandLine.FileError :=
  let number := if number.toNat < 0x80000000 then number.toNat else 0x100000000 - number.toNat
  let known : List CommandLine.FileError := [.missing, .notAFolder, .folder, .nameTooLong]
  (known.find? (·.number = number)).getD ⟨number, text⟩

def contentOf (path : String) : IO (Except CommandLine.FileError (List UInt8)) := do
  try
    return .ok (← IO.FS.readBinFile path).toList
  catch
    | .noFileOrDirectory _ number text => return .error (fileErrorOf number text)
    | .inappropriateType _ number text => return .error (fileErrorOf number text)
    | .permissionDenied _ number text => return .error (fileErrorOf number text)
    | .invalidArgument _ number text => return .error (fileErrorOf number text)
    | error => return .error ⟨0, error.toString⟩

def pathsOf (arguments : List String) : List String :=
  CommandLine.usualSettingsFile ::
    match CommandLine.read arguments with
    | .ok invocation => [CommandLine.plainPath invocation.file]
    | .error _ => []

/-- What a file holds once lines were written to its end, if it is the log file. -/
def contentAfter (content : Except CommandLine.FileError (List UInt8))
    (logFile logLines path : String) : Except CommandLine.FileError (List UInt8) :=
  if CommandLine.plainPath logFile = path ∧ logLines ≠ "" then
    match content with
    | .ok bytes => .ok (bytes ++ logLines.toUTF8.toList)
    | .error error => if error = .missing then .ok logLines.toUTF8.toList else .error error
  else content

def usage : String :=
  "usage: cfgevo [-h] [-env MODE] show GRAMMAR\n" ++
  "       cfgevo [-h] [-env MODE] derive GRAMMAR --codons CODONS [--limit LIMIT] [--tree]\n" ++
  "              [--expansion left-to-right|left-most]\n" ++
  "       cfgevo [-h] [-env MODE] sample GRAMMAR [--count COUNT] [--seed SEED]\n" ++
  "              [--codon-count COUNT] [--limit LIMIT]\n"

/-- Writes lines to the end of the log file, if there are any. -/
def writeLog (logFile logLines : String) : IO Unit := do
  if !logLines.isEmpty then
    IO.FS.withFile logFile .append fun handle => handle.putStr logLines

def report : CommandLine.Ending → IO UInt32
  | .aborted (.settings faults) => do
    for fault in faults do
      IO.eprintln (fault.field ++ ": " ++ fault.error.message)
    return 1
  | .aborted (.settingsFile error) => do
    IO.eprintln error.message
    return 1
  | .aborted (.level error) => do
    IO.eprintln error.message
    return 1
  | .broken output logFile logLines => do
    writeLog logFile logLines
    IO.print output
    IO.eprintln (CommandLine.Failure.message "" .noNumber)
    return 1
  | .ended status output logFile logLines => do
    writeLog logFile logLines
    IO.print output
    return status.toUInt32

def runProgram (arguments : List String) : IO UInt32 := do
  let environment ← currentEnvironment
  let contents ← (pathsOf arguments).mapM fun path => do return (path, ← contentOf path)
  let toTerminal ← (← IO.getStdout).isTty
  let chance ← IO.rand 0 0x3FFFFFFF
  let surroundings : CommandLine.Surroundings StdGen :=
    ⟨environment, ⟨Display.wantsColour (environment.get? "NO_COLOR") toTerminal⟩,
      fun logFile logLines path =>
        contentAfter ((contents.lookup path).getD (.error .missing)) logFile logLines path,
      generatorSource,
      fun seed => mkStdGen ((seed.map Int.natAbs).getD chance)⟩
  match CommandLine.read arguments with
  | .error .help => IO.print usage
  | .error .refused => IO.eprint usage
  | .ok _ => pure ()
  report (CommandLine.run surroundings arguments)

end CodonGrammar

/-- The entry of the program. -/
def main (arguments : List String) : IO UInt32 := CodonGrammar.runProgram arguments
