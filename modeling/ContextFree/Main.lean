import ContextFree.CommandLine.Run

/-!
# The program

The outer layer of the command line: it fetches the arguments, the input and the level of the log,
and prints the outcome.
-/

namespace ContextFree.CommandLine

/-- The reason in a failure of the system.  Its code may come with either sign. -/
def InputFault.ofSystem : IO.Error → InputFault
  | .noFileOrDirectory .. => .noSuchFile
  | .inappropriateType _ code _ =>
    if code = 20 ∨ 0 - code = 20 then .notDirectory else .isDirectory
  | .invalidArgument _ code _ =>
    if code = 36 ∨ 0 - code = 36 then .nameTooLong else .other "Invalid argument (os error 22)"
  | .permissionDenied .. => .other "Permission denied (os error 13)"
  | failure => .other (toString failure)

/-- All bytes of a file, or of standard input. -/
def fetchInput (path? : Option String) : IO (Except InputFault ByteArray) := do
  try
    match path? with
    | some path => return .ok (← IO.FS.readBinFile path)
    | none => return .ok (← (← IO.getStdin).readBinToEnd)
  catch failure =>
    return .error (.ofSystem failure)

end ContextFree.CommandLine

open ContextFree.CommandLine in
/-- Runs the command line on the real input and prints what it gives. -/
def main (arguments : List String) : IO UInt32 := do
  let level? := logLevel? (← IO.getEnv "RUST_LOG")
  let input ← match Request.ofArguments arguments with
    | .help => pure (.ok .empty)
    | .job job => fetchInput job.path?
  let outcome := run arguments level? (fun _ ↦ input) { place? := ContextFree.Json.place? }
  IO.print outcome.stdout
  IO.eprint outcome.stderr
  return outcome.exitCode.toUInt32
