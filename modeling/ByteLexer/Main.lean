import ByteLexer.Cli.Run

/-! # The command line

    Reads the arguments and the file they name, runs the invocation, writes what it
    writes and exits with its code.
-/

namespace ByteLexer.Cli

/-- The number of an error of the system; some functions report it negated. -/
def systemCode (code : UInt32) : UInt32 :=
  if code ≥ 0x80000000 then 0 - code else code

/-- What an error of the system means for reading a file. -/
def FileError.ofSystem : IO.Error → FileError
  | .noFileOrDirectory .. => .notFound
  | .permissionDenied .. => .permissionDenied
  | .inappropriateType _ code _ =>
    if systemCode code = 20 then .notDirectory else .isDirectory
  | .invalidArgument _ code details =>
    if systemCode code = 36 then .nameTooLong else .other details
  | e => .other (toString e)

/-- The bytes of a file. -/
def readBytes (file : String) : IO (Except FileError (List UInt8)) := do
  try
    return .ok (← IO.FS.readBinFile file).toList
  catch e =>
    return .error (FileError.ofSystem e)

/-- The bytes of the file that a command reads. -/
def Command.content : Command → IO (Except FileError (List UInt8))
  | .tokens file => readBytes file
  | .drawing _ => return .ok []

/-- What is said to those who ask for information or need it. -/
def usage : String :=
  "usage: bytelexer [-v]... tokens FILE\n       bytelexer [-v]... table [--nfa]\n"

end ByteLexer.Cli

open ByteLexer Cli in
/-- Runs the program. -/
def main (args : List String) : IO UInt32 := do
  match parse {} args with
  | .error r =>
    if r.exitCode = 0 then IO.print usage else IO.eprint usage
    return r.exitCode.toUInt32
  | .ok i =>
    let content ← i.command.content
    let outcome := run (fun _ => content) i
    IO.print outcome.output
    IO.eprint outcome.errors
    return outcome.exitCode.toUInt32
