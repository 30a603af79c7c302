import SmallPascal.Interpreter

/-!
The command line of the interpreter: an optional file and the flag `--check`, in any order.
-/

namespace SmallPascal

inductive Source where
  | standardInput
  | file (path : String)
deriving DecidableEq

inductive Command where
  | help
  /-- The first argument that cannot stand where it does. -/
  | misuse (argument : String)
  | run (source : Source) (checkOnly : Bool)
deriving DecidableEq

structure Arguments where
  file? : Option String
  check : Bool

namespace Arguments

/-- The command of arguments that are all in order. A dash stands for standard input. -/
def command (arguments : Arguments) : Command :=
  match arguments.file? with
  | some path => .run (if path = "-" then .standardInput else .file path) arguments.check
  | none => .run .standardInput arguments.check

/-- Takes the rest of the arguments as files, of which only one is allowed. -/
def readFiles (arguments : Arguments) : List String → Command
  | [] => arguments.command
  | argument :: rest =>
    if arguments.file?.isSome then .misuse argument
    else { arguments with file? := some argument }.readFiles rest

/-- Takes the rest of the arguments, from left to right; the first one that asks for help or cannot
stand where it does decides. -/
def read (arguments : Arguments) : List String → Command
  | [] => arguments.command
  | argument :: rest =>
    if argument = "--" then arguments.readFiles rest
    else if argument = "--help" then .help
    else if argument = "--check" then
      if arguments.check then .misuse argument else { arguments with check := true }.read rest
    else
      match argument.toList with
      | '-' :: 'h' :: _ => .help
      | '-' :: _ :: _ => .misuse argument
      | _ =>
        if arguments.file?.isSome then .misuse argument
        else { arguments with file? := some argument }.read rest

end Arguments

/-- The command that a list of arguments gives. -/
def Command.ofArguments (arguments : List String) : Command :=
  Arguments.read ⟨none, false⟩ arguments

inductive Contents where
  | missing
  | unreadable (reason : String)
  | bytes (bytes : ByteArray)

/-- The text of a source, or the message why there is none. -/
def Source.text (source : Source) (contents : Contents) : Except String String :=
  match contents with
  | .missing =>
    match source with
    | .file path => .error ("Error: File '" ++ path ++ "' not found")
    | .standardInput => .ok ""
  | .unreadable reason => .error (failure ++ reason)
  | .bytes bytes =>
    match String.fromUTF8? bytes with
    | some text => .ok text
    | none => .error (failure ++ "stream did not contain valid UTF-8")
where
  failure : String :=
    match source with
    | .file path => "Error reading file '" ++ path ++ "': "
    | .standardInput => "Error reading standard input: "

structure Reaction where
  stdout : String
  stderr : String
  exit : UInt32

namespace Reaction

def joinLines (lines : Output) : String := String.join (lines.toList.map (· ++ "\n"))

/-- The reaction to something wrong with the program, with the lines written before. -/
def ofFault (lines : Output) (diagnostic : Diagnostic) : Reaction :=
  ⟨joinLines lines, "Error: " ++ diagnostic.text ++ "\n", 1⟩

def ofText (text : String) (checkOnly : Bool) (bound : Nat) : Reaction :=
  if checkOnly then
    match Program.ofText text with
    | .ok _ => ⟨"", "", 0⟩
    | .error diagnostic => ofFault #[] diagnostic
  else
    let report := interpret text bound
    match report.ending with
    | .finished _ _ => ⟨joinLines report.output, "", 0⟩
    | .failed diagnostic => ofFault report.output diagnostic
    | .outOfSteps => ⟨joinLines report.output, "Error: out of steps\n", 1⟩

/-- The reaction to a source with the given contents. -/
def ofContents (source : Source) (contents : Contents) (checkOnly : Bool) (bound : Nat) :
    Reaction :=
  match source.text contents with
  | .ok text => ofText text checkOnly bound
  | .error message => ⟨"", message ++ "\n", 1⟩

end Reaction

/-- The line that shows how the interpreter is called. -/
def usage : String := "Usage: minipas [OPTIONS] [FILE]\n"

def helpText : String :=
  "Interpreter for a small Pascal-like language\n\n" ++ usage ++ "\n"
    ++ "Arguments:\n"
    ++ "  [FILE]  The program to run; reads standard input when omitted or '-'\n\n"
    ++ "Options:\n"
    ++ "      --check  Parse and type-check the program without running it\n"
    ++ "  -h, --help   Print help\n"

/-- The reaction to a command, given what an attempt to read its source yields. -/
def Command.react (command : Command) (contents : Source → Contents) (bound : Nat) : Reaction :=
  match command with
  | .help => ⟨helpText, "", 0⟩
  | .misuse argument =>
    ⟨"", "error: unexpected argument '" ++ argument ++ "' found\n\n" ++ usage, 2⟩
  | .run source checkOnly => .ofContents source (contents source) checkOnly bound

end SmallPascal
