import Scriptwright.Build
import Scriptwright.Command.Arguments
import Scriptwright.Command.Report

/-!
# The command

One run of the command. Its target is a directory, a file, or the standard input if
there is none. It compiles the target, or only checks it, and ends with an exit code,
the text for the standard output and, if it fails, a report.
-/

namespace Scriptwright.Command

/-- The result of a run. Events are shown from `level` on. -/
structure Outcome where
  exit : Nat
  output : String
  level : Level
  report : String

/-- All that goes to the standard error. -/
def Outcome.errors (o : Outcome) (events : List Event) : String :=
  String.join (events.map (Event.render o.level)) ++ o.report

def versionText : String := "niv-cli 0.1.0\n"

def helpText : String := String.join
  ["Command-line driver that compiles nivlang sources to JavaScript\n",
    "\n",
    "Usage: niv-cli [OPTIONS] [TARGET]\n",
    "\n",
    "Arguments:\n",
    "  [TARGET]  Source file or directory. Reads stdin when omitted\n",
    "\n",
    "Options:\n",
    "  -o, --output <PATH>      Output path for a single file or stdin (`-` writes to stdout)\n",
    "  -r, --recursive          Descend into subdirectories of a directory target\n",
    "      --check              Only parse and report diagnostics, write nothing\n",
    "      --log-level <LEVEL>  [default: warn] ",
    "[possible values: error, warn, info, debug, trace]\n",
    "  -h, --help               Print help\n",
    "  -V, --version            Print version\n"]

def usageText : String :=
  "error: invalid arguments\n\nUsage: niv-cli [OPTIONS] [TARGET]\n\n" ++
    "For more information, try '--help'.\n"

/-- The output path that stands for the standard output. -/
def standardOutput : String := "-"

/-- The name of the standard input in errors. -/
def inputName : String := "<stdin>"

section
variable {m : Type → Type} [Monad m] [Host m]

/-- Delivers a generated text to the given path. The result goes to the standard output. -/
def deliver (output text : String) : ExceptT Report m String := do
  if output = standardOutput then return text
  (Build.writeOutput (Path.ofString output) text).adapt
    (.whileDoing ("failed to write output file " ++ output))
  Host.tell (m := m) (.wrote output)
  return ""

/-- Tells what is wrong with each of the named texts, and counts the faults. -/
def diagnose : List (String × String) → m Nat
  | [] => return 0
  | (name, text) :: texts => do
    let diagnostics := check text name
    Build.tellAll (SourceFile.programEvents ⟨0, name, text⟩)
    Build.tellAll (diagnostics.map fun d => .diagnosed (d.render name))
    return diagnostics.length + (← diagnose texts)

/-- Checks named texts and fails if there is a fault in any of them. -/
def checkTexts (texts : List (String × String)) : ExceptT Report m String := do
  let faults ← diagnose (m := m) texts
  if 0 < faults then throw (.plain ("check found " ++ Nat.repr faults ++ " error(s)"))
  Host.tell (m := m) (.checked texts.length)
  return ""

def readSource (p : Path) : ExceptT Report m String :=
  (Build.readText p).adapt (.ofFault ("failed to read input file " ++ p.text))

/-- Reads all sources before any of them is checked. -/
def readSources : List Path → ExceptT Report m (List (String × String))
  | [] => return []
  | p :: ps => do
    let text ← readSource p
    return (p.text, text) :: (← readSources ps)

def checkDirectory (root : Path) (recursive : Bool) : ExceptT Report m String := do
  checkTexts (← readSources (← (Build.discover root recursive).adapt .ofError))

def compileDirectory (root : Path) (recursive : Bool) : ExceptT Report m String := do
  let compiled ← (Build.compileDirectory root recursive).adapt
    (.whileDoing ("failed to compile directory " ++ root.text))
  Build.tellAll (m := m) (compiled.map fun pair => .wroteSibling pair.2)
  Host.tell (m := m) (.compiledDirectory compiled.length)
  return ""

def runDirectory (o : Options) (root : Path) : ExceptT Report m String := do
  if o.output.isSome then throw (.plain "--output cannot be used with a directory target")
  if o.check then checkDirectory root o.recursive else compileDirectory root o.recursive

def runFile (o : Options) (p : Path) : ExceptT Report m String := do
  if !o.check && o.output.isNone && !p.isSource then
    throw (.plain (p.text ++ " is not a ." ++ Path.sourceExtension.shown ++
      " file; pass --output to choose where the JavaScript goes"))
  let text ← readSource p
  if o.check then checkTexts [(p.text, text)]
  else
    let generated ← (Build.compileText text p.text).adapt
      (.whileDoing ("failed to compile " ++ p.text))
    deliver (o.output.getD p.output.text) generated

def runInput (o : Options) : ExceptT Report m String := do
  let text ← Build.readInput.adapt (.ofFault "failed to read stdin")
  if o.check then checkTexts [(inputName, text)]
  else
    let generated ← (Build.compileText text inputName).adapt
      (.whileDoing "failed to compile stdin")
    deliver (o.output.getD standardOutput) generated

def runOptions (o : Options) : ExceptT Report m String := do
  match o.target.map Path.ofBytes with
  | none => runInput o
  | some p => if ← Host.isDirectory (m := m) p then runDirectory o p else runFile o p

/-- Does what the words of a command line ask for. -/
def run (words : List Bytes) : m Outcome := do
  match readArguments words with
  | none => return ⟨2, "", .warn, usageText⟩
  | some .help => return ⟨0, helpText, .warn, ""⟩
  | some .version => return ⟨0, versionText, .warn, ""⟩
  | some (.run o) =>
    match ← (runOptions o).run with
    | .ok output => return ⟨0, output, o.logLevel, ""⟩
    | .error report => return ⟨1, "", o.logLevel, report.render⟩

end

end Scriptwright.Command
