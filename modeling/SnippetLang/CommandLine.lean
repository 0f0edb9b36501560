import SnippetLang.Snippet.Evaluation

/-!
# The command line

What the program answers to its arguments, as a function of them, of the file they name, and of the
console.  A request is read off the arguments first; a request that needs a file then either has an
answer at once or starts a run.  The run can be taken to its end here, or step by step by whoever
shows its output and feeds it input meanwhile.
-/

namespace SnippetLang.CommandLine

/-! ### Requests -/

/-- What can be done with a source. -/
inductive Task where
  | run (backend : Backend)
  | tree (lowered : Bool)
  | listing
deriving DecidableEq

/-- What the arguments ask for. -/
inductive Request where
  | usage
  | version
  | onFile (path : String) (task : Task)
  | missingPath (command : String)
  | unknown (command : String)
deriving DecidableEq

/-- Splits a path at its slashes. -/
def components (current : List Char) : List Char → List (List Char)
  | [] => [current.reverse]
  | c :: cs =>
    if c = '/' then current.reverse :: components [] cs else components (c :: current) cs

/-- The last component of a path that names something, if that is a name. -/
def fileName? (path : String) : Option (List Char) :=
  match ((components [] path.toList).filter fun c => c != [] && c != ['.']).getLast? with
  | some ['.', '.'] => none
  | name => name

/-- What stands behind the last dot of a file name, unless that dot begins the name. -/
def extension? (path : String) : Option (List Char) :=
  match fileName? path with
  | none => none
  | some name =>
    let back := name.reverse
    match back.dropWhile (· != '.') with
    | _ :: _ :: _ => some (back.takeWhile (· != '.')).reverse
    | _ => none

/-- Whether a path is that of a source, by its extension. -/
def isSourcePath (path : String) : Bool :=
  (extension? path).map (·.map Routine.smallLetter) == some ['k', 'n']

/-- The request for a task on the first argument that is no option. -/
def fileRequest (command : String) (rest : List String) (task : Task) : Request :=
  match rest.find? fun arg => arg.toList.head? != some '-' with
  | some path => .onFile path task
  | none => .missingPath command

/-- The request that the arguments make. -/
def Request.ofArgs : List String → Request
  | [] => usage
  | command :: rest =>
    if command = "run" then
      let compiled := rest.contains "--compiled" || rest.contains "-c"
      fileRequest command rest (.run (if compiled then .compiled else .treeWalk))
    else if command = "tree" then
      fileRequest command rest (.tree (rest.contains "--lowered"))
    else if command = "il" then
      fileRequest command rest .listing
    else if ["help", "--help", "-h"].contains command then
      usage
    else if ["version", "--version", "-v"].contains command then
      version
    else if isSourcePath command then
      onFile command (.run .treeWalk)
    else
      unknown command

/-- The file that a request needs. -/
def Request.path? : Request → Option String
  | onFile path _ => some path
  | _ => none

/-! ### Files -/

/-- What reading a file came to. -/
inductive FileText where
  | text (s : String)
  | missing
  | denied
  | undecodable
  | failed (reason : String)
deriving DecidableEq

/-- The text of a file with these bytes. -/
def FileText.ofBytes (bytes : ByteArray) : FileText :=
  match String.fromUTF8? bytes with
  | some s => text s
  | none => undecodable

/-- The text of a file, or in words why there is none. -/
def FileText.read (path : String) : FileText → Except String String
  | text s => .ok s
  | missing => .error s!"cannot find file '{path}'"
  | denied => .error s!"permission denied reading '{path}'"
  | undecodable => .error s!"'{path}' contains invalid UTF-8 data"
  | failed reason => .error s!"error reading '{path}': {reason}"

/-! ### Answers -/

/-- The answer to a request. -/
structure Response where
  status : UInt32
  output : String
  errors : String
deriving DecidableEq

/-- A successful answer. -/
def Response.success (output : String) : Response := ⟨0, output, ""⟩

/-- An unsuccessful answer, its message on a line of its own. -/
def Response.failure (message : String) : Response := ⟨1, "", message ++ "\n"⟩

/-- How the program is used. -/
def usageText : String :=
  String.join (
    ["Kiln",
     "",
     "Usage: kiln <command> [options]",
     "",
     "Commands:",
     "  run <file.kn>        Run a Kiln program",
     "  tree <file.kn>       Print the bound tree",
     "  il <file.kn>         Print the compiled routine's disassembly",
     "  help                 Show this help message",
     "  version              Show version information",
     "",
     "Run options:",
     "  --compiled, -c       Run through the compiled backend",
     "",
     "Tree options:",
     "  --lowered            Print the tree after lowering",
     "",
     "Environment:",
     "  RUST_LOG             Tracing filter, e.g. RUST_LOG=kiln_emit=trace"].map (· ++ "\n"))

/-- The answer that a snippet has issues. -/
def rejection (path source : String) (issues : List Issue) : Response :=
  let rendered := issues.map fun issue => issue.diagnostic.render path source ++ "\n"
  let plural := if issues.length = 1 then "" else "s"
  ⟨1, "", String.join rendered ++
    s!"error: aborting due to {issues.length} previous error{plural}\n"⟩

/-- The answer to a run that ended. -/
def ofOutcome (path : String) : Outcome → Response
  | .ok v store =>
    .success (store.console.output ++ (if v = .void then "" else v.text ++ "\n"))
  | .error e store =>
    ⟨1, store.console.output, s!"runtime error in '{path}': {e.message}\n"⟩

/-- What a request leads to. -/
inductive Reaction where
  | respond (r : Response)
  | execute (path : String) (run : Execution)

/-- What a task on a source leads to, from empty bindings. -/
def perform (task : Task) (path source : String) (console : Console) : Reaction :=
  let snippet := Snippet.first source
  if snippet.issues.isEmpty then
    match task with
    | .tree lowered => .respond (.success (snippet.treeText lowered))
    | .listing =>
      match snippet.method with
      | .ok m => .respond (.success m.text)
      | .error e => .respond (.failure s!"internal compiler error: {e.message}")
    | .run backend =>
      match snippet.execution backend ⟨.empty, console⟩ with
      | .ok run => .execute path run
      | .error e => .respond (.failure s!"runtime error in '{path}': {e.message}")
  else
    .respond (rejection path source snippet.issues)

/-- What a request leads to; `file` is what reading the file that it needs came to. -/
def react (request : Request) (file : FileText) (console : Console) : Reaction :=
  match request with
  | .usage => .respond (.success usageText)
  | .version => .respond (.success "Kiln 0.1.0-alpha.1\n")
  | .missingPath command =>
    .respond (.failure s!"error: missing file path\nUsage: kiln {command} <file.kn>")
  | .unknown command => .respond ⟨1, usageText, s!"Unknown command: {command}\n\n"⟩
  | .onFile path task =>
    match file.read path with
    | .ok source => perform task path source console
    | .error message => .respond (.failure message)

/-- The answer to the arguments; a run is given up after a number of steps. -/
def respond (args : List String) (files : String → FileText) (console : Console) (steps : Nat) :
    Option Response :=
  let request := Request.ofArgs args
  let file := (request.path?.map files).getD .missing
  match react request file console with
  | .respond r => some r
  | .execute path run => (runFor Execution.step steps run).map (ofOutcome path)

end SnippetLang.CommandLine
