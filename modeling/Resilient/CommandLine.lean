import Resilient.Expression.Reader
import Resilient.Json.Reader

/-!
# The command line

`Request.ofArguments` understands the arguments, and `Settings.perform` answers a text: on standard
output the value or the tree, on standard error a line for each report. Reading the text is left to
the program itself; a text that cannot be read is answered by `unreadable`.
-/

namespace Resilient

namespace CommandLine

/-- The language of the input. -/
inductive Language where
  | json
  | expression
  deriving DecidableEq

/-- The language of a name, as it is written behind `--mode`. -/
def Language.ofName? : String → Option Language
  | "json" => some json
  | "expr" | "expression" => some expression
  | _ => none

/-- What is asked for. -/
structure Settings where
  /-- The path of the input; without one, standard input is read. -/
  path : Option String
  language : Option Language
  /-- Comments are accepted. -/
  comments : Bool
  /-- Anything behind a JSON value is ignored. -/
  allowTrailing : Bool
  deriving DecidableEq

/-- Nothing in particular is asked for. -/
def Settings.standard : Settings := ⟨none, none, false, false⟩

/-- What the arguments ask the program to do. -/
inductive Request where
  | read (settings : Settings)
  | version
  | help
  /-- The arguments make no sense. -/
  | misuse
  deriving DecidableEq

/-- A file name among the arguments. -/
def Settings.withPath? (s : Settings) (path : String) : Option Settings :=
  if s.path.isSome || path.isEmpty then none else some { s with path := some path }

/-- A language among the arguments. -/
def Settings.withLanguage? (s : Settings) (name : String) : Option Settings :=
  if s.language.isSome then none
  else (Language.ofName? name).map fun l => { s with language := some l }

/-- A switch among the arguments; each may be given once. -/
def Settings.withSwitch? (s : Settings) : String → Option Settings
  | "--comments" => if s.comments then none else some { s with comments := true }
  | "--allow-trailing" => if s.allowTrailing then none else some { s with allowTrailing := true }
  | _ => none

/-- What a single argument is by its looks. -/
inductive Argument where
  /-- Only paths follow. -/
  | separator
  /-- The language option with its value, or with the value in the next argument. -/
  | language (value : Option String)
  | version
  | help
  /-- Any other argument that begins with a dash. -/
  | switch (name : String)
  | path (name : String)
  deriving DecidableEq

/-- What an argument is by its looks. -/
def Argument.ofText (text : String) : Argument :=
  match text.toList with
  | ['-', '-'] => separator
  | '-' :: '-' :: rest =>
    match rest.takeWhile (· ≠ '='), rest.dropWhile (· ≠ '=') with
    | ['m', 'o', 'd', 'e'], [] => language none
    | ['m', 'o', 'd', 'e'], _ :: value => language (some (String.ofList value))
    | ['v', 'e', 'r', 's', 'i', 'o', 'n'], [] => version
    | ['h', 'e', 'l', 'p'], [] => help
    | _, _ => switch text
  | '-' :: 'm' :: rest =>
    match rest with
    | [] => language none
    | '=' :: value => language (some (String.ofList value))
    | value => language (some (String.ofList value))
  | '-' :: 'V' :: _ => version
  | '-' :: 'h' :: _ => help
  | ['-'] => path text
  | '-' :: _ => switch text
  | _ => path text

/-- Does an argument look like an option, so that it is no value of the option before it? -/
def Argument.isOption : Argument → Bool
  | path _ => false
  | _ => true

/-- The request of the arguments left, of which all are paths behind a separator. -/
def Request.ofPaths (s : Settings) : List String → Request
  | [] => read s
  | text :: texts =>
    match s.withPath? text with
    | some s => ofPaths s texts
    | none => misuse

/-- The request of the arguments left; the first one that asks for the version or for help, or that
makes no sense, decides. -/
def Request.ofArgumentsFrom (s : Settings) : List String → Request
  | [] => read s
  | text :: texts =>
    match Argument.ofText text with
    | .separator => ofPaths s texts
    | .version => version
    | .help => help
    | .path name =>
      match s.withPath? name with
      | some s => ofArgumentsFrom s texts
      | none => misuse
    | .switch name =>
      match s.withSwitch? name with
      | some s => ofArgumentsFrom s texts
      | none => misuse
    | .language (some name) =>
      match s.withLanguage? name with
      | some s => ofArgumentsFrom s texts
      | none => misuse
    | .language none =>
      match texts with
      | [] => misuse
      | name :: texts =>
        if (Argument.ofText name).isOption then misuse
        else match s.withLanguage? name with
          | some s => ofArgumentsFrom s texts
          | none => misuse

/-- What the arguments ask for. -/
def Request.ofArguments (texts : List String) : Request := ofArgumentsFrom .standard texts

/-- What the program answers. -/
structure Response where
  code : Nat
  output : String
  errors : String
  deriving DecidableEq

/-- The answer on a result and the reports on it. -/
def Response.ofResult (result : String) (reports : List Diagnostic) : Response where
  code := if reports.isEmpty then 0 else 1
  output := result ++ "\n"
  errors := String.join (reports.map (·.line ++ "\n"))

/-- The answer on a text. -/
def Settings.perform (s : Settings) (source : String) : Response :=
  match s.language.getD .json with
  | .json =>
    let options := (Json.Options.standard.withComments s.comments).withWhole !s.allowTrailing
    let (v, reports) := Json.parse source options
    .ofResult v.outline.block reports
  | .expression =>
    let options := Expression.Options.standard.withComments s.comments
    let (n, reports) := Expression.parse source options
    .ofResult n.toText reports

/-- Why a text could not be read. -/
inductive Obstacle where
  | notFound
  | directory
  | forbidden
  | notText
  | other (message : String)
  deriving DecidableEq

/-- The cause as the operating system names it. -/
def Obstacle.message : Obstacle → String
  | notFound => "No such file or directory (os error 2)"
  | directory => "Is a directory (os error 21)"
  | forbidden => "Permission denied (os error 13)"
  | notText => "stream did not contain valid UTF-8"
  | other message => message

/-- The answer if the text could not be read. -/
def unreadable (path : Option String) (obstacle : Obstacle) : Response where
  code := 1
  output := ""
  errors :=
    let what := match path with
      | some path => "input file " ++ path
      | none => "stdin"
    "Error: failed to read " ++ what ++ "\n\nCaused by:\n    " ++ obstacle.message ++ "\n"

/-- The name and the version of the program. -/
def versionText : String := "descent 0.1.0\n"

/-- How the program is called. -/
def usageText : String :=
  "Parse JSON values or calculator expressions and report every problem found\n\n"
    ++ "Usage: descent [OPTIONS] [INPUT]\n\n"
    ++ "Arguments:\n  [INPUT]  Input file (defaults to stdin)\n\n"
    ++ "Options:\n"
    ++ "  -m, --mode <MODE>     Language of the input [default: json] "
    ++ "[possible values: json, expr]\n"
    ++ "      --comments        Accept comments\n"
    ++ "      --allow-trailing  Ignore anything after the first JSON value\n"
    ++ "  -h, --help            Print help\n"
    ++ "  -V, --version         Print version\n"

/-- The answer to a request once the input was read, or could not be. -/
def Request.respond (request : Request) (input : Except Obstacle String) : Response :=
  match request with
  | version => ⟨0, versionText, ""⟩
  | help => ⟨0, usageText, ""⟩
  | misuse => ⟨2, "", usageText⟩
  | read s =>
    match input with
    | .ok source => s.perform source
    | .error obstacle => unreadable s.path obstacle

end CommandLine

end Resilient
