/-!
# Options of the command

The options, the words by which they are given, and the help text for them.
-/

set_option autoImplicit false

namespace SqlMigration.CommandLine

inductive Opt where
  | help
  | verbose
  | config
  | input
  | output
  | macros
  | mapping
  deriving DecidableEq, Repr

namespace Opt

def all : List Opt := [.help, .verbose, .config, .input, .output, .macros, .mapping]

def words : Opt → List String
  | .help => ["-h", "--help"]
  | .verbose => ["--verbose"]
  | .config => ["--config"]
  | .input => ["--input"]
  | .output => ["--output"]
  | .macros => ["-m", "--macros"]
  | .mapping => ["-o", "--object_name_mapping"]

def name (o : Opt) : String := "/".intercalate o.words

def takesValue : Opt → Bool
  | .help | .verbose => false
  | _ => true

def default? : Opt → Option String
  | .config => some "client/config.yaml"
  | .input => some "client/input"
  | .output => some "client/output"
  | _ => none

def placeholder : Opt → String
  | .config => " CONFIG"
  | .input => " INPUT"
  | .output => " OUTPUT"
  | .macros => " MACROS"
  | .mapping => " OBJECT_NAME_MAPPING"
  | _ => ""

def explanation : Opt → List String
  | .help => ["show this help message and exit"]
  | .verbose => ["Increase output verbosity"]
  | .config => ["Path to the config.yaml file. (default:", "client/config.yaml)"]
  | .input => ["Path to the input_directory. (default: client/input)"]
  | .output => ["Path to the output_directory. (default: client/output)"]
  | .macros =>
    [ "Path to the macro map yaml file. If specified, the",
      "program will pre-process all the input query files by",
      "replacing the macros with corresponding string values",
      "according to the macro map definition. After",
      "translation, the program will revert the substitutions",
      "for all the output query files in a post-processing",
      "step. The replacement does not apply for files with",
      "extension of .zip, .csv, .json." ]
  | .mapping =>
    [ "Path to the object name mapping json file. Name",
      "mapping lets you identify the names of SQL objects in",
      "your source files, and specify target names for those",
      "objects in BigQuery. More info please see",
      "https://cloud.google.com/bigquery/docs/output-name-",
      "mapping." ]

end Opt

def wordTable : List (String × Opt) := Opt.all.flatMap (fun o => o.words.map (fun w => (w, o)))

def lookup? (word : String) : Option Opt := wordTable.lookup word

namespace Help

def blanks (n : Nat) : String := String.ofList (List.replicate n ' ')

/-- Fills lines with parts, each as full as the width allows; `used` columns of the line are taken. -/
def fill (width indent : Nat) : Nat → List String → List String → List String
  | _, line, [] => if line.isEmpty then [] else [" ".intercalate line.reverse]
  | used, line, part :: rest =>
    if width < used + 1 + part.length && !line.isEmpty then
      " ".intercalate line.reverse :: fill width indent (indent - 1 + part.length + 1) [part] rest
    else fill width indent (used + part.length + 1) (part :: line) rest

def width : Nat := 78

def usage (program : String) : String :=
  let parts := Opt.all.map (fun o => "[" ++ o.words.headD "" ++ o.placeholder ++ "]")
  let lead := "usage: "
  let indent := lead.length + program.length + 1
  let lines := fill width indent (lead.length - 1) [] (program :: parts)
  lead ++ ("\n" ++ blanks indent).intercalate lines ++ "\n"

def column : Nat := 24

def entry (o : Opt) : String :=
  let head := "  " ++ ", ".intercalate (o.words.map (fun w => w ++ o.placeholder))
  let start :=
    if head.length + 2 ≤ column then head ++ blanks (column - head.length)
    else head ++ "\n" ++ blanks column
  start ++ ("\n" ++ blanks column).intercalate o.explanation ++ "\n"

def text (program : String) : String :=
  usage program ++ "\nConfig the Batch Sql translation tool.\n\noptions:\n"
    ++ "".intercalate (Opt.all.map entry)

end Help

end SqlMigration.CommandLine
