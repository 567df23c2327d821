import SqlMigration.CommandLine.Opt
import SqlMigration.CommandLine.PathCheck
import SqlMigration.Job.Given
import SqlMigration.Text.Digit

/-!
# Reading the command line

Long options may be shortened as long as they stay unique, a value may follow in
the next word or after an equals sign, and the one-letter options may be written
together. Values are checked as the options are met, from left to right; the
defaults of the options that were not given are checked after that. A double dash
that belongs to an option is no value and leaves the option blank.
-/

set_option autoImplicit false

namespace SqlMigration.CommandLine

structure Arguments where
  verbose : Bool
  config : Given
  input : Given
  output : Given
  macros : Option Given
  mapping : Option Given
  deriving DecidableEq, Repr

inductive Word where
  | plain
  | known (o : Opt) (short : Bool) (value : Option String)
  | unknown
  | ambiguous (candidates : List String)
  deriving DecidableEq, Repr

def isDash (c : Char) : Bool := c = '-'

def isDigit (c : Char) : Bool := (digitValue? c).isSome

/-- A negative number is an ordinary word, also with a line feed at its end. -/
def isNegativeNumber (s : List Char) : Bool :=
  match if s.getLast? = some '\n' then s.dropLast else s with
  | '-' :: rest =>
    let whole := rest.takeWhile isDigit
    match rest.drop whole.length with
    | [] => !whole.isEmpty
    | '.' :: fraction => !fraction.isEmpty && fraction.all isDigit
    | _ => false
  | _ => false

def isShort (word : String) : Bool := !(word.toList[1]?.any isDash)

def splitEquals (s : List Char) : List Char × Option (List Char) :=
  let before := s.takeWhile (· ≠ '=')
  match s.drop before.length with
  | [] => (before, none)
  | _ :: after => (before, some after)

def choose (s : List Char) : List Word → List String → Word
  | [w], _ => w
  | _ :: _ :: _, names => .ambiguous names
  | [], _ => if isNegativeNumber s ∨ ' ' ∈ s then .plain else .unknown

/-- A word that starts with a dash and is no option as it stands. -/
def classifyDashed (s : List Char) : Word :=
  let (before, after) := splitEquals s
  match after, lookup? (String.ofList before) with
  | some v, some o => .known o (isShort (String.ofList before)) (some (String.ofList v))
  | _, _ =>
    if s[1]? = some '-' then
      let fits := wordTable.filter (fun w => before.isPrefixOf w.1.toList)
      choose s (fits.map (fun w => .known w.2 false (after.map String.ofList)))
        (fits.map (·.1))
    else
      let exact := wordTable.filter (fun w => w.1.toList = s.take 2)
      choose s (exact.map (fun w => .known w.2 true (some (String.ofList (s.drop 2)))))
        (exact.map (·.1))

def classify (word : String) : Word :=
  let s := word.toList
  if s.head? ≠ some '-' then .plain
  else
    match lookup? word with
    | some o => .known o (isShort word) none
    | none => if s.length = 1 then .plain else classifyDashed s

/-- The words with what they are; after a double dash all words are plain. -/
def classifyAll : List String → List (String × Word)
  | [] => []
  | w :: ws =>
    if w = "--" then (w, .unknown) :: ws.map (fun x => (x, .plain))
    else (w, classify w) :: classifyAll ws

structure Progress where
  verbose : Bool
  values : List (Opt × Given)
  extras : List String

inductive Fault where
  | option (o : Opt) (message : String)
  | ambiguous (word : String) (candidates : List String)
  | unrecognized (words : List String)
  deriving DecidableEq, Repr

def Fault.message : Fault → String
  | .option o message => "argument " ++ o.name ++ ": " ++ message
  | .ambiguous word candidates =>
    "ambiguous option: " ++ word ++ " could match " ++ ", ".intercalate candidates
  | .unrecognized words => "unrecognized arguments: " ++ " ".intercalate words

def reject {α : Type} (program : String) (f : Fault) : Run α :=
  throw (.exit ⟨some 2, "", Help.usage program ++ program ++ ": error: " ++ f.message ++ "\n"⟩)

def showHelp {α : Type} (program : String) : Run α :=
  throw (.exit ⟨some 0, Help.text program, ""⟩)

def check (o : Opt) (given : String) : Run String :=
  match o with
  | .input => PathCheck.directory given
  | .output => PathCheck.free true given
  | _ => PathCheck.file given

/-- Checks the value of an option; a complaint about the path becomes one about the option. A double
dash is taken out and leaves nothing to check. -/
def convert (program : String) (o : Opt) (given : String) : Run Given :=
  if given = "--" then return .blank
  else
    tryCatch (return .path (← check o given)) (fun stop =>
      match stop with
      | .failure (.path c) => reject program (.option o c.message)
      | _ => throw stop)

inductive Deed where
  | help
  | verbose
  | value (o : Opt) (given : String)
  deriving DecidableEq, Repr

structure Reading where
  deed : Deed
  taken : Nat

def ignored (o : Opt) (value : String) : Fault :=
  .option o ("ignored explicit argument " ++ Quoted.text value)

def nextValue (o : Opt) (rest : List (String × Word)) : Except Fault Reading :=
  match rest with
  | (given, .plain) :: _ => .ok ⟨.value o given, 1⟩
  | _ => .error (.option o "expected one argument")

/-- The letters after an option that shows the help: more options may follow, and the last may lack
its value. -/
def readLetters (rest : List (String × Word)) : List Char → Except Fault Reading
  | [] => .ok ⟨.help, 0⟩
  | c :: cs =>
    match lookup? (String.ofList ['-', c]) with
    | none => .error (ignored .help (String.ofList (c :: cs)))
    | some o =>
      if !o.takesValue then readLetters rest cs
      else if cs.isEmpty then do
        return ⟨.help, (← nextValue o rest).taken⟩
      else .ok ⟨.help, 0⟩

def readOption (o : Opt) (short : Bool) (value : Option String) (rest : List (String × Word)) :
    Except Fault Reading :=
  match value with
  | none =>
    if o.takesValue then nextValue o rest
    else .ok ⟨if o = .help then .help else .verbose, 0⟩
  | some v =>
    if o.takesValue then .ok ⟨.value o v, 0⟩
    else if short && v ≠ "" then readLetters rest v.toList
    else .error (ignored o v)

def perform (program : String) (p : Progress) : Deed → Run Progress
  | .help => showHelp program
  | .verbose => return { p with verbose := true }
  | .value o given => do
    let v ← convert program o given
    return { p with values := (o, v) :: p.values }

/-- Goes through the words; `skip` of them belong to the last option. -/
def readWords (program : String) (p : Progress) (skip : Nat) :
    List (String × Word) → Run Progress
  | [] => return p
  | (word, w) :: rest =>
    match skip with
    | k + 1 => readWords program p k rest
    | 0 =>
      match w with
      | .known o short value =>
        match readOption o short value rest with
        | .error f => reject program f
        | .ok r => do
          let p ← perform program p r.deed
          readWords program p r.taken rest
      | _ => readWords program { p with extras := p.extras ++ [word] } 0 rest

/-- The last value given for an option, else its checked default. -/
def valueOr (program : String) (p : Progress) (o : Opt) : Run (Option Given) :=
  match p.values.lookup o, o.default? with
  | some v, _ => return some v
  | none, some d => return some (← convert program o d)
  | none, none => return none

def firstAmbiguous? (words : List (String × Word)) : Option Fault :=
  words.findSome? (fun w =>
    match w.2 with
    | .ambiguous candidates => some (.ambiguous w.1 candidates)
    | _ => none)

def arguments (program : String) (argv : List String) : Run Arguments := do
  let words := classifyAll argv
  match firstAmbiguous? words with
  | some f => reject program f
  | none =>
    let p ← readWords program ⟨false, [], []⟩ 0 words
    let config ← valueOr program p .config
    let input ← valueOr program p .input
    let output ← valueOr program p .output
    let macros ← valueOr program p .macros
    let mapping ← valueOr program p .mapping
    if !p.extras.isEmpty then reject program (.unrecognized p.extras)
    else
      return { verbose := p.verbose, config := config.getD .blank, input := input.getD .blank,
               output := output.getD .blank, macros := macros, mapping := mapping }

end SqlMigration.CommandLine
