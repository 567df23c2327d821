/-!
# Paths as text

A path is a text whose parts are divided by slashes. These functions look at the
text alone, never at what the path leads to.
-/

set_option autoImplicit false

namespace SqlMigration.Path

def isSlash (c : Char) : Bool := c = '/'

def isAbsolute (p : String) : Bool := p.toList.head? = some '/'

def endsWithSlash (p : String) : Bool := p.toList.getLast? = some '/'

/-- An absolute second path stands for itself. -/
def join (a b : String) : String :=
  if isAbsolute b then b
  else if a = "" ∨ endsWithSlash a then a ++ b
  else a ++ "/" ++ b

/-- Drops slashes at the end, unless there is nothing else. -/
def trimSlashes (s : List Char) : List Char :=
  if s.all isSlash then s else (s.reverse.dropWhile isSlash).reverse

def nameChars (s : List Char) : List Char := (s.reverse.takeWhile (fun c => !isSlash c)).reverse

/-- The text before the last part and that part, which is empty after a final slash. -/
def split (p : String) : String × String :=
  let s := p.toList
  let tail := nameChars s
  (String.ofList (trimSlashes (s.take (s.length - tail.length))), String.ofList tail)

def parent (p : String) : String := (split p).1

def name (p : String) : String := (split p).2

def dropChars (p : String) (n : Nat) : String := String.ofList (p.toList.drop n)

def parts (p : String) : List String :=
  ((p.toList.splitOn '/').filter (fun s => !s.isEmpty)).map String.ofList

def ofParts (root : String) (ps : List String) : String := root ++ "/".intercalate ps

/-- Exactly two slashes at the start are kept; one, three or more are one. -/
def root (p : String) : String :=
  match (p.toList.takeWhile isSlash).length with
  | 0 => ""
  | 2 => "//"
  | _ => "/"

/-- Drops dots and repeated slashes; parent steps are kept. -/
def tidy (p : String) : String :=
  let shown := ofParts (root p) ((parts p).filter (· ≠ "."))
  if shown = "" then "." else shown

def collapse (rooted : Bool) : List String → List String → List String
  | stack, [] => stack.reverse
  | stack, part :: rest =>
    if part = "." then collapse rooted stack rest
    else if part = ".." then
      match stack with
      | [] => collapse rooted (if rooted then [] else [part]) rest
      | top :: below =>
        if top = ".." then collapse rooted (part :: stack) rest else collapse rooted below rest
    else collapse rooted (part :: stack) rest

def normalize (p : String) : String :=
  let shown := ofParts (root p) (collapse (isAbsolute p) [] (parts p))
  if shown = "" then "." else shown

end SqlMigration.Path
