import SqlMigration.Files.Disk

/-!
# Changing the disk

Each action either succeeds or names the path that was in its way. What was done
before a refusal stays done.
-/

set_option autoImplicit false

namespace SqlMigration.Files

abbrev Action := EStateM Fault Disk

def refuse {α : Type} (reason : Reason) (path : String) : Action α := throw (.refused reason path)

def orRefuse {α : Type} (path : String) : Except Reason α → Action α
  | .ok a => pure a
  | .error r => refuse r path

def change (f : Tree → Tree) : Action Unit := modify (fun d => { d with tree := f d.tree })

def read (path : String) : Action Bytes := do
  match ← orRefuse path ((← get).find true path) with
  | .node _ (.file content) => return content
  | .node _ _ => refuse .isDirectory path
  | .absent _ => refuse .missing path

def bare (path : String) : String := String.ofList (Path.trimSlashes path.toList)

def container (path : String) : String :=
  let dir := Path.parent (bare path)
  if dir = "" then "." else dir

def containerPlace (path : String) : Action Place := do
  match ← orRefuse path ((← get).find true (Path.join (container path) ".")) with
  | .node p .directory => return p
  | .node _ _ => refuse .notDirectory path
  | .absent _ => refuse .missing path

def write (path : String) (content : Bytes) : Action Unit := do
  if Path.endsWithSlash path then
    let _ ← containerPlace path
    refuse .isDirectory path
  else
    match ← orRefuse path ((← get).find true path) with
    | .node _ .directory => refuse .isDirectory path
    | .node p _ => change (·.put p (.file content))
    | .absent p => change (·.put p (.file content))

def makeDirectory (path : String) : Action Unit := do
  if '\x00' ∈ path.toList then refuse .nul path
  else if path = "" then refuse .missing path
  else if pathLimit ≤ byteLength path then refuse .nameTooLong path
  else
    let last := Path.name (bare path)
    if last = "" then refuse .exists path
    else
      let p ← containerPlace path
      if last = "." ∨ last = ".." then refuse .exists path
      else if nameLimit < byteLength last then refuse .nameTooLong path
      else
        let d ← get
        match d.tree.node? (p ++ [last]) with
        | some _ => refuse .exists path
        | none => change (·.put (p ++ [last]) .directory)

def makeLink (path target : String) : Action Unit := do
  match ← orRefuse path ((← get).find false path) with
  | .node _ _ => refuse .exists path
  | .absent p => change (·.put p (.link target))

/-- A directory that is there already is no reason to fail. -/
def ensureDirectory (path : String) : Action Unit :=
  tryCatch (makeDirectory path) (fun fault => do
    if (← get).isDirectory path then pure () else throw fault)

/-- Makes a directory and all that lead to it. Fuel bounds the number of parts. -/
def makeDirectories : Nat → String → Action Unit
  | 0, path => ensureDirectory path
  | fuel + 1, path => do
    let (head, tail) := Path.split path
    let (head, tail) := if tail = "" then Path.split head else (head, tail)
    if head ≠ "" && tail ≠ "" && !(← get).exists? head then
      tryCatch (makeDirectories fuel head) (fun fault =>
        match fault with
        | .refused .exists _ => pure ()
        | _ => throw fault)
      if tail = "." then pure () else ensureDirectory path
    else ensureDirectory path

def makePath (path : String) : Action Unit := makeDirectories path.length path

def placeOf? (d : Disk) (path : String) : Option Place :=
  match d.find true path with
  | .ok (.node p _) => some p
  | _ => none

/-- Copies a file, into the target when that is a directory. -/
def copy (source target : String) : Action Unit := do
  let d ← get
  let target := if d.isDirectory target then Path.join target (Path.name source) else target
  match placeOf? d source, placeOf? d target with
  | some p, some q => if p = q then throw (.sameFile source target)
  | _, _ => pure ()
  let content ← read source
  tryCatch (write target content) (fun fault => do
    match fault with
    | .refused .isDirectory _ =>
      if (← get).exists? target then throw fault else throw (.noDirectory target)
    | _ => throw fault)

/-- Removes an empty directory. A path that ends in a dot names no entry to remove, and is refused
once what leads to the dot has been found. The root is always in use. -/
def removeDirectory (path : String) : Action Unit := do
  let last := Path.name (bare path)
  if last = "." ∨ last = ".." then
    if Path.parent (bare path) ≠ "" then
      let _ ← containerPlace path
    refuse (if last = "." then .invalid else .notEmpty) path
  else
    match ← orRefuse path ((← get).find false path) with
    | .node p .directory => if p = [] then refuse .busy path else change (·.remove p)
    | .node _ _ => refuse .notDirectory path
    | .absent _ => refuse .missing path

def removeTree (path : String) : Action Unit := do
  let d ← get
  match ← orRefuse path (d.find false path) with
  | .absent _ => refuse .missing path
  | .node _ (.link _) =>
    let _ ← orRefuse path (d.node true path)
    throw .linkedTree
  | .node _ (.file _) => refuse .notDirectory path
  | .node p .directory =>
    change (·.clear p)
    removeDirectory path

/-- Removes a file or a link, not what the link stands for. -/
def unlink (path : String) : Action Unit := do
  match ← orRefuse path ((← get).find false path) with
  | .node _ .directory => refuse .isDirectory path
  | .node p _ => change (·.remove p)
  | .absent _ => refuse .missing path

end SqlMigration.Files
