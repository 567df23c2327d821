/-!
# Line ends

A text file may end its lines with a line feed, a carriage return or both.
Reading turns each of them into one line feed.
-/

set_option autoImplicit false

namespace SqlMigration.Newline

/-- `pending` tells that the last character was a carriage return, already written as a line feed. -/
def unifyFrom (pending : Bool) : List Char → List Char
  | [] => []
  | c :: cs =>
    if c = '\r' then '\n' :: unifyFrom true cs
    else if pending && c = '\n' then unifyFrom false cs
    else c :: unifyFrom false cs

def unify (s : List Char) : List Char := unifyFrom false s

theorem unifyFrom_eq_self {s : List Char} (h : '\r' ∉ s) : unifyFrom false s = s := by
  induction s with
  | nil => rfl
  | cons c cs ih =>
    have hc : c ≠ '\r' := fun e => h (e ▸ List.mem_cons_self)
    simp [unifyFrom, hc, ih (fun m => h (List.mem_cons_of_mem _ m))]

end SqlMigration.Newline
