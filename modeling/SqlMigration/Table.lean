/-!
# Tables in arrival order

A table keeps its keys in the order in which they first arrived. Storing under
a key that is already present keeps the key's place and replaces its value.
-/

set_option autoImplicit false

namespace SqlMigration

abbrev Table (α β : Type) := List (α × β)

namespace Table

variable {α β : Type} [DecidableEq α]

def get? : Table α β → α → Option β
  | [], _ => none
  | (a, b) :: t, k => if a = k then some b else get? t k

def put : Table α β → α → β → Table α β
  | [], k, v => [(k, v)]
  | (a, b) :: t, k, v => if a = k then (a, v) :: t else (a, b) :: put t k v

def putAll (t : Table α β) (pairs : List (α × β)) : Table α β :=
  pairs.foldl (fun t p => put t p.1 p.2) t

def ofPairs (pairs : List (α × β)) : Table α β := putAll [] pairs

def remove (t : Table α β) (k : α) : Table α β := t.filter (fun p => p.1 ≠ k)

def keys (t : Table α β) : List α := t.map (·.1)

@[simp]
theorem get?_put_self (t : Table α β) (k : α) (v : β) : get? (put t k v) k = some v := by
  induction t with
  | nil => simp [put, get?]
  | cons p t ih =>
    obtain ⟨a, b⟩ := p
    by_cases h : a = k <;> simp [put, get?, h, ih]

theorem get?_put_of_ne (t : Table α β) {k l : α} (v : β) (h : k ≠ l) :
    get? (put t k v) l = get? t l := by
  induction t with
  | nil => simp [put, get?, h]
  | cons p t ih =>
    obtain ⟨a, b⟩ := p
    by_cases ha : a = k
    · subst ha
      simp [put, get?, h]
    · have hs : ¬ l = k := fun e => h e.symm
      by_cases hl : a = l
      · subst hl
        simp [put, get?, hs]
      · simp [put, get?, ha, hl, ih]

theorem keys_put (t : Table α β) (k : α) (v : β) :
    keys (put t k v) = if k ∈ keys t then keys t else keys t ++ [k] := by
  induction t with
  | nil => simp [put, keys]
  | cons p t ih =>
    obtain ⟨a, b⟩ := p
    by_cases h : a = k
    · subst h
      simp [put, keys]
    · have hk : ¬ k = a := fun e => h e.symm
      simp only [keys] at ih
      by_cases hm : k ∈ t.map (·.1) <;> simp_all [put, keys]

end Table

end SqlMigration
