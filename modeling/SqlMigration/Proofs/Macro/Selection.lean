import SqlMigration.Proofs.Macro.Precedence

/-!
# Files that a pattern selects

A pattern of plain characters fits the path that it spells and no other. With a
star before it, it fits the paths that end in it, in whatever directory they are.
The macros of a pattern are applied to a file, in both directions, where the
pattern fits its path, and have no part in it elsewhere.
-/

set_option autoImplicit false

namespace SqlMigration

namespace Glob

def Plain (s : List Code) : Prop := ∀ c ∈ s, c ≠ '*' ∧ c ≠ '?' ∧ c ≠ '['

instance (s : List Code) : Decidable (Plain s) :=
  List.decidableBAll (fun c : Code => c ≠ '*' ∧ c ≠ '?' ∧ c ≠ '[') s

theorem pieces_plain {s : List Code} (plain : Plain s) : pieces s = s.map .literal := by
  induction s with
  | nil => rfl
  | cons c cs ih =>
    obtain ⟨⟨star, mark, bracket⟩, rest⟩ := List.forall_mem_cons.mp plain
    rw [pieces, piecesFrom, if_neg star, if_neg mark, if_neg bracket, List.map_cons, ← ih rest]
    rfl

theorem pieces_star {s : List Code} (plain : Plain s) : pieces (.char '*' :: s) = .run :: s.map .literal := by
  have rest : piecesFrom 0 s = s.map .literal := pieces_plain plain
  rw [pieces, piecesFrom, if_pos rfl, rest]
  -- a run would be joined with a run that follows, but only literals do
  cases s <;> rfl

theorem accepts_literals (s path : List Code) : accepts (s.map .literal) path = true ↔ path = s := by
  induction s generalizing path with
  | nil => simp [accepts]
  | cons c cs ih =>
    cases path with
    | nil => simp [accepts, Piece.front]
    | cons d ds => simp [accepts, Piece.front, Piece.accepts, ih]

theorem someSuffix_iff (test : List Code → Bool) (s : List Code) :
    someSuffix test s = true ↔ ∃ t, t <:+ s ∧ test t = true := by
  induction s with
  | nil => simp [someSuffix]
  | cons c cs ih =>
    rw [someSuffix, Bool.or_eq_true, ih]
    constructor
    · rintro (whole | ⟨t, ending, passes⟩)
      · exact ⟨c :: cs, List.suffix_refl _, whole⟩
      · exact ⟨t, ending.trans (List.suffix_cons c cs), passes⟩
    · rintro ⟨t, ending, passes⟩
      rcases List.suffix_cons_iff.mp ending with rfl | later
      · exact Or.inl passes
      · exact Or.inr ⟨t, later, passes⟩

end Glob

theorem globMatches_plain {s : Text} (plain : Glob.Plain s.toList) (path : String) :
    globMatches s path = true ↔ path = s := by
  rw [globMatches, Glob.fits_eq_accepts, Glob.pieces_plain plain, Glob.accepts_literals, Text.toList_inj]

theorem globMatches_star {s : Text} (plain : Glob.Plain s.toList) (path : String) :
    globMatches (("*" : Text) ++ s) path = true ↔ s.toList <:+ (path : Text).toList := by
  have pattern : (("*" : Text) ++ s).toList = .char '*' :: s.toList := rfl
  rw [globMatches, Glob.fits_eq_accepts, pattern, Glob.pieces_star plain, Glob.accepts,
    Glob.someSuffix_iff]
  simp only [Glob.accepts_literals, exists_eq_right]

namespace Macros

/-- The given entries, and no others, are applied to the file at a path. -/
structure Applies (m : Macros) (path : String) (entries : List (Text × Text)) : Prop where
  expand (text : Text) : m.expand path text = applyTable (Table.ofPairs entries) text
  unexpand (text : Text) : m.unexpand path text = applyTable (Table.ofPairs (entries.map Prod.swap)) text

theorem applies_entries (m : Macros) (path : String) : m.Applies path (m.entries path) where
  expand text := by rw [Macros.expand, merged_eq_ofPairs]
  unexpand text := by
    rw [Macros.unexpand, Macros.expand, merged_reversed]
    rfl

theorem applies_insert {g : Text} {path : String} {selected : Prop} [Decidable selected]
    (fits : globMatches g path = true ↔ selected) (before after : Macros) (t : Table Text Text) :
    Applies (before ++ (g, t) :: after) path
      (before.entries path ++ (if selected then t else []) ++ after.entries path) := by
  have whole := applies_entries (before ++ (g, t) :: after) path
  have split : entries (before ++ (g, t) :: after) path =
      before.entries path ++ (if selected then t else []) ++ after.entries path := by
    by_cases h : selected
    · have fit : globMatches g path = true := fits.mpr h
      simp [entries, fit, h]
    · have unfit : ¬ globMatches g path = true := mt fits.mp h
      simp [entries, unfit, h]
  rwa [split] at whole

/-- The macros of a star with plain characters after it are applied to the files whose paths end in these
characters, and those of a pattern of plain characters to the file at that path, whatever else the document
has before and after them. -/
theorem plain_patterns_select {s : Text} (plain : Glob.Plain s.toList) (before after : Macros)
    (t : Table Text Text) (path : String) :
    Applies (before ++ ("*" ++ s, t) :: after) path
        (before.entries path ++ (if s.toList <:+ (path : Text).toList then t else []) ++ after.entries path) ∧
      Applies (before ++ (s, t) :: after) path
        (before.entries path ++ (if path = s then t else []) ++ after.entries path) :=
  ⟨applies_insert (globMatches_star plain path) before after t,
    applies_insert (globMatches_plain plain path) before after t⟩

theorem plain_patterns_select_by_ending :
    Glob.Plain ("a.sql" : Text).toList ∧
      expand [("*a.sql", [("$T", "orders")])] "x/a.sql\na.sql" "$T" = "orders" ∧
      unexpand [("*a.sql", [("$T", "orders")])] "x/y/aa.sql" "orders" = "$T" ∧
      expand [("*a.sql", [("$T", "orders")])] "a.sql/b" "$T" = "$T" ∧
      expand [("a.sql", [("$T", "orders")])] "a.sql" "$T" = "orders" ∧
      unexpand [("a.sql", [("$T", "orders")])] "x/a.sql" "orders" = "orders" := by
  have plain : Glob.Plain ("a.sql" : Text).toList := by decide
  have select := plain_patterns_select plain [] [] [("$T", "orders")]
  refine ⟨plain, ?_, ?_, ?_, ?_, ?_⟩
  · exact ((select "x/a.sql\na.sql").1.expand "$T").trans (by decide)
  · exact ((select "x/y/aa.sql").1.unexpand "orders").trans (by decide)
  · exact ((select "a.sql/b").1.expand "$T").trans (by decide)
  · exact ((select "a.sql").2.expand "$T").trans (by decide)
  · exact ((select "x/a.sql").2.unexpand "orders").trans (by decide)

end Macros

end SqlMigration
