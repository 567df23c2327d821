import SqlMigration.Text.Codes

/-!
# Search patterns

A key is written into a search pattern with a backslash before each character
that would mean something else there. The pattern for several keys joins them
with bars.
-/

set_option autoImplicit false

namespace SqlMigration.Escape

def special : List Code :=
  ['(', ')', '[', ']', '\x7b', '\x7d', '?', '*', '+', '-', '|', '^', '$', '\\', '.', '&', '~', '#',
    ' ', '\t', '\n', '\r', '\x0b', '\x0c']

def escapeCode (c : Code) : List Code := if c ∈ special then ['\\', c] else [c]

def escape (s : List Code) : List Code := s.flatMap escapeCode

def joined (keys : List (List Code)) : List Code := [.char '|'].intercalate (keys.map escape)

end SqlMigration.Escape
