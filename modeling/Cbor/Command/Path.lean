/-!
# Paths

A path names places one inside the other, from the working directory or, after a slash at its front, from the root. A
slash at its end asks for a directory.

- `Path.ofString`, the names of a path;
- `Path.nameLimit` and `Path.limit`, the lengths in bytes that names and paths may have.
-/

namespace Cbor.Command

/-- The names that a path goes through. -/
structure Path where
  /-- The path begins at the root. -/
  absolute : Bool
  names : List String
  /-- The path must lead to a directory. -/
  slashAtEnd : Bool
deriving DecidableEq

namespace Path

/-- The greatest number of bytes of a name. -/
def nameLimit : Nat := 255

/-- The greatest number of bytes of a path. -/
def limit : Nat := 4095

/-- The path of a text; slashes in a row count as one. -/
def ofString (s : String) : Path :=
  ⟨s.toList.head? = some '/', (s.splitOn "/").filter (· ≠ ""), s.toList.getLast? = some '/'⟩

/-- The names of a directory itself and of the directory around it. -/
def isDots (name : String) : Bool := name = "." || name = ".."

end Path

end Cbor.Command
