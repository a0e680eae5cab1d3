import Std.Data.HashMap

/-!
# Keyed tables

A table keeps entries in the order of their keys' first insertion, and beside them an index from the hash of a key to
the positions of the keys with that hash.

- `put`, insertion into a plain list of entries: an equal key keeps its place and takes the new value;
- `Table.insert`, the same through the index, giving the position where the value landed.
-/

namespace Cbor

/-- Sets the value of a key, at the key's place or at the end. -/
def put {κ ν : Type} [DecidableEq κ] (key : κ) (value : ν) : List (κ × ν) → List (κ × ν)
  | [] => [(key, value)]
  | (k, v) :: entries => if k = key then (k, value) :: entries else (k, v) :: put key value entries

/-- Entries with distinct keys, found by hash, and a flag for the way their number is written. -/
structure Table (κ ν : Type) (hash : κ → UInt64) where
  entries : Array (κ × ν)
  indefinite : Bool
  /-- The positions of the keys with a hash. -/
  index : Std.HashMap UInt64 (List Nat)

namespace Table

variable {κ ν : Type} {hash : κ → UInt64} [DecidableEq κ]

/-- A table without entries, of definite length. -/
def empty : Table κ ν hash := ⟨#[], false, ∅⟩

/-- The entries in order. -/
def toList (t : Table κ ν hash) : List (κ × ν) := t.entries.toList

/-- The number of entries. -/
def size (t : Table κ ν hash) : Nat := t.entries.size

/-- The key at a position. -/
def keyAt? (t : Table κ ν hash) (i : Nat) : Option κ := t.entries[i]?.map Prod.fst

/-- The position of a key, searched among those with its hash. -/
def position? (t : Table κ ν hash) (key : κ) : Option Nat :=
  (t.index.getD (hash key) []).find? fun i => t.keyAt? i = some key

/-- The value of a key. -/
def get? (t : Table κ ν hash) (key : κ) : Option ν :=
  (t.position? key).bind fun i => t.entries[i]?.map Prod.snd

/-- The key has an entry. -/
def contains (t : Table κ ν hash) (key : κ) : Bool := (t.position? key).isSome

/-- Sets the value at a position. -/
def replace (t : Table κ ν hash) (i : Nat) (value : ν) : Table κ ν hash :=
  { t with entries := t.entries.modify i fun e => (e.1, value) }

/-- Adds an entry for a new key at the end. -/
def push (t : Table κ ν hash) (key : κ) (value : ν) : Table κ ν hash :=
  let h := hash key
  let positions := t.size :: t.index.getD h []
  { t with entries := t.entries.push (key, value), index := t.index.insert h positions }

/-- Sets the value of a key, and gives the position where it landed. -/
def insert (t : Table κ ν hash) (key : κ) (value : ν) : Nat × Table κ ν hash :=
  match t.position? key with
  | some i => (i, t.replace i value)
  | none => (t.size, t.push key value)

/-- Marks the table as being of indefinite length, or not. -/
def setIndefinite (t : Table κ ν hash) (indefinite : Bool) : Table κ ν hash := { t with indefinite }

/-- Inserts pairs in order into an empty table. -/
def ofList (pairs : List (κ × ν)) : Table κ ν hash := pairs.foldl (fun t e => (t.insert e.1 e.2).2) empty

end Table

end Cbor
