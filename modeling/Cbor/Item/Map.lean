import Cbor.Item.Equality
import Cbor.Table

/-!
# Maps of items

- `ItemTable`, a table of items by their equality and hash;
- `Item.ofEntries`, the map of a list of pairs: of equal keys the first place and the last value count.
-/

namespace Cbor

/-- A table of items. -/
abbrev ItemTable := Table Item Item Item.hash

/-- The map with the entries of a table. -/
def ItemTable.toItem (t : ItemTable) : Item := .map t.toList t.indefinite

/-- The map of a list of pairs. -/
def Item.ofEntries (pairs : List (Item × Item)) (indefinite : Bool) : Item :=
  .map (Table.ofList pairs : ItemTable).toList indefinite

end Cbor
