import Cbor.Decimal.Layout
import Cbor.Host
import Cbor.Text.Printable
import Cbor.Text.Quoted

/-!
# Dumps

The dump of a value shows its shape: constructor names with their arguments, lists in brackets, records in braces.
Messages quote host values in this form.

- `Dump.string`, `Dump.float`, the leaves;
- `Item.dump` and `HostValue.dump`.
-/

namespace Cbor

namespace Dump

open Cbor.Binary (Format)

/-! ## Leaves -/

/-- A bit pattern of a format, which may be no finite number. -/
def float (f : Format) (bits : Nat) : String :=
  if f.isNaN bits then "NaN"
  else if f.isInfinite bits then (if f.isNegative bits then "-inf" else "inf")
  else String.ofList (Decimal.Style.readable.write f bits)

/-- A character of a dumped string: quotes, backslashes and what is not printable are escaped. -/
def escape (c : Char) : List Char :=
  if c = '"' then ['\\', '"']
  else if c = '\\' then ['\\', '\\']
  else if c = '\n' then ['\\', 'n']
  else if c = '\r' then ['\\', 'r']
  else if c = '\t' then ['\\', 't']
  else if c.toNat = 0 then ['\\', '0']
  else if Text.isPrintable c then [c]
  else "\\u\x7b".toList ++ Text.hexDigits 1 c.toNat ++ ['\x7d']

/-- A dumped string. -/
def string (s : String) : String := String.ofList (Text.quote escape s.toList)

/-! ## Shapes -/

/-- Parts between commas. -/
def commaSeparated (parts : List String) : String := ", ".intercalate parts

/-- A list in brackets. -/
def list (parts : List String) : String := "[" ++ commaSeparated parts ++ "]"

/-- A byte string as a list of numbers. -/
def bytes (b : Bytes) : String := list (b.map fun x => toString x.toNat)

/-- A constructor with arguments. -/
def apply (constructor : String) (parts : List String) : String := constructor ++ "(" ++ commaSeparated parts ++ ")"

/-- A record with named fields. -/
def record (name : String) (fields : List (String × String)) : String :=
  name ++ " \x7b " ++ commaSeparated (fields.map fun (field, value) => field ++ ": " ++ value) ++ " \x7d"

/-- A truth value. -/
def bool (b : Bool) : String := if b then "true" else "false"

/-- An array of dumped items. -/
def array (items : List String) (indefinite : Bool) : String :=
  record "Array" [("items", list items), ("indefinite", bool indefinite)]

/-- A map of dumped entries. -/
def map (entries : List String) (indefinite : Bool) : String :=
  record "Map" [("entries", list entries), ("indefinite", bool indefinite)]

end Dump

/-! ## Items -/

namespace Item

mutual

/-- The dump of an item. -/
def dump : Item → String
  | .unsigned v => Dump.apply "Unsigned" [toString v.toNat]
  | .negative m => Dump.apply "Negative" [toString m.toNat]
  | .bytes b => Dump.apply "Bytes" [Dump.bytes b]
  | .byteChunks chunks => Dump.apply "ByteChunks" [Dump.list (chunks.map Dump.bytes)]
  | .text s => Dump.apply "Text" [Dump.string s]
  | .textChunks chunks => Dump.apply "TextChunks" [Dump.list (chunks.map Dump.string)]
  | .array items indefinite => Dump.apply "Array" [Dump.array (dumpItems items) indefinite]
  | .map entries indefinite => Dump.apply "Map" [Dump.map (dumpEntries entries) indefinite]
  | .tagged tag content =>
    Dump.apply "Tagged" [Dump.record "Tagged" [("tag", toString tag.toNat), ("item", dump content)]]
  | .dateTime s => Dump.apply "DateTime" [Dump.string s]
  | .epochTime content => Dump.apply "EpochTime" [dump content]
  | .encodedCbor b => Dump.apply "EncodedCbor" [Dump.bytes b]
  | .fullDate s => Dump.apply "FullDate" [Dump.string s]
  | .bool false => "False"
  | .bool true => "True"
  | .null => "Null"
  | .undefined => "Undefined"
  | .simple s => Dump.apply "Simple" [Dump.apply "Simple" [toString s.value.toNat]]
  | .half x => Dump.apply "Half" [Dump.float .binary32 x.toBinary32.bits.toNat]
  | .single x => Dump.apply "Single" [Dump.float .binary32 x.bits.toNat]
  | .double x => Dump.apply "Double" [Dump.float .binary64 x.bits.toNat]
  | .raw b => Dump.apply "Raw" [Dump.bytes b]

/-- The dumps of items. -/
def dumpItems : List Item → List String
  | [] => []
  | item :: items => dump item :: dumpItems items

/-- The dumps of entries. -/
def dumpEntries : List (Item × Item) → List String
  | [] => []
  | (key, value) :: entries => Dump.apply "" [dump key, dump value] :: dumpEntries entries

end

end Item

/-! ## Host values -/

namespace HostValue

mutual

/-- The dump of a host value. -/
def dump : HostValue → String
  | .null => "Null"
  | .bool b => Dump.apply "Bool" [Dump.bool b]
  | .int i => Dump.apply "Int" [toString i]
  | .float x => Dump.apply "Float" [Dump.float .binary64 x.bits.toNat]
  | .text s => Dump.apply "Text" [Dump.string s]
  | .bytes b => Dump.apply "Bytes" [Dump.bytes b]
  | .list elements => Dump.apply "List" [Dump.list (dumpElements elements)]
  | .map entries => Dump.apply "Map" [Dump.list (dumpEntries entries)]
  | .tagged tag content => Dump.apply "Tagged" [toString tag.toNat, dump content]
  | .item x => Dump.apply "Item" [x.dump]

/-- The dumps of the elements of a list. -/
def dumpElements : List HostValue → List String
  | [] => []
  | element :: elements => dump element :: dumpElements elements

/-- The dumps of the entries of a map. -/
def dumpEntries : List (HostValue × HostValue) → List String
  | [] => []
  | (key, value) :: entries => Dump.apply "" [dump key, dump value] :: dumpEntries entries

end

end HostValue

end Cbor
