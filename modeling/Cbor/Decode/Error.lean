/-!
# Decoding errors

Each says what is wrong with the data, and all but two say where.
-/

namespace Cbor

/-- Why data does not decode. -/
inductive DecodeError where
  /-- The data ends where more is needed. -/
  | outOfData (offset : Nat)
  /-- The additional info of the initial byte has no meaning under its major type. -/
  | reservedInfo (info : Nat) (offset : Nat)
  /-- A break stands where an item is needed. -/
  | strayBreak (offset : Nat)
  /-- A string of indefinite length holds something other than definite strings of its own type. -/
  | invalidChunk (offset : Nat)
  /-- A simple value below 32 takes two bytes. -/
  | reservedSimple (value : UInt8)
  /-- The text string that begins at the offset is not valid UTF-8. -/
  | invalidUtf8 (offset : Nat)
  /-- Arrays, maps and tags nest deeper than the limit. -/
  | tooDeep
  /-- Bytes follow the item. -/
  | trailing (count : Nat)
  /-- A loop has read more items than there were bytes; no data leads here. -/
  | stalled (offset : Nat)
deriving DecidableEq

/-- The text of an error. -/
def DecodeError.message : DecodeError → String
  | .outOfData offset => "Out of data at offset " ++ toString offset
  | .reservedInfo info offset => "Invalid additional-info value " ++ toString info ++ " at offset " ++ toString offset
  | .strayBreak offset => "BREAK outside indefinite-length item at offset " ++ toString offset
  | .invalidChunk offset => "Chunked string contains an invalid chunk at offset " ++ toString offset
  | .reservedSimple value => "Invalid simple value " ++ toString value.toNat
  | .invalidUtf8 offset => "Invalid UTF-8 in text string at offset " ++ toString offset
  | .tooDeep => "Maximum recursion depth reached"
  | .trailing count => toString count ++ " bytes of additional data after top-level item"
  | .stalled offset => "Decoder failed to advance past offset " ++ toString offset

end Cbor
