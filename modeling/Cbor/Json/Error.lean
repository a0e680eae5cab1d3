/-!
# Errors of JSON text
-/

namespace Cbor

/-- Why a text is not read. -/
inductive JsonError where
  /-- The text is not a JSON text. -/
  | malformed
  /-- Containers nest deeper than the limit. -/
  | tooDeep
  /-- A string holds half of a surrogate pair. -/
  | loneSurrogate
  /-- A number is beyond the greatest float. -/
  | outOfRange
  /-- The text holds a value of another form than the one asked for. -/
  | unexpected
deriving DecidableEq

/-- The text of an error. -/
def JsonError.message : JsonError → String
  | .malformed => "malformed JSON text"
  | .tooDeep => "JSON containers nest too deeply"
  | .loneSurrogate => "lone surrogate in a JSON string"
  | .outOfRange => "JSON number out of range"
  | .unexpected => "unexpected JSON value"

end Cbor
