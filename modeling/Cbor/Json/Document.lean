import Cbor.Json.Token

/-!
# JSON documents

A document is the tree of a text as it is written: members in their order, strings and numbers not yet evaluated. It
is built by a stack machine that takes one token at a time.

- `Document.ofTokens`, the document that a list of tokens spells.
-/

namespace Cbor.Json

/-- The tree of a text. -/
inductive Document where
  | null
  | bool (value : Bool)
  | number (value : Numeral)
  | string (units : List StringUnit)
  | array (elements : List Document)
  | object (members : List (List StringUnit × Document))

namespace Document

/-- A container whose end is not read yet; what it holds is listed last first. -/
inductive Pending where
  | array (elements : List Document)
  | object (members : List (List StringUnit × Document)) (key : List StringUnit)

/-- What has been read, and what may follow. -/
inductive State where
  /-- A value must follow. -/
  | value (outer : List Pending)
  /-- A first element or the end of an array must follow. -/
  | firstElement (outer : List Pending)
  /-- A first key or the end of an object must follow. -/
  | firstKey (outer : List Pending)
  /-- A key must follow the members of an object. -/
  | nextKey (members : List (List StringUnit × Document)) (outer : List Pending)
  /-- The colon after a key must follow. -/
  | colon (members : List (List StringUnit × Document)) (key : List StringUnit) (outer : List Pending)
  /-- A comma or the end of an array must follow. -/
  | afterElement (elements : List Document) (outer : List Pending)
  /-- A comma or the end of an object must follow. -/
  | afterMember (members : List (List StringUnit × Document)) (outer : List Pending)
  /-- Nothing may follow. -/
  | done (document : Document)

/-- The state after a value. -/
def State.close (d : Document) : List Pending → State
  | [] => .done d
  | .array elements :: outer => .afterElement (d :: elements) outer
  | .object members key :: outer => .afterMember ((key, d) :: members) outer

/-- The state after a token at which a value may begin. -/
def State.begin (outer : List Pending) : Token → Except JsonError State
  | .openArray => .ok (.firstElement outer)
  | .openObject => .ok (.firstKey outer)
  | .null => .ok (.close .null outer)
  | .bool b => .ok (.close (.bool b) outer)
  | .number n => .ok (.close (.number n) outer)
  | .string units => .ok (.close (.string units) outer)
  | _ => .error .malformed

/-- The state after a token. -/
def State.step (state : State) (token : Token) : Except JsonError State :=
  match state, token with
  | .value outer, token => State.begin outer token
  | .firstElement outer, .closeArray => .ok (.close (.array []) outer)
  | .firstElement outer, token => State.begin (.array [] :: outer) token
  | .firstKey outer, .closeObject => .ok (.close (.object []) outer)
  | .firstKey outer, .string key => .ok (.colon [] key outer)
  | .nextKey members outer, .string key => .ok (.colon members key outer)
  | .colon members key outer, .colon => .ok (.value (.object members key :: outer))
  | .afterElement elements outer, .comma => .ok (.value (.array elements :: outer))
  | .afterElement elements outer, .closeArray => .ok (.close (.array elements.reverse) outer)
  | .afterMember members outer, .comma => .ok (.nextKey members outer)
  | .afterMember members outer, .closeObject => .ok (.close (.object members.reverse) outer)
  | _, _ => .error .malformed

/-- The document that a list of tokens spells. -/
def ofTokens (tokens : List Token) : Except JsonError Document := do
  match ← tokens.foldlM State.step (.value []) with
  | .done d => return d
  | _ => throw .malformed

/-- The document of a text. -/
def ofString (s : String) : Except JsonError Document := do
  let tokens ← Token.scan s.toList
  ofTokens tokens

end Document

end Cbor.Json
