import Cbor.Diagnostic
import Cbor.Json.Projection

/-!
# Traces

What is worth telling about a run of the decoder or the printer, in the order in which it happens. The events of a
decoding that fails are those up to the failure.

- `Trace.decode`, `Trace.decodeSequence`, the tags that were read;
- `Trace.diagnostic`, `Trace.json`, what the two views decode, and what they cannot show.
-/

namespace Cbor

/-- Something worth telling. -/
inductive Event where
  /-- A tag at an offset was read with its content, into an item of the named type. -/
  | tag (number : UInt64) (offset : Nat) (typeName : String)
  /-- A sequence was read to its end. -/
  | sequence (count : Nat)
  /-- Embedded data is shown as an error. -/
  | undecodable (error : DecodeError)
  /-- An item lies beyond the budget of the printer. -/
  | truncated

/-- The text of an event. -/
def Event.text : Event → String
  | .tag number offset typeName =>
    "Tag " ++ toString number.toNat ++ " at offset " ++ toString offset ++ " decoded as " ++ typeName
  | .sequence count => "Decoded sequence of " ++ toString count ++ " items"
  | .undecodable e => "Embedded CBOR failed to decode: " ++ e.message
  | .truncated => "Diagnostic output truncated at maximum depth"

namespace Trace

/-! ## Decoding -/

/-- The reader of items at a nesting limit, and the events of what it reads. -/
structure Observed where
  read : Reader Item
  events : Cursor → List Event

/-- The events of up to `count` items that end at a break or at the end of the data. -/
def items (inner : Observed) : Nat → Cursor → List Event
  | 0, _ => []
  | count + 1, c =>
    if c.rest.head?.all (· = Head.breakByte) then []
    else
      inner.events c ++
        match inner.read c with
        | .ok (_, c) => items inner count c
        | .error _ => []

/-- The events of the elements of a container, each of `size` items, after the initial byte at `start`. -/
def elements (inner : Observed) (size start info : Nat) (c : Cursor) : List Event :=
  if info = 31 then items inner c.rest.length c
  else
    match Reader.argument start info c with
    | .ok (count, c) => items inner (size * count.toNat) c
    | .error _ => []

/-- The events of a tag and its content, after the initial byte at `start`. -/
def tagged (inner : Observed) (start info : Nat) (c : Cursor) : List Event :=
  match Reader.argument start info c with
  | .error _ => []
  | .ok (number, c) =>
    inner.events c ++
      match inner.read c with
      | .ok (x, _) => [.tag number start (Item.ofTag number x).typeName]
      | .error _ => []

/-- The events of an item whose content is read by `inner`, if the nesting limit leaves any. -/
def itemWith (inner : Option Observed) (c : Cursor) : List Event :=
  match inner, c.rest with
  | some inner, initial :: rest =>
    let info := initial.toNat % 32
    let after : Cursor := ⟨c.offset + 1, rest⟩
    match initial.toNat / 32 with
    | 4 => elements inner 1 c.offset info after
    | 5 => elements inner 2 c.offset info after
    | 6 => tagged inner c.offset info after
    | _ => []
  | _, _ => []

/-- The events of an item under a nesting limit. -/
def item : Nat → Cursor → List Event
  | 0, c => itemWith none c
  | depth + 1, c => itemWith (some ⟨Reader.item depth, item depth⟩) c

/-- The events of decoding one item. -/
def decode (data : Bytes) : List Event := item maxDepth (.at data 0)

/-- The events of decoding a sequence. -/
def decodeSequence (data : Bytes) : List Event :=
  items ⟨Reader.item maxDepth, item maxDepth⟩ data.length (.at data 0) ++
    match Cbor.decodeSequence data with
    | .ok items => [.sequence items.length]
    | .error _ => []

/-! ## Diagnostic text -/

/-- The events of what is nested one level deeper, if the budget allows. -/
def deeper (inner : Option (Item → List Event)) (content : (Item → List Event) → List Event) : List Event :=
  match inner with
  | some events => content events
  | none => [.truncated]

/-- The events of printing an item whose content is printed with the events `inner`. -/
def shape (inner : Option (Item → List Event)) : Item → List Event
  | .array items _ => deeper inner fun events => items.flatMap events
  | .map entries _ => deeper inner fun events => entries.flatMap fun (k, v) => events k ++ events v
  | .tagged _ content | .epochTime content => deeper inner (· content)
  | .encodedCbor b => deeper inner fun events =>
    decodeSequence b ++
      match Cbor.decodeSequence b with
      | .ok items => items.flatMap events
      | .error e => [.undecodable e]
  | _ => []

/-- The events of printing an item, which is decoded first if it is encoded data. -/
def printWith (inner : Option (Item → List Event)) (x : Item) : List Event :=
  match x with
  | .raw b =>
    decode b ++
      match Cbor.decode b with
      | .ok y => shape inner y
      | .error _ => []
  | x => shape inner x

/-- The events of printing an item under a budget. -/
def print : Nat → Item → List Event
  | 0, x => printWith none x
  | budget + 1, x => printWith (some (print budget)) x

/-- The events of the diagnostic text of an item. -/
def diagnostic (x : Item) : List Event := print maxDepth x

/-! ## JSON views -/

/-- The events of a key, which is printed unless it is text. -/
def jsonKey (key : Item) : List Event :=
  match key.asText with
  | .ok _ => []
  | .error _ => diagnostic key

mutual

/-- The events of the JSON view of an item. -/
def json : Item → List Event
  | .array items _ => jsonItems items
  | .map entries _ => jsonEntries entries
  | .epochTime content => json content
  | _ => []

/-- The events of the views of items, up to the first that has none. -/
def jsonItems : List Item → List Event
  | [] => []
  | x :: items => json x ++ if x.toJson.isOk then jsonItems items else []

/-- The events of the members of entries, up to the first value that has no view. -/
def jsonEntries : List (Item × Item) → List Event
  | [] => []
  | (key, x) :: entries => jsonKey key ++ json x ++ if x.toJson.isOk then jsonEntries entries else []

end

end Trace

end Cbor
