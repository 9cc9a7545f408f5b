import Graphlab.Contracts.Checks
import Mathlib.Algebra.Group.Int.Defs

/-!
# The decoder of documents

A YAML parser delivers a document as events, and the decoder builds a JSON value of them with a
stack of the collections that are open.  It counts what it is given, limits how deep collections
are nested, and rejects what JSON does not have: anchors, aliases, tags, keys that are no strings,
and more than one document.

The parser is the library's.  `Yaml` is a document as it is composed, and `Yaml.events` the events
that the parser delivers for it.

## Main definitions

* `Event`, `Decoder`, `Decoder.handle`, `decode`, `parseDocument`.
* `Yaml`, `Yaml.events`, `stream`.
-/

namespace Graphlab.Contracts

open Lib

/-! ## Events -/

/-- What the parser calls; an anchor of zero is none. -/
inductive Event
  | documentStart
  | documentEnd
  | null (anchor : ℕ)
  /-- `OnAlias`. -/
  | reference (anchor : ℕ)
  | anchor (name : String)
  | scalar (tag : String) (anchor : ℕ) (text : String)
  | sequenceStart (tag : String) (anchor : ℕ)
  | sequenceEnd
  | mapStart (tag : String) (anchor : ℕ)
  | mapEnd
  deriving DecidableEq, Repr

/-! ## The decoder -/

/-- A collection that is open; an object has a key while it awaits the key's value. -/
inductive Frame
  | array (items : List Json)
  | object (fields : List (String × Json)) (key : Option String)

/-- The collection as far as it is read. -/
def Frame.value : Frame → Json
  | .array items => .array items
  | .object fields _ => .object fields

structure Decoder where
  /-- The collections that are open, the innermost one first. -/
  stack : List Frame := []
  count : ℕ := 0
  root : Json := .null
  documents : ℕ := 0

/-- `std::from_chars` into a signed 64-bit word, all characters read. -/
def signedWord (s : String) : Option ℤ :=
  (fromChars s.toList).filter fun n => decide (-2 ^ 63 ≤ n) && decide (n < 2 ^ 63)

/-- The value of a scalar that is no key. -/
def scalarValue (tag text : String) : Json :=
  if tag = "!" then .string text
  else if text = "true" then .bool true
  else if text = "false" then .bool false
  else
    match signedWord text with
    | some n => .number n
    | none => .string text

/-- Tags that are not explicit. -/
def plainTag (tag : String) : Bool := tag == "?" || tag == "!" || tag == ""

def maxValues : ℕ := 100000

def maxDepth : ℕ := 64

namespace Decoder

variable (d : Decoder)

/-- `check`. -/
def check (tag : String) (anchor : ℕ) : Except String Decoder :=
  if maxValues < d.count + 1 then .error "document exceeds 100000 values"
  else if anchor ≠ 0 ∨ plainTag tag = false then
    .error "anchors and explicit tags are not supported"
  else .ok { d with count := d.count + 1 }

/-- An object awaits a key. -/
def atKey : Bool :=
  match d.stack with
  | .object _ none :: _ => true
  | _ => false

/-- `put`. -/
def put (value : Json) : Except String Decoder :=
  match d.stack with
  | [] => .ok { d with root := value }
  | .array items :: rest => .ok { d with stack := .array (items ++ [value]) :: rest }
  | .object fields none :: rest =>
    match value with
    | .string key =>
      if key ∈ fields.map Prod.fst then .error ("duplicate key: " ++ key)
      else if key = "<<" then .error "YAML merge keys are not supported"
      else .ok { d with stack := .object fields (some key) :: rest }
    | _ => .error "mapping keys must be strings"
  | .object fields (some key) :: rest =>
    .ok { d with stack := .object (Json.setField key value fields) none :: rest }

/-- `begin`. -/
def beginCollection (frame : Frame) (tag : String) (anchor : ℕ) : Except String Decoder := do
  let d ← d.check tag anchor
  if maxDepth ≤ d.stack.length then .error "document exceeds depth 64"
  else if d.atKey then .error "complex mapping keys are not supported"
  else .ok { d with stack := frame :: d.stack }

/-- `end`.  The parser ends no collection that it has not begun. -/
def endCollection : Except String Decoder :=
  match d.stack with
  | [] => .error "no collection is open"
  | frame :: rest => { d with stack := rest }.put frame.value

/-- The handler of an event. -/
def handle : Event → Except String Decoder
  | .documentStart =>
    if d.documents + 1 ≠ 1 then .error "exactly one document is required"
    else .ok { d with documents := d.documents + 1 }
  | .documentEnd => .ok d
  | .null anchor => do
      let d ← d.check "" anchor
      d.put .null
  | .reference _ => .error "aliases are not supported"
  | .anchor _ => .error "anchors are not supported"
  | .scalar tag anchor text => do
      let d ← d.check tag anchor
      if d.atKey then d.put (.string text) else d.put (scalarValue tag text)
  | .sequenceStart tag anchor => d.beginCollection (.array []) tag anchor
  | .sequenceEnd => d.endCollection
  | .mapStart tag anchor => d.beginCollection (.object [] none) tag anchor
  | .mapEnd => d.endCollection

def run : Decoder → List Event → Except String Decoder
  | d, [] => .ok d
  | d, e :: es => do
      let d ← d.handle e
      run d es

end Decoder

/-- Whether a value is an object. -/
def isObject : Json → Bool
  | .object _ => true
  | _ => false

/-- The value of a stream of events. -/
def decode (es : List Event) : Except String Json := do
  let d ← Decoder.run {} es
  if d.documents ≠ 1 ∨ isObject d.root = false then .error "root must be a mapping" else .ok d.root

/-- `parse_document`, of a text of so many bytes, with the events that the parser delivers and the
text of its exception. -/
def parseDocument (bytes : ℕ) (es : List Event) (failure : Option String) : Except Error Json :=
  if 1024 * 1024 < bytes then .error ⟨"document_limit", "$", "document exceeds 1 MiB"⟩
  else
    match Decoder.run {} es, failure with
    | .error message, _ => .error ⟨"parse_error", "$", message⟩
    | .ok _, some message => .error ⟨"parse_error", "$", message⟩
    | .ok _, none =>
      match decode es with
      | .error message => .error ⟨"parse_error", "$", message⟩
      | .ok v => .ok v

/-! ## Documents -/

/-- A document as it is composed. -/
inductive Yaml
  | null (anchor : ℕ)
  /-- An alias. -/
  | reference (anchor : ℕ)
  /-- A node with a name that aliases may use. -/
  | anchored (name : String) (node : Yaml)
  | scalar (tag : String) (anchor : ℕ) (text : String)
  | seq (tag : String) (anchor : ℕ) (items : List Yaml)
  | map (tag : String) (anchor : ℕ) (entries : List (Yaml × Yaml))

namespace Yaml

mutual

/-- The events of a node, in order. -/
def events : Yaml → List Event
  | .null anchor => [.null anchor]
  | .reference anchor => [.reference anchor]
  | .anchored name node => .anchor name :: node.events
  | .scalar tag anchor text => [.scalar tag anchor text]
  | .seq tag anchor items => .sequenceStart tag anchor :: (itemsEvents items ++ [.sequenceEnd])
  | .map tag anchor entries => .mapStart tag anchor :: (entriesEvents entries ++ [.mapEnd])

def itemsEvents : List Yaml → List Event
  | [] => []
  | n :: ns => n.events ++ itemsEvents ns

def entriesEvents : List (Yaml × Yaml) → List Event
  | [] => []
  | (k, v) :: es => k.events ++ (v.events ++ entriesEvents es)

end

mutual

/-- How many values are counted: scalars, keys and collections. -/
def size : Yaml → ℕ
  | .seq _ _ items => 1 + itemsSize items
  | .map _ _ entries => 1 + entriesSize entries
  | .anchored _ node => node.size
  | _ => 1

def itemsSize : List Yaml → ℕ
  | [] => 0
  | n :: ns => n.size + itemsSize ns

def entriesSize : List (Yaml × Yaml) → ℕ
  | [] => 0
  | (k, v) :: es => k.size + (v.size + entriesSize es)

end

mutual

/-- How deep collections are nested. -/
def depth : Yaml → ℕ
  | .seq _ _ items => 1 + itemsDepth items
  | .map _ _ entries => 1 + entriesDepth entries
  | .anchored _ node => node.depth
  | _ => 0

def itemsDepth : List Yaml → ℕ
  | [] => 0
  | n :: ns => max n.depth (itemsDepth ns)

def entriesDepth : List (Yaml × Yaml) → ℕ
  | [] => 0
  | (k, v) :: es => max k.depth (max v.depth (entriesDepth es))

end

/-- The text of a scalar, which is what makes it a key. -/
def keyText : Yaml → Option String
  | .scalar _ _ text => some text
  | _ => none

/-- The keys that are scalars. -/
def keyTexts (entries : List (Yaml × Yaml)) : List String :=
  entries.filterMap fun e => e.1.keyText

mutual

/-- There are no anchors, aliases or explicit tags, and in each mapping the keys are scalars, each
once, and none is `<<`. -/
def Clean : Yaml → Prop
  | .null anchor => anchor = 0
  | .reference _ => False
  | .anchored _ _ => False
  | .scalar tag anchor _ => plainTag tag = true ∧ anchor = 0
  | .seq tag anchor items => plainTag tag = true ∧ anchor = 0 ∧ ItemsClean items
  | .map tag anchor entries =>
    plainTag tag = true ∧ anchor = 0 ∧ EntriesClean entries ∧ (keyTexts entries).Nodup

def ItemsClean : List Yaml → Prop
  | [] => True
  | n :: ns => n.Clean ∧ ItemsClean ns

def EntriesClean : List (Yaml × Yaml) → Prop
  | [] => True
  | (k, v) :: es =>
    (k.Clean ∧ k.keyText ≠ none ∧ k.keyText ≠ some "<<") ∧ v.Clean ∧ EntriesClean es

end

mutual

/-- The JSON value of a node. -/
def value : Yaml → Json
  | .scalar tag _ text => scalarValue tag text
  | .seq _ _ items => .array (itemsValue items)
  | .map _ _ entries => (Json.object []).setAll (entriesValue entries)
  | _ => .null

def itemsValue : List Yaml → List Json
  | [] => []
  | n :: ns => n.value :: itemsValue ns

def entriesValue : List (Yaml × Yaml) → List (String × Json)
  | [] => []
  | (k, v) :: es => (k.keyText.getD "", v.value) :: entriesValue es

end

end Yaml

/-- The events of documents, one after the other. -/
def stream (nodes : List Yaml) : List Event :=
  nodes.flatMap fun n => .documentStart :: (n.events ++ [.documentEnd])

/-! ## JSON texts -/

mutual

/-- A JSON text as the parser composes it: quoted scalars have the tag `!`, other ones and
collections have `tag`. -/
def yamlOf (tag : String) : Json → Yaml
  | .null => .null 0
  | .bool b => .scalar tag 0 (if b then "true" else "false")
  | .number n => .scalar tag 0 (toString n)
  | .real text => .scalar tag 0 text
  | .string s => .scalar "!" 0 s
  | .array values => .seq tag 0 (yamlItems tag values)
  | .object fields => .map tag 0 (yamlEntries tag fields)

def yamlItems (tag : String) : List Json → List Yaml
  | [] => []
  | v :: vs => yamlOf tag v :: yamlItems tag vs

def yamlEntries (tag : String) : List (String × Json) → List (Yaml × Yaml)
  | [] => []
  | (k, v) :: fs => (.scalar "!" 0 k, yamlOf tag v) :: yamlEntries tag fs

end

mutual

/-- Values of strings, booleans, nulls and signed 64-bit integers, without the key `<<`. -/
def Portable : Json → Prop
  | .number n => -2 ^ 63 ≤ n ∧ n < 2 ^ 63
  | .real _ => False
  | .array values => PortableValues values
  | .object fields => PortableFields fields
  | _ => True

def PortableValues : List Json → Prop
  | [] => True
  | v :: vs => Portable v ∧ PortableValues vs

def PortableFields : List (String × Json) → Prop
  | [] => True
  | (k, v) :: fs => k ≠ "<<" ∧ Portable v ∧ PortableFields fs

end

end Graphlab.Contracts
