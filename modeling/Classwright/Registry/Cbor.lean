import Classwright.Cbor
import Classwright.Registry.Wire

/-!
Files of registries in CBOR: a map with the version under key 1 and the functions under key 2; a
function is a map with its dispatch, name, owner and descriptor under the keys 1 to 4.
-/

namespace Classwright.Wire

/-! ### Writing -/

def ofInt (i : Int) : Cbor := if i < 0 then .nint (-1 - i).toNat else .uint i.toNat

def ofEntry (e : Entry) : Cbor :=
  .map [(.uint 1, ofInt e.dispatch), (.uint 2, .text [e.name]), (.uint 3, .text [e.owner]),
    (.uint 4, .text [e.desc])]

def ofEntries (es : List Entry) : Cbor := if es.isEmpty then .null else .array (es.map ofEntry)

def ofTable (t : Table) : Cbor := .map [(.uint 1, ofInt t.version), (.uint 2, ofEntries t.entries)]

/-! ### Reading -/

/-- The number that announces CBOR itself; it says nothing about the item. -/
def selfTag : Nat := 55799

/-- The item behind its tags. The tags of times and big numbers must stand before an item of the
right type; a big number becomes the number it is. -/
def untag? : Cbor → Option Cbor
  | .tag n x =>
    if n = selfTag then untag? x
    else if n = 0 then (match x with | .text _ => untag? x | _ => none)
    else if n = 1 then (match x with | .uint _ | .nint _ | .float => untag? x | _ => none)
    else if n = 2 then
      match x with
      | .bytes b => some (.uint (b.foldl (fun n c => 256 * n + c.toNat) 0))
      | _ => none
    else if n = 3 then
      match x with
      | .bytes b => some (.nint (b.foldl (fun n c => 256 * n + c.toNat) 0))
      | _ => none
    else untag? x
  | x => some x

/-- Numbers stay below this, or down to it with a minus sign: it is 2^63. -/
def limit : Nat := 0x8000000000000000

/-- A number; nothing keeps the one that was there. -/
def int? (old : Int) (x : Cbor) : Option Int := do
  match ← untag? x with
  | .uint n => if n < limit then some n else none
  | .nint n => if n < limit then some (-1 - n) else none
  | .simple n => some n
  | .null => some old
  | _ => none

/-- A text in UTF-8; nothing keeps the one that was there. -/
def text? (old : Text) (x : Cbor) : Option Text := do
  match ← untag? x with
  | .text chunks => if chunks.all Utf8.isValid then some chunks.flatten else none
  | .null => some old
  | _ => none

/-- The key of a field: a number, or a text that spells one. A number below the range of a word is
refused. -/
inductive Key where
  | field (n : Int)
  | unknown

def key? (x : Cbor) : Option Key :=
  match x with
  | .uint n => some (.field n)
  | .nint n => if n < 0x8000000000000000 then some (.field (-1 - n)) else none
  | .text chunks =>
    if chunks.all Utf8.isValid then
      match chunks.flatten with
      | [c] => if Text.isDigit c then some (.field (c.toNat - 48 : Nat)) else some .unknown
      | _ => some .unknown
    else none
  | _ => none

/-- Reads the pairs of a map in turn. A key that was read before is passed over. -/
def fields? {α : Type} (set : Int → Cbor → α → Option α) (known : Int → Bool) :
    List Int → α → List (Cbor × Cbor) → Option α
  | _, a, [] => some a
  | seen, a, (k, v) :: pairs => do
    match ← key? k with
    | .field n =>
      if known n && !seen.contains n then fields? set known (n :: seen) (← set n v a) pairs
      else fields? set known seen a pairs
    | .unknown => fields? set known seen a pairs

/-- Reads a map; nothing keeps what was there. -/
def struct? {α : Type} (set : Int → Cbor → α → Option α) (known : Int → Bool) (old : α) (x : Cbor) :
    Option α := do
  match ← untag? x with
  | .map pairs => fields? set known [] old pairs
  | .null => some old
  | _ => none

def setEntry (n : Int) (v : Cbor) (e : Entry) : Option Entry :=
  if n = 1 then (int? e.dispatch v).map fun d => { e with dispatch := d }
  else if n = 2 then (text? e.name v).map fun t => { e with name := t }
  else if n = 3 then (text? e.owner v).map fun t => { e with owner := t }
  else (text? e.desc v).map fun t => { e with desc := t }

def entry? (x : Cbor) : Option Entry := struct? setEntry (fun n => 1 ≤ n && n ≤ 4) {} x

def entries? (x : Cbor) : Option (List Entry) := do
  match ← untag? x with
  | .array items => items.mapM entry?
  | .null => some []
  | _ => none

def setTable (n : Int) (v : Cbor) (t : Table) : Option Table :=
  if n = 1 then (int? t.version v).map fun i => { t with version := i }
  else (entries? v).map fun es => { t with entries := es }

/-- The file that some bytes hold. -/
def table? (t : Text) : Option Table := do
  struct? setTable (fun n => 1 ≤ n && n ≤ 2) {} (← Cbor.decode? t)

/-- Files in CBOR. Nothing that a table holds is refused when it is written. -/
def cbor : Codec where
  encode t := .ok (Cbor.encode (ofTable t))
  decode? := table?

end Classwright.Wire
