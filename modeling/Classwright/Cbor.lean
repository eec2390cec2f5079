import Classwright.Text.BigEndian
import Classwright.Text.Utf8

/-!
CBOR items. `Cbor.encode` writes heads in their shortest form; `Cbor.decode?` reads any well-formed
item, with short or long heads and with definite or indefinite lengths, within limits on nesting and
on the number of elements.
-/

namespace Classwright

inductive Cbor where
  | uint (n : Nat)
  /-- The number `-1 - n`. -/
  | nint (n : Nat)
  | bytes (b : Text)
  /-- A text in the pieces it came in. -/
  | text (chunks : List Text)
  | array (items : List Cbor)
  | map (pairs : List (Cbor × Cbor))
  | tag (n : Nat) (item : Cbor)
  | bool (b : Bool)
  | null
  | simple (n : Nat)
  | float

namespace Cbor

/-! ### Writing -/

/-- The head of an item with its major type and number. -/
def head (major n : Nat) : Text :=
  let first (info : Nat) : UInt8 := UInt8.ofNat (32 * major + info)
  if n < 24 then [first n]
  else if n < 256 then first 24 :: Text.bigEndian 1 n
  else if n < 65536 then first 25 :: Text.bigEndian 2 n
  else if n < 4294967296 then first 26 :: Text.bigEndian 4 n
  else first 27 :: Text.bigEndian 8 n

mutual

/-- The canonical form of an item without floats. -/
def encode : Cbor → Text
  | uint n => head 0 n
  | nint n => head 1 n
  | bytes b => head 2 b.length ++ b
  | text chunks => head 3 chunks.flatten.length ++ chunks.flatten
  | array items => head 4 items.length ++ encodeAll items
  | map pairs => head 5 pairs.length ++ encodePairs pairs
  | tag n item => head 6 n ++ encode item
  | bool b => [if b then 0xF5 else 0xF4]
  | null => [0xF6]
  | simple n => head 7 n
  | float => [0xF9, 0x7E, 0x00]

def encodeAll : List Cbor → Text
  | [] => []
  | item :: items => encode item ++ encodeAll items

def encodePairs : List (Cbor × Cbor) → Text
  | [] => []
  | (k, v) :: pairs => encode k ++ encode v ++ encodePairs pairs

end

/-! ### Reading -/

/-- The head of an item. -/
structure Head where
  major : Nat
  info : Nat
  value : Nat

/-- How deep items may nest. -/
def maxDepth : Nat := 32

/-- How many elements an array, or pairs a map, may have. -/
def maxElements : Nat := 131072

/-- The number of the first bytes, the highest first, and what follows them. -/
def number? (width : Nat) (t : Text) :
    Option (Nat × { rest : Text // rest.length ≤ t.length }) :=
  let front := t.take width
  if front.length < width then none
  else some (front.foldl (fun n b => 256 * n + b.toNat) 0,
    ⟨t.drop width, by simp only [List.length_drop]; omega⟩)

/-- Reads a head. -/
def head? (t : Text) : Option (Head × { rest : Text // rest.length < t.length }) :=
  match t with
  | [] => none
  | b :: rest =>
    let major := b.toNat / 32
    let info := b.toNat % 32
    let wide (width : Nat) :
        Option (Head × { r : Text // r.length < (b :: rest).length }) := do
      let (n, ⟨r, h⟩) ← number? width rest
      return (⟨major, info, n⟩, ⟨r, Nat.lt_succ_of_le h⟩)
    if info < 24 then some (⟨major, info, info⟩, ⟨rest, Nat.lt_succ_self _⟩)
    else if info = 24 then do
      let (h, rest) ← wide 1
      if major = 7 ∧ h.value < 32 then none else some (h, rest)
    else if info = 25 then wide 2
    else if info = 26 then wide 4
    else if info = 27 then wide 8
    else if info = 31 ∧ 2 ≤ major ∧ major ≤ 5 then
      some (⟨major, info, 0⟩, ⟨rest, Nat.lt_succ_self _⟩)
    else none

/-- The pieces of a string of indefinite length, each a definite one of the same type. -/
def chunks? (major : Nat) (t : Text) :
    Option (List Text × { rest : Text // rest.length < t.length }) :=
  match t with
  | [] => none
  | b :: rest => do
    if b = 0xFF then return ([], ⟨rest, Nat.lt_succ_self _⟩)
    let (h, ⟨r1, h1⟩) ← head? (b :: rest)
    let chunk := r1.take h.value
    if h.major ≠ major ∨ h.info = 31 ∨ chunk.length < h.value then none
    else
      let (cs, ⟨r2, h2⟩) ← chunks? major (r1.drop h.value)
      return (chunk :: cs,
        ⟨r2, by simp only [List.length_drop] at h2; omega⟩)
  termination_by t.length
  decreasing_by simp only [List.length_drop]; omega

/-- What a string's pieces make: bytes, or a text in pieces. -/
def stringOf (major : Nat) (chunks : List Text) : Cbor :=
  if major = 2 then bytes chunks.flatten else text chunks

/-- The item of a simple value or a float. -/
def primitive (h : Head) : Cbor :=
  if h.info = 20 then bool false
  else if h.info = 21 then bool true
  else if h.info = 22 ∨ h.info = 23 then null
  else if h.info = 25 ∨ h.info = 26 ∨ h.info = 27 then float
  else simple h.value

/-- Consecutive items as the pairs of a map. -/
def pairUp : List Cbor → List (Cbor × Cbor)
  | k :: v :: items => (k, v) :: pairUp items
  | _ => []

mutual

/-- Reads an item below `depth` arrays, maps and nested tags. -/
def item? (depth : Nat) (t : Text) : Option (Cbor × { rest : Text // rest.length < t.length }) := do
  let (h, ⟨r1, h1⟩) ← head? t
  if h.major = 0 then return (uint h.value, ⟨r1, h1⟩)
  else if h.major = 1 then return (nint h.value, ⟨r1, h1⟩)
  else if h.major = 2 ∨ h.major = 3 then
    if h.info = 31 then
      let (cs, ⟨r2, h2⟩) ← chunks? h.major r1
      return (stringOf h.major cs, ⟨r2, by omega⟩)
    else
      let chunk := r1.take h.value
      if chunk.length < h.value then none
      else return (stringOf h.major [chunk],
        ⟨r1.drop h.value, by simp only [List.length_drop]; omega⟩)
  else if h.major = 4 ∨ h.major = 5 then
    if maxDepth ≤ depth then none
    else if h.info = 31 then
      let (xs, ⟨r2, h2⟩) ← itemsToBreak? (depth + 1) r1
      if h.major = 4 then
        if maxElements < xs.length then none else return (array xs, ⟨r2, by omega⟩)
      else if xs.length % 2 = 1 ∨ maxElements < xs.length / 2 then none
      else return (map (pairUp xs), ⟨r2, by omega⟩)
    else if maxElements < h.value then none
    else
      let (xs, ⟨r2, h2⟩) ← items? (depth + 1) (if h.major = 4 then h.value else 2 * h.value) r1
      return (if h.major = 4 then array xs else map (pairUp xs), ⟨r2, by omega⟩)
  else if h.major = 6 then
    let nested := r1.headD 0 / 32 = 6
    if nested ∧ maxDepth ≤ depth then none
    else
      let (x, ⟨r2, h2⟩) ← item? (if nested then depth + 1 else depth) r1
      return (tag h.value x, ⟨r2, by omega⟩)
  else return (primitive h, ⟨r1, h1⟩)
  termination_by (t.length, 0)

/-- Reads a number of items. -/
def items? (depth n : Nat) (t : Text) :
    Option (List Cbor × { rest : Text // rest.length ≤ t.length }) :=
  match n with
  | 0 => some ([], ⟨t, Nat.le_refl _⟩)
  | n + 1 => do
    let (x, ⟨r1, h1⟩) ← item? depth t
    let (xs, ⟨r2, h2⟩) ← items? depth n r1
    return (x :: xs, ⟨r2, by omega⟩)
  termination_by (t.length, 1)

/-- Reads items up to the mark that ends an indefinite length. -/
def itemsToBreak? (depth : Nat) (t : Text) :
    Option (List Cbor × { rest : Text // rest.length < t.length }) :=
  match t with
  | [] => none
  | b :: rest => do
    if b = 0xFF then return ([], ⟨rest, Nat.lt_succ_self _⟩)
    let (x, ⟨r1, h1⟩) ← item? depth (b :: rest)
    let (xs, ⟨r2, h2⟩) ← itemsToBreak? depth r1
    return (x :: xs, ⟨r2, by omega⟩)
  termination_by (t.length, 1)

end

/-- The item that some bytes are, with nothing after it. -/
def decode? (t : Text) : Option Cbor :=
  match item? 0 t with
  | some (x, ⟨[], _⟩) => some x
  | _ => none

end Cbor

end Classwright
