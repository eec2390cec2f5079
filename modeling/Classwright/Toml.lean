import Classwright.Text

/-!
Settings in TOML. A text is a list of lines (`Toml.Line`): headers that open a table, headers that
open one more table of a list, and values under dotted keys. A `Toml.Document` is what the lines say
together, and `Document.ofLines` refuses lines that contradict each other. A table that was never
named itself, only passed through by a longer key, is implied; naming it once later is no
contradiction. Nor is a longer key that passes through an array, or an array under the key of an
implied table: the earlier value gives way.

An inline table is written into the document while it is read, so that what is implied in it is
known there. What it is worth by itself, as an item of an array, is gathered beside that: there the
last value under a key counts.
-/

namespace Classwright.Toml

/-- A dotted key. -/
abbrev Key := List Text

/-- A value in its written form. Numbers and times keep their spelling. -/
inductive Written where
  | text (t : Text)
  | number (spelling : Text)
  | truth (b : Bool)
  | moment (spelling : Text)
  | array (items : List Written)
  | inline (pairs : List (Key × Written))

inductive Line where
  /-- Opens a table. -/
  | header (k : Key)
  /-- Opens one more table of a list. -/
  | element (k : Key)
  | pair (k : Key) (v : Written)

inductive Value where
  | text (t : Text)
  | number (spelling : Text)
  | truth (b : Bool)
  | moment (spelling : Text)
  | array (items : List Value)
  | table (entries : List (Text × Value))
  /-- The tables that headers opened one after the other. -/
  | tables (items : List (List (Text × Value)))

abbrev Table := List (Text × Value)

namespace Table

/-- The table with a value put under a name, instead of the one there if there is one. -/
def put (name : Text) (v : Value) : Table → Table
  | [] => [(name, v)]
  | (n, w) :: t => if n = name then (n, v) :: t else (n, w) :: put name v t

/-- The table at a key. In a list of tables the last one counts. -/
def at? : Key → Table → Option Table
  | [], t => some t
  | n :: k, t =>
    match t.lookup n with
    | some (.table u) => at? k u
    | some (.tables us) => us.getLast?.bind (at? k)
    | _ => none

/-- Changes the table at a key. -/
def modifyAt (f : Table → Table) : Key → Table → Option Table
  | [], t => some (f t)
  | n :: k, t =>
    match t.lookup n with
    | some (.table u) => (modifyAt f k u).map fun u => t.put n (.table u)
    | some (.tables us) =>
      match us.getLast? with
      | none => none
      | some u => (modifyAt f k u).map fun u => t.put n (.tables (us.dropLast ++ [u]))
    | _ => none

/-- The table with a value under a dotted key. Where there are no tables along the key, they are
made. -/
def putDeep (name : Text) (v : Value) : Key → Table → Option Table
  | [], t => some (t.put name v)
  | n :: k, t =>
    match t.lookup n with
    | none => (putDeep name v k []).map fun u => t.put n (.table u)
    | some (.table u) => (putDeep name v k u).map fun u => t.put n (.table u)
    | some _ => none

end Table

structure Document where
  root : Table := []
  /-- The keys of the tables that are implied. -/
  implied : List Key := []
  /-- The keys that arrays were last put under. All tables of a list share their keys. -/
  arrays : List Key := []

namespace Document

def imply (d : Document) (k : Key) : Document := { d with implied := k :: d.implied }

def unimply (d : Document) (k : Key) : Document :=
  { d with implied := d.implied.filter (· != k) }

/-- Notes whether what is put under a name of the table at `ctx` is an array. For an empty name that
is noted of the table. -/
def note (d : Document) (ctx : Key) (name : Text) (isArray : Bool) : Document :=
  let k := if name.isEmpty && !ctx.isEmpty then ctx else ctx ++ [name]
  let others := d.arrays.filter (· != k)
  { d with arrays := if isArray then k :: others else others }

def put (d : Document) (ctx : Key) (name : Text) (v : Value) : Option Document :=
  (d.root.modifyAt (Table.put name v) ctx).map fun t => { d with root := t }

/-- Gives a meaning to a name in the table at `ctx`. If the name has one already, it has to be an
implied one: that gives way if an array was put there, and stays as it is otherwise. -/
def define (d : Document) (ctx : Key) (name : Text) (v : Value) : Option Document :=
  match d.root.at? ctx with
  | none => none
  | some t =>
    let k := ctx ++ [name]
    if (t.lookup name).isNone then d.put ctx name v
    else if d.implied.contains k then
      let d := d.unimply k
      if d.arrays.contains k then d.put ctx name v else some d
    else none

/-- Makes sure that there are tables along a key below `ctx`; the new ones are implied. -/
def openParents (d : Document) (ctx : Key) : Key → Option Document
  | [] => some d
  | n :: k =>
    match d.root.at? ctx with
    | none => none
    | some t =>
      if (t.lookup n).isSome then d.openParents (ctx ++ [n]) k
      else match d.put ctx n (.table []) with
        | none => none
        | some d => (d.imply (ctx ++ [n])).openParents (ctx ++ [n]) k

/-- Opens the table with a key. -/
def openTable (d : Document) (k : Key) : Option Document :=
  match k.getLast? with
  | none => none
  | some name => do
    let d ← d.openParents [] k.dropLast
    d.define k.dropLast name (.table [])

/-- Opens one more table of the list with a key. -/
def openElement (d : Document) (k : Key) : Option Document :=
  match k.getLast? with
  | none => none
  | some name => do
    let d ← d.openParents [] k.dropLast
    let t ← d.root.at? k.dropLast
    match t.lookup name with
    | none => d.put k.dropLast name (.tables [[]])
    | some (.tables us) => d.put k.dropLast name (.tables (us ++ [[]]))
    | some _ => none

/-- Passes through the tables that the front of a dotted key names below `ctx`. -/
def pass (d : Document) (ctx : Key) : Key → Option Document
  | [] => some d
  | n :: k =>
    match (d.imply (ctx ++ [n])).openTable (ctx ++ [n]) with
    | none => none
    | some d => d.pass (ctx ++ [n]) k

/-- Puts a value under a name of the table at `ctx`. -/
def assign (d : Document) (ctx : Key) (name : Text) (v : Value) : Option Document :=
  (d.define ctx name v).map (·.note ctx name (v matches .array _))

end Document

mutual

/-- The value of a form that is written under a name of the table at `ctx`, and the document with
what the tables inside it say. -/
def Written.value (d : Document) (ctx : Key) (name : Text) (inArray : Bool) :
    Written → Option (Value × Document)
  | .text t => some (.text t, d)
  | .number s => some (.number s, d)
  | .truth b => some (.truth b, d)
  | .moment s => some (.moment s, d)
  | .array items => do
    let (vs, d) ← Written.values (d.note ctx name true) ctx name items
    some (.array vs, d)
  | .inline pairs => do
    let k := ctx ++ [name]
    let d := d.imply k
    let d ← if inArray then d.openElement k else d.openTable k
    let (t, d) ← Written.table d k [] pairs
    some (.table t, d)

/-- The values of the items of an array. -/
def Written.values (d : Document) (ctx : Key) (name : Text) :
    List Written → Option (List Value × Document)
  | [] => some ([], d)
  | w :: ws => do
    let (v, d) ← w.value d ctx name true
    let (vs, d) ← Written.values d ctx name ws
    some (v :: vs, d)

/-- The table that pairs of the table at `ctx` make by themselves, after those gathered in `t`, and
the document with what they say. -/
def Written.table (d : Document) (ctx : Key) (t : Table) :
    List (Key × Written) → Option (Table × Document)
  | [] => some (t, d)
  | (k, w) :: pairs =>
    match k.getLast? with
    | none => none
    | some name => do
      let ctx' := ctx ++ k.dropLast
      let d ← d.pass ctx k.dropLast
      let (v, d) ← w.value d ctx' name false
      let d ← d.assign ctx' name v
      let t ← t.putDeep name v k.dropLast
      Written.table d ctx t pairs

end

namespace Document

/-- What lines say after those of a document; `ctx` is the key of the open table. -/
def addLines (d : Document) (ctx : Key) : List Line → Option Document
  | [] => some d
  | .header k :: ls => do
    let d ← d.openTable k
    (d.note k [] false).addLines k ls
  | .element k :: ls => do
    let d ← d.openElement k
    (d.note k [] false).addLines k ls
  | .pair k w :: ls => do
    let (_, d) ← Written.table d ctx [] [(k, w)]
    d.addLines ctx ls

def ofLines (ls : List Line) : Option Document := addLines {} [] ls

end Document

end Classwright.Toml
