import Classwright.Files

/-!
A tree of files held in memory. Paths are followed part by part, as a system does: a part may only
be followed out of a directory, and `..` leads back to where the path came from.
-/

namespace Classwright

inductive FileTree where
  | file (content : Text)
  | directory (entries : List (Text × FileTree))

namespace FileTree

def empty : FileTree := .directory []

def child? (name : Text) : FileTree → Option FileTree
  | .file _ => none
  | .directory es => es.lookup name

def isDirectory : FileTree → Bool
  | .file _ => false
  | .directory _ => true

/-- The node at the names of parts. -/
def at? : List Text → FileTree → Option FileTree
  | [], t => some t
  | n :: ns, t => (t.child? n).bind (at? ns)

def putChild (name : Text) (node : FileTree) : List (Text × FileTree) → List (Text × FileTree)
  | [] => [(name, node)]
  | (n, t) :: es => if n = name then (n, node) :: es else (n, t) :: putChild name node es

/-- The tree with a node put at the names of parts; directories on the way are made, and files stand
in the way. -/
def put : FileTree → List Text → FileTree → FileTree
  | _, [], node => node
  | .file c, _ :: _, _ => .file c
  | .directory es, n :: ns, node =>
    .directory (putChild n (put ((es.lookup n).getD empty) ns node) es)

mutual

/-- The files of a tree with their paths; `names` holds the parts above it, the last one first. -/
def filesBelow (names : List Text) : FileTree → List (Text × Text)
  | .file c => [(Text.join [Path.slash] names.reverse, c)]
  | .directory es => filesOf names es

def filesOf (names : List Text) : List (Text × FileTree) → List (Text × Text)
  | [] => []
  | (n, t) :: es => filesBelow (n :: names) t ++ filesOf names es

end

/-- The files of a tree with their paths. -/
def files (t : FileTree) : List (Text × Text) := filesBelow [] t

/-- A place in a tree that a path leads to: a node that is there, or a name in a directory that has
nothing of that name. -/
inductive Place where
  | found (names : List Text) (node : FileTree)
  | free (names : List Text)

/-- Follows the parts of a path; `names` are the names that lead to where it stands. Empty parts and
`.` stay in place, but only in a directory. -/
def follow (root : FileTree) (names : List Text) : List Text → Except FileFault Place
  | [] =>
    match root.at? names with
    | none => .error .missing
    | some node => .ok (.found names node)
  | p :: ps =>
    match root.at? names with
    | none => .error .missing
    | some (.file _) => .error .notDirectory
    | some (.directory es) =>
      if p = [] ∨ p = "." then follow root names ps
      else if p = ".." then follow root names.dropLast ps
      else if (es.lookup p).isNone && ps.isEmpty then .ok (.free (names ++ [p]))
      else follow root (names ++ [p]) ps

end FileTree

/-- A tree of files with a place to work in, and what has been printed there. -/
structure Session where
  root : FileTree := .empty
  /-- The names of the directories that lead to the working directory. -/
  working : List Text := []
  out : Text := []
  err : Text := []

namespace Session

def workingPath (s : Session) : Text := Path.slash :: Text.join [Path.slash] s.working

/-- Where a path leads. -/
def follow (s : Session) (path : Text) : Except FileFault FileTree.Place :=
  if path.isEmpty then .error .missing
  else s.root.follow (if Path.isRooted path then [] else s.working) (Path.parts path)

def read (s : Session) (path : Text) : Except FileError Text :=
  match s.follow path with
  | .error e => .error ⟨.opening, path, e⟩
  | .ok (.free _) => .error ⟨.opening, path, .missing⟩
  | .ok (.found _ (.directory _)) => .error ⟨.reading, path, .isDirectory⟩
  | .ok (.found _ (.file c)) => .ok c

def isThere (s : Session) (path : Text) : Bool :=
  match s.follow path with
  | .ok (.found ..) => true
  | _ => false

/-- The session with a file written. -/
def write (s : Session) (path content : Text) : Except FileError Session :=
  match s.follow path with
  | .error e => .error ⟨.opening, path, e⟩
  | .ok (.found _ (.directory _)) => .error ⟨.opening, path, .isDirectory⟩
  | .ok (.found names (.file _)) | .ok (.free names) =>
    .ok { s with root := s.root.put names (.file content) }

/-- The session with directories made for the paths in turn. -/
def makeEach (s : Session) : List Text → Except FileError Session
  | [] => .ok s
  | path :: paths =>
    match s.follow path with
    | .error e => .error ⟨.making, path, e⟩
    | .ok (.found _ (.file _)) => .error ⟨.making, path, .notDirectory⟩
    | .ok (.found _ (.directory _)) => s.makeEach paths
    | .ok (.free names) => makeEach { s with root := s.root.put names .empty } paths

/-- The paths on the way to a path, and the path itself. -/
def waypoints (path : Text) : List Text :=
  let parts := Path.parts path
  ((List.range parts.length).map fun i => Text.join [Path.slash] (parts.take (i + 1))).filter
    (!·.isEmpty)

/-- The session with a directory made, and those on the way to it. -/
def makeDirectory (s : Session) (path : Text) : Except FileError Session :=
  s.makeEach (waypoints path)

/-- Takes up a session that something may have changed. -/
def commit (r : Except FileError Session) : StateM Session (Except FileError Unit) :=
  match r with
  | .error e => pure (.error e)
  | .ok s => do
    set s
    return .ok ()

instance : Files (StateM Session) where
  read path := do return (← get).read path
  isThere path := do return (← get).isThere path
  makeDirectory path := do commit ((← get).makeDirectory path)
  write path content := do commit ((← get).write path content)
  workingDirectory := do return (← get).workingPath

end Session

end Classwright
