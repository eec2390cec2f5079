import Classwright.Text

/-!
Paths of files, with slashes between their parts.
-/

namespace Classwright.Path

def slash : UInt8 := ascii '/'

/-- The parts of a path between slashes. -/
def parts (t : Text) : List Text := t.splitOnP (· == slash)

/-- The path without empty parts, parts `.` and parts that a `..` takes back; `kept` holds what is
kept so far, the last one first. -/
def cleanParts (rooted : Bool) (kept : List Text) : List Text → List Text
  | [] => kept.reverse
  | p :: ps =>
    if p = [] ∨ p = "." then cleanParts rooted kept ps
    else if p = ".." then
      match kept with
      | [] => if rooted then cleanParts rooted [] ps else cleanParts rooted [p] ps
      | k :: ks =>
        if k = ".." then cleanParts rooted (p :: k :: ks) ps else cleanParts rooted ks ps
    else cleanParts rooted (p :: kept) ps

def isRooted (t : Text) : Bool := t.head? == some slash

/-- The shortest path to the same place. -/
def clean (t : Text) : Text :=
  let kept := Text.join [slash] (cleanParts (isRooted t) [] (parts t))
  if isRooted t then slash :: kept else if kept.isEmpty then "." else kept

/-- A path inside another one. -/
def join (dir file : Text) : Text :=
  if dir.isEmpty then if file.isEmpty then [] else clean file
  else if file.isEmpty then clean dir
  else clean (dir ++ [slash] ++ file)

/-- The last part of a path. -/
def base (t : Text) : Text :=
  if t.isEmpty then "."
  else
    let trimmed := (t.reverse.dropWhile (· == slash)).takeWhile (· != slash)
    if trimmed.isEmpty then [slash] else trimmed.reverse

/-- The path without its last part. -/
def dir (t : Text) : Text := clean (t.reverse.dropWhile (· != slash)).reverse

end Classwright.Path
