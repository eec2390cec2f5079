import Classwright.Path

/-!
Access to files. What a program does with files is written once for every monad that has them
(`Files`): the one that talks to the system, and the pure one over a tree of files.
-/

namespace Classwright

inductive FileFault where
  | missing | notDirectory | isDirectory
  | other (message : Text)

def FileFault.message : FileFault → Text
  | missing => "no such file or directory"
  | notDirectory => "not a directory"
  | isDirectory => "is a directory"
  | other m => m

/-- What was done when a fault was met. -/
inductive FileAction where
  | opening | reading | making

def FileAction.name : FileAction → Text
  | opening => "open"
  | reading => "read"
  | making => "mkdir"

structure FileError where
  action : FileAction
  path : Text
  fault : FileFault

def FileError.message (e : FileError) : Text :=
  e.action.name ++ " " ++ e.path ++ ": " ++ e.fault.message

/-- Files that can be read and written. -/
class Files (m : Type → Type) where
  read : Text → m (Except FileError Text)
  /-- Whether there is a file or a directory at a path. -/
  isThere : Text → m Bool
  /-- Makes a directory and those on the way to it, where there are none yet. -/
  makeDirectory : Text → m (Except FileError Unit)
  write : Text → Text → m (Except FileError Unit)
  /-- The path from the root to the working directory. -/
  workingDirectory : m Text

/-- The path from the root. -/
def Files.absolute {m : Type → Type} [Monad m] [Files m] (path : Text) : m Text := do
  if Path.isRooted path then return Path.clean path
  else return Path.join (← Files.workingDirectory) path

end Classwright
