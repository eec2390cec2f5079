import Classwright.Command
import Classwright.Registry.Cbor

/-!
The program: commands over the files of the system.
-/

namespace Classwright.System

def toString (t : Text) : String := (String.fromUTF8? (ByteArray.mk t.toArray)).getD ""

def fault : IO.Error → FileFault
  | .noFileOrDirectory .. => .missing
  | .inappropriateType .. => .notDirectory
  | e => .other e.toString

def guarded {α : Type} (action : FileAction) (path : Text) (x : IO α) : IO (Except FileError α) :=
  tryCatch (Except.ok <$> x) fun e => return .error ⟨action, path, fault e⟩

instance : Files IO where
  read path := do
    let place := (← IO.currentDir) / toString path
    if path.isEmpty then return .error ⟨.opening, path, .missing⟩
    if ← place.isDir then return .error ⟨.reading, path, .isDirectory⟩
    guarded .opening path do return (← IO.FS.readBinFile place).toList
  isThere path := do ((← IO.currentDir) / toString path).pathExists
  makeDirectory path := do
    let place := (← IO.currentDir) / toString path
    if (← place.pathExists) && !(← place.isDir) then return .error ⟨.making, path, .notDirectory⟩
    guarded .making path (IO.FS.createDirAll place)
  write path content := do
    let place := (← IO.currentDir) / toString path
    if ← place.isDir then return .error ⟨.opening, path, .isDirectory⟩
    guarded .opening path (IO.FS.writeBinFile place (ByteArray.mk content.toArray))
  workingDirectory := do return Text.ofString (← IO.currentDir).toString

def put (s : IO.FS.Stream) (t : Text) : IO Unit := do
  s.write (ByteArray.mk t.toArray)
  s.flush

instance : Console IO where
  print t := do put (← IO.getStdout) t
  complain t := do put (← IO.getStderr) t

end Classwright.System

def main (args : List String) : IO UInt32 := do
  let code : UInt8 ← Classwright.Command.run Classwright.Wire.cbor (args.map Classwright.Text.ofString)
  return code.toUInt32
