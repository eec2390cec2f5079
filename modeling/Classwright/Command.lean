import Classwright.ClassFile.Decode
import Classwright.ClassFile.Listing
import Classwright.Compile
import Classwright.Config.Load
import Classwright.Files.Tree
import Classwright.Invocation
import Classwright.Registry.Wire
import Classwright.Syntax.Layout

/-!
The commands, for every monad with files and a console and every encoding of symbol files. Files are
worked on in turn; what was printed or written before a failure stays.
-/

namespace Classwright

/-- A place to print to. -/
class Console (m : Type → Type) where
  print : Text → m Unit
  /-- Prints apart from results. -/
  complain : Text → m Unit

instance : Console (StateM Session) where
  print t := modify fun s => { s with out := s.out ++ t }
  complain t := modify fun s => { s with err := s.err ++ t }

/-- Why the classes of a source cannot be written. -/
inductive WriteError where
  | encode (cls : Text) (cause : EncodeError)
  | directory (cause : FileError)
  | write (path : Text) (cause : FileError)

def WriteError.message : WriteError → Text
  | encode n e => "encode " ++ n ++ ": " ++ e.message
  | directory e => "mkdir: " ++ e.message
  | write p e => "write " ++ p ++ ": " ++ e.message

/-- Why the listing of a class cannot be printed. -/
structure UnlistedClass where
  cls : Text
  cause : ListingError

def UnlistedClass.message (e : UnlistedClass) : Text :=
  "class " ++ e.cls ++ ": " ++ e.cause.message

inductive SymbolsError where
  | file (cause : FileError)
  | wire (cause : WireError)
  | encode (message : Text)

def SymbolsError.message : SymbolsError → Text
  | file e => e.message
  | wire e => e.message
  | encode t => t

/-- Why a command fails. -/
inductive CommandError where
  | read (file : Text) (cause : FileError)
  /-- A source is refused, and it has been told why. -/
  | refused (file : Text)
  | report (file : Text) (r : Report)
  /-- A source is nested too deep to be laid out. -/
  | nested (file : Text)
  | symbols (file : Text) (cause : SymbolsError)
  | config (cause : Config.LoadError)
  | write (file : Text) (cause : WriteError)
  | exported (file : Text) (cause : SymbolsError)
  | listing (cause : UnlistedClass)
  | decode (file : Text) (cause : DecodeError)
  | dump (file : Text) (cause : UnlistedClass)

namespace CommandError

def message : CommandError → Text
  | read f e => "read " ++ f ++ ": " ++ e.message
  | refused f => f ++ ": compilation failed"
  | report f r => (r.within f).text
  | nested f => "format " ++ f ++ ": nested too deep"
  | symbols f e => "import " ++ f ++ ": " ++ e.message
  | config e => "config: " ++ e.message
  | write f e => "write " ++ f ++ ": " ++ e.message
  | exported f e => "export " ++ f ++ ": " ++ e.message
  | listing e => e.message
  | decode f e => "parse " ++ f ++ ": " ++ e.message
  | dump f e => Report.lead f ++ e.message

/-- Whether a command breaks off, instead of failing in an orderly way. -/
def breaksOff : CommandError → Bool
  | nested _ => true
  | _ => false

end CommandError

namespace Command

variable {m : Type → Type} [Monad m] [Files m] [Console m] (codec : Wire.Codec)

/-- Files at work, up to the first failure. -/
abbrev Run (m : Type → Type) := ExceptT CommandError m

/-- Waits for something that can fail, and says what its failure means for the command. -/
def attempt {ε α : Type} (x : m (Except ε α)) (failure : ε → CommandError) : Run m α :=
  ExceptT.mk do return (← x).mapError failure

def print (t : Text) : Run m Unit := ExceptT.lift (Console.print t)

def complain (t : Text) : Run m Unit := ExceptT.lift (Console.complain t)

/-- Refuses a source. A diagnostic is laid out for the reader first. -/
def refuse {α : Type} (o : Options) (file : Text) (r : Report) : Run m α :=
  match r.diagnostic? with
  | none => throw (.report file r)
  | some d => do
    complain (r.render file ++ (if o.debug && !d.isForm then "\n│> Logged from *\n" else "\n"))
    throw (.refused file)

/-- The text of a source. -/
def source (file : Text) : Run m Text :=
  attempt (Files.read file) fun e => .report file ⟨["read file"], .plain e.message⟩

/-! ## Tokens and layout -/

def tokenLine (t : Token) : Text :=
  Text.ofInt t.line ++ ":" ++ Text.ofInt t.col ++ "\t" ++ t.kind.name ++ "\t" ++ t.text.quoted
    ++ "\n"

def lexFile (o : Options) (file : Text) : Run m Unit := do
  let src ← attempt (Files.read file) (.read file)
  match Source.tokens src with
  | .error e => refuse o file (Failure.lex e).report
  | .ok ts => print (ts.flatMap tokenLine)

def parseFile (o : Options) (file : Text) : Run m Unit := do
  match Source.program (← source file) with
  | .error e => refuse o file e.report
  | .ok p =>
    match p.format? with
    | none => throw (.nested file)
    | some t => print t

/-! ## Compiling -/

def printClass (failure : UnlistedClass → CommandError) (c : ClassFile) : Run m Unit :=
  match c.listing with
  | .error e => throw (failure ⟨c.name, e⟩)
  | .ok t => print t

def symbolsExtension : Text := ".ixsym"

/-- The functions of symbol files. -/
def loadSymbols (done : List Registry) : List Text → Run m (List Registry)
  | [] => return done
  | p :: ps => do
    if p.isEmpty then loadSymbols done ps
    else
      let t ← attempt (Files.read p) fun e => .symbols p (.file e)
      match Registry.unmarshal codec t with
      | .error e => throw (.symbols p (.wire e))
      | .ok r => loadSymbols (done ++ [r]) ps

/-- The configuration for a source. -/
def configFor (o : Options) (file : Text) : Run m Config := do
  let c ← attempt (if o.config.isEmpty then Config.find (Path.dir file) else Config.load o.config)
    .config
  return if o.package.isEmpty then c else { c with package := o.package }

/-- Makes the directory of a file and writes it. -/
def writeFile {ε : Type} (path content : Text) (makes writes : FileError → ε) :
    ExceptT ε m Unit := do
  ExceptT.mk do return (← Files.makeDirectory (Path.dir path)).mapError makes
  ExceptT.mk do return (← Files.write path content).mapError writes

/-- Writes a registry to a file. -/
def saveSymbols (path : Text) (r : Registry) : ExceptT SymbolsError m Unit :=
  match r.marshal codec with
  | .error e => throw (.encode e)
  | .ok t => writeFile path t .file .file

/-- Writes classes where their names lead to. -/
def writeClasses (out : Text) : List ClassFile → ExceptT WriteError m Unit
  | [] => return
  | c :: cs => do
    match c.encode with
    | .error e => throw (.encode c.name e)
    | .ok (t, _) =>
      let path := Path.join out (c.name ++ ".class")
      writeFile path t .directory (.write path)
      writeClasses out cs

def compileFile (o : Options) (imports : List Registry) (file : Text) : Run m Registry := do
  let c ← configFor o file
  let src ← source file
  match ClassUnit.ofSource c imports file src with
  | .error e => refuse o file e.report
  | .ok (u, exports) =>
    attempt (writeClasses o.output u.classes).run (.write file)
    if o.exported && !u.main.isEmpty then
      let path := Path.join o.output (u.main ++ symbolsExtension)
      attempt (saveSymbols codec path exports).run (.exported file)
    if o.list then u.classes.forM (printClass .listing)
    return exports

/-- Compiles sources in turn. Later ones may call what earlier ones export. -/
def compileFiles (o : Options) (imports : List Registry) : List Text → Run m Unit
  | [] => return
  | file :: files => do
    let exports ← compileFile codec o imports file
    compileFiles o (imports ++ [exports]) files

/-! ## Class files -/

def dumpFile (file : Text) : Run m Unit := do
  let t ← attempt (Files.read file) (.read file)
  match ClassFile.decode t with
  | .error e => throw (.decode file e)
  | .ok c => printClass (.dump file) c

/-! ## All of it -/

def act (o : Options) (args : List Text) : Action → Run m Unit
  | .lex => args.forM (lexFile o)
  | .parse => args.forM (parseFile o)
  | .compile => do
    let imports ← loadSymbols codec [] (o.imports.splitOnP (· == ascii ','))
    compileFiles codec o imports args
  | .dump => args.forM dumpFile

/-! ### Help -/

/-- A line of help: what it is about, in a column of its own, and what is told about it. -/
def helpLine (subject description : Text) : Text :=
  "    " ++ subject.padRight 20 ++ " - " ++ description ++ "\n"

/-- The line on a flag, with its present value unless that is empty. -/
def flagLine (o : Options) (f : Flag) : Text :=
  let form : Text := if f = .help then "=[hidden]" else []
  let value := match o.get? f with
    | none | some [] => []
    | some v => " (default " ++ v ++ ")"
  helpLine (Text.join "," f.names ++ form) (f.description ++ value)

/-- The lines on some things under a title, if there are any. -/
def helpSection {α : Type} (title : Text) (line : α → Text) (xs : List α) : Text :=
  if xs.isEmpty then [] else "\n" ++ title ++ "\n" ++ xs.flatMap line

/-- What is told about a command, or about all of them. -/
def help (o : Options) : Option Action → Text
  | none =>
    "ix [flags] - ix compiles ix source code into jvm class files\n"
      ++ helpSection "Subcommands" (fun (a : Action) => helpLine a.name a.description) Action.all
      ++ helpSection "Flags" (flagLine o) Flag.common
  | some a =>
    a.name ++ " [flags_and_args] - " ++ a.description ++ "\n"
      ++ helpSection "Flags" (flagLine o) (Flag.own a)
      ++ helpSection "Flags of parent command ix" (flagLine o) Flag.common

/-! ### Running -/

/-- How a message of a command starts. -/
def errorLead : Option Action → Text
  | none => "error: "
  | some a => "error: " ++ a.name ++ ": "

/-- Runs a command line, and returns the exit code. -/
def run (args : List Text) : m UInt8 := do
  match Invocation.ofArgs args with
  | .error (a, e) =>
    Console.complain (errorLead a ++ e.message ++ "\n")
    return 1
  | .ok ⟨action, options, files⟩ =>
    match action, options.help with
    | none, _ | _, true =>
      Console.print (help options action)
      return 0
    | some a, false =>
      match ← (act codec options files a).run with
      | .ok () => return 0
      | .error e =>
        if e.breaksOff then
          Console.complain (e.message ++ "\n")
          return 2
        else
          Console.complain (errorLead a ++ e.message ++ "\n")
          return 1

end Command

end Classwright
