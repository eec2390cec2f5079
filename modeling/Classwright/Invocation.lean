import Classwright.Text

/-!
What a command line asks for. Flags that hold everywhere may stand before or after the name of the
command, those of a command after it; `--` ends flags, and what is left are the files to work on.
Who asks for help gets it at once, whatever comes after.
-/

namespace Classwright

/-- What can be done with files. -/
inductive Action where
  | lex | parse | compile | dump
  deriving DecidableEq, Repr

namespace Action

def all : List Action := [.lex, .parse, .compile, .dump]

def name : Action → Text
  | lex => "lex"
  | parse => "parse"
  | compile => "compile"
  | dump => "dump"

def description : Action → Text
  | lex => "print tokens of source files"
  | parse => "parse source files and print them back formatted"
  | compile => "compile source files into class files"
  | dump => "print listings of class files"

def named? (t : Text) : Option Action := all.find? (·.name == t)

end Action

inductive Flag where
  /- Flags that hold everywhere. -/
  | verbosity | debug | help
  /- Flags of `compile`. -/
  | output | config | package | imports | exported | list
  deriving DecidableEq, Repr

namespace Flag

def common : List Flag := [.verbosity, .debug, .help]

/-- The flags of a command alone. -/
def own : Action → List Flag
  | .compile => [.output, .config, .package, .imports, .exported, .list]
  | _ => []

/-- The flags that may stand after the name of a command, or before any. -/
def allOf : Option Action → List Flag
  | some a => own a ++ common
  | none => common

def names : Flag → List Text
  | verbosity => ["verbosity", "v"]
  | debug => ["debug"]
  | help => ["help", "h"]
  | output => ["output", "o"]
  | config => ["config"]
  | package => ["package"]
  | imports => ["import"]
  | exported => ["export"]
  | list => ["list"]

def description : Flag → Text
  | verbosity => "logger verbosity topics"
  | debug => "report where in the compiler errors were raised"
  | help => "print command help end exit"
  | output => "output directory"
  | config => "config file (default: ix.toml found upwards from the source)"
  | package => "override package of emitted classes"
  | imports => "comma separated symbol files of units to compile against"
  | exported => "write exported symbols next to classes"
  | list => "print class listings"

/-- Whether a flag is on or off, and takes no other value. -/
def isSwitch : Flag → Bool
  | debug | help | exported | list => true
  | _ => false

end Flag

structure Options where
  verbosity : Text := []
  debug : Bool := false
  help : Bool := false
  output : Text := "."
  config : Text := []
  package : Text := []
  imports : Text := []
  exported : Bool := false
  list : Bool := false
  deriving Repr

namespace Options

def turn (o : Options) (f : Flag) (on : Bool) : Options :=
  match f with
  | .debug => { o with debug := on }
  | .help => { o with help := on }
  | .exported => { o with exported := on }
  | .list => { o with list := on }
  | _ => o

def set (o : Options) (f : Flag) (v : Text) : Options :=
  match f with
  | .verbosity => { o with verbosity := v }
  | .output => { o with output := v }
  | .config => { o with config := v }
  | .package => { o with package := v }
  | .imports => { o with imports := v }
  | _ => o

/-- The value of a flag; a flag for help has none. -/
def get? (o : Options) (f : Flag) : Option Text :=
  let truth (b : Bool) : Text := if b then "true" else "false"
  match f with
  | .verbosity => some o.verbosity
  | .debug => some (truth o.debug)
  | .help => none
  | .output => some o.output
  | .config => some o.config
  | .package => some o.package
  | .imports => some o.imports
  | .exported => some (truth o.exported)
  | .list => some (truth o.list)

end Options

/-- Why a command line is refused. -/
inductive UsageError where
  | noSuchFlag (arg : Text)
  | valueNeeded (arg : Text)
  | notTruth (arg value : Text)
  | unexpected (arg : Text)

def UsageError.message : UsageError → Text
  | noSuchFlag a => "parse flag: " ++ a ++ ": no such flag"
  | valueNeeded a => "parse flag: " ++ a ++ ": flag value is required"
  | notTruth a v => "parse flag: " ++ a ++ ": neither true nor false: " ++ v
  | unexpected a => "no args expected, got " ++ a

/-- What a command line asks for; without an action it asks for nothing but help. -/
structure Invocation where
  action : Option Action := none
  options : Options := {}
  /-- The files to work on. -/
  args : List Text := []
  deriving Repr

namespace Invocation

/-- The words that turn a switch on or off; to turn it on none is needed. -/
def truths : List (Text × Bool) :=
  [("", true), ("1", true), ("t", true), ("true", true), ("y", true), ("yes", true), ("on", true),
    ("0", false), ("f", false), ("false", false), ("n", false), ("no", false), ("off", false)]

/-- The truth value of a word, without regard to case. -/
def truth? (word : Text) : Option Bool := truths.lookup (word.map Text.lower)

/-- Whether an argument is a flag. -/
def isFlag (arg : Text) : Bool := arg.head? == some (ascii '-') && 1 < arg.length

/-- The name of a flag and, after an equals sign, its value. -/
def splitFlag (arg : Text) : Text × Option Text :=
  let body := arg.dropWhile (· == ascii '-')
  let name := body.takeWhile (· != ascii '=')
  (name, if name.length < body.length then some (body.drop (name.length + 1)) else none)

/-- What a flag leads to: the invocation with it set, or a value that is still to come. -/
def addFlag (i : Invocation) (arg : Text) :
    Except (Option Action × UsageError) (Invocation × Option (Text × Flag)) :=
  let (name, given) := splitFlag arg
  match (Flag.allOf i.action).find? (·.names.contains name), given with
  | none, _ => .error (i.action, .noSuchFlag arg)
  | some .help, _ => .ok ({ i with options := i.options.turn .help true }, none)
  | some f, none =>
    if f.isSwitch then .ok ({ i with options := i.options.turn f true }, none)
    else .ok (i, some (arg, f))
  | some f, some v =>
    if f.isSwitch then
      match truth? v with
      | none => .error (i.action, .notTruth arg v)
      | some on => .ok ({ i with options := i.options.turn f on }, none)
    else .ok ({ i with options := i.options.set f v }, none)

/-- Takes up arguments in turn; `pending` is a flag that the next one is the value of. What is wrong
comes with the command that it is wrong for. -/
def addArgs (i : Invocation) (pending : Option (Text × Flag)) :
    List Text → Except (Option Action × UsageError) Invocation
  | [] =>
    match pending with
    | some (arg, _) => .error (i.action, .valueNeeded arg)
    | none => .ok { i with args := i.args.reverse }
  | arg :: rest =>
    match pending, i.action with
    | some (_, f), _ => addArgs { i with options := i.options.set f arg } none rest
    | none, action =>
      if arg = "--" then
        match action, rest with
        | none, a :: _ => .error (none, .unexpected a)
        | _, _ => .ok { i with args := i.args.reverse ++ rest }
      else if isFlag arg then
        match i.addFlag arg with
        | .error e => .error e
        | .ok (i, pending) => if i.options.help then .ok i else addArgs i pending rest
      else match action, Action.named? arg with
        | some _, _ => addArgs { i with args := arg :: i.args } none rest
        | none, some a => addArgs { i with action := some a } none rest
        | none, none => .error (none, .unexpected arg)

def ofArgs (args : List Text) : Except (Option Action × UsageError) Invocation :=
  addArgs {} none args

end Invocation

end Classwright
