import Classwright.ClassFile
import Classwright.Config
import Classwright.Constant.Literal
import Classwright.Diagnostic
import Classwright.Scope
import Classwright.Syntax.Fault
import Classwright.Token.Lexer

/-!
Why a source cannot be compiled.
-/

namespace Classwright

/-- What can be wrong with the meaning of a source. -/
inductive CompileFault where
  | literal (cause : LiteralFault)
  /- Types. -/
  | voidMember
  | unknownType (name : Text)
  | voidNullable
  | typeDefined (name : Text)
  | voidAlias (name : Text)
  /- Declarations. -/
  | voidParameter (name : Text)
  | functionDefined (name : Text) (sig : Signature)
  | voidField (name : Text)
  | fieldDefined (name struct : Text)
  | noImports (module_ : Text)
  | badImport (module_ : Text) (cause : ImportError)
  | nestedDeclaration
  | variableDefined (name : Text)
  | voidVariable (name : Text)
  /- Expressions. -/
  | unaryOperator (op : Text) (t : Ty)
  | binaryOperator (op : Text) (left right : Ty)
  | unexpectedExpression
  | rangeValue
  | staticField (name : Text)
  | staticMethod (name : Text)
  | condition (t : Ty)
  | notAssignable
  | constant (name : Text)
  | assignment (source target : Ty)
  | voidAssignment (name : Text)
  | noMethod (name : Text) (t : Ty)
  | noProperty (name : Text) (t : Ty)
  | notCallable
  | notInstantiable (t : Ty)
  | voidElement
  /- Statements. -/
  | outsideLoop (word : Text)
  | rangeBound (t : Ty)
  | notIterable (t : Ty)
  | outsideFunction
  | missingResult
  | unexpectedResult
  | resultType (t result : Ty)
  | notUnion (t : Ty)
  | notMember (t union : Ty)
  | duplicateCase (t : Ty)
  | missingCases (union : Ty) (missing : List Ty)
  | unresolvedCall (name : Text) (args : List Ty)
  | unresolvedName (name : Text)

namespace CompileFault

def quoted (t : Text) : Text := "'" ++ t ++ "'"

/-- Names as in "a, b and c". -/
def conjunction : List Text → Text
  | [] => []
  | [t] => t
  | [t, u] => t ++ " and " ++ u
  | t :: ts => t ++ ", " ++ conjunction ts

def message : CompileFault → Text
  | literal e => e.message
  | voidMember => "Type 'void' cannot be part of a union."
  | unknownType n => "Unknown type " ++ quoted n ++ "."
  | voidNullable => "Type 'void' cannot be nullable."
  | typeDefined n => "Type " ++ quoted n ++ " is already defined."
  | voidAlias n => "Type " ++ quoted n ++ " cannot be void."
  | voidParameter n => "Parameter " ++ quoted n ++ " cannot be void."
  | functionDefined n s =>
    "Function " ++ quoted n ++ " is already defined with signature " ++ s.descriptor ++ "."
  | voidField n => "Field " ++ quoted n ++ " cannot be void."
  | fieldDefined n s => "Field " ++ quoted n ++ " is already defined in " ++ quoted s ++ "."
  | noImports m => "Could not import module " ++ quoted m ++ ": imports are not configured."
  | badImport m e => "Could not import module " ++ quoted m ++ ": " ++ e.message
  | nestedDeclaration => "Declarations are only allowed at top level."
  | variableDefined n => "Variable " ++ quoted n ++ " is already defined in this scope."
  | voidVariable n => "Variable " ++ quoted n ++ " cannot be void."
  | unaryOperator op t => "Unsupported operation of " ++ quoted op ++ " on type " ++ quoted t.display
  | binaryOperator op l r =>
    "Unsupported operation of " ++ quoted op ++ " between types " ++ quoted l.display ++ " and "
      ++ quoted r.display
  | unexpectedExpression => "Unexpected expression."
  | rangeValue => "Range is only allowed as a for loop iterable."
  | staticField n => "Cannot access field " ++ quoted n ++ " from a static context."
  | staticMethod n => "Cannot call instance method " ++ quoted n ++ " from a static context."
  | condition t => "Condition must be of type 'bool', got " ++ quoted t.display ++ "."
  | notAssignable => "Invalid lvalue - cannot assign"
  | constant n => "Reassignment of constant " ++ quoted n ++ "."
  | assignment s t => "Cannot assign " ++ quoted s.display ++ " to " ++ quoted t.display ++ "."
  | voidAssignment n => "Cannot assign 'void' to " ++ quoted n ++ "."
  | noMethod n t => "Cannot resolve method " ++ quoted n ++ " on type " ++ quoted t.display ++ "."
  | noProperty n t => "Cannot resolve property " ++ quoted n ++ " on type " ++ quoted t.display ++ "."
  | notCallable => "Expression is not callable."
  | notInstantiable t => "Cannot instantiate type " ++ quoted t.display ++ "."
  | voidElement => "Cannot add 'void' to a list."
  | outsideLoop w => quoted w ++ " outside of loop."
  | rangeBound t => "Range bound must be of type 'int', got " ++ quoted t.display ++ "."
  | notIterable t => "Cannot iterate over " ++ quoted t.display ++ "."
  | outsideFunction => "Cannot return outside of a function."
  | missingResult => "Non-void function must return a value."
  | unexpectedResult => "Cannot return a value from a void function."
  | resultType t r =>
    "Cannot return " ++ quoted t.display ++ " from a function returning " ++ quoted r.display ++ "."
  | notUnion t => "Case expression must be of a union type, got " ++ quoted t.display ++ "."
  | notMember t u => "Type " ++ quoted t.display ++ " is not part of " ++ quoted u.display ++ "."
  | duplicateCase t => "Duplicate case for type " ++ quoted t.display ++ "."
  | missingCases u ts =>
    "Not all entries in UnionType `" ++ u.display
      ++ "` are covered by this match statement. Add cases for "
      ++ conjunction (ts.map Ty.display) ++ "."
  | unresolvedCall n args =>
    "Could not resolve function " ++ quoted n ++ " with arguments: "
      ++ (if args.isEmpty then "(none)" else Text.join ", " (args.map Ty.display) : Text)
  | unresolvedName n => "Cannot resolve variable " ++ quoted n ++ " in current scope."

def kind : CompileFault → DiagnosticKind
  | unresolvedCall .. => .call
  | unresolvedName _ => .name
  | _ => .compile

end CompileFault

/-- Why a source cannot be compiled. -/
inductive Failure where
  | lex (e : LexError)
  | parse (e : ParseError)
  /-- The meaning of a source is refused at a token. -/
  | compile (tok : Token) (fault : CompileFault)
  | convert (source target : Ty)
  | member (e : Code.MemberError)
  | scope (e : ScopeError)
  | build (e : BuildError)
  | conflict (e : Conflict)
  | import_ (e : ImportError)
  /-- A failure while something was being done. -/
  | within (context : Text) (cause : Failure)

namespace Failure

def lexDiagnostic (e : LexError) : Diagnostic :=
  ⟨.lex, ⟨.invalid, e.text, e.pos.line, e.pos.col⟩, e.fault.message⟩

def report : Failure → Report
  | lex e => { detail := .diagnostic (lexDiagnostic e) }
  | parse e => { detail := .diagnostic ⟨.parse, e.tok, e.fault.message⟩ }
  | compile tok f => { detail := .diagnostic ⟨f.kind, tok, f.message⟩ }
  | convert s t => { detail := .plain ("cannot convert " ++ s.display ++ " to " ++ t.display) }
  | member e => { detail := .plain e.message }
  | scope e => { detail := .plain e.message }
  | build e => { detail := .plain e.message }
  | conflict e => { detail := .plain e.mergeMessage }
  | import_ e => { detail := .plain e.message }
  | within c e => e.report.within c

end Failure

end Classwright
