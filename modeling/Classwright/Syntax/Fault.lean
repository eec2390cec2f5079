import Classwright.Token

/-!
What can be wrong with the order of tokens, and how it is told.
-/

namespace Classwright

inductive ParseFault where
  | expression
  | typeName
  | typeNameAfterDot
  | listBracket
  | groupEnd
  | listEnd
  | argumentsStart
  | argumentsEnd
  | indexTarget
  | indexEnd
  | propertyName
  | blockStart
  | blockEnd
  | useStart
  | usePart
  | useEnd
  | exported
  | declaredTypeName
  | assignment
  | enum
  | structStart
  | structItem
  | fieldColon
  | functionName
  | parametersStart
  | parameterName
  | parameterColon
  | parametersEnd
  | variableName
  | elseBranch
  | iteratorName
  | iteratorColon
  | caseStart
  | caseEnd
  | armName
  | armArrow
  deriving DecidableEq, Repr

namespace ParseFault

def message : ParseFault → Text
  | expression => "Could not parse."
  | typeName => "Expected type name."
  | typeNameAfterDot => "Expected type name after '.'."
  | listBracket => "Expected ']' in list type."
  | groupEnd => "Expected ')' after expression."
  | listEnd => "Expected ']' after list elements."
  | argumentsStart => "Expected '(' after type in new expression."
  | argumentsEnd => "Expected ')' after arguments."
  | indexTarget => "Index access requires an identifier on the left side."
  | indexEnd => "Expected ']' after index access."
  | propertyName => "Expected property name after '.'."
  | blockStart => "Expected '\x7b' before block."
  | blockEnd => "Expected '\x7d' after block."
  | useStart => "Expected '<' at the start of use path."
  | usePart => "Expected identifier in use path."
  | useEnd => "Expected '>' at the end of use path."
  | exported => "Can only export struct, variable or function."
  | declaredTypeName => "Expected type name."
  | assignment => "Expected assignment operator."
  | enum => "Enums are not supported."
  | structStart => "Expected opening curly braces before struct body."
  | structItem => "Expected field or method in struct body."
  | fieldColon => "Expected colon after field name."
  | functionName => "Expected function name."
  | parametersStart => "Expected opening parentheses after function name."
  | parameterName => "Expected parameter name."
  | parameterColon => "Expected colon after parameter name."
  | parametersEnd => "Expected closing parentheses after function parameters."
  | variableName => "Expected variable name."
  | elseBranch => "Invalid end to if-else statement."
  | iteratorName => "Need iterator variable name."
  | iteratorColon => "Expected ':' operator."
  | caseStart => "Expected opening curly braces before case body."
  | caseEnd => "Expected closing curly braces after case body."
  | armName => "Expected name for reified value before `=>` in case statement."
  | armArrow => "Expected `=>` after type before expression in case statement."

end ParseFault

/-- Why tokens do not form a program, and the token where it shows. -/
structure ParseError where
  fault : ParseFault
  tok : Token
  deriving DecidableEq, Repr

end Classwright
