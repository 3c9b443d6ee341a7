import Parlance.Diagnostic
import Parlance.Number.Numeral
/-!
The things that can be wrong with a program, each with its code and its wording.
-/
namespace Parlance

inductive Expected where
  | period
  | classKeyword
  | closeAngle
  | closeCurly
  | closeParen
  | fatArrow
  | equals
  | declaration
  | exportedDeclaration
  | qualifiedSymbol
  | symbolAfterSlash
  | importAlias
  | expression
  | directiveName
  | className
  | classBody
  | classMember
  | typeParameter
  | typeParameterName
  | typeExpression
  | typeArgument
  | variableName
  | variableAssignment
  | methodSignature
  | parameter
  | parameterName
  | returnType
  | keyword
  | message
  | bindingName
  deriving DecidableEq, Repr

def Expected.phrase : Expected → String
  | period => "`.`"
  | classKeyword => "`class`"
  | closeAngle => "`>`"
  | closeCurly => "`\x7d`"
  | closeParen => "`)`"
  | fatArrow => "`=>`"
  | equals => "`=`"
  | declaration => "declaration"
  | exportedDeclaration => "declaration after `export`"
  | qualifiedSymbol => "qualified symbol"
  | symbolAfterSlash => "symbol after `/`"
  | importAlias => "import alias"
  | expression => "expression"
  | directiveName => "directive name"
  | className => "class name"
  | classBody => "class body or `.`"
  | classMember => "class member"
  | typeParameter => "type parameter"
  | typeParameterName => "type parameter name"
  | typeExpression => "type expression"
  | typeArgument => "type argument"
  | variableName => "variable name"
  | variableAssignment => "variable assignment"
  | methodSignature => "method signature"
  | parameter => "parameter"
  | parameterName => "parameter name"
  | returnType => "return type"
  | keyword => "keyword"
  | message => "message"
  | bindingName => "binding name"

inductive Malformed where
  | missing (what : Expected)
  | lateNamespace
  | exportedTwice
  | unknownDirective (name : String)
  | nativeBody
  | cascadeWithoutSend
  | openString
  | openCharacter
  | notOneCharacter
  | number (error : Numeral.Error)
  deriving DecidableEq, Repr

def Malformed.message : Malformed → String
  | missing what => "Expected " ++ what.phrase ++ "."
  | lateNamespace => "Namespace directive must come first."
  | exportedTwice => "Declaration is exported twice."
  | unknownDirective name => "Unknown directive `:" ++ name ++ "`."
  | nativeBody => "Native methods cannot have a body."
  | cascadeWithoutSend => "Cascade needs a message send."
  | openString => "Unterminated string literal."
  | openCharacter => "Unterminated character literal."
  | notOneCharacter => "Character literal must contain exactly one character."
  | number error => "Invalid number literal: " ++ error.message ++ "."

inductive InheritFault where
  | absent (behaviour : String)
  | unlike (selector because : String)
  deriving DecidableEq, Repr

inductive Problem where
  | malformed (m : Malformed)
  | undefinedType (name : String)
  | undefinedReference (name : String)
  | undefinedBehaviour (receiver selector : String)
  | undefinedImport (name : String)
  | unexportedImport (name : String)
  | unassignable (because : String)
  | duplicated (name : String) (count : Nat)
  | invalidInherit (sub super : String) (faults : List InheritFault)
  | invalidLiteral (type : String)
  | outOfBounds (type reason : String)
  | tooPrecise (literal type : String)
  | typeArgumentCount (name : String) (parameters arguments : Nat)
  | varianceMisuse (parameter variance position : String)
  | privateAccess (selector className : String)
  | incompleteInitializer (missing : List String)
  | notAVariable (name className : String)
  deriving DecidableEq, Repr

namespace Problem

def code : Problem → Code
  | malformed _ => .syntaxError
  | undefinedType _ => .undefinedTypeReference
  | undefinedReference _ => .undefinedReference
  | undefinedBehaviour .. => .undefinedBehaviour
  | undefinedImport _ => .undefinedImport
  | unexportedImport _ => .unexportedImport
  | unassignable _ => .unassignableType
  | duplicated .. => .duplicatedDeclaration
  | invalidInherit .. => .invalidInherit
  | invalidLiteral _ => .invalidLiteralType
  | outOfBounds .. => .outOfBounds
  | tooPrecise .. => .tooPreciseFloat
  | typeArgumentCount .. => .wrongNumberOfTypeArguments
  | varianceMisuse .. => .invalidVarianceUsage
  | privateAccess .. => .invalidPrivateAccess
  | incompleteInitializer _ => .incompleteInitializer
  | notAVariable .. => .undefinedInitializedVariable

def quoted (s : String) : String := "`" ++ s ++ "`"

def counted (zero : String) (n : Nat) : String := if n = 0 then zero else toString n

def faultLines (super : String) : InheritFault → String
  | .absent behaviour => "\n  - it doesn't respond to " ++ quoted behaviour
  | .unlike selector because =>
    "\n  - it doesn't respond to " ++ quoted selector ++ " like " ++ quoted super ++ " would" ++
      String.join ((Text.splitOn '\n' because).map ("\n    " ++ ·))

def message : Problem → String
  | malformed m => m.message
  | undefinedType name | undefinedReference name | undefinedImport name =>
    quoted name ++ " is undefined."
  | undefinedBehaviour receiver selector =>
    quoted receiver ++ " doesn't respond to " ++ quoted selector ++ "."
  | unexportedImport name => quoted name ++ " is not exported."
  | unassignable because => because
  | duplicated name count => quoted name ++ s!" is defined {count} times in this scope."
  | invalidInherit sub super faults =>
    quoted sub ++ " doesn't act as " ++ quoted super ++ " because:" ++
      String.join (faults.map (faultLines super))
  | invalidLiteral type => quoted type ++ " is not a valid type for this literal."
  | outOfBounds type reason => quoted type ++ " must not " ++ reason ++ "."
  | tooPrecise literal type =>
    quoted literal ++ " is too precise to be coerced to " ++ type ++ " without losing precision."
  | typeArgumentCount name parameters arguments =>
    quoted name ++ " takes " ++ counted "no" parameters ++ " type arguments, but was provided " ++
      counted "none" arguments ++ "."
  | varianceMisuse parameter variance position =>
    quoted parameter ++ " is declared as " ++ quoted variance ++ " and cannot be used in " ++
      position ++ " position."
  | privateAccess selector className =>
    quoted selector ++ " is a private method of " ++ quoted className ++ "."
  | incompleteInitializer missing =>
    "Initializer doesn't initialize " ++ ", ".intercalate (missing.map quoted) ++ "."
  | notAVariable name className => quoted name ++ " is not a variable of " ++ quoted className ++ "."

def report (p : Problem) (span : Span) : Diagnostic := .of p.code span p.message

end Problem

end Parlance
