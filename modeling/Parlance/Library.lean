import Parlance.Source
/-!
The standard library: the classes every program can use without importing them.
-/
namespace Parlance.Library

def booleanLines : List String :=
  ["namespace Loa.",
    "",
    "export class Boolean \x7b",
    "  is Object.",
    "",
    "  not -> Boolean.",
    "  & Boolean other -> Boolean.",
    "  | Boolean other -> Boolean.",
    "\x7d",
    "",
    "export class True \x7b",
    "  is Boolean.",
    "",
    "  not -> Boolean => False.",
    "  & Boolean other -> Boolean => other.",
    "  | Boolean other -> Boolean => self.",
    "\x7d",
    "",
    "export class False \x7b",
    "  is Boolean.",
    "",
    "  not -> Boolean => True.",
    "  & Boolean other -> Boolean => self.",
    "  | Boolean other -> Boolean => other.",
    "\x7d"]

def floatLines : List String :=
  ["namespace Loa.",
    "",
    "export class Float32 \x7b is Float. \x7d",
    "export class Float64 \x7b is Float. \x7d",
    "export class BigFloat \x7b is Float. \x7d"]

def integerLines : List String :=
  ["namespace Loa.",
    "",
    "export class Int8 \x7b is Integer. \x7d",
    "export class Int16 \x7b is Integer. \x7d",
    "export class Int32 \x7b is Integer. \x7d",
    "export class Int64 \x7b is Integer. \x7d",
    "export class Int128 \x7b is Integer. \x7d",
    "export class BigInteger \x7b is Integer. \x7d"]

def naturalLines : List String :=
  ["namespace Loa.",
    "",
    "export class UInt8 \x7b is Natural. \x7d",
    "export class UInt16 \x7b is Natural. \x7d",
    "export class UInt32 \x7b is Natural. \x7d",
    "export class UInt64 \x7b is Natural. \x7d",
    "export class UInt128 \x7b is Natural. \x7d",
    "export class BigNatural \x7b is Natural. \x7d"]

def numberLines : List String :=
  ["namespace Loa.",
    "",
    "// Арифметика реализована в виртуальной машине; результат расширяется",
    "// до более широкого класса при переполнении.",
    "export class Number \x7b",
    "  is Object.",
    "",
    "  native + Self other -> Self.",
    "  native - Self other -> Self.",
    "\x7d",
    "",
    "export class Integer \x7b",
    "  is Number.",
    "\x7d",
    "",
    "export class Natural \x7b",
    "  is Integer.",
    "\x7d",
    "",
    "export class Float \x7b",
    "  is Number.",
    "\x7d"]

def objectLines : List String :=
  ["namespace Loa.",
    "",
    "export class Object \x7b",
    "  native == Object other -> Boolean.",
    "\x7d"]

def textLines : List String :=
  ["namespace Loa.",
    "",
    "export class String \x7b",
    "  is Object.",
    "\x7d",
    "",
    "export class Character \x7b",
    "  is Object.",
    "\x7d",
    "",
    "export class Symbol \x7b",
    "  is Object.",
    "\x7d"]

def texts : List (String × List String) :=
  [("Boolean.loa", booleanLines),
    ("Float.loa", floatLines),
    ("Integer.loa", integerLines),
    ("Natural.loa", naturalLines),
    ("Number.loa", numberLines),
    ("Object.loa", objectLines),
    ("Text.loa", textLines)]

def source (name : String) (code : Bytes) : Source := ⟨.module, Source.libraryUri name, code⟩

def sources : List Source :=
  texts.map fun (name, lines) => source name (Bytes.ofString (String.join (lines.map (· ++ "\n"))))

end Parlance.Library
