import RecordLisp.Builtin.Arithmetic
import RecordLisp.Builtin.Characters
import RecordLisp.Builtin.Code
import RecordLisp.Builtin.Field
import RecordLisp.Builtin.Logic
import RecordLisp.Builtin.Scope
import RecordLisp.Builtin.Storage
import RecordLisp.Builtin.Traversal
import RecordLisp.Registry

/-!
# Packs of builtins

A pack is a list of declarations with what they do, registered in that order. The core is always
there; the other packs are a choice of the host.
-/

namespace RecordLisp

/-- Declarations and the work behind them. -/
abbrev Pack := List (String × Native)

namespace Pack

open Builtin Native

/-- The builtins that every session has. -/
def core : Pack :=
  [("parse str", unary fun _ => parse),
   ("eval atom", unary fun evaluator => evaluator.eval),
   ("stot string", pureUnary stringToToken),
   ("ttos string", pureUnary tokenToString),
   ("to-int value", pureUnary toInteger),
   ("rand min max", binary fun _ => random),
   ("& +args", pureUnary conjunction),
   ("= +args", pureUnary equal),
   ("? condition 'then 'else", ternary choose),
   ("select '+branches", unary select),
   ("while 'condition 'body", binary repeatWhile),
   ("format string *arg", binary fun _ => format),
   ("func 'args 'body", binary fun _ => makeFunction),
   ("set-decl-scope func scope", binary fun _ => setScope),
   ("let 'name value", binary fun _ => assign),
   ("using '+vars", unary openScope),
   ("set object 'name value", ternary setField),
   ("multi-set object '*pairs", binary setFields),
   ("with record '+vars", binary copyWith),
   ("get object 'name", binary getField),
   ("delete object 'name", binary deleteField),
   ("set-parent object parent", binary fun _ => setParent),
   ("list *values", pureUnary .ok),
   ("length list-or-string", pureUnary length),
   ("index-get list index", pureBinary indexGet),
   ("replace-at list index value", pureTernary replaceAt),
   ("array count 'code", binary array),
   ("last +list", pureUnary last),
   ("reverse list", pureUnary reverse),
   ("serialize record", unary fun _ => serialize),
   ("write-all file text", binary fun _ => writeFile),
   ("read-all file", unary fun _ => readFile)]

/-- Arithmetic and comparison of numbers. -/
def math : Pack :=
  [("+ +value", pureUnary sum),
   ("- a b", pureBinary difference),
   ("* a b", pureBinary product),
   ("/ a b", pureBinary quotient),
   ("< a b", pureBinary less),
   ("> a b", pureBinary greater)]

/-- Traversals of lists and ranges. -/
def lists : Pack :=
  [("map 'x list 'code", ternary map),
   ("mapex 'x 'next-x 'code", ternary mapWhile),
   ("fold 'x 'y first-value list 'code", quinary fold),
   ("where 'x list 'code", ternary filter),
   ("for 'v from to 'code", quaternary forRange)]

/-- Characters of strings. -/
def strings : Pack :=
  [("slength string", pureUnary stringLength),
   ("sindex string index", pureBinary stringIndex),
   ("to-char int", pureUnary toCharacter),
   ("ssubstring string start length", pureTernary stringPart)]

/-- All packs beside the core. -/
def standard : Pack := math ++ lists ++ strings

end Pack

end RecordLisp
