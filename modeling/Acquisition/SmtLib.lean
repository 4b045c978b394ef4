import Acquisition.Constraint.Comparison

/-!
# Reading SMT-LIB

A script of the SMT-LIB standard is a row of expressions, each a word or a list of expressions
in parentheses. This module reads a part of the language: integer constants are declared, and
formulas over them are asserted.

* A numeral has no sign. A negative integer is written with a unary minus.
* Integers are compared two at a time.
* A disjunction and a conjunction have at least one argument.

Anything else has no reading. What a script says is told by the values of its constants on which
every assertion holds.
-/
namespace Acquisition.SmtLib

/-- A word, or expressions in parentheses. -/
inductive Sexp
  | word (w : String)
  | list (es : List Sexp)
deriving Repr

def isBlank (c : Char) : Bool := c == ' ' || c == '\t' || c == '\n' || c == '\r'

/-- Whether a character ends a word. -/
def isBreak (c : Char) : Bool := c == '(' || c == ')' || isBlank c

/-- Some expressions, followed by the characters of a word if there are any. -/
def endWord (es : List Sexp) (w : List Char) : List Sexp :=
  if w.isEmpty then es else es ++ [.word (String.ofList w)]

/-- Reads the expressions of a text: inside of the lists `outer` that are open, after the
expressions `es`, within the word that starts with `w`. -/
def scan : List (List Sexp) → List Sexp → List Char → List Char → Option (List Sexp)
  | outer, es, w, [] => if outer.isEmpty then some (endWord es w) else none
  | outer, es, w, c :: cs =>
    if c = '(' then scan (endWord es w :: outer) [] [] cs
    else if c = ')' then
      match outer with
      | [] => none
      | up :: outer => scan outer (up ++ [.list (endWord es w)]) [] cs
    else if isBlank c then scan outer (endWord es w) [] cs
    else scan outer es (w ++ [c]) cs

/-- A numeral is 0, or digits of which the first one is not 0. -/
def isNumeral (w : String) : Bool :=
  w.toList.all Char.isDigit && (w == "0" || w.toList.head?.any (· != '0'))

def numeral? (w : String) : Option Nat :=
  if isNumeral w then some (Nat.ofDigitChars 10 w.toList 0) else none

/-- The characters of a symbol, apart from letters and digits. -/
def signs : List Char := "~!@$%^&*_-+=<>.?/".toList

/-- A symbol does not start with a digit. -/
def isSymbol (w : String) : Bool :=
  w.toList.all (fun c => c.isAlphanum || signs.contains c) && w.toList.head?.any (!·.isDigit)

/-- The symbols to which the theories of truth and of integers give a meaning. -/
def theorySymbols : List String :=
  ["true", "false", "not", "=>", "and", "or", "xor", "=", "distinct", "ite", "-", "+", "*", "div",
    "mod", "abs", "<", "<=", ">", ">="]

inductive Integer
  | numeral (n : Nat)
  | constant (name : String)
  | minus (a : Integer)
deriving Repr

inductive Formula
  | compare (op : Comparison) (a b : Integer)
  | not (φ : Formula)
  | and (φs : List Formula)
  | or (φs : List Formula)
deriving Repr

mutual

def integer? (declared : List String) : Sexp → Option Integer
  | .word w =>
    match numeral? w with
    | some n => some (.numeral n)
    | none => if declared.contains w then some (.constant w) else none
  | .list [] => none
  | .list (.list _ :: _) => none
  | .list (.word head :: es) =>
    match integers? declared es with
    | some [a] => if head = "-" then some (.minus a) else none
    | _ => none

def integers? (declared : List String) : List Sexp → Option (List Integer)
  | [] => some []
  | e :: es =>
    match integer? declared e, integers? declared es with
    | some a, some as => some (a :: as)
    | _, _ => none

end

/-- A comparison of two integers. -/
def comparison? (head : String) : List Integer → Option Formula
  | [a, b] =>
    if head = "=" then some (.compare .eq a b)
    else if head = "<" then some (.compare .lt a b)
    else if head = "<=" then some (.compare .le a b)
    else if head = ">" then some (.compare .gt a b)
    else if head = ">=" then some (.compare .ge a b)
    else none
  | _ => none

/-- A formula made of formulas. -/
def connective? (head : String) : List Formula → Option Formula
  | [] => none
  | φ :: φs =>
    if head = "and" then some (.and (φ :: φs))
    else if head = "or" then some (.or (φ :: φs))
    else if head = "not" ∧ φs = [] then some (.not φ)
    else none

mutual

def formula? (declared : List String) : Sexp → Option Formula
  | .word _ => none
  | .list [] => none
  | .list (.list _ :: _) => none
  | .list (.word head :: es) =>
    ((formulas? declared es).bind (connective? head)).or
      ((integers? declared es).bind (comparison? head))

def formulas? (declared : List String) : List Sexp → Option (List Formula)
  | [] => some []
  | e :: es =>
    match formula? declared e, formulas? declared es with
    | some φ, some φs => some (φ :: φs)
    | _, _ => none

end

structure Script where
  /-- The constants, in the order of their declarations. -/
  declared : List String := []
  assertions : List Formula := []

namespace Script

/-- What one more expression adds to a script: a constant, which has no meaning yet, or an
assertion about the constants declared so far. -/
def command (S : Script) : Sexp → Option Script
  | .list [.word head, .word name, .word sort] =>
    if head = "declare-const" ∧ sort = "Int" ∧ isSymbol name ∧ !theorySymbols.contains name ∧
        !S.declared.contains name then
      some { S with declared := S.declared ++ [name] }
    else none
  | .list [.word head, e] =>
    if head = "assert" then
      (formula? S.declared e).map fun φ => { S with assertions := S.assertions ++ [φ] }
    else none
  | _ => none

/-- The script that a text is, if it is one. -/
def read (text : String) : Option Script := do
  (← scan [] [] [] text.toList).foldlM command {}

end Script

/-- Values of the constants. -/
abbrev Model := String → Int

def Integer.value (m : Model) : Integer → Int
  | numeral n => n
  | constant name => m name
  | minus a => -a.value m

namespace Formula

mutual

def holds (m : Model) : Formula → Bool
  | compare op a b => op.holds (a.value m) (b.value m)
  | not φ => !φ.holds m
  | and φs => allHold m φs
  | or φs => someHolds m φs

def allHold (m : Model) : List Formula → Bool
  | [] => true
  | φ :: φs => φ.holds m && allHold m φs

def someHolds (m : Model) : List Formula → Bool
  | [] => false
  | φ :: φs => φ.holds m || someHolds m φs

end

end Formula

/-- Whether every assertion holds. -/
def Script.holds (S : Script) (m : Model) : Bool := S.assertions.all (·.holds m)

end Acquisition.SmtLib
