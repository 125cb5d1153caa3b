import Mathlib.Data.List.Basic

/-!
# Log formatters

`LogFormatter` of `log.cc`.  `init` cuts the pattern into pieces, literal text and conversions such as
`%p` and `%d{%H:%M}`, and makes one format item of each.  A formatter is not changed after its
construction, so it is its pattern, and the items and the error flag are functions of it.

A pattern is read from the front; the rest of it stands for the position `i` of the code.
-/

namespace LioNet.Log

/-! ### The pattern -/

/-- `isalpha` in the C locale. -/
def isalpha (c : Char) : Bool := c.isAlpha

/-- The inner loop inside the braces: the name, the format and the rest, or `none` when there is no
closing brace. -/
def scanFormat (str fmt : List Char) : List Char → Option (List Char × List Char × List Char)
  | [] => none
  | c :: cs => if c = '}' then some (str, fmt, cs) else scanFormat str (fmt ++ [c]) cs

/-- The inner loop after a percent sign: the name goes on up to the first character that is neither a
letter nor a brace. -/
def scanName (str : List Char) : List Char → Option (List Char × List Char × List Char)
  | [] => some (str, [], [])
  | c :: cs =>
    if !isalpha c && c ≠ '{' && c ≠ '}' then some (str, [], c :: cs)
    else if c = '{' then scanFormat str [] cs
    else scanName (str ++ [c]) cs

theorem scanFormat_length {str fmt cs : List Char} {r : List Char × List Char × List Char}
    (h : scanFormat str fmt cs = some r) : r.2.2.length ≤ cs.length := by
  induction cs generalizing fmt with
  | nil => cases h
  | cons c cs ih =>
    rw [scanFormat] at h
    split at h
    · cases h
      exact Nat.le_succ _
    · exact Nat.le_trans (ih h) (Nat.le_succ _)

theorem scanName_length {str cs : List Char} {r : List Char × List Char × List Char}
    (h : scanName str cs = some r) : r.2.2.length ≤ cs.length := by
  induction cs generalizing str with
  | nil =>
    cases h
    exact Nat.le_refl _
  | cons c cs ih =>
    rw [scanName] at h
    split at h
    · cases h
      exact Nat.le_refl _
    · split at h
      · exact Nat.le_trans (scanFormat_length h) (Nat.le_succ _)
      · exact Nat.le_trans (ih h) (Nat.le_succ _)

/-- An entry of `vec`: literal text, a conversion, or the text `<<pattern_error>>`, which comes with
`m_error`. -/
inductive Piece
  | text (str : String)
  | conversion (str fmt : String)
  | unclosed
  deriving DecidableEq, Repr

def flush (nstr : List Char) : List Piece :=
  if nstr = [] then [] else [.text (String.ofList nstr)]

/-- The outer loop.  A `%%` leaves its second sign for the next turn, and after a missing brace the loop
goes on behind the percent sign. -/
def pieces (nstr : List Char) (cs : List Char) : List Piece :=
  match cs with
  | [] => flush nstr
  | c :: cs =>
    if c ≠ '%' then pieces (nstr ++ [c]) cs
    else if cs.head? = some '%' then pieces (nstr ++ ['%']) cs
    else
      match _h : scanName [] cs with
      | some (str, fmt, rest) =>
        flush nstr ++ .conversion (String.ofList str) (String.ofList fmt) :: pieces [] rest
      | none => .unclosed :: pieces nstr cs
termination_by cs.length
decreasing_by
  · exact Nat.lt_succ_self _
  · exact Nat.lt_succ_self _
  · exact Nat.lt_succ_of_le (scanName_length _h)
  · exact Nat.lt_succ_self _

/-! ### The items -/

inductive Conversion
  | message | level | elapse | name | threadId | newLine | dateTime | filename | line | tab
  | fiberId | threadName
  deriving DecidableEq, Repr

/-- `s_format_items`. -/
def formatItems (str : String) : Option Conversion :=
  match str with
  | "m" => some .message
  | "p" => some .level
  | "r" => some .elapse
  | "c" => some .name
  | "t" => some .threadId
  | "n" => some .newLine
  | "d" => some .dateTime
  | "f" => some .filename
  | "l" => some .line
  | "T" => some .tab
  | "F" => some .fiberId
  | "N" => some .threadName
  | _ => none

inductive FormatItem
  | string (str : String)
  | item (conversion : Conversion) (fmt : String)
  deriving DecidableEq, Repr

def Piece.item : Piece → FormatItem
  | .text str => .string str
  | .unclosed => .string "<<pattern_error>>"
  | .conversion str fmt =>
    match formatItems str with
    | some c => .item c fmt
    | none => .string ("<<error_format %" ++ str ++ ">>")

def Piece.isError : Piece → Bool
  | .text _ => false
  | .unclosed => true
  | .conversion str _ => formatItems str = none

structure LogFormatter where
  pattern : String
  deriving DecidableEq, Repr

namespace LogFormatter

def pieces (f : LogFormatter) : List Piece := Log.pieces [] f.pattern.toList

def items (f : LogFormatter) : List FormatItem := f.pieces.map Piece.item

/-- `m_error`: a brace is missing, or a conversion is not known. -/
def isError (f : LogFormatter) : Bool := f.pieces.any Piece.isError

end LogFormatter

end LioNet.Log
