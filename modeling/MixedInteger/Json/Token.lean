import MixedInteger.Json.Number

/-!
# Tokens of JSON documents

A document is cut into tokens first. White space between tokens is dropped; a character that begins
no token, an unfinished string or number, and a control character in a string are refused.

* `Token.scan?`: one token and what follows it;
* `tokenize?`: all tokens of a document.
-/

namespace MixedInteger.Json

/-- The contents of a string, none if it has half of a surrogate pair, which is no text. -/
abbrev Content := Option String

inductive Token where
  | openBrace
  | closeBrace
  | openBracket
  | closeBracket
  | colon
  | comma
  | null
  | bool (value : Bool)
  | number (value : Number)
  | string (value : Content)
  deriving DecidableEq, Repr

def isSpace (c : Char) : Bool := c = ' ' || c = '\n' || c = '\t' || c = '\r'

def digit? (c : Char) : Option Nat := if c.isDigit then some (c.toNat - '0'.toNat) else none

def hexDigit? (c : Char) : Option Nat :=
  if c.isDigit then some (c.toNat - '0'.toNat)
  else if 'a' ≤ c ∧ c ≤ 'f' then some (c.toNat - 'a'.toNat + 10)
  else if 'A' ≤ c ∧ c ≤ 'F' then some (c.toNat - 'A'.toNat + 10)
  else none

/-- The digits at the front and what follows them. -/
def digits : List Char → List Nat × List Char
  | [] => ([], [])
  | c :: cs =>
    match digit? c with
    | some d => let (ds, rest) := digits cs; (d :: ds, rest)
    | none => ([], c :: cs)

/-- The digits at the front, of which there is at least one. -/
def digits₁? (cs : List Char) : Option (List Nat × List Char) :=
  match digits cs with
  | ([], _) => none
  | found => some found

/-- The integral part of a number: zero, or digits that do not begin with zero. -/
def whole? (cs : List Char) : Option (List Nat × List Char) :=
  match cs with
  | '0' :: rest => some ([0], rest)
  | _ => digits₁? cs

def fraction? (cs : List Char) : Option (List Nat × List Char) :=
  match cs with
  | '.' :: rest => digits₁? rest
  | _ => some ([], cs)

/-- The sign of an exponent; `true` for a negative one. -/
def exponentSign (cs : List Char) : Bool × List Char :=
  match cs with
  | '+' :: rest => (false, rest)
  | '-' :: rest => (true, rest)
  | _ => (false, cs)

def exponent? (cs : List Char) : Option (Option (Bool × List Nat) × List Char) :=
  match cs with
  | c :: rest =>
    if c = 'e' ∨ c = 'E' then do
      let (negative, rest) := exponentSign rest
      let (ds, rest) ← digits₁? rest
      return (some (negative, ds), rest)
    else some (none, cs)
  | [] => some (none, [])

def unsigned? (negative : Bool) (cs : List Char) : Option (Number × List Char) := do
  let (whole, cs) ← whole? cs
  let (fraction, cs) ← fraction? cs
  let (exponent, cs) ← exponent? cs
  return (⟨negative, whole, fraction, exponent⟩, cs)

def number? (cs : List Char) : Option (Number × List Char) :=
  match cs with
  | '-' :: rest => unsigned? true rest
  | _ => unsigned? false cs

/-- A character of a string, or a unit of 16 bits that an escape gives. -/
inductive Piece where
  | char (c : Char)
  | unit (n : Nat)
  deriving DecidableEq, Repr

/-- Escapes by one letter. -/
def simpleEscape? (c : Char) : Option Char :=
  if c = '"' ∨ c = '\\' ∨ c = '/' then some c
  else if c = 'b' then some '\x08'
  else if c = 'f' then some '\x0c'
  else if c = 'n' then some '\n'
  else if c = 'r' then some '\r'
  else if c = 't' then some '\t'
  else none

/-- The pieces up to the closing quote and what follows it. -/
def pieces? : List Char → Option (List Piece × List Char)
  | [] => none
  | '"' :: rest => some ([], rest)
  | '\\' :: 'u' :: a :: b :: c :: d :: rest => do
    let a ← hexDigit? a
    let b ← hexDigit? b
    let c ← hexDigit? c
    let d ← hexDigit? d
    let (ps, rest) ← pieces? rest
    return (.unit (((a * 16 + b) * 16 + c) * 16 + d) :: ps, rest)
  | '\\' :: c :: rest => do
    let e ← simpleEscape? c
    let (ps, rest) ← pieces? rest
    return (.char e :: ps, rest)
  | c :: rest =>
    if c = '\\' ∨ c.toNat < 0x20 then none
    else do
      let (ps, rest) ← pieces? rest
      return (.char c :: ps, rest)

def isHighSurrogate (n : Nat) : Bool := 0xD800 ≤ n && n < 0xDC00

def isLowSurrogate (n : Nat) : Bool := 0xDC00 ≤ n && n < 0xE000

/-- Joins surrogate pairs; none if half of one is missing. -/
def chars? : List Piece → Option (List Char)
  | [] => some []
  | .char c :: rest => do return c :: (← chars? rest)
  | .unit high :: .unit low :: rest =>
    if isHighSurrogate high then
      if isLowSurrogate low then do
        return Char.ofNat (0x10000 + (high - 0xD800) * 0x400 + (low - 0xDC00)) :: (← chars? rest)
      else none
    else if isLowSurrogate high then none
    else do return Char.ofNat high :: (← chars? (.unit low :: rest))
  | .unit n :: rest =>
    if isHighSurrogate n || isLowSurrogate n then none
    else do return Char.ofNat n :: (← chars? rest)

/-- The string behind an opening quote. -/
def string? (cs : List Char) : Option (Content × List Char) := do
  let (ps, rest) ← pieces? cs
  return ((chars? ps).map String.ofList, rest)

/-- What follows the given letters, if they are at the front. -/
def word? : (letters : List Char) → List Char → Option (List Char)
  | [], cs => some cs
  | l :: ls, c :: cs => if l = c then word? ls cs else none
  | _ :: _, [] => none

/-- One token and what follows it. -/
def Token.scan? : List Char → Option (Token × List Char)
  | [] => none
  | '\x7b' :: rest => some (.openBrace, rest)
  | '\x7d' :: rest => some (.closeBrace, rest)
  | '[' :: rest => some (.openBracket, rest)
  | ']' :: rest => some (.closeBracket, rest)
  | ':' :: rest => some (.colon, rest)
  | ',' :: rest => some (.comma, rest)
  | '"' :: rest => (string? rest).map fun (s, rest) => (.string s, rest)
  | 'n' :: rest => (word? ['u', 'l', 'l'] rest).map fun rest => (.null, rest)
  | 't' :: rest => (word? ['r', 'u', 'e'] rest).map fun rest => (.bool true, rest)
  | 'f' :: rest => (word? ['a', 'l', 's', 'e'] rest).map fun rest => (.bool false, rest)
  | cs => (number? cs).map fun (n, rest) => (.number n, rest)

/-- The tokens of a text of at most `size` characters. -/
def tokensOf? : (size : Nat) → List Char → Option (List Token)
  | _, [] => some []
  | 0, _ :: _ => none
  | size + 1, c :: cs =>
    if isSpace c then tokensOf? size cs
    else do
      let (t, rest) ← Token.scan? (c :: cs)
      return t :: (← tokensOf? size rest)

def tokenize? (document : String) : Option (List Token) :=
  tokensOf? document.toList.length document.toList

end MixedInteger.Json
