import Qualify.Json.Basic

namespace Qualify.Json

inductive Token where
  | openArray
  | closeArray
  | openObject
  | closeObject
  | colon
  | comma
  | text (s : String)
  /-- A number, a truth value or null. -/
  | scalar (j : Json)

namespace Number

def digitsThen (rest : List Char → Bool) (cs : List Char) : Bool :=
  !(cs.takeWhile Char.isDigit).isEmpty && rest (cs.dropWhile Char.isDigit)

def isExponent : List Char → Bool
  | e :: s :: cs =>
    (e == 'e' || e == 'E') && digitsThen List.isEmpty (if s == '+' || s == '-' then cs else s :: cs)
  | _ => false

def isTail : List Char → Bool
  | '.' :: cs => digitsThen (fun rest => rest.isEmpty || isExponent rest) cs
  | cs => isExponent cs

def valueOf (digits : List Char) : Nat := digits.foldl (fun n c => 10 * n + (c.toNat - '0'.toNat)) 0

/-- No leading zeros, and digits on both sides of a point. -/
def ofChars? (cs : List Char) : Option JsonNumber :=
  let negative := cs.head? == some '-'
  let unsigned := if negative then cs.tail else cs
  let digits := unsigned.takeWhile Char.isDigit
  let rest := unsigned.dropWhile Char.isDigit
  if digits.isEmpty || (digits.head? == some '0' && digits.length != 1) then none
  else if rest.isEmpty then
    if negative then
      if valueOf digits = 0 then some (.other (String.ofList cs))
      else some (.integer (-(valueOf digits : Int)))
    else some (.integer (valueOf digits))
  else if isTail rest then some (.other (String.ofList cs))
  else none

end Number

/-- What the scanner is inside of. Characters are kept last first. -/
inductive Mode where
  | between
  | string (chars : List Char)
  | escape (chars : List Char)
  /-- Inside the four digits of an escape; `high` is the first half of a surrogate pair. -/
  | unicode (chars : List Char) (high : Option Nat) (count value : Nat)
  /-- A first half is to be followed by an escape for the second one. -/
  | pairEscape (chars : List Char) (high : Nat) (started : Bool)
  | number (chars : List Char)
  | word (chars : List Char)

structure Scan where
  /-- The tokens so far, last first. -/
  tokens : List Token
  mode : Mode

namespace Scan

def isBlank (c : Char) : Bool := c == ' ' || c == '\t' || c == '\n' || c == '\r'

def hexDigit? (c : Char) : Option Nat :=
  if c.isDigit then some (c.toNat - '0'.toNat)
  else if 'a' ≤ c ∧ c ≤ 'f' then some (c.toNat - 'a'.toNat + 10)
  else if 'A' ≤ c ∧ c ≤ 'F' then some (c.toNat - 'A'.toNat + 10)
  else none

def escaped? : Char → Option Char
  | '"' => some '"'
  | '\\' => some '\\'
  | '/' => some '/'
  | 'b' => some '\x08'
  | 'f' => some '\x0c'
  | 'n' => some '\n'
  | 'r' => some '\r'
  | 't' => some '\t'
  | _ => none

def wordOf? (chars : List Char) : Option Token :=
  match String.ofList chars.reverse with
  | "null" => some (.scalar .null)
  | "true" => some (.scalar (.bool true))
  | "false" => some (.scalar (.bool false))
  | _ => none

def start (tokens : List Token) (c : Char) : Option Scan :=
  let punctuation (t : Token) : Option Scan := some ⟨t :: tokens, .between⟩
  match c with
  | '[' => punctuation .openArray
  | ']' => punctuation .closeArray
  | '\x7b' => punctuation .openObject
  | '\x7d' => punctuation .closeObject
  | ':' => punctuation .colon
  | ',' => punctuation .comma
  | '"' => some ⟨tokens, .string []⟩
  | _ =>
    if isBlank c then some ⟨tokens, .between⟩
    else if c.isDigit || c == '-' then some ⟨tokens, .number [c]⟩
    else if c.isAlpha then some ⟨tokens, .word [c]⟩
    else none

def unit (tokens : List Token) (chars : List Char) (high : Option Nat) (u : Nat) : Option Scan :=
  match high with
  | some h =>
    if 0xDC00 ≤ u ∧ u ≤ 0xDFFF then
      some ⟨tokens, .string (Char.ofNat (0x10000 + (h - 0xD800) * 0x400 + (u - 0xDC00)) :: chars)⟩
    else none
  | none =>
    if 0xD800 ≤ u ∧ u ≤ 0xDBFF then some ⟨tokens, .pairEscape chars u false⟩
    else if 0xDC00 ≤ u ∧ u ≤ 0xDFFF then none
    else some ⟨tokens, .string (Char.ofNat u :: chars)⟩

def step (s : Scan) (c : Char) : Option Scan :=
  match s.mode with
  | .between => start s.tokens c
  | .string chars =>
    if c == '"' then some ⟨.text (String.ofList chars.reverse) :: s.tokens, .between⟩
    else if c == '\\' then some ⟨s.tokens, .escape chars⟩
    else if c.toNat < 0x20 then none
    else some ⟨s.tokens, .string (c :: chars)⟩
  | .escape chars =>
    if c == 'u' then some ⟨s.tokens, .unicode chars none 0 0⟩
    else (escaped? c).map fun e => ⟨s.tokens, .string (e :: chars)⟩
  | .unicode chars high count value => do
    let value := 16 * value + (← hexDigit? c)
    if count = 3 then unit s.tokens chars high value
    else some ⟨s.tokens, .unicode chars high (count + 1) value⟩
  | .pairEscape chars high started =>
    if started then if c == 'u' then some ⟨s.tokens, .unicode chars (some high) 0 0⟩ else none
    else if c == '\\' then some ⟨s.tokens, .pairEscape chars high true⟩
    else none
  | .number chars =>
    if c.isDigit || c == '.' || c == 'e' || c == 'E' || c == '+' || c == '-' then
      some ⟨s.tokens, .number (c :: chars)⟩
    else do start (.scalar (.number (← Number.ofChars? chars.reverse)) :: s.tokens) c
  | .word chars =>
    if c.isAlpha then some ⟨s.tokens, .word (c :: chars)⟩
    else do start ((← wordOf? chars) :: s.tokens) c

def finish (s : Scan) : Option (List Token) :=
  match s.mode with
  | .between => some s.tokens.reverse
  | .number chars => do
    some (.scalar (.number (← Number.ofChars? chars.reverse)) :: s.tokens).reverse
  | .word chars => do some ((← wordOf? chars) :: s.tokens).reverse
  | _ => none

end Scan

def tokens? (cs : List Char) : Option (List Token) := do
  (← cs.foldlM Scan.step ⟨[], .between⟩).finish

end Qualify.Json
