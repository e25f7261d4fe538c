/-
CljFormat.Form.CharLiteral — the character a literal stands for.

After its backslash a literal is the character itself, one of six names, `o` and three octal
digits, or `u` and four hexadecimal digits that are no surrogate.
-/
import CljFormat.SyntaxError

namespace CljFormat.CharLiteral

/-- The characters that have names. -/
def named : List (String × Char) :=
  [("newline", '\n'), ("space", ' '), ("tab", '\t'), ("formfeed", '\x0c'), ("backspace", '\x08'),
    ("return", '\r')]

/-- The character called `name`. -/
def ofName? (name : String) : Option Char :=
  named.lookup name

/-- The value of `c` as a digit in base `base`, which is at most sixteen. -/
def digitValue? (base : Nat) (c : Char) : Option Nat :=
  let n := c.toNat
  let value? :=
    if '0'.toNat ≤ n ∧ n ≤ '9'.toNat then some (n - '0'.toNat)
    else if 'a'.toNat ≤ n ∧ n ≤ 'f'.toNat then some (n - 'a'.toNat + 10)
    else if 'A'.toNat ≤ n ∧ n ≤ 'F'.toNat then some (n - 'A'.toNat + 10)
    else none
  value?.filter (· < base)

/-- The number that `digits` write in base `base`, if they all are digits of that base. -/
def number? (base : Nat) (digits : List Char) : Option Nat :=
  (digits.mapM (digitValue? base)).map fun values => values.foldl (fun n d => n * base + d) 0

/-- The character whose code point is written by exactly `count` digits in base `base`. -/
def codePoint? (base count : Nat) (digits : List Char) : Option Char := do
  guard (digits.length = count)
  let n ← number? base digits
  if h : n.isValidChar then some (Char.ofNatAux n h) else none

/-- The character that `body`, a literal without its backslash, stands for. -/
def decode (body : List Char) : Except CharLiteralFault Char :=
  match body with
  | [] => .error .character
  | [c] => .ok c
  | c :: rest =>
    match ofName? (String.ofList body) with
    | some named => .ok named
    | none =>
      if c = 'o' then ((codePoint? 8 3 rest).map .ok).getD (.error .octal)
      else if c = 'u' then ((codePoint? 16 4 rest).map .ok).getD (.error .unicode)
      else .error .character

example : decode "u00e9".toList = .ok 'é' := rfl

example : decode "ud800".toList = .error .unicode := rfl

example : decode "o101".toList = .ok 'A' := rfl

end CljFormat.CharLiteral
