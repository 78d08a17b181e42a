import Workflow.Json.Value

/-!
# Writing JSON

A value is written with one member or item to a line, each level two spaces
further in.  Empty containers stay on one line.  In texts the quote, the
backslash and the control characters are escaped and everything else stands for
itself.
-/

namespace Workflow
namespace Json

/-!
# Texts
-/

def hexDigit (n : Nat) : Char :=
  if n < 10 then Char.ofNat (48 + n) else Char.ofNat (87 + n)

def escapeChar (c : Char) : List Char :=
  if c == '\x22' then ['\\', '\x22']
  else if c == '\\' then ['\\', '\\']
  else if c == '\x08' then ['\\', 'b']
  else if c == '\x0c' then ['\\', 'f']
  else if c == '\n' then ['\\', 'n']
  else if c == '\r' then ['\\', 'r']
  else if c == '\t' then ['\\', 't']
  else if c.toNat < 0x20 then
    ['\\', 'u', '0', '0', hexDigit (c.toNat / 16), hexDigit (c.toNat % 16)]
  else [c]

def writeText (s : String) : List Char :=
  '\x22' :: s.toList.flatMap escapeChar ++ ['\x22']

/-!
# Numbers

A double is written with the fewest digits that read back.  The point stands
among the digits when the number is at least `10 ^ -5` and below `10 ^ 16`;
otherwise there is one digit before the point and an exponent.
-/

def writeNat (n : Nat) : List Char :=
  Nat.toDigits 10 n

def writeInt (n : Int) : List Char :=
  if n < 0 then '-' :: writeNat n.natAbs else writeNat n.natAbs

def writeDecimal (c : Number.Double.Decimal) : List Char :=
  let digits := writeNat c.digits
  let point : Int := digits.length + c.exponent
  if 0 <= c.exponent && point <= 16 then
    digits ++ List.replicate c.exponent.toNat '0' ++ ['.', '0']
  else if 0 < point && point <= 16 then
    digits.take point.toNat ++ '.' :: digits.drop point.toNat
  else if -5 < point && point <= 0 then
    ['0', '.'] ++ List.replicate (-point).toNat '0' ++ digits
  else
    let rest := digits.drop 1
    let mantissa := if rest.isEmpty then digits else digits.take 1 ++ '.' :: rest
    mantissa ++ 'e' :: writeInt (point - 1)

def writeDouble (x : Number.Double) : List Char :=
  let sign := if x.isNegative then ['-'] else []
  if x.isZero then sign ++ ['0', '.', '0']
  else sign ++ writeDecimal (Number.Double.shortest x.magnitude)

/-!
# Values
-/

/-- A line break followed by the indentation of a level. -/
def newline (level : Nat) : List Char :=
  '\n' :: List.replicate (2 * level) ' '

mutual

def write (level : Nat) : Json -> List Char
  | null => "null".toList
  | bool true => "true".toList
  | bool false => "false".toList
  | int n => writeInt n
  | real x => writeDouble x
  | str s => writeText s
  | arr [] => ['[', ']']
  | arr (v :: rest) =>
      '[' :: (newline (level + 1) ++ write (level + 1) v ++
        writeItems (level + 1) rest ++ newline level ++ [']'])
  | obj [] => ['\x7b', '\x7d']
  | obj ((k, v) :: rest) =>
      '\x7b' :: (newline (level + 1) ++ writeText k ++ [':', ' '] ++
        write (level + 1) v ++ writeMembers (level + 1) rest ++
        newline level ++ ['\x7d'])

def writeItems (level : Nat) : List Json -> List Char
  | [] => []
  | v :: rest => ',' :: (newline level ++ write level v ++ writeItems level rest)

def writeMembers (level : Nat) : List (String × Json) -> List Char
  | [] => []
  | (k, v) :: rest =>
      ',' :: (newline level ++ writeText k ++ [':', ' '] ++ write level v ++
        writeMembers level rest)

end

def pretty (v : Json) : String :=
  String.ofList (write 0 v)

end Json
end Workflow
