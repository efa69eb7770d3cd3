/-!
# Escaped text

A listing shows a text on one line, so control characters are written as escape sequences: a
backslash and one of six letters, or a backslash, `u` and four hexadecimal digits.  All other
characters, the backslash included, stand for themselves; reading such a text back therefore
copies every backslash that begins no complete sequence.
-/

namespace MaximalMunch.Text

/-- The characters that a listing does not show as they are: the two blocks of control codes. -/
def isControl (c : Char) : Bool :=
  c.toNat < 0x20 || (0x7F ≤ c.toNat && c.toNat ≤ 0x9F)

/-- The letter that names a control character in a two-character sequence. -/
def escapeLetter? : Char → Option Char
  | '\x00' => some '0'
  | '\x08' => some 'b'
  | '\x0c' => some 'f'
  | '\n' => some 'n'
  | '\x0d' => some 'r'
  | '\t' => some 't'
  | _ => none

/-- The control character that a letter names behind a backslash. -/
def namedControl? : Char → Option Char
  | '0' => some '\x00'
  | 'b' => some '\x08'
  | 'f' => some '\x0c'
  | 'n' => some '\n'
  | 'r' => some '\x0d'
  | 't' => some '\t'
  | _ => none

/-- A number below 65536 in four lower case hexadecimal digits. -/
def hexDigits (n : Nat) : List Char :=
  [n / 4096, n / 256, n / 16, n].map fun k => Nat.digitChar (k % 16)

/-- One character as a listing shows it. -/
def escapeChar (c : Char) : List Char :=
  match escapeLetter? c with
  | some letter => ['\\', letter]
  | none => if isControl c then '\\' :: 'u' :: hexDigits c.toNat else [c]

/-- A text as a listing shows it. -/
def escapeChars (text : List Char) : List Char :=
  text.flatMap escapeChar

/-- The value of a hexadecimal digit of either case. -/
def hexValue? (c : Char) : Option Nat :=
  if '0' ≤ c ∧ c ≤ '9' then some (c.toNat - '0'.toNat)
  else if 'a' ≤ c ∧ c ≤ 'f' then some (c.toNat - 'a'.toNat + 10)
  else if 'A' ≤ c ∧ c ≤ 'F' then some (c.toNat - 'A'.toNat + 10)
  else none

/-- The number that a row of hexadecimal digits writes, the most significant digit first. -/
def hexNumber? (digits : List Char) : Option Nat :=
  digits.foldlM (fun n digit => (hexValue? digit).map (16 * n + ·)) 0

/-- The number written in the four places behind `\u`: four digits, or a plus sign and three. -/
def fourPlaces? (a b c d : Char) : Option Nat :=
  if a = '+' then hexNumber? [b, c, d] else hexNumber? [a, b, c, d]

/-- The character with the given code point; surrogates and numbers beyond the last code point
have none. -/
def scalar? (n : Nat) : Option Char :=
  if n.isValidChar then some (Char.ofNat n) else none

/-- Reads escape sequences from left to right.  A backslash that begins none is copied, and
reading goes on with the character behind it. -/
def unescapeChars : List Char → List Char
  | [] => []
  | '\\' :: 'u' :: a :: b :: c :: d :: rest =>
    match (fourPlaces? a b c d).bind scalar? with
    | some x => x :: unescapeChars rest
    | none => '\\' :: 'u' :: unescapeChars (a :: b :: c :: d :: rest)
  | '\\' :: e :: rest =>
    match namedControl? e with
    | some x => x :: unescapeChars rest
    | none => '\\' :: unescapeChars (e :: rest)
  | c :: rest => c :: unescapeChars rest

/-- `escapeChars` on strings. -/
def escape (text : String) : String :=
  String.ofList (escapeChars text.toList)

/-- `unescapeChars` on strings. -/
def unescape (text : String) : String :=
  String.ofList (unescapeChars text.toList)

end MaximalMunch.Text
