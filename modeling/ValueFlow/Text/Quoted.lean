import ValueFlow.Text.Printable

/-!
# Quoted text

A text between quotes, on one line and in printable characters only. It is a list of code points
rather than a `String`, so that a surrogate, which no `String` holds, can be quoted too.
-/

namespace ValueFlow.Text

/-- Lower-case hexadecimal, padded with zeros to at least `width` digits. -/
def hex (width n : Nat) : String :=
  let digits := Nat.toDigits 16 n
  String.ofList (List.replicate (width - digits.length) '0' ++ digits)

def singleQuote : Nat := 0x27
def doubleQuote : Nat := 0x22
def backslash : Nat := 0x5c

/-- One code point inside a text that stands between `quote`s. -/
def escaped (quote c : Nat) : String :=
  if c = quote ∨ c = backslash then String.ofList [Char.ofNat backslash, Char.ofNat c]
  else if c = 0x0a then "\\n"
  else if c = 0x0d then "\\r"
  else if c = 0x09 then "\\t"
  else if isPrintable c then (Char.ofNat c).toString
  else if c < 0x100 then "\\x" ++ hex 2 c
  else if c < 0x10000 then "\\u" ++ hex 4 c
  else "\\U" ++ hex 8 c

/-- Single quotes, unless the text has single quotes and no double ones. -/
def quoteFor (codes : List Nat) : Nat :=
  if codes.contains singleQuote && !codes.contains doubleQuote then doubleQuote else singleQuote

def quotedCodes (codes : List Nat) : String :=
  let quote := quoteFor codes
  let mark := (Char.ofNat quote).toString
  mark ++ String.join (codes.map (escaped quote)) ++ mark

def quoted (s : String) : String :=
  quotedCodes (s.toList.map Char.toNat)

end ValueFlow.Text
