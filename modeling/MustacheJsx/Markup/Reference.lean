import MustacheJsx.Markup.Entity
import MustacheJsx.Text.Classes

/-!
# Character references

A reference is `&#` with a decimal number, `&#x` with a hexadecimal one, or `&` with a name; a
semicolon ends it. A number may lack the semicolon, and so may some names, though in an attribute
not before a letter, a digit or `=`. What is no reference is left as it stands.

Models the character references of the tokenizer that `parse_template` feeds.
-/

namespace MustacheJsx.Markup.Reference

/-! ### Numbers -/

def digitValue (c : Char) : Nat :=
  if Text.isAsciiDigit c then c.toNat - '0'.toNat
  else if 'a' ≤ c ∧ c ≤ 'f' then c.toNat - 'a'.toNat + 10
  else c.toNat - 'A'.toNat + 10

def isHexDigit (c : Char) : Bool :=
  Text.isAsciiDigit c || ('a' ≤ c && c ≤ 'f') || ('A' ≤ c && c ≤ 'F')

/-- The code points that old documents mean by the numbers from 0x80 to 0x9F; zero where they mean
the number itself. -/
def legacyCodes : List Nat :=
  [0x20AC, 0, 0x201A, 0x0192, 0x201E, 0x2026, 0x2020, 0x2021, 0x02C6, 0x2030, 0x0160, 0x2039,
   0x0152, 0, 0x017D, 0, 0, 0x2018, 0x2019, 0x201C, 0x201D, 0x2022, 0x2013, 0x2014, 0x02DC, 0x2122,
   0x0161, 0x203A, 0x0153, 0, 0x017E, 0x0178]

/-- The character of a number; the replacement character stands for a number that has none. -/
def characterOf (n : Nat) : Char :=
  if n = 0 ∨ 0x10FFFF < n ∨ (0xD800 ≤ n ∧ n ≤ 0xDFFF) then '\ufffd'
  else if 0x80 ≤ n ∧ n ≤ 0x9F then
    let code := legacyCodes.getD (n - 0x80) 0
    Char.ofNat (if code = 0 then n else code)
  else Char.ofNat n

/-- A number in `base` after `skipped` characters of the reference: the character, and the number of
characters that the reference takes. -/
def numberIn? (base skipped : Nat) (cs : List Char) : Option (List Char × Nat) :=
  let isDigit := if base = 16 then isHexDigit else Text.isAsciiDigit
  let digits := cs.takeWhile isDigit
  if digits.isEmpty then none
  else
    let semicolon := if (cs.drop digits.length).head? = some ';' then 1 else 0
    let value := digits.foldl (fun n c => base * n + digitValue c) 0
    some ([characterOf value], skipped + digits.length + semicolon)

/-! ### Names -/

def longestLead? (cs : List Char) (names : List String) : Option (List Char) :=
  names.foldl
    (fun best name =>
      let chars := name.toList
      if Text.startsWith chars cs && (best.getD []).length < chars.length then some chars else best)
    none

/-- A name without a semicolon. In an attribute it must not run on. -/
def bare? (inAttribute : Bool) (cs : List Char) : Option (List Char × Nat) :=
  match longestLead? cs Entity.bareNames with
  | none => none
  | some name =>
    let runsOn := match cs.drop name.length with
      | [] => false
      | c :: _ => c == '=' || Text.isAsciiAlphanumeric c
    if inAttribute && runsOn then none
    else (Entity.characters? name).map fun chars => (chars, name.length)

def named? (inAttribute : Bool) (cs : List Char) : Option (List Char × Nat) :=
  let run := cs.takeWhile Text.isAsciiAlphanumeric
  match (cs.drop run.length).head?, Entity.characters? run with
  | some ';', some chars => some (chars, run.length + 1)
  | _, _ => bare? inAttribute cs

/-! ### References -/

/-- Reads the reference after an `&`: the characters it stands for, and how many characters it
takes; `none` when the `&` stands for itself. -/
def read? (inAttribute : Bool) (cs : List Char) : Option (List Char × Nat) :=
  match cs with
  | '#' :: 'x' :: digits => numberIn? 16 2 digits
  | '#' :: 'X' :: digits => numberIn? 16 2 digits
  | '#' :: digits => numberIn? 10 1 digits
  | _ => named? inAttribute cs

end MustacheJsx.Markup.Reference
