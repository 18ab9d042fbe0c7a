import MustacheJsx.Mustache.Tag

/-!
# Markup with its tags lifted out

Before markup is read, every mustache is lifted out of it. A value or a partial leaves a
placeholder: a number between two marker characters, which are chosen so that they do not occur in
the template. A block leaves elements of its own. `Piece.split` finds the placeholders of a text
again, and `Lifted.take` gives back a tag, once.

Models `Placeholder`, the constants `BLOCK_TAG`, `ELSE_TAG`, `ID_ATTR`, `TAG_NAME_ATTR` and
`ATTR_NAMES_ATTR`, and `Normalized` with `push`, `take`, `placeholder` and `whole_placeholder`.
-/

namespace MustacheJsx

/-! ### Placeholders -/

/-- A tag that was lifted out. -/
inductive Placeholder where
  | expression (mustache : Mustache)
  | partialCall (call : PartialCall)
  | comment (value : String)
  | block (head : BlockHead)
  | elseIf (head : BlockHead)

def blockTag : String := "hbs-block"

def elseTag : String := "hbs-else"

def numberAttribute : String := "data-hbs-id"

def tagSpelling : String := "data-hbs-tag"

def attributeSpellings : String := "data-hbs-attrs"

/-- The first character of the private area that does not occur in `source`. -/
def freeMarker? (source : List Char) : Option Char :=
  ((List.range (0xF8FF - 0xE000 + 1)).map fun n => Char.ofNat (0xE000 + n)).find?
    fun c => !source.contains c

theorem freeMarker?_not_mem {source : List Char} {marker : Char}
    (h : freeMarker? source = some marker) : marker ∉ source := by
  have := List.find?_some h
  simpa using this

def placeholderText (marker : Char) (index : Nat) : List Char :=
  marker :: Nat.toDigits 10 index ++ [marker]

/-- The value of decimal digits, if it is an index: it fits 64 bits. -/
def index? (digits : List Char) : Option Nat :=
  if digits.isEmpty || !digits.all Text.isAsciiDigit then none
  else
    let n := Double.digitsValue digits
    if n < Nat.pow 2 64 then some n else none

/-- An index as an attribute writes it: a plus sign may stand before it. -/
def signedIndex? : List Char → Option Nat
  | '+' :: digits => index? digits
  | digits => index? digits

def placeholderAt? (marker : Char) : List Char → Option (List Char × List Char)
  | [] => none
  | c :: cs =>
    if c ≠ marker then none
    else
      let digits := cs.takeWhile Text.isDecimal
      match cs.dropWhile Text.isDecimal with
      | d :: rest => if d = marker ∧ !digits.isEmpty then some (digits, rest) else none
      | [] => none

/-! ### Pieces of a text -/

/-- A piece of a text: characters, or a placeholder with its index, if it has one. -/
inductive Piece where
  | text (chars : List Char)
  | hole (index : Option Nat)
  deriving DecidableEq

namespace Piece

def pending (text : List Char) : List Piece :=
  if text.isEmpty then [] else [.text text.reverse]

/-- The pieces of `cs` after its first `skip` characters; `text` is the text before, in reverse. -/
def splitAfter (marker : Char) (skip : Nat) (text : List Char) : List Char → List Piece
  | [] => pending text
  | c :: cs =>
    match skip with
    | skip + 1 => splitAfter marker skip text cs
    | 0 =>
      match placeholderAt? marker (c :: cs) with
      | some (digits, _) =>
        pending text ++ .hole (index? digits) :: splitAfter marker (digits.length + 1) [] cs
      | none => splitAfter marker 0 (c :: text) cs

def split (marker : Char) (cs : List Char) : List Piece := splitAfter marker 0 [] cs

def whole? (marker : Char) (cs : List Char) : Option Nat :=
  match placeholderAt? marker cs with
  | some (digits, []) => index? digits
  | _ => none

end Piece

/-! ### Lifted markup -/

/-- Markup with placeholders, and the tags they stand for. A tag is there until it is taken. -/
structure Lifted where
  markup : List Char
  placeholders : List (Option Placeholder)
  /-- The placeholders that are attribute values without quotes. -/
  unquoted : List Nat
  marker : Char

namespace Lifted

def take (lifted : Lifted) (index : Nat) : Option Placeholder × Lifted :=
  match lifted.placeholders[index]? with
  | some (some placeholder) =>
    (some placeholder, { lifted with placeholders := lifted.placeholders.set index none })
  | _ => (none, lifted)

def isEmpty (lifted : Lifted) : Bool := lifted.placeholders.all Option.isNone

theorem take_take (lifted : Lifted) (index : Nat) :
    ((lifted.take index).2.take index).1 = none := by
  cases h : lifted.placeholders[index]? with
  | none => simp [take, h]
  | some found =>
    have hi : index < lifted.placeholders.length := (List.getElem?_eq_some_iff.1 h).1
    cases found with
    | none => simp [take, h]
    | some placeholder =>
      have taken : (lifted.take index).2.placeholders = lifted.placeholders.set index none := by
        rw [take, h]
      have gone : (lifted.placeholders.set index none)[index]? = some none := by simp [hi]
      rw [take, taken, gone]

end Lifted

end MustacheJsx
