import MustacheJsx.Number.Compact
import MustacheJsx.Vocabulary

/-!
# Values of the script and what they render

The data of a component and what its code makes of it are values of one kind: primitives, lists,
objects and elements. Rendering walks through them; lists and fragments leave no trace, nor do
`undefined`, `null` and booleans. What is rendered is written as a sequence of marks, so texts that
follow each other run together.
-/

namespace MustacheJsx

/-- A value of the script, without functions. An object lists its own properties. -/
inductive Value where
  | undefined
  | null
  | boolean (value : Bool)
  | number (value : Double)
  | string (chars : String)
  | list (items : List Value)
  | object (properties : List (String × Value))
  | element (tag : String) (children : List Value)

/-- The double nearest to a natural number. -/
def Double.ofNat (n : Nat) : Double := Double.ofDecimal false n 0

def Double.isFalsy (d : Double) : Bool :=
  match d.view with
  | .nan => true
  | .infinite _ => false
  | .finite _ significand _ => significand == 0

/-- A double as text; both zeros are written alike. -/
def Double.text (d : Double) : String :=
  match d.view with
  | .nan => "NaN"
  | .infinite negative => if negative then "-Infinity" else "Infinity"
  | .finite negative significand exponent =>
    if significand = 0 then "0"
    else
      let digits := Double.plain significand exponent
      String.ofList (if negative then '-' :: digits else digits)

theorem Double.isFalsy_of_bits {m : Nat} (hpos : 0 < m) (hle : m ≤ infinityBits) :
    isFalsy ⟨UInt64.ofNat m⟩ = false := by
  have hbound : infinityBits < 2 ^ 64 := by decide
  have hbits : (UInt64.ofNat m).toNat = m :=
    UInt64.toNat_ofNat_of_lt (Nat.lt_of_le_of_lt hle hbound)
  rw [isFalsy, view]
  simp only [exponentField, fractionField, hbits]
  have h52 : Nat.pow 2 52 = 4503599627370496 := by decide
  have h11 : Nat.pow 2 11 = 2048 := by decide
  rw [h52, h11]
  have hle' : m ≤ 2047 * 4503599627370496 := hle
  split
  · next heq =>
    split at heq
    · next he =>
      split at heq
      · cases heq
      · next hf => omega
    · split at heq <;> cases heq
  · rfl
  · next heq =>
    split at heq
    · split at heq <;> cases heq
    · next he =>
      split at heq
      · next hz =>
        cases heq
        simp only [beq_eq_false_iff_ne]
        omega
      · cases heq
        simp only [beq_eq_false_iff_ne]
        omega

/-- A count is falsy only if it is zero. -/
theorem Double.isFalsy_ofNat (n : Nat) : (ofNat n).isFalsy = decide (n = 0) := by
  cases n with
  | zero => rfl
  | succ n =>
    rw [ofNat, ofDecimal, if_neg (Nat.succ_ne_zero n)]
    dsimp only
    rw [decide_eq_false (Nat.succ_ne_zero n)]
    have hexponent : -53 ≤ exponentFor (n + 1) (Nat.pow 10 0) := by
      have hone : (Nat.pow 10 0).log2 = 0 := by decide
      rw [exponentFor, hone]
      dsimp only
      split <;> omega
    generalize exponentFor (n + 1) (Nat.pow 10 0) = e at *
    have hfloor : 0 < (e + 1074).toNat * Nat.pow 2 52 :=
      Nat.mul_pos (by omega) (by decide)
    rw [if_neg (by decide), Nat.zero_add]
    refine isFalsy_of_bits ?_ (Nat.min_le_left _ _)
    have hinfinity : 0 < infinityBits := by decide
    omega

/-! ### Properties -/

/-- The code units of a string; `none` stands for one that is no character by itself. -/
def String.codeUnits (chars : String) : List (Option Char) :=
  chars.toList.flatMap fun c => if c.toNat < 0x10000 then [some c] else [none, none]

def propertyIndex? (property : String) : Option Nat :=
  match property.toNat? with
  | some n => if toString n = property then some n else none
  | none => none

namespace Value

/-- The value of a property. It is missing if the value has no such property of its own. -/
def member (property : String) : Value → Option Value
  | .object properties => properties.lookup property
  | .list items =>
    if property = "length" then some (.number (.ofNat items.length))
    else (propertyIndex? property).bind fun n => items[n]?
  | .string chars =>
    if property = "length" then some (.number (.ofNat (String.codeUnits chars).length))
    else (propertyIndex? property).bind fun n =>
      ((String.codeUnits chars)[n]?).join.map fun c => .string (String.singleton c)
  | _ => none

def truthy : Value → Bool
  | .undefined => false
  | .null => false
  | .boolean value => value
  | .number value => !value.isFalsy
  | .string chars => !chars.isEmpty
  | .list _ => true
  | .object _ => true
  | .element _ _ => true

end Value

/-! ### Rendering -/

/-- A mark of rendered markup: the start of an element, a character, or the end of an element. -/
inductive Mark where
  | start (tag : String)
  | char (c : Char)
  | finish
  deriving DecidableEq

def Mark.ofText (chars : String) : List Mark := chars.toList.map Mark.char

/-- The marks of an element with its content; a fragment is its content alone. -/
def Mark.ofElement (tag : String) (content : List Mark) : List Mark :=
  if tag = Vocabulary.fragment then content else .start tag :: content ++ [.finish]

mutual

/-- The marks that a value renders. An object renders nothing: it is an error. -/
def Value.render : Value → Option (List Mark)
  | .undefined => some []
  | .null => some []
  | .boolean _ => some []
  | .number value => some (Mark.ofText value.text)
  | .string chars => some (Mark.ofText chars)
  | .list items => renderAll items
  | .object _ => none
  | .element tag children => do
    let content ← renderAll children
    return Mark.ofElement tag content

def Value.renderAll : List Value → Option (List Mark)
  | [] => some []
  | value :: values => do
    let first ← value.render
    let rest ← renderAll values
    return first ++ rest

end

theorem Value.renderAll_append {before after : List Value} {marks others : List Mark}
    (h : renderAll before = some marks) (h' : renderAll after = some others) :
    renderAll (before ++ after) = some (marks ++ others) := by
  induction before generalizing marks with
  | nil =>
    cases h
    exact h'
  | cons value before ih =>
    obtain ⟨first, hf, h⟩ := Option.bind_eq_some_iff.1 h
    obtain ⟨rest, hr, h⟩ := Option.bind_eq_some_iff.1 h
    cases h
    rw [List.cons_append, renderAll, hf, ih hr, List.append_assoc]
    rfl

end MustacheJsx
