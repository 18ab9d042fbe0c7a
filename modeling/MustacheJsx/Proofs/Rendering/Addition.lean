import MustacheJsx.Conversion.Expression
import MustacheJsx.Proofs.Extraction.Helper
import MustacheJsx.Proofs.Outcome

/-!
# What the parts of a value add up to

The term of a value with several parts is their sum from the left. `+` puts its operands together as
texts if one of them is a text; otherwise it adds them as numbers, doubles rounded to the nearest.
So the values before the first text are added as numbers, unless there is only one of them.
-/

namespace MustacheJsx

/-! ### Adding doubles -/

namespace Double

def signed (negative : Bool) (magnitude : Nat) : Double :=
  ⟨UInt64.ofNat ((if negative then Nat.pow 2 63 else 0) + magnitude)⟩

def infinity (negative : Bool) : Double := signed negative infinityBits

def nan : Double := signed false (infinityBits + Nat.pow 2 51)

/-- The double nearest to `n / d`, ties to the even significand. -/
def nearest (negative : Bool) (n d : Nat) : Double :=
  if n = 0 then signed negative 0
  else
    let e := exponentFor n d
    let (a, b) := scaled n d e
    signed negative (min infinityBits ((e + 1074).toNat * Nat.pow 2 52 + roundToEven a b))

/-- How often the least positive double goes into `m * 2 ^ q`. -/
def units (negative : Bool) (m : Nat) (q : Int) : Int :=
  let magnitude : Int := (m * Nat.pow 2 (q + 1074).toNat : Nat)
  if negative then -magnitude else magnitude

/-- The sum of two doubles: the exact sum, rounded. Opposite infinities have none, and zero is
negative only as the sum of negative zeros. -/
def add (a b : Double) : Double :=
  match a.view, b.view with
  | .nan, _ => nan
  | _, .nan => nan
  | .infinite s, .infinite t => if s = t then infinity s else nan
  | .infinite s, .finite _ _ _ => infinity s
  | .finite _ _ _, .infinite t => infinity t
  | .finite s m q, .finite t n r =>
    let exact := units s m q + units t n r
    if exact = 0 then signed (s && t) 0
    else nearest (decide (exact < 0)) exact.natAbs (Nat.pow 2 1074)

/-- Sums are rounded: 0.1 and 0.2 make 0.30000000000000004. -/
example : add (ofDecimal false 1 1) (ofDecimal false 2 1) =
    ofDecimal false 30000000000000004 17 := by decide +kernel

end Double

/-! ### Adding primitive values -/

/-- A primitive value of the script. -/
inductive Primitive where
  | undefined
  | null
  | boolean (value : Bool)
  | number (value : Double)
  | string (chars : String)
  deriving DecidableEq

namespace Primitive

/-- A primitive value among the values of the script. -/
def value : Primitive → Value
  | undefined => .undefined
  | null => .null
  | boolean value => .boolean value
  | number value => .number value
  | string chars => .string chars

theorem value_injective {a b : Primitive} (h : a.value = b.value) : a = b := by
  cases a <;> cases b <;> simp_all [value]

def text (a : Primitive) : String := a.value.text

/-- The number that `+` takes a value for; a text is not taken for a number. -/
def number? : Primitive → Option Double
  | undefined => some .nan
  | null => some (.ofNat 0)
  | boolean value => some (.ofNat value.toNat)
  | number value => some value
  | string _ => none

def isText (a : Primitive) : Bool := a.number?.isNone

def plus (a b : Primitive) : Primitive :=
  match a.number?, b.number? with
  | some x, some y => .number (x.add y)
  | _, _ => .string (a.text ++ b.text)

/-- The string forms of values one after the other. -/
def joined (values : List Primitive) : String := String.join (values.map text)

/-- Adds up the numbers before the first text; from there on the string forms follow. -/
def addedThenJoined (values : List Primitive) : Primitive :=
  let numbers := (values.takeWhile fun a => !a.isText).filterMap number?
  let total := match numbers with
    | [] => .ofNat 0
    | first :: others => others.foldl Double.add first
  match values.dropWhile fun a => !a.isText with
  | [] => .number total
  | rest => .string (total.text ++ joined rest)

theorem joined_cons (a : Primitive) (values : List Primitive) :
    joined (a :: values) = a.text ++ joined values := by
  simp [joined]

theorem plus_of_isText {a b : Primitive} (h : a.isText ∨ b.isText) :
    a.plus b = .string (a.text ++ b.text) := by
  unfold plus
  split
  · next x y ha hb => simp [isText, ha, hb] at h
  · rfl

@[simp]
theorem number?_number (x : Double) : (number x).number? = some x := rfl

theorem foldl_plus_string (chars : String) (values : List Primitive) :
    values.foldl plus (.string chars) = .string (chars ++ joined values) := by
  induction values generalizing chars with
  | nil => simp [joined]
  | cons a values ih =>
    have hplus : (string chars).plus a = .string (chars ++ a.text) := plus_of_isText (.inl rfl)
    rw [List.foldl_cons, hplus, ih, joined_cons, String.append_assoc]

theorem foldl_plus_number (x : Double) (values : List Primitive) :
    values.foldl plus (.number x) = addedThenJoined (.number x :: values) := by
  induction values generalizing x with
  | nil => rfl
  | cons a values ih =>
    rw [List.foldl_cons]
    cases ha : a.number? with
    | none =>
      have hplus : (number x).plus a = .string (x.text ++ a.text) :=
        plus_of_isText (.inr (by simp [isText, ha]))
      rw [hplus, foldl_plus_string, String.append_assoc, ← joined_cons]
      simp [addedThenJoined, isText, List.takeWhile_cons, List.dropWhile_cons, ha]
    | some y =>
      have hplus : (number x).plus a = .number (x.add y) := by simp [plus, ha]
      rw [hplus, ih]
      simp [addedThenJoined, isText, List.takeWhile_cons, List.dropWhile_cons, ha]

theorem foldl_plus (first second : Primitive) (rest : List Primitive) :
    (second :: rest).foldl plus first =
      if first.isText || second.isText then .string (joined (first :: second :: rest))
      else addedThenJoined (first :: second :: rest) := by
  rw [List.foldl_cons]
  split
  · next h =>
    rw [plus_of_isText (by simpa using h), foldl_plus_string, joined_cons, joined_cons,
      String.append_assoc]
  · next h =>
    -- Both are numbers, and so is their sum.
    simp only [isText, Bool.or_eq_true, not_or, Option.isNone_iff_eq_none,
      ← ne_eq, Option.ne_none_iff_exists'] at h
    obtain ⟨⟨x, hx⟩, y, hy⟩ := h
    have hplus : first.plus second = .number (x.add y) := by simp [plus, hx, hy]
    rw [hplus, foldl_plus_number]
    simp [addedThenJoined, isText, List.takeWhile_cons, List.dropWhile_cons, hx, hy]

end Primitive

/-! ### Sums of terms -/

def Jsx.Term.isSimple : Jsx.Term → Bool
  | .string _ => false
  | .add _ _ => false
  | _ => true

/-- `term.Gives given a` says that a term has the value `a` where the simple terms in it have the
values that `given` says. -/
inductive Jsx.Term.Gives (given : Jsx.Term → Primitive → Prop) : Jsx.Term → Primitive → Prop where
  | string (chars : String) : Gives given (.string chars) (.string chars)
  | add {left right : Jsx.Term} {a b : Primitive} (hleft : Gives given left a)
      (hright : Gives given right b) : Gives given (.add left right) (a.plus b)
  | simple {term : Jsx.Term} {a : Primitive} (hsimple : term.isSimple = true)
      (hgiven : given term a) : Gives given term a

/-- The values that terms have with these bindings. -/
def Jsx.Bindings.Holds (bindings : Jsx.Bindings) (term : Jsx.Term) (a : Primitive) : Prop :=
  term.eval id bindings = some a.value

/-- A part of a value has the value `a`: a text its own, a mustache one of its term. -/
def Statement.Gives (notes : Annotations) (given : Jsx.Term → Primitive → Prop) :
    Statement → Primitive → Prop
  | .text chars, a => a = .string chars
  | .mustache m, a => ∃ term, m.toTerm notes = .ok term ∧ term.Gives given a
  | _, _ => False

section

variable {notes : Annotations} {given : Jsx.Term → Primitive → Prop}

theorem Jsx.Term.gives_string {chars : String} {a : Primitive} :
    (Jsx.Term.string chars).Gives given a ↔ a = .string chars := by
  constructor
  · intro h
    cases h with
    | string => rfl
    | simple hsimple => cases hsimple
  · rintro rfl
    apply Gives.string

theorem Jsx.Term.gives_add {left right : Jsx.Term} {c : Primitive} :
    (Jsx.Term.add left right).Gives given c ↔
      ∃ a b, left.Gives given a ∧ right.Gives given b ∧ c = a.plus b := by
  constructor
  · intro h
    cases h with
    | add hleft hright => exact ⟨_, _, hleft, hright, rfl⟩
    | simple hsimple => cases hsimple
  · rintro ⟨a, b, hleft, hright, rfl⟩
    exact hleft.add hright

theorem Jsx.Term.gives_foldl {first : Jsx.Term} {terms : List Jsx.Term} {c : Primitive} :
    (terms.foldl .add first).Gives given c ↔
      ∃ a values, first.Gives given a ∧ List.Forall₂ (Jsx.Term.Gives given) terms values ∧
        c = values.foldl .plus a := by
  induction terms generalizing first with
  | nil => simp
  | cons term terms ih =>
    rw [List.foldl_cons, ih]
    constructor
    · rintro ⟨sum, values, hsum, hvalues, rfl⟩
      obtain ⟨a, b, ha, hb, rfl⟩ := gives_add.1 hsum
      exact ⟨a, b :: values, ha, .cons hb hvalues, rfl⟩
    · rintro ⟨a, _, ha, hvalues, rfl⟩
      cases hvalues with
      | cons hb hvalues => exact ⟨_, _, ha.add hb, hvalues, rfl⟩

theorem Statement.gives_iff_of_toSummand {part : Statement} {term : Jsx.Term}
    (h : part.toSummand notes = .ok term) (a : Primitive) :
    part.Gives notes given a ↔ term.Gives given a := by
  cases part with
  | text chars =>
    cases h
    exact Jsx.Term.gives_string.symm
  | mustache m =>
    have hm : m.toTerm notes = .ok term := h
    simp [Statement.Gives, hm]
  | _ => cases h

/-- Parts and their terms have the same values. -/
theorem Statement.forall₂_gives_iff {parts : List Statement} {terms : List Jsx.Term}
    (h : List.Forall₂ (fun part term => part.toSummand notes = .ok term) parts terms)
    (values : List Primitive) :
    List.Forall₂ (Statement.Gives notes given) parts values ↔
      List.Forall₂ (Jsx.Term.Gives given) terms values := by
  induction h generalizing values with
  | nil => simp
  | cons hpart _ ih =>
    cases values with
    | nil => simp
    | cons a values => simp [gives_iff_of_toSummand hpart, ih]

/-- The sum of two or more parts is their string forms one after the other if the first or the
second has a text for its value, as a text always has. Otherwise the values before the first text
are added up as numbers, and only what follows is put behind the string form of that number. -/
theorem Statement.sum_gives_iff {parts : List Statement} (htwo : 2 ≤ parts.length)
    {term : Jsx.Term} (hsum : Statement.sum notes parts = .ok term) (c : Primitive) :
    term.Gives given c ↔ ∃ values, List.Forall₂ (Statement.Gives notes given) parts values ∧
      c = if (values.take 2).any Primitive.isText then .string (Primitive.joined values)
        else Primitive.addedThenJoined values := by
  obtain ⟨terms, hterms, hsum⟩ := bind_eq_ok hsum
  cases hsum
  have hall := forall₂_of_mapM_eq_ok hterms
  have hlength : 2 ≤ terms.length := hall.length_eq ▸ htwo
  obtain _ | ⟨first, _ | ⟨second, rest⟩⟩ := terms
  · simp at hlength
  · simp at hlength
  rw [Jsx.Term.sum, Jsx.Term.gives_foldl]
  constructor
  · rintro ⟨a, _, ha, hvalues, rfl⟩
    cases hvalues with
    | @cons _ b _ values hb hvalues =>
      refine ⟨a :: b :: values, (forall₂_gives_iff hall _).2 (.cons ha (.cons hb hvalues)), ?_⟩
      rw [Primitive.foldl_plus]
      simp
  · rintro ⟨values, hvalues, rfl⟩
    cases (forall₂_gives_iff hall values).1 hvalues with
    | cons ha hothers =>
      refine ⟨_, _, ha, hothers, ?_⟩
      cases hothers with
      | cons hb _ =>
        rw [Primitive.foldl_plus]
        simp

end

def Mustache.ofName (id : Nat) (name : String) : Mustache :=
  { callee := .path (.ofName id name), params := [], hash := [], trusting := false }

theorem Jsx.Term.gives_name {bindings : Jsx.Bindings} {name : String} {a b : Primitive}
    (h : bindings.lookup name = some a.value) :
    (Jsx.Term.name name).Gives bindings.Holds b ↔ b = a := by
  have heval : (Jsx.Term.name name).eval id bindings = some a.value := by simp [eval, h]
  constructor
  · intro hb
    cases hb with
    | simple _ hb =>
      unfold Bindings.Holds at hb
      rw [heval] at hb
      exact (Primitive.value_injective (Option.some.inj hb)).symm
  · rintro rfl
    exact .simple rfl heval

def Jsx.Bindings.oneAndTwo : Jsx.Bindings :=
  [("a", .number (.ofNat 1)), ("b", .number (.ofNat 2))]

theorem Jsx.Term.gives_one {a : Primitive} :
    (Jsx.Term.name "a").Gives Bindings.oneAndTwo.Holds a ↔ a = .number (.ofNat 1) :=
  gives_name rfl

theorem Jsx.Term.gives_two {b : Primitive} :
    (Jsx.Term.name "b").Gives Bindings.oneAndTwo.Holds b ↔ b = .number (.ofNat 2) :=
  gives_name rfl

/-- Behind the sum of two numbers a text makes a text. -/
theorem Statement.unit_is_appended :
    2 ≤ [Statement.mustache (.ofName 0 "a"), .mustache (.ofName 1 "b"), .text "px"].length ∧
      Statement.sum {} [.mustache (.ofName 0 "a"), .mustache (.ofName 1 "b"), .text "px"] =
        .ok (.add (.add (.name "a") (.name "b")) (.string "px")) ∧
      (Jsx.Term.add (.add (.name "a") (.name "b")) (.string "px")).Gives
        Jsx.Bindings.oneAndTwo.Holds (.string "3px") := by
  have htwo : 2 ≤ [Statement.mustache (.ofName 0 "a"), .mustache (.ofName 1 "b"),
      .text "px"].length := by decide
  have hsum : Statement.sum {} [.mustache (.ofName 0 "a"), .mustache (.ofName 1 "b"),
      .text "px"] = .ok (.add (.add (.name "a") (.name "b")) (.string "px")) := rfl
  refine ⟨htwo, hsum, (sum_gives_iff htwo hsum _).2
    ⟨[.number (.ofNat 1), .number (.ofNat 2), .string "px"], ?_, by decide +kernel⟩⟩
  exact .cons ⟨_, rfl, Jsx.Term.gives_one.2 rfl⟩
    (.cons ⟨_, rfl, Jsx.Term.gives_two.2 rfl⟩ (.cons rfl .nil))

/-- Two numbers are added: 1 and 2 make 3, not 12. -/
theorem Statement.numbers_are_added :
    Statement.sum {} [.mustache (.ofName 0 "a"), .mustache (.ofName 1 "b")] =
        .ok (.add (.name "a") (.name "b")) ∧
      Primitive.joined [.number (.ofNat 1), .number (.ofNat 2)] = "12" ∧
      (Jsx.Term.add (.name "a") (.name "b")).Gives Jsx.Bindings.oneAndTwo.Holds
        (.number (.ofNat 3)) ∧
      ¬ (Jsx.Term.add (.name "a") (.name "b")).Gives Jsx.Bindings.oneAndTwo.Holds
        (.string "12") := by
  have hthree : Primitive.number (.ofNat 3) =
      (Primitive.number (.ofNat 1)).plus (.number (.ofNat 2)) := by decide +kernel
  refine ⟨rfl, by decide +kernel, ?_, ?_⟩
  · rw [hthree]
    exact .add (Jsx.Term.gives_one.2 rfl) (Jsx.Term.gives_two.2 rfl)
  · intro h
    obtain ⟨a, b, ha, hb, hsum⟩ := Jsx.Term.gives_add.1 h
    rw [Jsx.Term.gives_one.1 ha, Jsx.Term.gives_two.1 hb, ← hthree] at hsum
    cases hsum

end MustacheJsx
