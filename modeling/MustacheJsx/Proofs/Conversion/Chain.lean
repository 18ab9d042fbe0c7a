import MustacheJsx.Conversion.Statement
import MustacheJsx.Proofs.Outcome

/-!
# Chains of conditions

A block with `else if`s is a chain: each is a block of its own, the only statement in the inverse of
the one before. A chain of conditions becomes nested choices. Whatever truth values the conditions
have, these show the first branch whose own test holds: `Statement.eval_of_convert_chain`.
-/

namespace MustacheJsx

/-! ### Values of terms -/

namespace Jsx

/-- Values for which the operators of conditions mean what they do in the script. What the other
terms are is left open, and so is which of them count as true. -/
structure Semantics (V : Type) where
  /-- The value of a term that none of the operators makes. -/
  atom : Term → V
  boolean : Bool → V
  truthy : V → Bool
  truthy_boolean : ∀ value, truthy (boolean value) = value

namespace Semantics

variable {V : Type} (s : Semantics V)

def eval : Term → V
  | .call (.name callee) [argument] =>
    if callee = "Boolean" then s.boolean (s.truthy (eval argument))
    else s.atom (.call (.name callee) [argument])
  | .not operand => s.boolean !s.truthy (eval operand)
  | .and left right => if s.truthy (eval left) then eval right else eval left
  | .conditional test consequent alternate =>
    if s.truthy (eval test) then eval consequent else eval alternate
  | term => s.atom term

theorem eval_truth (term : Term) : s.eval term.truth = s.boolean (s.truthy (s.eval term)) := by
  rw [Term.truth, eval, if_pos rfl]

/-- What a condition tests: its term, or for `unless` that it does not hold. -/
def testOf (negated : Bool) (condition : Term) : Term :=
  if negated then .not condition.truth else condition.truth

theorem eval_testOf (negated : Bool) (condition : Term) :
    s.eval (testOf negated condition) =
      s.boolean (s.truthy (s.eval condition) != negated) := by
  cases negated with
  | false => rw [testOf, if_neg Bool.false_ne_true, eval_truth, Bool.bne_false]
  | true => rw [testOf, if_pos rfl, eval, eval_truth, s.truthy_boolean, Bool.bne_true]

end Semantics

end Jsx

/-! ### Conditions -/

def BlockHead.condition (notes : Annotations) (head : BlockHead) :
    Except CompileError Jsx.Term := do
  let subject ← head.subject .condition
  subject.toTerm notes

/-- The names of the blocks that are conditions alone. -/
def BlockHead.IsCondition (head : BlockHead) : Prop := head.name = "if" ∨ head.name = "unless"

/-- Whether the test of a block holds: its condition does, or for `unless` does not. -/
def BlockHead.holds {V : Type} (s : Jsx.Semantics V) (notes : Annotations) (head : BlockHead) :
    Bool :=
  match head.condition notes with
  | .ok condition => s.truthy (s.eval condition) != decide (head.name = "unless")
  | .error _ => false

theorem BlockHead.IsCondition.ofName? {head : BlockHead} (h : head.IsCondition) :
    BlockKind.ofName? head.name = some (.condition (decide (head.name = "unless"))) := by
  obtain h | h := h
  · rw [h]
    rfl
  · rw [h]
    rfl

theorem BlockHead.toTest_eq (notes : Annotations) (head : BlockHead) (negated : Bool) :
    head.toTest notes negated = (head.condition notes).map (Jsx.Semantics.testOf negated) := by
  rw [toTest, condition]
  cases head.subject .condition with
  | error e => rfl
  | ok subject =>
    rw [ok_bind, ok_bind]
    cases subject.toTerm notes with
    | error e => rfl
    | ok term => rfl

/-- The term of a body that may be missing; without one a condition shows the test itself. -/
def Body.toAlternate (notes : Annotations) (test consequent : Jsx.Term) :
    Option Body → Except CompileError Jsx.Term
  | none => .ok (.and test consequent)
  | some body => (body.toTerm notes).map (Jsx.Term.conditional test consequent)

/-- A condition converts its head, its program and its inverse. -/
theorem Statement.exists_of_convert_condition {notes : Annotations} {head : BlockHead}
    (hhead : head.IsCondition) {program : Body} {inverse : Option Body} {converted : Converted}
    (h : (Statement.block head program inverse).convert notes = .ok converted) :
    ∃ condition consequent term, head.condition notes = .ok condition ∧
      program.toTerm notes = .ok consequent ∧
      Body.toAlternate notes
        (Jsx.Semantics.testOf (decide (head.name = "unless")) condition) consequent inverse =
          .ok term ∧ converted = .term term := by
  rw [Statement.convert.eq_def] at h
  dsimp only at h
  rw [hhead.ofName?] at h
  dsimp only at h
  obtain ⟨test, htest, h⟩ := bind_eq_ok h
  obtain ⟨consequent, hconsequent, h⟩ := bind_eq_ok h
  rw [BlockHead.toTest_eq] at htest
  cases hcondition : head.condition notes with
  | error e =>
    rw [hcondition] at htest
    cases htest
  | ok condition =>
    rw [hcondition] at htest
    cases htest
    cases inverse with
    | none =>
      cases h
      exact ⟨condition, consequent, _, rfl, hconsequent, rfl, rfl⟩
    | some other =>
      obtain ⟨alternate, halternate, h⟩ := bind_eq_ok h
      cases h
      refine ⟨condition, consequent, _, rfl, hconsequent, ?_, rfl⟩
      rw [Body.toAlternate, halternate]
      rfl

/-! ### Chains -/

/-- The `else if`s in the inverse of a block, and the `else` after them, if there is one. -/
inductive ChainsTo : Option Body → List (BlockHead × Body) → Option Body → Prop where
  | last (otherwise : Option Body) : ChainsTo otherwise [] otherwise
  | elseIf {id head program inverse chain otherwise} : ChainsTo inverse chain otherwise →
      ChainsTo (some (.mk id [.block head program inverse])) ((head, program) :: chain) otherwise

/-- The first body whose test holds, and the one of the `else` if there is none. -/
def selected {V : Type} (s : Jsx.Semantics V) (notes : Annotations)
    (chain : List (BlockHead × Body)) (otherwise : Option Body) : Option Body :=
  ((chain.find? fun branch => branch.1.holds s notes).map Prod.snd).or otherwise

/-- The value of the term that a body becomes; a missing body is false. -/
def Body.valueWith {V : Type} (s : Jsx.Semantics V) (notes : Annotations) :
    Option Body → Except CompileError V
  | some body => (body.toTerm notes).map s.eval
  | none => .ok (s.boolean false)

section

variable {V : Type} (s : Jsx.Semantics V) {notes : Annotations}

theorem selected_cons (head : BlockHead) (program : Body) (chain : List (BlockHead × Body))
    (otherwise : Option Body) :
    selected s notes ((head, program) :: chain) otherwise =
      if head.holds s notes then some program else selected s notes chain otherwise := by
  rw [selected, List.find?_cons]
  cases head.holds s notes with
  | true => rfl
  | false => rfl

/-- The value of a condition is that of its program or of its inverse, as its test says. -/
theorem Body.valueWith_of_toAlternate {head : BlockHead} {condition consequent term : Jsx.Term}
    {program : Body} {inverse : Option Body} (hcondition : head.condition notes = .ok condition)
    (hprogram : program.toTerm notes = .ok consequent)
    (h : Body.toAlternate notes
      (Jsx.Semantics.testOf (decide (head.name = "unless")) condition) consequent inverse =
        .ok term) :
    Body.valueWith s notes (if head.holds s notes then some program else inverse) =
      .ok (s.eval term) := by
  have hholds : s.truthy (s.eval (Jsx.Semantics.testOf (decide (head.name = "unless")) condition)) =
      head.holds s notes := by
    rw [s.eval_testOf, s.truthy_boolean, BlockHead.holds, hcondition]
  cases inverse with
  | none =>
    cases h
    rw [Jsx.Semantics.eval, hholds]
    split
    · rw [Body.valueWith, hprogram]
      rfl
    · next hnot =>
      rw [← hholds, s.eval_testOf, s.truthy_boolean] at hnot
      rw [Body.valueWith, s.eval_testOf, Bool.eq_false_iff.2 hnot]
  | some other =>
    rw [Body.toAlternate] at h
    cases halternate : other.toTerm notes with
    | error e =>
      rw [halternate] at h
      cases h
    | ok alternate =>
      rw [halternate] at h
      cases h
      rw [Jsx.Semantics.eval, hholds]
      split
      · rw [Body.valueWith, hprogram]
        rfl
      · rw [Body.valueWith, halternate]
        rfl

/-- A chain of conditions that converts shows what the selected branch converts to. -/
theorem Statement.eval_of_convert_chain {head : BlockHead} {program : Body}
    {inverse otherwise : Option Body} {chain : List (BlockHead × Body)} {converted : Converted}
    (hchain : ChainsTo inverse chain otherwise) (hhead : head.IsCondition)
    (hheads : ∀ branch ∈ chain, branch.1.IsCondition)
    (h : (Statement.block head program inverse).convert notes = .ok converted) :
    ∃ term, converted = .term term ∧
      Body.valueWith s notes (selected s notes ((head, program) :: chain) otherwise) =
        .ok (s.eval term) := by
  induction hchain generalizing head program converted with
  | last otherwise =>
    obtain ⟨condition, consequent, term, hcondition, hprogram, hterm, rfl⟩ :=
      exists_of_convert_condition hhead h
    refine ⟨term, rfl, ?_⟩
    rw [selected_cons]
    exact Body.valueWith_of_toAlternate s hcondition hprogram hterm
  | @elseIf id next body inverse chain otherwise _ ih =>
    obtain ⟨condition, consequent, term, hcondition, hprogram, hterm, rfl⟩ :=
      exists_of_convert_condition hhead h
    refine ⟨term, rfl, ?_⟩
    have hvalue := Body.valueWith_of_toAlternate s hcondition hprogram hterm
    rw [selected_cons]
    split
    · next hholds => rwa [if_pos hholds] at hvalue
    · next hholds =>
      rw [if_neg hholds] at hvalue
      -- the inverse shows what the chained block shows
      obtain ⟨hnext, hrest⟩ := List.forall_mem_cons.1 hheads
      obtain ⟨alternate, halternate, hsame⟩ := exists_of_map_eq_ok hvalue
      obtain ⟨single, hsingle, halone⟩ := bind_eq_ok halternate
      obtain ⟨shown, rfl, hshown⟩ := ih hnext hrest hsingle
      cases halone
      rw [hshown, hsame]

end

end MustacheJsx
