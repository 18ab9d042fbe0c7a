import MustacheJsx.Conversion.Program
import MustacheJsx.Extraction.Conditional
import MustacheJsx.Proofs.Rendering.Evaluation

/-!
# What helpers return

A helper is a function of the script. Its body chooses by the first argument between a sum of parts
and another text. `ConditionalAttribute.apply_helper` says what the helper of an attribute returns
for the values of its arguments, whatever they are.
-/

namespace MustacheJsx

/-! ### Sums -/

mutual

def Value.text : Value → String
  | .undefined => "undefined"
  | .null => "null"
  | .boolean value => if value then "true" else "false"
  | .number value => value.text
  | .string chars => chars
  | .list items => ",".intercalate (itemTexts items)
  | .object _ => "[object Object]"
  | .element _ _ => "[object Object]"

/-- The items of a list as strings; nothing stands for an item that is missing. -/
def Value.itemTexts : List Value → List String
  | [] => []
  | .undefined :: items => "" :: itemTexts items
  | .null :: items => "" :: itemTexts items
  | item :: items => item.text :: itemTexts items

end

def Value.plus : Value → Value → Option Value
  | .string left, right => some (.string (left ++ right.text))
  | left, .string right => some (.string (left.text ++ right))
  | _, _ => none

theorem Value.plus_string (value : Value) (right : String) :
    value.plus (.string right) = some (.string (value.text ++ right)) := by
  cases value <;> rfl

def Jsx.Term.evalSum (bindings : Jsx.Bindings) : Jsx.Term → Option Value
  | .add left right => do
    let first ← left.evalSum bindings
    let second ← right.evalSum bindings
    first.plus second
  | .conditional test consequent alternate =>
    (test.eval id bindings).bind fun value =>
      if value.truthy then consequent.evalSum bindings else alternate.evalSum bindings
  | term => term.eval id bindings

def Helper.apply (helper : Helper) (arguments : List Value) : Option Value :=
  match helper.toTerm with
  | .arrow params body => body.evalSum (Jsx.Bindings.bind [] params arguments)
  | _ => none

/-! ### Names of parameters -/

theorem paramName_ne_undefined {argument : List Char} {fallback : String}
    (h : fallback ≠ "undefined") : paramName argument fallback ≠ "undefined" := by
  rw [paramName]
  split
  · dsimp only
    split
    · next hname =>
      simp only [Bool.and_eq_true, Bool.not_eq_true'] at hname
      intro heq
      rw [heq] at hname
      exact absurd hname.2 (by decide)
    · exact h
  · exact h

namespace ConditionalAttribute

variable (a : ConditionalAttribute)

theorem conditionParam_ne_undefined : a.conditionParam ≠ "undefined" :=
  paramName_ne_undefined (by decide)

theorem valueParam_ne_undefined (path : List Char) : a.valueParam path ≠ "undefined" := by
  rw [valueParam]
  split
  · intro heq
    have hlast := congrArg (fun s : String => s.toList.getLast?) heq
    simp at hlast
  · exact paramName_ne_undefined (by decide)

theorem valueParam_ne_conditionParam (path : List Char) :
    a.valueParam path ≠ a.conditionParam := by
  rw [valueParam]
  split
  · next heq =>
    rw [heq]
    intro hsame
    have hlength := congrArg String.length hsame
    simp at hlength
  · next hne => exact hne

/-! ### The value of an attribute -/

/-- The first plain mustache of the body: what is before it, its path, and what follows it. -/
def cut? : Option (List Char × List Char × List Char) :=
  Text.cutAtFirst? plainMustache? a.body

/-- What the helper takes: the condition, and the path of the mustache in the body. -/
def arguments : List (List Char) := a.condition :: (a.cut?.map fun cut => cut.2.1).toList

def holds (condition : Value) : Bool := condition.truthy != a.negated

/-- The texts around the mustache of the value, or the value as a whole. -/
def texts : List Char × List Char :=
  match a.cut? with
  | some (before, _, rest) => (a.lead ++ before, rest ++ a.trail)
  | none => (a.lead ++ a.body ++ a.trail, [])

end ConditionalAttribute

/-- A value between two texts; without any it stays what it is. -/
def Value.between (before rest : List Char) (value : Value) : Value :=
  if before.isEmpty && rest.isEmpty then value
  else .string (String.ofList before ++ value.text ++ String.ofList rest)

namespace ConditionalAttribute

variable (a : ConditionalAttribute)

/-- What the attribute is worth where its arguments have these values. -/
def result (value : List Char → Value) : Value :=
  if a.holds (value a.condition) then
    match a.cut? with
    | some (_, path, _) => (value path).between a.texts.1 a.texts.2
    | none => .string (String.ofList a.texts.1)
  else if a.keepsRest then .string (String.ofList (a.lead ++ a.trail))
  else .undefined

theorem helper_arguments (name : String) : (a.helper name).2 = a.arguments := by
  rw [helper.eq_def, arguments, cut?]
  cases Text.cutAtFirst? plainMustache? a.body with
  | none => rfl
  | some cut => rfl

end ConditionalAttribute

/-! ### Application -/

namespace Helper

variable {bindings : Jsx.Bindings}

theorem apply_eq (helper : Helper) (arguments : List Value) :
    helper.apply arguments =
      (helper.test.eval id (Jsx.Bindings.bind [] helper.params arguments)).bind fun value =>
        if value.truthy then
          (Jsx.Term.sum (helper.consequent.map HelperPart.toTerm)).evalSum
            (Jsx.Bindings.bind [] helper.params arguments)
        else
          (match helper.alternate with
            | some chars => Jsx.Term.string chars
            | none => .name "undefined").evalSum (Jsx.Bindings.bind [] helper.params arguments) :=
  rfl

theorem eval_name (name : String) :
    (Jsx.Term.name name).eval id bindings =
      (bindings.lookup name).or (if name = "undefined" then some .undefined else none) := by
  rw [Jsx.Term.eval]
  cases bindings.lookup name with
  | none => rfl
  | some value => rfl

theorem eval_test {helper : Helper} {param : String} {condition : Value}
    (hparam : helper.params.head? = some param)
    (hcondition : bindings.lookup param = some condition) :
    ∃ value, helper.test.eval id bindings = some value ∧
      value.truthy = (condition.truthy != helper.negate) := by
  have hname : (Jsx.Term.name param).eval id bindings = some condition := by
    rw [eval_name, hcondition]
    rfl
  rw [test, hparam]
  cases helper.negate with
  | true =>
    refine ⟨.boolean !condition.truthy, ?_, ?_⟩
    · show ((Jsx.Term.name param).eval id bindings).map _ = _
      rw [hname]
      rfl
    · show (!condition.truthy) = _
      cases condition.truthy <;> rfl
  | false => exact ⟨condition, hname, by cases condition.truthy <;> rfl⟩

/-- What a helper returns besides the sum of its parts. -/
def otherwise (helper : Helper) : Value :=
  match helper.alternate with
  | some chars => .string chars
  | none => .undefined

theorem apply_of_lookup {helper : Helper} {arguments : List Value} {param : String}
    {condition sum : Value} (hparam : helper.params.head? = some param)
    (hbindings : Jsx.Bindings.bind [] helper.params arguments = bindings)
    (hcondition : bindings.lookup param = some condition)
    (hundefined : bindings.lookup "undefined" = none)
    (hsum : (Jsx.Term.sum (helper.consequent.map HelperPart.toTerm)).evalSum bindings = some sum) :
    helper.apply arguments =
      some (if condition.truthy != helper.negate then sum else helper.otherwise) := by
  obtain ⟨value, htest, htruthy⟩ := eval_test hparam hcondition
  rw [apply_eq, hbindings, htest, ← htruthy]
  show (if value.truthy then _ else _) = _
  cases value.truthy with
  | true => exact hsum
  | false =>
    rw [otherwise]
    cases helper.alternate with
    | some chars => rfl
    | none =>
      show (Jsx.Term.name "undefined").eval id bindings = _
      rw [eval_name, hundefined]
      rfl

theorem evalSum_add {left right : Jsx.Term} {first second : Value}
    (hleft : left.evalSum bindings = some first) (hright : right.evalSum bindings = some second) :
    (Jsx.Term.add left right).evalSum bindings = first.plus second := by
  rw [Jsx.Term.evalSum, hleft, hright]
  rfl

theorem evalSum_parts {param : String} {value : Value} (h : bindings.lookup param = some value)
    (before rest : List Char) :
    (Jsx.Term.sum ((ConditionalAttribute.textPart before ++ [HelperPart.param param] ++
      ConditionalAttribute.textPart rest).map HelperPart.toTerm)).evalSum bindings =
      some (value.between before rest) := by
  have hname : (Jsx.Term.name param).evalSum bindings = some value := by
    show (Jsx.Term.name param).eval id bindings = _
    rw [eval_name, h]
    rfl
  have hstring : ∀ chars, (Jsx.Term.string chars).evalSum bindings = some (.string chars) :=
    fun _ => rfl
  have hempty : ∀ chars : String, "" ++ chars = chars := fun _ => String.empty_append
  cases before with
  | nil =>
    cases rest with
    | nil => exact hname
    | cons d ds =>
      refine (evalSum_add hname (hstring _)).trans ((value.plus_string _).trans ?_)
      rw [Value.between, if_neg (by simp), String.ofList_nil, hempty]
  | cons c cs =>
    have hsum := evalSum_add (hstring (String.ofList (c :: cs))) hname
    cases rest with
    | nil =>
      refine hsum.trans ?_
      rw [Value.between, if_neg (by simp), String.ofList_nil, String.append_empty]
      rfl
    | cons d ds =>
      refine (evalSum_add hsum (hstring _)).trans ?_
      rw [Value.between, if_neg (by simp)]
      rfl

end Helper

namespace ConditionalAttribute

variable (a : ConditionalAttribute)

theorem apply_helper (name : String) (value : List Char → Value) :
    (a.helper name).1.apply (a.arguments.map value) = some (a.result value) := by
  have hotherwise : (a.helper name).1.otherwise =
      if a.keepsRest then .string (String.ofList (a.lead ++ a.trail)) else .undefined := by
    rw [Helper.otherwise, helper.eq_def]
    cases Text.cutAtFirst? plainMustache? a.body <;> cases a.keepsRest <;> rfl
  have hnegate : (a.helper name).1.negate = a.negated := by
    rw [helper.eq_def]
    cases Text.cutAtFirst? plainMustache? a.body <;> rfl
  have hcondition := beq_false_of_ne a.conditionParam_ne_undefined.symm
  rw [arguments, result, texts, cut?, holds, ← hotherwise, ← hnegate]
  cases hcut : Text.cutAtFirst? plainMustache? a.body with
  | none =>
    have hparams : (a.helper name).1.params = [a.conditionParam] := by
      rw [helper.eq_def, hcut]
    have hconsequent : (a.helper name).1.consequent =
        [.text (String.ofList (a.lead ++ a.body ++ a.trail))] := by
      rw [helper.eq_def, hcut]
    refine Helper.apply_of_lookup (congrArg List.head? hparams)
      (congrArg (Jsx.Bindings.bind [] · _) hparams) ?_ ?_ ?_
    · exact List.lookup_cons_self
    · show (match "undefined" == a.conditionParam with | true => _ | false => _) = none
      rw [hcondition]
      rfl
    · rw [hconsequent]
      rfl
  | some cut =>
    obtain ⟨before, path, rest⟩ := cut
    have hvalue := beq_false_of_ne (a.valueParam_ne_undefined path).symm
    have hdiffer := beq_false_of_ne (a.valueParam_ne_conditionParam path).symm
    have hparams : (a.helper name).1.params = [a.conditionParam, a.valueParam path] := by
      rw [helper.eq_def, hcut]
    have hconsequent : (a.helper name).1.consequent =
        textPart (a.lead ++ before) ++ [.param (a.valueParam path)] ++
          textPart (rest ++ a.trail) := by
      rw [helper.eq_def, hcut]
    refine Helper.apply_of_lookup (congrArg List.head? hparams)
      (congrArg (Jsx.Bindings.bind [] · _) hparams) ?_ ?_ ?_
    · show (match a.conditionParam == a.valueParam path with | true => _ | false => _) = _
      rw [hdiffer]
      exact List.lookup_cons_self
    · show (match "undefined" == a.valueParam path with | true => _ | false => _) = _
      rw [hvalue]
      show (match "undefined" == a.conditionParam with | true => _ | false => _) = none
      rw [hcondition]
      rfl
    · rw [hconsequent]
      exact Helper.evalSum_parts List.lookup_cons_self _ _

end ConditionalAttribute

end MustacheJsx
