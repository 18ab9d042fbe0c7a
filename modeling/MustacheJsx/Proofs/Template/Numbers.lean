import MustacheJsx.Proofs.Template.Bodies
import MustacheJsx.Template.Paths
import MustacheJsx.Template.Assembly

/-!
# All numbers of a template

Paths and bodies are numbered alike. `Statement.numbers` lists the numbers of all paths in a
statement, the names of blocks among them, and of all bodies. How often a number occurs decides
whether it tells a node apart, so the lemmas of this module count.
-/

namespace MustacheJsx

/-! ### Numbers of expressions -/

def Expression.numbers (expression : Expression) : List Nat := expression.paths.map Path.id

def Expression.numbersOfParams (params : List Expression) : List Nat :=
  (Expression.pathsOfParams params).map Path.id

def Expression.numbersOfHash (hash : Hash) : List Nat :=
  (Expression.pathsOfHash hash).map Path.id

def numbersOfArguments (params : List Expression) (hash : Hash) : List Nat :=
  Expression.numbersOfParams params ++ Expression.numbersOfHash hash

def Mustache.numbers (m : Mustache) : List Nat :=
  m.callee.numbers ++ numbersOfArguments m.params m.hash

def BlockHead.numbers (head : BlockHead) : List Nat :=
  head.path.id :: numbersOfArguments head.params head.hash

def PartialCall.numbers (call : PartialCall) : List Nat :=
  numbersOfArguments call.params call.hash

theorem Expression.numbers_call (callee : Expression) (params : List Expression)
    (hash : List (String × Expression)) :
    (Expression.call callee params hash).numbers =
      callee.numbers ++ numbersOfArguments params hash := by
  simp [numbers, paths, numbersOfArguments, numbersOfParams, numbersOfHash]

theorem Expression.numbersOfParams_cons (param : Expression) (params : List Expression) :
    numbersOfParams (param :: params) = param.numbers ++ numbersOfParams params := by
  simp [numbersOfParams, pathsOfParams, numbers]

theorem Expression.numbersOfHash_cons (key : String) (value : Expression) (pairs : Hash) :
    numbersOfHash ((key, value) :: pairs) = value.numbers ++ numbersOfHash pairs := by
  simp [numbersOfHash, pathsOfHash, numbers]

theorem map_id_pathsOfArguments (params : List Expression) (hash : Hash) :
    (pathsOfArguments params hash).map Path.id = numbersOfArguments params hash := by
  simp [pathsOfArguments, numbersOfArguments, Expression.numbersOfParams,
    Expression.numbersOfHash]

theorem Mustache.map_id_paths (m : Mustache) : m.paths.map Path.id = m.numbers := by
  rw [paths, List.map_append, map_id_pathsOfArguments, numbers, Expression.numbers]

/-! ### Numbers of statements -/

mutual

def Statement.numbers : Statement → List Nat
  | .element _ attributes children _ => numbersOfAttributes attributes ++ numbersOfAll children
  | .text _ => []
  | .mustache m => m.numbers
  | .block head program inverse =>
    head.numbers ++ (numbersOfBody program ++
      match inverse with
      | some body => numbersOfBody body
      | none => [])
  | .partialCall call => call.numbers
  | .mustacheComment _ => []
  | .markupComment _ => []

def Statement.numbersOfAll : List Statement → List Nat
  | [] => []
  | statement :: statements => statement.numbers ++ numbersOfAll statements

def Statement.numbersOfBody : Body → List Nat
  | .mk id statements => id :: numbersOfAll statements

def Statement.numbersOfAttributes : List Attribute → List Nat
  | [] => []
  | .mk _ value :: attributes => numbersOfValue value ++ numbersOfAttributes attributes

def Statement.numbersOfValue : AttributeValue → List Nat
  | .text _ => []
  | .mustache m => m.numbers
  | .concat parts => numbersOfAll parts

end

def Statement.numbersOfInverse : Option Body → List Nat
  | some body => numbersOfBody body
  | none => []

theorem Statement.numbers_block (head : BlockHead) (program : Body) (inverse : Option Body) :
    (Statement.block head program inverse).numbers =
      head.numbers ++ (numbersOfBody program ++ numbersOfInverse inverse) := by
  cases inverse <;> rfl

def Template.numbers (template : Template) : List Nat := Statement.numbersOfAll template

namespace Statement

theorem numbersOfAll_append (before after : List Statement) :
    numbersOfAll (before ++ after) = numbersOfAll before ++ numbersOfAll after := by
  induction before with
  | nil => rfl
  | cons statement before ih => simp only [List.cons_append, numbersOfAll, ih, List.append_assoc]

theorem count_numbersOfAll_reverse (n : Nat) (statements : List Statement) :
    (numbersOfAll statements.reverse).count n = (numbersOfAll statements).count n := by
  induction statements with
  | nil => rfl
  | cons statement statements ih =>
    rw [List.reverse_cons, numbersOfAll_append, List.count_append, ih]
    simp only [numbersOfAll, List.count_append, List.count_nil]
    omega

/-! ### Paths and bodies among all numbers -/

mutual

theorem count_paths_bodies_le (statement : Statement) (n : Nat) :
    (statement.paths.map Path.id).count n + statement.bodyIds.count n ≤
      statement.numbers.count n := by
  match statement with
  | .text _ | .mustacheComment _ | .markupComment _ => exact Nat.le_refl _
  | .mustache m =>
    rw [paths, bodyIds, numbers, m.map_id_paths]
    exact Nat.le_refl _
  | .partialCall call =>
    rw [paths, bodyIds, numbers, map_id_pathsOfArguments, PartialCall.numbers]
    exact Nat.le_refl _
  | .element tag attributes children selfClosing =>
    have ha := count_paths_bodies_attributes_le attributes n
    have hc := count_paths_bodies_all_le children n
    simp only [paths, bodyIds, numbers, List.map_append, List.count_append]
    omega
  | .block head program inverse =>
    have hp := count_paths_bodies_body_le program n
    cases inverse with
    | none =>
      simp only [paths, bodyIds, numbers, BlockHead.numbers, List.map_append, List.count_append,
        List.count_cons, map_id_pathsOfArguments, List.append_nil]
      omega
    | some body =>
      have hi := count_paths_bodies_body_le body n
      simp only [paths, bodyIds, numbers, BlockHead.numbers, List.map_append, List.count_append,
        List.count_cons, map_id_pathsOfArguments]
      omega

theorem count_paths_bodies_all_le (statements : List Statement) (n : Nat) :
    ((pathsOfAll statements).map Path.id).count n + (bodyIdsOfAll statements).count n ≤
      (numbersOfAll statements).count n := by
  match statements with
  | [] => exact Nat.le_refl _
  | statement :: statements =>
    have hs := count_paths_bodies_le statement n
    have hr := count_paths_bodies_all_le statements n
    simp only [pathsOfAll, bodyIdsOfAll, numbersOfAll, List.map_append, List.count_append]
    omega

theorem count_paths_bodies_body_le (body : Body) (n : Nat) :
    ((pathsOfBody body).map Path.id).count n + (bodyIdsOfBody body).count n ≤
      (numbersOfBody body).count n := by
  match body with
  | .mk id statements =>
    have hs := count_paths_bodies_all_le statements n
    simp only [pathsOfBody, bodyIdsOfBody, numbersOfBody, List.count_cons]
    omega

theorem count_paths_bodies_attributes_le (attributes : List Attribute) (n : Nat) :
    ((pathsOfAttributes attributes).map Path.id).count n +
      (bodyIdsOfAttributes attributes).count n ≤ (numbersOfAttributes attributes).count n := by
  match attributes with
  | [] => exact Nat.le_refl _
  | .mk name value :: attributes =>
    have hv := count_paths_bodies_value_le value n
    have hr := count_paths_bodies_attributes_le attributes n
    simp only [pathsOfAttributes, bodyIdsOfAttributes, numbersOfAttributes, List.map_append,
      List.count_append]
    omega

theorem count_paths_bodies_value_le (value : AttributeValue) (n : Nat) :
    ((pathsOfValue value).map Path.id).count n + (bodyIdsOfValue value).count n ≤
      (numbersOfValue value).count n := by
  match value with
  | .text _ => exact Nat.le_refl _
  | .mustache m =>
    rw [pathsOfValue, bodyIdsOfValue, numbersOfValue, m.map_id_paths]
    exact Nat.le_refl _
  | .concat parts => exact count_paths_bodies_all_le parts n

end

end Statement

theorem Template.nodup_of_nodup_numbers {template : Template} (h : template.numbers.Nodup) :
    (template.paths.map Path.id).Nodup ∧ template.bodyIds.Nodup := by
  have hcount := fun n => Statement.count_paths_bodies_all_le template n
  have hone := fun n => List.nodup_iff_count.1 h n
  constructor <;> refine List.nodup_iff_count.2 fun n => ?_
  · exact Nat.le_trans (Nat.le_add_right ..) (Nat.le_trans (hcount n) (hone n))
  · exact Nat.le_trans (Nat.le_add_left ..) (Nat.le_trans (hcount n) (hone n))

end MustacheJsx
