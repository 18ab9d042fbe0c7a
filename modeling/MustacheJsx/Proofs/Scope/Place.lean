import MustacheJsx.Template.Paths

/-!
# Where values are read

A path is a value where it is read for its own sake: as the content of a mustache or as an argument,
but not as the name of a helper or of a block. Its place is given by the blocks around it that open
a scope. `Template.places` lists the values of a template with their places, in the order of the
source.
-/

namespace MustacheJsx

/-- A block that opens a scope for its program: a loop, or a `with` block with its argument. -/
inductive Enclosure where
  | loop
  | narrowing (subject : Path)
  deriving DecidableEq

/-- A value with the blocks around it that open a scope, the innermost first. -/
abbrev Place := Path × List Enclosure

/-! ### Expressions -/

mutual

def Expression.values : Expression → List Path
  | .path p => [p]
  | .literal _ => []
  | .call _ params hash => valuesOfParams params ++ valuesOfHash hash

def Expression.valuesOfParams : List Expression → List Path
  | [] => []
  | param :: params => param.values ++ valuesOfParams params

def Expression.valuesOfHash : List (String × Expression) → List Path
  | [] => []
  | (_, value) :: pairs => value.values ++ valuesOfHash pairs

end

def valuesOfArguments (params : List Expression) (hash : Hash) : List Path :=
  Expression.valuesOfParams params ++ Expression.valuesOfHash hash

/-- The values of a mustache: of its arguments if it calls a helper, otherwise of its content. -/
def Mustache.values (m : Mustache) : List Path :=
  if m.isHelperCall then valuesOfArguments m.params m.hash else m.callee.values

/-! ### Statements -/

def BlockHead.around (enclosing : List Enclosure) (head : BlockHead) : List Enclosure :=
  if head.name = "each" then .loop :: enclosing
  else if head.name = "with" then
    match head.params with
    | .path subject :: _ => .narrowing subject :: enclosing
    | _ => enclosing
  else enclosing

def placed (enclosing : List Enclosure) (values : List Path) : List Place :=
  values.map fun path => (path, enclosing)

theorem map_fst_placed (enclosing : List Enclosure) (values : List Path) :
    (placed enclosing values).map Prod.fst = values := by
  simp [placed, Function.comp_def]

theorem mem_placed {enclosing : List Enclosure} {values : List Path} {place : Place} :
    place ∈ placed enclosing values ↔ place.1 ∈ values ∧ place.2 = enclosing := by
  obtain ⟨path, around⟩ := place
  simp only [placed, List.mem_map, Prod.mk.injEq]
  constructor
  · rintro ⟨p, hp, rfl, rfl⟩
    exact ⟨hp, rfl⟩
  · rintro ⟨hp, rfl⟩
    exact ⟨path, hp, rfl, rfl⟩

mutual

def Statement.places (enclosing : List Enclosure) : Statement → List Place
  | .element _ attributes children _ =>
    placesOfAttributes enclosing attributes ++ placesOfAll enclosing children
  | .text _ => []
  | .mustache m => placed enclosing m.values
  | .block head program inverse =>
    placed enclosing (valuesOfArguments head.params head.hash) ++
      (placesOfBody (head.around enclosing) program ++
        match inverse with
        | some body => placesOfBody enclosing body
        | none => [])
  | .partialCall call => placed enclosing (valuesOfArguments call.params call.hash)
  | .mustacheComment _ => []
  | .markupComment _ => []

def Statement.placesOfAll (enclosing : List Enclosure) : List Statement → List Place
  | [] => []
  | statement :: statements => statement.places enclosing ++ placesOfAll enclosing statements

def Statement.placesOfBody (enclosing : List Enclosure) : Body → List Place
  | .mk _ statements => placesOfAll enclosing statements

def Statement.placesOfAttributes (enclosing : List Enclosure) : List Attribute → List Place
  | [] => []
  | .mk _ value :: attributes =>
    placesOfValue enclosing value ++ placesOfAttributes enclosing attributes

def Statement.placesOfValue (enclosing : List Enclosure) : AttributeValue → List Place
  | .text _ => []
  | .mustache m => placed enclosing m.values
  | .concat parts => placesOfAll enclosing parts

end

def Statement.placesOfInverse (enclosing : List Enclosure) : Option Body → List Place
  | some body => placesOfBody enclosing body
  | none => []

theorem Statement.places_block (enclosing : List Enclosure) (head : BlockHead) (program : Body)
    (inverse : Option Body) :
    (Statement.block head program inverse).places enclosing =
      placed enclosing (valuesOfArguments head.params head.hash) ++
        (placesOfBody (head.around enclosing) program ++ placesOfInverse enclosing inverse) := by
  cases inverse <;> rfl

def Template.places (template : Template) : List Place := Statement.placesOfAll [] template

def Template.values (template : Template) : List Path := template.places.map Prod.fst

/-! ### Values among all paths -/

mutual

theorem Expression.values_sublist (expression : Expression) :
    expression.values.Sublist expression.paths := by
  match expression with
  | .path p => exact List.Sublist.refl _
  | .literal l => exact List.Sublist.refl _
  | .call callee params hash =>
    rw [values, paths, List.append_assoc]
    exact ((valuesOfParams_sublist params).append (valuesOfHash_sublist hash)).trans
      (List.sublist_append_right ..)

theorem Expression.valuesOfParams_sublist (params : List Expression) :
    (valuesOfParams params).Sublist (pathsOfParams params) := by
  match params with
  | [] => exact List.Sublist.refl _
  | param :: params => exact (values_sublist param).append (valuesOfParams_sublist params)

theorem Expression.valuesOfHash_sublist (hash : List (String × Expression)) :
    (valuesOfHash hash).Sublist (pathsOfHash hash) := by
  match hash with
  | [] => exact List.Sublist.refl _
  | (key, value) :: pairs => exact (values_sublist value).append (valuesOfHash_sublist pairs)

end

theorem valuesOfArguments_sublist (params : List Expression) (hash : Hash) :
    (valuesOfArguments params hash).Sublist (pathsOfArguments params hash) :=
  (Expression.valuesOfParams_sublist params).append (Expression.valuesOfHash_sublist hash)

theorem Mustache.values_sublist (m : Mustache) : m.values.Sublist m.paths := by
  rw [Mustache.values, Mustache.paths]
  split
  · exact (valuesOfArguments_sublist m.params m.hash).trans (List.sublist_append_right ..)
  · exact m.callee.values_sublist.trans (List.sublist_append_left ..)

def Statement.pathsOfInverse : Option Body → List Path
  | some body => pathsOfBody body
  | none => []

theorem Statement.paths_block (head : BlockHead) (program : Body) (inverse : Option Body) :
    (Statement.block head program inverse).paths =
      pathsOfArguments head.params head.hash ++
        (pathsOfBody program ++ pathsOfInverse inverse) := by
  cases inverse <;> simp [paths, pathsOfInverse]

mutual

theorem Statement.places_sublist (enclosing : List Enclosure) (statement : Statement) :
    ((statement.places enclosing).map Prod.fst).Sublist statement.paths := by
  match statement with
  | .text _ | .mustacheComment _ | .markupComment _ => exact List.Sublist.refl _
  | .mustache m =>
    rw [places, map_fst_placed]
    exact m.values_sublist
  | .partialCall call =>
    rw [places, map_fst_placed]
    exact valuesOfArguments_sublist call.params call.hash
  | .element tag attributes children selfClosing =>
    rw [places, List.map_append]
    exact (placesOfAttributes_sublist enclosing attributes).append
      (placesOfAll_sublist enclosing children)
  | .block head program inverse =>
    rw [places_block, paths_block, List.map_append, List.map_append, map_fst_placed]
    have hprogram := placesOfBody_sublist (head.around enclosing) program
    have hinverse : ((placesOfInverse enclosing inverse).map Prod.fst).Sublist
        (pathsOfInverse inverse) := by
      cases inverse with
      | none => exact List.Sublist.refl _
      | some body => exact placesOfBody_sublist enclosing body
    exact (valuesOfArguments_sublist head.params head.hash).append (hprogram.append hinverse)

theorem Statement.placesOfAll_sublist (enclosing : List Enclosure) (statements : List Statement) :
    ((placesOfAll enclosing statements).map Prod.fst).Sublist (pathsOfAll statements) := by
  match statements with
  | [] => exact List.Sublist.refl _
  | statement :: statements =>
    rw [placesOfAll, List.map_append]
    exact (places_sublist enclosing statement).append (placesOfAll_sublist enclosing statements)

theorem Statement.placesOfBody_sublist (enclosing : List Enclosure) (body : Body) :
    ((placesOfBody enclosing body).map Prod.fst).Sublist (pathsOfBody body) := by
  match body with
  | .mk id statements => exact placesOfAll_sublist enclosing statements

theorem Statement.placesOfAttributes_sublist (enclosing : List Enclosure)
    (attributes : List Attribute) :
    ((placesOfAttributes enclosing attributes).map Prod.fst).Sublist
      (pathsOfAttributes attributes) := by
  match attributes with
  | [] => exact List.Sublist.refl _
  | .mk name value :: attributes =>
    rw [placesOfAttributes, List.map_append]
    exact (placesOfValue_sublist enclosing value).append
      (placesOfAttributes_sublist enclosing attributes)

theorem Statement.placesOfValue_sublist (enclosing : List Enclosure) (value : AttributeValue) :
    ((placesOfValue enclosing value).map Prod.fst).Sublist (pathsOfValue value) := by
  match value with
  | .text _ => exact List.Sublist.refl _
  | .mustache m =>
    rw [placesOfValue, map_fst_placed]
    exact m.values_sublist
  | .concat parts => exact placesOfAll_sublist enclosing parts

end

/-- Values are paths of the template, in the order of the source. -/
theorem Template.values_sublist (template : Template) :
    template.values.Sublist template.paths :=
  Statement.placesOfAll_sublist [] template

end MustacheJsx
