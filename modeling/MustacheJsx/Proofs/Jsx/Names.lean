import MustacheJsx.Jsx.Basic

/-!
# Names in generated code

A name that occurs in a term stands under the parameters of the functions around it. It denotes the
parameter of that name in the innermost of them, or a variable outside the term. The names of
elements and attributes are no names of this kind.
-/

namespace MustacheJsx.Jsx

/-- A name, with the parameters of the functions around it, the innermost first. -/
abbrev Occurrence := String × List (List String)

/-! ### Occurrences -/

mutual

/-- The names in a term that stands under `arrows`. -/
def Term.names (arrows : List (List String)) : Term → List Occurrence
  | .name identifier => [(identifier, arrows)]
  | .string _ | .number _ | .boolean _ | .null => []
  | .member whole _ => whole.names arrows
  | .call callee arguments => callee.names arrows ++ namesOfAll arrows arguments
  | .object properties => namesOfProperties arrows properties
  | .not operand => operand.names arrows
  | .and left right => left.names arrows ++ right.names arrows
  | .add left right => left.names arrows ++ right.names arrows
  | .conditional test consequent alternate =>
    test.names arrows ++ consequent.names arrows ++ alternate.names arrows
  | .arrow params body => body.names (params :: arrows)
  | .element e => namesOfElement arrows e

def Term.namesOfAll (arrows : List (List String)) : List Term → List Occurrence
  | [] => []
  | term :: terms => term.names arrows ++ namesOfAll arrows terms

def Term.namesOfProperties (arrows : List (List String)) : List Property → List Occurrence
  | [] => []
  | .mk key value :: properties =>
    namesOfKey arrows key ++ value.names arrows ++ namesOfProperties arrows properties

def Term.namesOfKey (arrows : List (List String)) : PropertyKey → List Occurrence
  | .name _ => []
  | .string _ => []
  | .computed term => term.names arrows

def Term.namesOfElement (arrows : List (List String)) : Element → List Occurrence
  | .mk _ attributes children _ => namesOfAttributes arrows attributes ++
      namesOfChildren arrows children

def Term.namesOfAttributes (arrows : List (List String)) : List Attribute → List Occurrence
  | [] => []
  | .raw _ _ :: attributes => namesOfAttributes arrows attributes
  | .term _ value :: attributes => value.names arrows ++ namesOfAttributes arrows attributes
  | .spread value :: attributes => value.names arrows ++ namesOfAttributes arrows attributes

def Term.namesOfChildren (arrows : List (List String)) : List Child → List Occurrence
  | [] => []
  | .text _ :: children => namesOfChildren arrows children
  | .comment _ :: children => namesOfChildren arrows children
  | .term value :: children => value.names arrows ++ namesOfChildren arrows children
  | .element e :: children => namesOfElement arrows e ++ namesOfChildren arrows children

end

def Statement.names : Statement → List Occurrence
  | .defaultImport _ _ => []
  | .constant _ init => init.names []
  | .expression term => term.names []
  | .defaultExport term => term.names []

/-! ### Lists -/

section

variable (arrows : List (List String))

theorem Term.namesOfAttributes_append (before after : List Attribute) :
    namesOfAttributes arrows (before ++ after) =
      namesOfAttributes arrows before ++ namesOfAttributes arrows after := by
  induction before with
  | nil => rfl
  | cons first before ih =>
    cases first <;> simp only [List.cons_append, namesOfAttributes, ih, List.append_assoc]

theorem Term.namesOfChildren_append (before after : List Child) :
    namesOfChildren arrows (before ++ after) =
      namesOfChildren arrows before ++ namesOfChildren arrows after := by
  induction before with
  | nil => rfl
  | cons child before ih =>
    cases child <;> simp only [List.cons_append, namesOfChildren, ih, List.append_assoc]

theorem Term.namesOfAll_append (before after : List Term) :
    namesOfAll arrows (before ++ after) = namesOfAll arrows before ++ namesOfAll arrows after := by
  induction before with
  | nil => rfl
  | cons term before ih => simp only [List.cons_append, namesOfAll, ih, List.append_assoc]

theorem Term.names_foldl_member (term : Term) (properties : List String) :
    (properties.foldl Term.member term).names arrows = term.names arrows := by
  induction properties generalizing term with
  | nil => rfl
  | cons property properties ih =>
    rw [List.foldl_cons, ih]
    rfl

theorem Term.names_foldl_add (term : Term) (terms : List Term) :
    (terms.foldl Term.add term).names arrows = term.names arrows ++ namesOfAll arrows terms := by
  induction terms generalizing term with
  | nil => rw [List.foldl_nil, namesOfAll, List.append_nil]
  | cons next terms ih => rw [List.foldl_cons, ih, names, namesOfAll, List.append_assoc]

theorem Term.names_sum (terms : List Term) :
    (sum terms).names arrows = namesOfAll arrows terms := by
  cases terms with
  | nil => rfl
  | cons term terms =>
    rw [sum, names_foldl_add]
    rfl

end

/-! ### Denotation -/

/-- The parameter that a name denotes under `arrows`: the number of functions around the one that
binds it, and its position there. A name that no function binds denotes an outer variable. -/
def denotes (name : String) : List (List String) → Option (Nat × Nat)
  | [] => none
  | params :: arrows =>
    match params.idxOf? name with
    | some position => some (arrows.length, position)
    | none => denotes name arrows

end MustacheJsx.Jsx
