import MustacheJsx.Jsx.Basic

/-!
# Parts of terms

A term is made of terms, properties, attributes and children, and these of terms again. `Part.parts`
takes one step down, and `Part.In` any number of them. What holds of every part of a term is proved
along the steps.
-/

namespace MustacheJsx.Jsx

/-- A part of a term. An element is a term. -/
inductive Part where
  | term (value : Term)
  | property (value : Property)
  | key (value : PropertyKey)
  | attribute (value : Attribute)
  | child (value : Child)

namespace Part

def parts : Part → List Part
  | .term (.name _) | .term (.string _) | .term (.number _) | .term (.boolean _) | .term .null => []
  | .term (.member object _) => [.term object]
  | .term (.call callee arguments) => .term callee :: arguments.map .term
  | .term (.object properties) => properties.map .property
  | .term (.not operand) => [.term operand]
  | .term (.and left right) => [.term left, .term right]
  | .term (.add left right) => [.term left, .term right]
  | .term (.conditional test consequent alternate) =>
    [.term test, .term consequent, .term alternate]
  | .term (.arrow _ body) => [.term body]
  | .term (.element (.mk _ attributes children _)) =>
    attributes.map .attribute ++ children.map .child
  | .property (.mk name value) => [.key name, .term value]
  | .key (.name _) | .key (.string _) => []
  | .key (.computed value) => [.term value]
  | .attribute (.raw _ _) => []
  | .attribute (.term _ value) => [.term value]
  | .attribute (.spread value) => [.term value]
  | .child (.text _) | .child (.comment _) => []
  | .child (.term value) => [.term value]
  | .child (.element e) => [.term (.element e)]

/-- A part is another, or in one of the parts that the other is made of. -/
inductive In : Part → Part → Prop where
  | refl (part : Part) : In part part
  | step {part next whole : Part} (h : In part next) (hnext : next ∈ whole.parts) : In part whole

/-! ### What holds of all parts -/

/-- A property holds of a part and of everything in it. -/
def All (motive : Part → Prop) (whole : Part) : Prop := ∀ part, part.In whole → motive part

/-- A property holds of everything in some parts. -/
def AllOf (motive : Part → Prop) (parts : List Part) : Prop := ∀ part ∈ parts, part.All motive

variable {motive : Part → Prop}

theorem All.of_parts {whole : Part} (h : motive whole) (hparts : AllOf motive whole.parts) :
    whole.All motive := by
  intro part hin
  cases hin with
  | refl => exact h
  | step hin hnext => exact hparts _ hnext part hin

theorem All.parts {whole : Part} (h : whole.All motive) : AllOf motive whole.parts :=
  fun _ hnext part hin => h part (.step hin hnext)

theorem all_iff {whole : Part} : whole.All motive ↔ motive whole ∧ AllOf motive whole.parts :=
  ⟨fun h => ⟨h _ (.refl _), h.parts⟩, fun h => .of_parts h.1 h.2⟩

theorem AllOf.nil : AllOf motive [] := nofun

theorem AllOf.cons {part : Part} {parts : List Part} (h : part.All motive)
    (h' : AllOf motive parts) : AllOf motive (part :: parts) :=
  List.forall_mem_cons.2 ⟨h, h'⟩

theorem AllOf.append {parts others : List Part} (h : AllOf motive parts)
    (h' : AllOf motive others) : AllOf motive (parts ++ others) :=
  List.forall_mem_append.2 ⟨h, h'⟩

theorem allOf_cons {part : Part} {parts : List Part} :
    AllOf motive (part :: parts) ↔ part.All motive ∧ AllOf motive parts := List.forall_mem_cons

theorem allOf_append {parts others : List Part} :
    AllOf motive (parts ++ others) ↔ AllOf motive parts ∧ AllOf motive others :=
  List.forall_mem_append

theorem AllOf.single {part : Part} (h : part.All motive) : AllOf motive [part] := .cons h .nil

theorem AllOf.map {α : Type} {f : α → Part} {xs : List α} (h : ∀ x ∈ xs, (f x).All motive) :
    AllOf motive (xs.map f) :=
  List.forall_mem_map.2 h

end Part

end MustacheJsx.Jsx
