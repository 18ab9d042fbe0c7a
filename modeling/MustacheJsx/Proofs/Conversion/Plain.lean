import MustacheJsx.Proofs.Conversion.Content

/-!
# Values hold no elements

What stands in braces or in a style comes from expressions alone: it has no elements in it, and no
methods are called there. So elements and loops of converted code come from statements.
-/

namespace MustacheJsx

/-- A part that is neither an element nor calls a method. -/
def Jsx.Part.IsPlain : Jsx.Part → Prop
  | .term (.element _) => False
  | .term (.call (.member _ _) _) => False
  | _ => True

/-- A part with neither elements nor calls of methods in it. -/
abbrev Plain (part : Jsx.Part) : Prop := part.All Jsx.Part.IsPlain

/-- Some parts with neither elements nor calls of methods in them. -/
abbrev AllPlain (parts : List Jsx.Part) : Prop := Jsx.Part.AllOf Jsx.Part.IsPlain parts

section

variable {notes : Annotations}

/-! ### Terms -/

namespace Jsx

theorem Term.name_plain (identifier : String) : Plain (.term (.name identifier)) :=
  .of_parts trivial .nil

theorem Term.string_plain (value : String) : Plain (.term (.string value)) :=
  .of_parts trivial .nil

theorem Term.foldl_member_plain {object : Term} (h : Plain (.term object))
    (properties : List String) : Plain (.term (properties.foldl .member object)) := by
  induction properties generalizing object with
  | nil => exact h
  | cons property properties ih => exact ih (.of_parts trivial (.single h))

theorem Term.foldl_add_plain {first : Term} {terms : List Term} (h : Plain (.term first))
    (hterms : ∀ term ∈ terms, Plain (.term term)) : Plain (.term (terms.foldl .add first)) := by
  induction terms generalizing first with
  | nil => exact h
  | cons term terms ih =>
    obtain ⟨hterm, hterms⟩ := List.forall_mem_cons.1 hterms
    exact ih (.of_parts trivial (.cons h (.single hterm))) hterms

theorem Term.sum_plain {terms : List Term} (h : ∀ term ∈ terms, Plain (.term term)) :
    Plain (.term (.sum terms)) := by
  cases terms with
  | nil => exact Term.string_plain ""
  | cons term terms =>
    obtain ⟨hterm, hterms⟩ := List.forall_mem_cons.1 h
    exact foldl_add_plain hterm hterms

theorem Term.truth_plain {term : Term} (h : Plain (.term term)) : Plain (.term term.truth) :=
  .of_parts trivial (.cons (Term.name_plain _) (.single h))

end Jsx

/-! ### Expressions -/

theorem Path.toTerm_plain {path : Path} {term : Jsx.Term} (h : path.toTerm notes = .ok term) :
    Plain (.term term) := by
  unfold Path.toTerm at h
  cases hs : notes.segments path with
  | nil =>
    rw [hs] at h
    cases h
  | cons first rest =>
    rw [hs] at h
    cases h
    exact Jsx.Term.foldl_member_plain (Jsx.Term.name_plain first) rest

theorem Literal.toTerm_plain (literal : Literal) : Plain (.term literal.toTerm) := by
  cases literal <;> exact .of_parts trivial .nil

theorem Jsx.PropertyKey.ofName_plain (key : String) : Plain (.key (.ofName key)) := by
  unfold Jsx.PropertyKey.ofName
  split
  · exact .of_parts trivial .nil
  · exact .of_parts trivial .nil

mutual

theorem Expression.toTerm_plain (e : Expression) {term : Jsx.Term}
    (h : e.toTerm notes = .ok term) : Plain (.term term) := by
  match e with
  | .path p => exact p.toTerm_plain h
  | .literal l =>
    cases h
    exact l.toTerm_plain
  | .call callee params hash =>
    rw [toTerm.eq_def] at h
    dsimp only at h
    split at h
    · cases h
    · obtain ⟨arguments, ha, h⟩ := bind_eq_ok h
      obtain ⟨properties, hp, h⟩ := bind_eq_ok h
      cases h
      refine .of_parts trivial (.cons (Jsx.Term.name_plain _) (.map ?_))
      refine List.forall_mem_append.2 ⟨toTerms_plain params ha, ?_⟩
      split
      · exact List.forall_mem_nil _
      · exact List.forall_mem_singleton.2
          (.of_parts trivial (.map (toProperties_plain hash hp)))

theorem Expression.toTerms_plain (params : List Expression) {terms : List Jsx.Term}
    (h : toTerms notes params = .ok terms) : ∀ term ∈ terms, Plain (.term term) := by
  match params with
  | [] =>
    cases h
    exact List.forall_mem_nil _
  | param :: params =>
    obtain ⟨term, ht, h⟩ := bind_eq_ok h
    obtain ⟨others, ho, h⟩ := bind_eq_ok h
    cases h
    exact List.forall_mem_cons.2 ⟨toTerm_plain param ht, toTerms_plain params ho⟩

theorem Expression.toProperties_plain (hash : List (String × Expression))
    {properties : List Jsx.Property} (h : toProperties notes hash = .ok properties) :
    ∀ property ∈ properties, Plain (.property property) := by
  match hash with
  | [] =>
    cases h
    exact List.forall_mem_nil _
  | (key, value) :: pairs =>
    obtain ⟨term, ht, h⟩ := bind_eq_ok h
    obtain ⟨others, ho, h⟩ := bind_eq_ok h
    cases h
    have hfirst : Plain (.property (.mk (.ofName key) term)) :=
      .of_parts trivial (.cons (Jsx.PropertyKey.ofName_plain key)
        (.single (toTerm_plain value ht)))
    exact List.forall_mem_cons.2 ⟨hfirst, toProperties_plain pairs ho⟩

end

theorem Mustache.toTerm_plain (m : Mustache) {term : Jsx.Term} (h : m.toTerm notes = .ok term) :
    Plain (.term term) := by
  unfold Mustache.toTerm at h
  split at h
  · exact Expression.toTerm_plain _ h
  · exact m.callee.toTerm_plain h

theorem Statement.sum_plain {parts : List Statement} {term : Jsx.Term}
    (h : Statement.sum notes parts = .ok term) : Plain (.term term) := by
  obtain ⟨terms, ht, h⟩ := bind_eq_ok h
  cases h
  refine Jsx.Term.sum_plain fun term hm => ?_
  obtain ⟨part, -, hp⟩ := exists_of_mem_mapM ht hm
  cases part with
  | text chars =>
    cases hp
    exact Jsx.Term.string_plain chars
  | mustache m => exact m.toTerm_plain hp
  | element | block | partialCall | mustacheComment | markupComment => cases hp

/-! ### Styles -/

namespace Style

theorem sum_plain {pieces : List Piece} {term : Jsx.Term} (h : sum notes pieces = .ok term) :
    Plain (.term term) := by
  obtain ⟨terms, ht, h⟩ := bind_eq_ok h
  cases h
  refine Jsx.Term.sum_plain fun term hm => ?_
  obtain ⟨piece, -, hp⟩ := exists_of_mem_mapM ht hm
  cases piece with
  | text cs =>
    cases hp
    exact Jsx.Term.string_plain _
  | mustache m => exact m.toTerm_plain hp

theorem toProperty_plain {key value : List Piece} {property : Jsx.Property}
    (h : toProperty notes key value = .ok property) : Plain (.property property) := by
  obtain ⟨name, hn, h⟩ := bind_eq_ok h
  obtain ⟨term, ht, h⟩ := bind_eq_ok h
  cases h
  have hname : Plain (.key name) := by
    rw [toKey.eq_def] at hn
    split at hn
    · cases hn
      exact .of_parts trivial .nil
    · obtain ⟨term, ht, hn⟩ := bind_eq_ok hn
      cases hn
      exact .of_parts trivial (.single (sum_plain ht))
  exact .of_parts trivial (.cons hname (.single (sum_plain ht)))

theorem ofParts_plain {parts : List Statement} {term : Jsx.Term}
    (h : ofParts notes parts = .ok term) : Plain (.term term) := by
  obtain ⟨marks, -, h⟩ := bind_eq_ok h
  obtain ⟨properties, hproperties, h⟩ := bind_eq_ok h
  cases h
  refine .of_parts trivial (.map fun property hm => ?_)
  obtain ⟨⟨key, value⟩, -, hp⟩ := exists_of_mem_mapM hproperties hm
  exact toProperty_plain hp

theorem ofValue_plain {value : AttributeValue} {term : Jsx.Term}
    (h : ofValue notes value = .ok term) : Plain (.term term) := by
  cases value with
  | text chars => exact ofParts_plain h
  | concat parts => exact ofParts_plain h
  | mustache m => cases h

end Style

/-! ### Attributes and arguments -/

theorem Jsx.Attribute.term_plain {name : String} {value : Jsx.Term} (h : Plain (.term value)) :
    Plain (.attribute (.term name value)) :=
  .of_parts trivial (.single h)

theorem Jsx.Attribute.ofText_plain (name value : String) :
    Plain (.attribute (.ofText name value)) := by
  unfold Jsx.Attribute.ofText
  split
  · exact .of_parts trivial .nil
  · exact Jsx.Attribute.term_plain (Jsx.Term.string_plain value)

theorem Jsx.Child.ofText_plain (chars : String) :
    AllPlain ((Jsx.Child.ofText chars).map .child) := by
  unfold Jsx.Child.ofText
  refine .map fun child hm => ?_
  obtain ⟨run, -, rfl⟩ := List.mem_map.1 hm
  cases run with
  | plain cs => exact .of_parts trivial .nil
  | marked c => exact .of_parts trivial (.single (Jsx.Term.string_plain _))

theorem Attribute.toSpread_plain {name : String} {value : AttributeValue} {spread : Jsx.Attribute}
    (h : Attribute.toSpread notes name value = .ok spread) : Plain (.attribute spread) := by
  have hcall : ∀ term : Jsx.Term, Plain (.term term) →
      Plain (.attribute (.spread (.call (.name Vocabulary.generatorFunction) [term]))) := by
    intro term hterm
    refine .of_parts trivial (.single (.of_parts trivial ?_))
    exact .cons (Jsx.Term.name_plain _) (.single hterm)
  cases value with
  | text chars => cases h
  | mustache m =>
    obtain ⟨term, ht, h⟩ := bind_eq_ok h
    cases h
    exact hcall term (m.toTerm_plain ht)
  | concat parts =>
    obtain ⟨term, ht, h⟩ := bind_eq_ok h
    cases h
    exact hcall term (Statement.sum_plain ht)

theorem Attribute.toNamed_plain {name : String} {value : AttributeValue} {named : Jsx.Attribute}
    (h : Attribute.toNamed notes name value = .ok named) : Plain (.attribute named) := by
  cases value with
  | mustache m =>
    obtain ⟨term, ht, h⟩ := bind_eq_ok h
    cases h
    exact Jsx.Attribute.term_plain (m.toTerm_plain ht)
  | text chars =>
    rw [Attribute.toNamed] at h
    split at h
    · obtain ⟨term, ht, h⟩ := bind_eq_ok h
      cases h
      exact Jsx.Attribute.term_plain (Style.ofValue_plain ht)
    · cases h
      exact Jsx.Attribute.ofText_plain _ _
  | concat parts =>
    rw [Attribute.toNamed] at h
    split at h
    · obtain ⟨term, ht, h⟩ := bind_eq_ok h
      cases h
      exact Jsx.Attribute.term_plain (Style.ofValue_plain ht)
    · split at h
      · cases h
      · obtain ⟨term, ht, h⟩ := bind_eq_ok h
        cases h
        exact Jsx.Attribute.term_plain (Statement.sum_plain ht)

theorem Attribute.toJsxAll_plain {attributes : List Attribute} {kept : List Jsx.Attribute}
    (h : Attribute.toJsxAll notes attributes = .ok kept) : AllPlain (kept.map .attribute) := by
  obtain ⟨converted, hc, h⟩ := bind_eq_ok h
  cases h
  refine .map fun a hm => ?_
  obtain ⟨_, hsome, rfl⟩ := List.mem_filterMap.1 hm
  obtain ⟨⟨name, value⟩, -, ha⟩ := exists_of_mem_mapM hc hsome
  rw [Attribute.toJsx] at ha
  split at ha
  · obtain ⟨spread, hs, ha⟩ := bind_eq_ok ha
    cases ha
    exact Attribute.toSpread_plain hs
  · split at ha
    · obtain ⟨named, hn, ha⟩ := bind_eq_ok ha
      cases ha
      exact Attribute.toNamed_plain hn
    · cases ha

theorem Jsx.Attribute.ofHash_plain {hash : Hash} {named : List Jsx.Attribute}
    (h : Jsx.Attribute.ofHash notes hash = .ok named) : AllPlain (named.map .attribute) := by
  induction hash generalizing named with
  | nil =>
    cases h
    exact .nil
  | cons pair pairs ih =>
    rw [Jsx.Attribute.ofHash.eq_def] at h
    split at h
    · next heq => cases heq
    · next heq =>
      cases heq
      obtain ⟨others, ho, h⟩ := bind_eq_ok h
      cases h
      exact .cons (Jsx.Attribute.ofText_plain _ _) (ih ho)
    · next heq =>
      cases heq
      obtain ⟨term, ht, h⟩ := bind_eq_ok h
      obtain ⟨others, ho, h⟩ := bind_eq_ok h
      cases h
      exact .cons (Jsx.Attribute.term_plain (Expression.toTerm_plain _ ht)) (ih ho)

theorem Jsx.Attribute.ofContext_plain {params : List Expression} {context : List Jsx.Attribute}
    (h : Jsx.Attribute.ofContext notes params = .ok context) :
    AllPlain (context.map .attribute) := by
  cases params with
  | nil =>
    cases h
    exact .nil
  | cons param params =>
    obtain ⟨term, ht, h⟩ := bind_eq_ok h
    cases h
    exact .single (Jsx.Attribute.term_plain (param.toTerm_plain ht))

namespace BlockHead

variable {head : BlockHead}

theorem toTest_plain {negated : Bool} {test : Jsx.Term}
    (h : head.toTest notes negated = .ok test) : Plain (.term test) := by
  obtain ⟨param, -, h⟩ := bind_eq_ok h
  obtain ⟨term, ht, h⟩ := bind_eq_ok h
  cases h
  have htruth : Plain (.term term.truth) := Jsx.Term.truth_plain (param.toTerm_plain ht)
  split
  · exact .of_parts trivial (.single htruth)
  · exact htruth

theorem toCollection_plain {collection : Jsx.Term}
    (h : head.toCollection notes = .ok collection) : Plain (.term collection) := by
  obtain ⟨param, -, h⟩ := bind_eq_ok h
  split at h
  · cases h
  · exact Expression.toTerm_plain _ h

theorem toLinkAttributes_plain {kept : List Jsx.Attribute}
    (h : head.toLinkAttributes notes = .ok kept) : AllPlain (kept.map .attribute) := by
  obtain ⟨param, -, h⟩ := bind_eq_ok h
  obtain ⟨target, ht, h⟩ := bind_eq_ok h
  have htarget : Plain (.attribute (.term "href" target)) :=
    Jsx.Attribute.term_plain (param.toTerm_plain ht)
  split at h
  · cases h
    exact .single htarget
  · obtain ⟨className, hc, h⟩ := bind_eq_ok h
    cases h
    exact .cons htarget (.single (Jsx.Attribute.term_plain (Expression.toTerm_plain _ hc)))

theorem toLabel_plain {children : List Jsx.Child} (h : head.toLabel notes = .ok children) :
    AllPlain (children.map .child) := by
  unfold toLabel at h
  split at h
  · cases h
    exact .nil
  · cases h
    exact Jsx.Child.ofText_plain _
  · obtain ⟨term, ht, h⟩ := bind_eq_ok h
    cases h
    exact .single (.of_parts trivial (.single (Expression.toTerm_plain _ ht)))

end BlockHead

end

end MustacheJsx
