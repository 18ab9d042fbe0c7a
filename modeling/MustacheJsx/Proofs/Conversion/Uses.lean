import MustacheJsx.Proofs.Conversion.Words
import MustacheJsx.Proofs.Jsx.Parts

/-!
# What converted code calls and renders

Converted code calls functions by their names and renders elements by theirs. Both come from the
template: a function is a helper that is called there or the one that generates attributes, an
element is of the markup or a component. The code itself adds `Boolean` and the fragment only.
-/

namespace MustacheJsx

/-! ### Tags -/

mutual

def Statement.tags : Statement → List String
  | .element tag _ children _ => tag :: tagsOfAll children
  | .text _ => []
  | .mustache _ => []
  | .block _ program inverse =>
    tagsOfBody program ++
      match inverse with
      | some body => tagsOfBody body
      | none => []
  | .partialCall _ => []
  | .mustacheComment _ => []
  | .markupComment _ => []

def Statement.tagsOfAll : List Statement → List String
  | [] => []
  | statement :: statements => statement.tags ++ tagsOfAll statements

def Statement.tagsOfBody : Body → List String
  | .mk _ statements => tagsOfAll statements

end

def Template.tags (template : Template) : List String := Statement.tagsOfAll template

def Statement.tagsOfInverse : Option Body → List String
  | some body => tagsOfBody body
  | none => []

theorem Statement.tags_block (head : BlockHead) (program : Body) (inverse : Option Body) :
    (Statement.block head program inverse).tags = tagsOfBody program ++ tagsOfInverse inverse := by
  cases inverse <;> rfl

/-! ### Where names are taken from -/

/-- The names that a template has in stock for functions and elements. -/
structure Stock where
  tags : List String
  mentions : List Mention

/-- A part that calls a function by its name or renders an element takes the name from stock. The
functions in it are those of loops. -/
def Jsx.Part.TakesFrom (stock : Stock) : Jsx.Part → Prop
  | .term (.call (.name function) _) =>
    function = "Boolean" ∨ .helper function ∈ stock.mentions ∨
      function = Vocabulary.generatorFunction ∧ .generator ∈ stock.mentions
  | .term (.element (.mk name _ _ _)) =>
    name = Vocabulary.fragment ∨ name ∈ stock.tags ∨ .component name ∈ stock.mentions
  | .term (.arrow params _) => params = [Vocabulary.loopItem, Vocabulary.loopIndex]
  | _ => True

section

variable {stock : Stock} {notes : Annotations}

/-- Everything in a part takes its names from stock. -/
abbrev Stocked (stock : Stock) (part : Jsx.Part) : Prop := part.All (Jsx.Part.TakesFrom stock)

/-- Everything in some parts takes its names from stock. -/
abbrev AllStocked (stock : Stock) (parts : List Jsx.Part) : Prop :=
  Jsx.Part.AllOf (Jsx.Part.TakesFrom stock) parts

/-! ### Terms -/

namespace Jsx

theorem Term.foldl_member_stocked {object : Term} (h : Stocked stock (.term object))
    (properties : List String) : Stocked stock (.term (properties.foldl .member object)) := by
  induction properties generalizing object with
  | nil => exact h
  | cons property properties ih => exact ih (.of_parts trivial (.single h))

theorem Term.foldl_add_stocked {first : Term} {terms : List Term}
    (h : Stocked stock (.term first)) (hterms : ∀ term ∈ terms, Stocked stock (.term term)) :
    Stocked stock (.term (terms.foldl .add first)) := by
  induction terms generalizing first with
  | nil => exact h
  | cons term terms ih =>
    obtain ⟨hterm, hterms⟩ := List.forall_mem_cons.1 hterms
    exact ih (.of_parts trivial (.cons h (.single hterm))) hterms

theorem Term.sum_stocked {terms : List Term} (h : ∀ term ∈ terms, Stocked stock (.term term)) :
    Stocked stock (.term (.sum terms)) := by
  cases terms with
  | nil => exact .of_parts trivial .nil
  | cons term terms =>
    obtain ⟨hterm, hterms⟩ := List.forall_mem_cons.1 h
    exact foldl_add_stocked hterm hterms

theorem Term.name_stocked (identifier : String) : Stocked stock (.term (.name identifier)) :=
  .of_parts trivial .nil

theorem Term.truth_stocked {term : Term} (h : Stocked stock (.term term)) :
    Stocked stock (.term term.truth) :=
  .of_parts (.inl rfl) (.cons (Term.name_stocked _) (.single h))

theorem Term.fragment_stocked {children : List Child}
    (h : AllStocked stock (children.map .child)) :
    Stocked stock (.term (.element (.fragment children))) :=
  .of_parts (.inl rfl) (.append .nil h)

end Jsx

/-! ### Expressions -/

theorem Path.toTerm_stocked {path : Path} {term : Jsx.Term} (h : path.toTerm notes = .ok term) :
    Stocked stock (.term term) := by
  rw [Path.toTerm] at h
  cases hs : notes.segments path with
  | nil =>
    rw [hs] at h
    cases h
  | cons first rest =>
    rw [hs] at h
    cases h
    exact Jsx.Term.foldl_member_stocked (Jsx.Term.name_stocked first) rest

theorem Literal.toTerm_stocked (literal : Literal) : Stocked stock (.term literal.toTerm) := by
  cases literal <;> exact .of_parts trivial .nil

theorem Jsx.PropertyKey.ofName_stocked (key : String) : Stocked stock (.key (.ofName key)) := by
  rw [Jsx.PropertyKey.ofName]
  split
  · exact .of_parts trivial .nil
  · exact .of_parts trivial .nil

mutual

theorem Expression.toTerm_stocked (e : Expression) {term : Jsx.Term}
    (hmentions : e.mentions ⊆ stock.mentions) (h : e.toTerm notes = .ok term) :
    Stocked stock (.term term) := by
  match e with
  | .path p => exact p.toTerm_stocked h
  | .literal l =>
    cases h
    exact l.toTerm_stocked
  | .call callee params hash =>
    rw [Expression.mentions, List.append_subset, List.append_subset,
      Expression.calleeMentions] at hmentions
    rw [toTerm.eq_def] at h
    dsimp only at h
    cases hn : callee.helperName? with
    | none =>
      rw [hn] at h
      cases h
    | some name =>
      rw [hn] at h hmentions
      obtain ⟨arguments, ha, h⟩ := bind_eq_ok h
      obtain ⟨properties, hp, h⟩ := bind_eq_ok h
      cases h
      have hcallee : .helper name ∈ stock.mentions := hmentions.1 (List.mem_singleton.2 rfl)
      refine .of_parts (.inr (.inl hcallee)) (.cons (Jsx.Term.name_stocked name) (.map ?_))
      refine List.forall_mem_append.2 ⟨toTerms_stocked params hmentions.2.1 ha, ?_⟩
      split
      · exact List.forall_mem_nil _
      · exact List.forall_mem_singleton.2
          (.of_parts trivial (.map (toProperties_stocked hash hmentions.2.2 hp)))

theorem Expression.toTerms_stocked (params : List Expression) {terms : List Jsx.Term}
    (hmentions : mentionsOfParams params ⊆ stock.mentions)
    (h : toTerms notes params = .ok terms) : ∀ term ∈ terms, Stocked stock (.term term) := by
  match params with
  | [] =>
    cases h
    exact List.forall_mem_nil _
  | param :: params =>
    rw [mentionsOfParams, List.append_subset] at hmentions
    obtain ⟨term, ht, h⟩ := bind_eq_ok h
    obtain ⟨others, ho, h⟩ := bind_eq_ok h
    cases h
    exact List.forall_mem_cons.2 ⟨toTerm_stocked param hmentions.1 ht,
      toTerms_stocked params hmentions.2 ho⟩

theorem Expression.toProperties_stocked (hash : List (String × Expression))
    {properties : List Jsx.Property} (hmentions : mentionsOfHash hash ⊆ stock.mentions)
    (h : toProperties notes hash = .ok properties) :
    ∀ property ∈ properties, Stocked stock (.property property) := by
  match hash with
  | [] =>
    cases h
    exact List.forall_mem_nil _
  | (key, value) :: pairs =>
    rw [mentionsOfHash, List.append_subset] at hmentions
    obtain ⟨term, ht, h⟩ := bind_eq_ok h
    obtain ⟨others, ho, h⟩ := bind_eq_ok h
    cases h
    have hfirst : Stocked stock (.property (.mk (.ofName key) term)) :=
      .of_parts trivial (.cons (Jsx.PropertyKey.ofName_stocked key)
        (.single (toTerm_stocked value hmentions.1 ht)))
    exact List.forall_mem_cons.2 ⟨hfirst, toProperties_stocked pairs hmentions.2 ho⟩

end

theorem Mustache.toTerm_stocked (m : Mustache) {term : Jsx.Term}
    (hmentions : m.mentions ⊆ stock.mentions) (h : m.toTerm notes = .ok term) :
    Stocked stock (.term term) := by
  rw [Mustache.mentions] at hmentions
  rw [Mustache.toTerm] at h
  split at h
  · next hcall =>
    rw [if_pos hcall] at hmentions
    exact Expression.toTerm_stocked (.call m.callee m.params m.hash) hmentions h
  · next hcall =>
    rw [if_neg hcall] at hmentions
    exact m.callee.toTerm_stocked hmentions h

theorem Expression.param_stocked {param : Expression} {params : List Expression} {hash : Hash}
    {term : Jsx.Term} (hm : param ∈ params)
    (hmentions : mentionsOfArguments params hash ⊆ stock.mentions)
    (h : param.toTerm notes = .ok term) : Stocked stock (.term term) :=
  param.toTerm_stocked (List.Subset.trans (mentions_subset_arguments hm hash) hmentions) h

/-! ### Parts of values -/

theorem Statement.toSummand_stocked (part : Statement) {term : Jsx.Term}
    (hmentions : part.mentions ⊆ stock.mentions) (h : part.toSummand notes = .ok term) :
    Stocked stock (.term term) := by
  cases part with
  | text chars =>
    cases h
    exact .of_parts trivial .nil
  | mustache m => exact m.toTerm_stocked hmentions h
  | element | block | partialCall | mustacheComment | markupComment => cases h

theorem Statement.sum_stocked (parts : List Statement) {term : Jsx.Term}
    (hmentions : mentionsOfAll parts ⊆ stock.mentions)
    (h : Statement.sum notes parts = .ok term) : Stocked stock (.term term) := by
  obtain ⟨terms, ht, h⟩ := bind_eq_ok h
  cases h
  refine Jsx.Term.sum_stocked fun term hm => ?_
  obtain ⟨part, hpart, hp⟩ := exists_of_mem_mapM ht hm
  exact part.toSummand_stocked (List.Subset.trans (mentions_subset_all hpart) hmentions) hp

/-! ### Styles -/

namespace Style

/-- The mentions of the mustaches of pieces are in stock. -/
def HasMentions (stock : Stock) (pieces : List Piece) : Prop :=
  ∀ m, Piece.mustache m ∈ pieces → m.mentions ⊆ stock.mentions

theorem sum_stocked {pieces : List Piece} {term : Jsx.Term} (hpieces : HasMentions stock pieces)
    (h : sum notes pieces = .ok term) : Stocked stock (.term term) := by
  obtain ⟨terms, ht, h⟩ := bind_eq_ok h
  cases h
  refine Jsx.Term.sum_stocked fun term hm => ?_
  obtain ⟨piece, hpiece, hp⟩ := exists_of_mem_mapM ht hm
  cases piece with
  | text cs =>
    cases hp
    exact .of_parts trivial .nil
  | mustache m => exact m.toTerm_stocked (hpieces m hpiece) hp

theorem toKey_stocked {pieces : List Piece} {key : Jsx.PropertyKey}
    (hpieces : HasMentions stock pieces) (h : toKey notes pieces = .ok key) :
    Stocked stock (.key key) := by
  rw [toKey.eq_def] at h
  split at h
  · cases h
    exact .of_parts trivial .nil
  · obtain ⟨term, ht, h⟩ := bind_eq_ok h
    cases h
    exact .of_parts trivial (.single (sum_stocked hpieces ht))

theorem toProperty_stocked {key value : List Piece} {property : Jsx.Property}
    (hkey : HasMentions stock key) (hvalue : HasMentions stock value)
    (h : toProperty notes key value = .ok property) : Stocked stock (.property property) := by
  obtain ⟨name, hn, h⟩ := bind_eq_ok h
  obtain ⟨term, ht, h⟩ := bind_eq_ok h
  cases h
  exact .of_parts trivial (.cons (toKey_stocked hkey hn) (.single (sum_stocked hvalue ht)))

theorem ofParts_stocked (parts : List Statement) {term : Jsx.Term}
    (hmentions : Statement.mentionsOfAll parts ⊆ stock.mentions)
    (h : ofParts notes parts = .ok term) : Stocked stock (.term term) := by
  obtain ⟨marks, hmarks, h⟩ := bind_eq_ok h
  obtain ⟨properties, hproperties, h⟩ := bind_eq_ok h
  cases h
  have hall : ∀ m, Statement.mustache m ∈ parts → m.mentions ⊆ stock.mentions :=
    fun m hpart => List.Subset.trans (Statement.mentions_subset_all hpart) hmentions
  refine .of_parts trivial (.map fun property hm => ?_)
  obtain ⟨⟨key, value⟩, hpair, hp⟩ := exists_of_mem_mapM hproperties hm
  exact toProperty_stocked (fun m hm => hall m (mem_parts hmarks hpair (.inl hm)))
    (fun m hm => hall m (mem_parts hmarks hpair (.inr hm))) hp

theorem ofValue_stocked {value : AttributeValue} {term : Jsx.Term}
    (hmentions : Statement.mentionsOfValue value ⊆ stock.mentions)
    (h : ofValue notes value = .ok term) : Stocked stock (.term term) := by
  cases value with
  | text chars => exact ofParts_stocked [.text chars] (List.nil_subset _) h
  | concat parts => exact ofParts_stocked parts hmentions h
  | mustache m => cases h

end Style

/-! ### Attributes -/

theorem Jsx.Attribute.ofText_stocked (name value : String) :
    Stocked stock (.attribute (.ofText name value)) := by
  rw [Jsx.Attribute.ofText]
  split
  · exact .of_parts trivial .nil
  · exact .of_parts trivial (.single (.of_parts trivial .nil))

theorem Jsx.Attribute.term_stocked {name : String} {value : Jsx.Term}
    (h : Stocked stock (.term value)) : Stocked stock (.attribute (.term name value)) :=
  .of_parts trivial (.single h)

theorem Jsx.Child.ofText_stocked (chars : String) :
    AllStocked stock ((Jsx.Child.ofText chars).map .child) := by
  rw [Jsx.Child.ofText]
  refine .map fun child hm => ?_
  obtain ⟨run, -, rfl⟩ := List.mem_map.1 hm
  cases run with
  | plain cs => exact .of_parts trivial .nil
  | marked c => exact .of_parts trivial (.single (.of_parts trivial .nil))

theorem Attribute.toSpread_stocked {name : String} {value : AttributeValue}
    {spread : Jsx.Attribute} (hgenerator : .generator ∈ stock.mentions)
    (hmentions : Statement.mentionsOfValue value ⊆ stock.mentions)
    (h : Attribute.toSpread notes name value = .ok spread) :
    Stocked stock (.attribute spread) := by
  have hcall : ∀ term : Jsx.Term, Stocked stock (.term term) → Stocked stock
      (.attribute (.spread (.call (.name Vocabulary.generatorFunction) [term]))) := by
    intro term hterm
    refine .of_parts trivial (.single (.of_parts (.inr (.inr ⟨rfl, hgenerator⟩)) ?_))
    exact .cons (Jsx.Term.name_stocked _) (.single hterm)
  cases value with
  | text chars => cases h
  | mustache m =>
    obtain ⟨term, ht, h⟩ := bind_eq_ok h
    cases h
    exact hcall term (m.toTerm_stocked hmentions ht)
  | concat parts =>
    obtain ⟨term, ht, h⟩ := bind_eq_ok h
    cases h
    exact hcall term (Statement.sum_stocked parts hmentions ht)

theorem Attribute.toNamed_stocked {name : String} {value : AttributeValue}
    {named : Jsx.Attribute} (hmentions : Statement.mentionsOfValue value ⊆ stock.mentions)
    (h : Attribute.toNamed notes name value = .ok named) : Stocked stock (.attribute named) := by
  cases value with
  | mustache m =>
    obtain ⟨term, ht, h⟩ := bind_eq_ok h
    cases h
    exact Jsx.Attribute.term_stocked (m.toTerm_stocked hmentions ht)
  | text chars =>
    rw [Attribute.toNamed] at h
    split at h
    · obtain ⟨term, ht, h⟩ := bind_eq_ok h
      cases h
      exact Jsx.Attribute.term_stocked (Style.ofValue_stocked hmentions ht)
    · cases h
      exact Jsx.Attribute.ofText_stocked _ _
  | concat parts =>
    rw [Attribute.toNamed] at h
    split at h
    · obtain ⟨term, ht, h⟩ := bind_eq_ok h
      cases h
      exact Jsx.Attribute.term_stocked (Style.ofValue_stocked hmentions ht)
    · split at h
      · cases h
      · obtain ⟨term, ht, h⟩ := bind_eq_ok h
        cases h
        exact Jsx.Attribute.term_stocked (Statement.sum_stocked parts hmentions ht)

theorem Attribute.toJsx_stocked {name : String} {value : AttributeValue} {kept : Jsx.Attribute}
    (hmentions : Statement.mentionsOfAttributes [.mk name value] ⊆ stock.mentions)
    (h : Attribute.toJsx notes (.mk name value) = .ok (some kept)) :
    Stocked stock (.attribute kept) := by
  rw [Statement.mentionsOfAttributes, List.append_subset, List.append_subset] at hmentions
  rw [Attribute.toJsx] at h
  split at h
  · next hgenerator =>
    obtain ⟨spread, hs, h⟩ := bind_eq_ok h
    cases h
    rw [AttributeName.isGenerator] at hgenerator
    rw [if_pos hgenerator] at hmentions
    exact Attribute.toSpread_stocked (hmentions.1 (List.mem_singleton.2 rfl)) hmentions.2.1 hs
  · split at h
    · obtain ⟨named, hn, h⟩ := bind_eq_ok h
      cases h
      exact Attribute.toNamed_stocked hmentions.2.1 hn
    · cases h

theorem Statement.mentionsOfAttributes_subset {first : Attribute} {attributes : List Attribute}
    (hm : first ∈ attributes) : mentionsOfAttributes [first] ⊆ mentionsOfAttributes attributes := by
  induction attributes with
  | nil => cases hm
  | cons other attributes ih =>
    obtain ⟨name, value⟩ := other
    rcases List.mem_cons.1 hm with rfl | hm
    · rw [mentionsOfAttributes, mentionsOfAttributes, mentionsOfAttributes, List.append_nil,
        ← List.append_assoc]
      exact List.subset_append_left _ _
    · rw [mentionsOfAttributes.eq_2, ← List.append_assoc]
      exact List.subset_append_of_subset_right _ (ih hm)

theorem Attribute.toJsxAll_stocked {attributes : List Attribute} {kept : List Jsx.Attribute}
    (hmentions : Statement.mentionsOfAttributes attributes ⊆ stock.mentions)
    (h : Attribute.toJsxAll notes attributes = .ok kept) :
    AllStocked stock (kept.map .attribute) := by
  obtain ⟨converted, hc, h⟩ := bind_eq_ok h
  cases h
  refine .map fun a hm => ?_
  obtain ⟨_, hsome, rfl⟩ := List.mem_filterMap.1 hm
  obtain ⟨⟨name, value⟩, hattribute, ha⟩ := exists_of_mem_mapM hc hsome
  exact Attribute.toJsx_stocked
    (List.Subset.trans (Statement.mentionsOfAttributes_subset hattribute) hmentions) ha

/-! ### Partials and heads of blocks -/

theorem Jsx.Attribute.ofHash_stocked {hash : Hash} {named : List Jsx.Attribute}
    (hmentions : Expression.mentionsOfHash hash ⊆ stock.mentions)
    (h : Jsx.Attribute.ofHash notes hash = .ok named) :
    AllStocked stock (named.map .attribute) := by
  induction hash generalizing named with
  | nil =>
    cases h
    exact .nil
  | cons pair pairs ih =>
    obtain ⟨key, value⟩ := pair
    rw [Expression.mentionsOfHash, List.append_subset] at hmentions
    rw [Jsx.Attribute.ofHash.eq_def] at h
    split at h
    · next heq => cases heq
    · next heq =>
      cases heq
      obtain ⟨others, ho, h⟩ := bind_eq_ok h
      cases h
      exact .cons (Jsx.Attribute.ofText_stocked _ _) (ih hmentions.2 ho)
    · next heq =>
      cases heq
      obtain ⟨term, ht, h⟩ := bind_eq_ok h
      obtain ⟨others, ho, h⟩ := bind_eq_ok h
      cases h
      exact .cons (Jsx.Attribute.term_stocked (value.toTerm_stocked hmentions.1 ht))
        (ih hmentions.2 ho)

theorem PartialCall.toElement_stocked {call : PartialCall} {element : Jsx.Element}
    (hname : .component call.name ∈ stock.mentions)
    (hmentions : mentionsOfArguments call.params call.hash ⊆ stock.mentions)
    (h : call.toElement notes = .ok element) : Stocked stock (.term (.element element)) := by
  rw [PartialCall.toElement] at h
  split at h
  · cases h
  · split at h
    · cases h
    · obtain ⟨context, hc, h⟩ := bind_eq_ok h
      obtain ⟨named, hn, h⟩ := bind_eq_ok h
      cases h
      have hcontext : AllStocked stock (context.map .attribute) := by
        cases hparams : call.params with
        | nil =>
          rw [hparams] at hc
          cases hc
          exact .nil
        | cons param params =>
          rw [hparams] at hc
          obtain ⟨term, ht, hc⟩ := bind_eq_ok hc
          cases hc
          exact .single (Jsx.Attribute.term_stocked
            (Expression.param_stocked (hparams ▸ List.mem_cons_self) hmentions ht))
      have hnamed : AllStocked stock (named.map .attribute) :=
        Jsx.Attribute.ofHash_stocked
          (List.Subset.trans (List.subset_append_right _ _) hmentions) hn
      refine .of_parts (.inr (.inr hname)) (.append ?_ .nil)
      rw [List.map_append]
      exact .append hcontext hnamed

namespace BlockHead

variable {head : BlockHead}
  (hmentions : mentionsOfArguments head.params head.hash ⊆ stock.mentions)
include hmentions

theorem toTest_stocked {negated : Bool} {test : Jsx.Term}
    (h : head.toTest notes negated = .ok test) : Stocked stock (.term test) := by
  obtain ⟨param, hs, h⟩ := bind_eq_ok h
  obtain ⟨term, ht, h⟩ := bind_eq_ok h
  cases h
  have htruth : Stocked stock (.term term.truth) :=
    Jsx.Term.truth_stocked (Expression.param_stocked (mem_of_subject hs) hmentions ht)
  split
  · exact .of_parts trivial (.single htruth)
  · exact htruth

theorem toCollection_stocked {collection : Jsx.Term}
    (h : head.toCollection notes = .ok collection) : Stocked stock (.term collection) := by
  obtain ⟨param, hs, h⟩ := bind_eq_ok h
  split at h
  · cases h
  · exact Expression.param_stocked (mem_of_subject hs) hmentions h

theorem toLinkAttributes_stocked {kept : List Jsx.Attribute}
    (h : head.toLinkAttributes notes = .ok kept) : AllStocked stock (kept.map .attribute) := by
  obtain ⟨param, hs, h⟩ := bind_eq_ok h
  obtain ⟨target, ht, h⟩ := bind_eq_ok h
  have htarget : Stocked stock (.attribute (.term "href" target)) :=
    Jsx.Attribute.term_stocked (Expression.param_stocked (mem_of_subject hs) hmentions ht)
  split at h
  · cases h
    exact .single htarget
  · next second others hd =>
    obtain ⟨className, hc, h⟩ := bind_eq_ok h
    cases h
    have hm : second ∈ head.params := List.mem_of_mem_drop (hd ▸ List.mem_cons_self)
    exact .cons htarget
      (.single (Jsx.Attribute.term_stocked (Expression.param_stocked hm hmentions hc)))

theorem toLabel_stocked {children : List Jsx.Child} (h : head.toLabel notes = .ok children) :
    AllStocked stock (children.map .child) := by
  rw [toLabel] at h
  split at h
  · cases h
    exact .nil
  · cases h
    exact Jsx.Child.ofText_stocked _
  · next second others _ hd =>
    obtain ⟨term, ht, h⟩ := bind_eq_ok h
    cases h
    have hm : second ∈ head.params := List.mem_of_mem_drop (hd ▸ List.mem_cons_self)
    exact .single (.of_parts trivial (.single (Expression.param_stocked hm hmentions ht)))

end BlockHead

/-! ### Statements -/

/-- What a statement becomes takes its names from stock. -/
def Converted.Stocked (stock : Stock) : Converted → Prop
  | .text _ => True
  | .comment _ => True
  | .term value => MustacheJsx.Stocked stock (.term value)
  | .element e => MustacheJsx.Stocked stock (.term (.element e))

theorem Converted.alone_stocked {converted : Converted} {term : Jsx.Term}
    (hconverted : converted.Stocked stock) (h : converted.alone = .ok term) :
    MustacheJsx.Stocked stock (.term term) := by
  cases converted <;> cases h
  · exact .of_parts trivial .nil
  · exact hconverted
  · exact hconverted

theorem Converted.children_stocked {converted : Converted}
    (hconverted : converted.Stocked stock) :
    AllStocked stock (converted.children.map .child) := by
  cases converted with
  | text chars => exact Jsx.Child.ofText_stocked chars
  | comment value => exact .single (.of_parts trivial .nil)
  | term value => exact .single (.of_parts trivial (.single hconverted))
  | element e => exact .single (.of_parts trivial (.single hconverted))

theorem Jsx.Term.asElement_stocked {term : Jsx.Term} (h : Stocked stock (.term term)) :
    Stocked stock (.term (.element term.asElement)) := by
  cases term with
  | element e => exact h
  | _ => exact Jsx.Term.fragment_stocked (.single (.of_parts trivial (.single h)))

theorem Jsx.Element.push_stocked {element : Jsx.Element} {last : Jsx.Attribute}
    (h : Stocked stock (.term (.element element))) (hlast : Stocked stock (.attribute last)) :
    Stocked stock (.term (.element (element.push last))) := by
  obtain ⟨name, kept, children, selfClosing⟩ := element
  obtain ⟨hkept, hchildren⟩ := List.forall_mem_append.1 h.parts
  have hname : Jsx.Part.TakesFrom stock (.term (.element (.mk name kept children selfClosing))) :=
    h _ (.refl _)
  refine .of_parts hname (.append ?_ hchildren)
  rw [List.map_append]
  exact .append hkept (.single hlast)

theorem Jsx.Term.loop_stocked {collection body : Jsx.Term}
    (hcollection : Stocked stock (.term collection)) (hbody : Stocked stock (.term body)) :
    Stocked stock (.term (.loop collection body)) := by
  have hkey : Stocked stock (.attribute (.term Vocabulary.key (.name Vocabulary.loopIndex))) :=
    Jsx.Attribute.term_stocked (Jsx.Term.name_stocked _)
  have hturn := Jsx.Element.push_stocked (Jsx.Term.asElement_stocked hbody) hkey
  exact .of_parts trivial (.cons (.of_parts trivial (.single hcollection))
    (.single (.of_parts rfl (.single hturn))))

/-- A block calls what its head, its program and its inverse do, and a link renders the component
that it mentions. -/
theorem Statement.convert_block_stocked {head : BlockHead} {program : Body}
    {inverse : Option Body} {converted : Converted} (hhead : head.mentions ⊆ stock.mentions)
    (hmentions : mentionsOfArguments head.params head.hash ⊆ stock.mentions)
    (hprogram : ∀ term, program.toTerm notes = .ok term → Stocked stock (.term term))
    (hchildren : ∀ children, program.toChildren notes = .ok children →
      AllStocked stock (children.map .child))
    (hinverse : ∀ other, inverse = some other → ∀ term, other.toTerm notes = .ok term →
      Stocked stock (.term term))
    (h : (block head program inverse).convert notes = .ok converted) :
    converted.Stocked stock := by
  rw [convert.eq_def] at h
  dsimp only at h
  split at h
  · cases h
  · obtain ⟨test, ht, h⟩ := bind_eq_ok h
    obtain ⟨consequent, hc, h⟩ := bind_eq_ok h
    have htest : Stocked stock (.term test) := head.toTest_stocked hmentions ht
    cases inverse with
    | none =>
      cases h
      exact .of_parts trivial (.cons htest (.single (hprogram consequent hc)))
    | some other =>
      obtain ⟨alternate, ha, h⟩ := bind_eq_ok h
      cases h
      exact .of_parts trivial (.cons htest (.cons (hprogram consequent hc)
        (.single (hinverse other rfl alternate ha))))
  · obtain ⟨collection, hc, h⟩ := bind_eq_ok h
    obtain ⟨body, hb, h⟩ := bind_eq_ok h
    have hcollection : Stocked stock (.term collection) :=
      head.toCollection_stocked hmentions hc
    have hloop := Jsx.Term.loop_stocked hcollection (hprogram body hb)
    cases inverse with
    | none =>
      cases h
      exact hloop
    | some other =>
      obtain ⟨alternate, ha, h⟩ := bind_eq_ok h
      cases h
      have hitems : Stocked stock (.term collection.hasItems) :=
        Jsx.Term.truth_stocked (.of_parts trivial (.single hcollection))
      exact .of_parts trivial (.cons hitems (.cons hloop
        (.single (hinverse other rfl alternate ha))))
  · next hkind =>
    obtain ⟨kept, hkept, h⟩ := bind_eq_ok h
    rw [BlockHead.mentions, if_pos (BlockKind.ofName?_eq_link.1 hkind)] at hhead
    have hlink : .component Vocabulary.link ∈ stock.mentions :=
      hhead (List.mem_singleton.2 rfl)
    have hattributes := head.toLinkAttributes_stocked hmentions hkept
    split at h
    · obtain ⟨children, hc, h⟩ := bind_eq_ok h
      cases h
      exact .of_parts (.inr (.inr hlink)) (.append hattributes (head.toLabel_stocked hmentions hc))
    · obtain ⟨children, hc, h⟩ := bind_eq_ok h
      cases h
      exact .of_parts (.inr (.inr hlink)) (.append hattributes (hchildren children hc))

mutual

theorem Statement.convert_stocked (statement : Statement) {converted : Converted}
    (htags : statement.tags ⊆ stock.tags) (hmentions : statement.mentions ⊆ stock.mentions)
    (h : statement.convert notes = .ok converted) : converted.Stocked stock := by
  match statement with
  | .text chars | .mustacheComment value | .markupComment value =>
    cases h
    exact trivial
  | .mustache m =>
    obtain ⟨term, ht, h⟩ := bind_eq_ok h
    cases h
    exact m.toTerm_stocked hmentions ht
  | .partialCall call =>
    obtain ⟨element, he, h⟩ := bind_eq_ok h
    cases h
    obtain ⟨hname, harguments⟩ := List.cons_subset.1 hmentions
    exact call.toElement_stocked hname harguments he
  | .element tag attributes children selfClosing =>
    rw [Statement.tags, List.cons_subset] at htags
    rw [Statement.mentions, List.append_subset] at hmentions
    obtain ⟨kept, hk, h⟩ := bind_eq_ok h
    have hkept := Attribute.toJsxAll_stocked hmentions.1 hk
    dsimp only at h
    split at h
    · cases h
      exact .of_parts (.inr (.inl htags.1)) (.append hkept .nil)
    · obtain ⟨inner, hi, h⟩ := bind_eq_ok h
      cases h
      exact .of_parts (.inr (.inl htags.1))
        (.append hkept (toChildren_stocked children htags.2 hmentions.2 hi))
  | .block head program inverse =>
    rw [tags_block, List.append_subset] at htags
    rw [mentions_block, List.append_subset, List.append_subset, List.append_subset] at hmentions
    refine convert_block_stocked hmentions.1.1.1 hmentions.1.1.2
      (fun term ht => body_stocked program htags.1 hmentions.1.2 ht) ?_ ?_ h
    · intro children hc
      obtain ⟨id, statements⟩ := program
      exact toChildren_stocked statements htags.1 hmentions.1.2 hc
    · cases inverse with
      | none => nofun
      | some body =>
        rintro other ⟨⟩ term ht
        exact body_stocked body htags.2 hmentions.2 ht

theorem Statement.toChildren_stocked (statements : List Statement) {children : List Jsx.Child}
    (htags : tagsOfAll statements ⊆ stock.tags)
    (hmentions : mentionsOfAll statements ⊆ stock.mentions)
    (h : toChildren notes statements = .ok children) :
    AllStocked stock (children.map .child) := by
  match statements with
  | [] =>
    cases h
    exact .nil
  | statement :: statements =>
    rw [tagsOfAll, List.append_subset] at htags
    rw [mentionsOfAll, List.append_subset] at hmentions
    obtain ⟨first, hf, h⟩ := bind_eq_ok h
    obtain ⟨rest, hr, h⟩ := bind_eq_ok h
    cases h
    rw [List.map_append]
    exact .append (Converted.children_stocked (convert_stocked statement htags.1 hmentions.1 hf))
      (toChildren_stocked statements htags.2 hmentions.2 hr)

theorem Statement.body_stocked (body : Body) {term : Jsx.Term}
    (htags : tagsOfBody body ⊆ stock.tags) (hmentions : mentionsOfBody body ⊆ stock.mentions)
    (h : body.toTerm notes = .ok term) : Stocked stock (.term term) := by
  match body with
  | .mk id [] =>
    cases h
    exact Jsx.Term.fragment_stocked .nil
  | .mk id [statement] =>
    obtain ⟨single, hs, h⟩ := bind_eq_ok h
    rw [tagsOfBody, tagsOfAll, tagsOfAll, List.append_nil] at htags
    rw [mentionsOfBody, mentionsOfAll, mentionsOfAll, List.append_nil] at hmentions
    exact Converted.alone_stocked (convert_stocked statement htags hmentions hs) h
  | .mk id (first :: second :: rest) =>
    obtain ⟨children, hc, h⟩ := bind_eq_ok h
    cases h
    exact Jsx.Term.fragment_stocked
      (toChildren_stocked (first :: second :: rest) htags hmentions hc)

end

end

def Template.stock (template : Template) : Stock where
  tags := template.tags
  mentions := template.mentions

theorem Template.toTerm_stocked {template : Template} {notes : Annotations} {root : Jsx.Term}
    (h : template.toTerm notes = .ok root) : Stocked template.stock (.term root) :=
  Statement.body_stocked (.mk 0 template) (List.Subset.refl _) (List.Subset.refl _) h

end MustacheJsx
