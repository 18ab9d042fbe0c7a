import MustacheJsx.Proofs.Conversion.Lookups
import MustacheJsx.Proofs.Conversion.Spellings
import MustacheJsx.Proofs.Scope.Mentions

/-!
# Where conversion takes words from

Every word in converted code has the right shape, or comes from one of four routes that do not look
at the shape: a name at the beginning of a value, the name of a helper, an attribute of an element
whose name begins with a digit or a hyphen, and a named argument of a partial.
-/

namespace MustacheJsx

/-! ### Labels -/

/-- A name that a template gives to an attribute of an element or to an argument of a partial. -/
inductive Label where
  | attributeName (name : String)
  | argument (name : String)
  deriving DecidableEq

mutual

def Statement.labels : Statement → List Label
  | .element _ attributes children _ => labelsOfAttributes attributes ++ labelsOfAll children
  | .text _ => []
  | .mustache _ => []
  | .block _ program inverse =>
    labelsOfBody program ++
      match inverse with
      | some body => labelsOfBody body
      | none => []
  | .partialCall call => call.hash.map fun pair => .argument pair.1
  | .mustacheComment _ => []
  | .markupComment _ => []

def Statement.labelsOfAll : List Statement → List Label
  | [] => []
  | statement :: statements => statement.labels ++ labelsOfAll statements

def Statement.labelsOfBody : Body → List Label
  | .mk _ statements => labelsOfAll statements

def Statement.labelsOfAttributes : List Attribute → List Label
  | [] => []
  | .mk name _ :: attributes => .attributeName name :: labelsOfAttributes attributes

end

def Template.labels (template : Template) : List Label := Statement.labelsOfAll template

/-! ### Routes -/

/-- What conversion takes words from. -/
structure Sources where
  /-- The segments of the values. -/
  notes : Annotations
  values : List Path
  mentions : List Mention
  labels : List Label

/-- Where a word in converted code comes from. -/
inductive Jsx.Word.Comes (sources : Sources) : Jsx.Word → Prop where
  | own {name : String} (h : name ∈ Vocabulary.loopItem :: Vocabulary.ownNames) :
    Comes sources (.identifier name)
  | value {path : Path} {name : String} (hpath : path ∈ sources.values)
      (hname : (sources.notes.segments path).head? = some name) :
    Comes sources (.identifier name)
  | helper {name : String} (h : .helper name ∈ sources.mentions) :
    Comes sources (.identifier name)
  | key {name : String} (h : Text.isIdentifier name.toList = true) :
    Comes sources (.key name)
  | attributeName {name : String} (h : Jsx.isAttributeName name = true) :
    Comes sources (.attributeName name)
  | kept {name : String} (h : .attributeName name ∈ sources.labels)
      (hkept : AttributeName.isWritable name = true) :
    Comes sources (.attributeName name)
  | argument {name : String} (h : .argument name ∈ sources.labels) :
    Comes sources (.attributeName name)

section

variable {sources : Sources} {enclosing : List Enclosure}

/-- Every word in a list comes from somewhere. -/
def Traced (sources : Sources) (words : List Jsx.Word) : Prop :=
  ∀ word ∈ words, word.Comes sources

theorem Traced.nil : Traced sources [] := fun _ h => nomatch h

theorem Traced.cons {word : Jsx.Word} {words : List Jsx.Word} (h : word.Comes sources)
    (h' : Traced sources words) : Traced sources (word :: words) :=
  List.forall_mem_cons.2 ⟨h, h'⟩

theorem Traced.append {words others : List Jsx.Word} (h : Traced sources words)
    (h' : Traced sources others) : Traced sources (words ++ others) :=
  List.forall_mem_append.2 ⟨h, h'⟩

/-! ### Expressions -/

theorem Path.toTerm_traced {path : Path} {term : Jsx.Term} (hpath : path ∈ sources.values)
    (h : path.toTerm sources.notes = .ok term) : Traced sources term.words := by
  rw [Path.toTerm] at h
  cases hs : sources.notes.segments path with
  | nil =>
    rw [hs] at h
    cases h
  | cons name rest =>
    rw [hs] at h
    cases h
    rw [Jsx.Term.words_foldl_member]
    exact .cons (.value hpath (by rw [hs, List.head?_cons])) .nil

theorem Literal.toTerm_traced (literal : Literal) :
    Traced sources literal.toTerm.words := by
  cases literal with
  | undefined => exact .cons (.own (by decide)) .nil
  | boolean | number | string | null => exact .nil

theorem Jsx.PropertyKey.ofName_traced (key : String) :
    Traced sources (Jsx.Term.wordsOfKey (.ofName key)) := by
  rw [Jsx.PropertyKey.ofName]
  split
  · next h => exact .cons (.key h) .nil
  · exact .nil

mutual

theorem Expression.toTerm_traced (e : Expression) {term : Jsx.Term}
    (hvalues : e.values ⊆ sources.values)
    (hmentions : e.mentions ⊆ sources.mentions) (h : e.toTerm sources.notes = .ok term) :
    Traced sources term.words := by
  match e with
  | .path p => exact p.toTerm_traced (hvalues (List.mem_singleton.2 rfl)) h
  | .literal l =>
    cases h
    exact l.toTerm_traced
  | .call callee params hash =>
    rw [Expression.values, List.append_subset] at hvalues
    rw [Expression.mentions, List.append_subset, List.append_subset,
      Expression.calleeMentions] at hmentions
    rw [toTerm.eq_def] at h
    dsimp only at h
    cases hn : callee.helperName? with
    | none =>
      rw [hn] at h
      cases h
    | some name =>
      rw [hn] at h hmentions
      obtain ⟨arguments, ha, h⟩ := bind_eq_ok h
      obtain ⟨properties, hp, h⟩ := bind_eq_ok h
      cases h
      have hcallee : .helper name ∈ sources.mentions := hmentions.1 (List.mem_singleton.2 rfl)
      rw [Jsx.Term.words, Jsx.Term.wordsOfAll_append]
      refine .append (.cons (.helper hcallee) .nil)
        (.append (toTerms_traced params hvalues.1 hmentions.2.1 ha) ?_)
      split
      · exact .nil
      · exact .append (toProperties_traced hash hvalues.2 hmentions.2.2 hp) .nil

theorem Expression.toTerms_traced (params : List Expression) {terms : List Jsx.Term}
    (hvalues : valuesOfParams params ⊆ sources.values)
    (hmentions : mentionsOfParams params ⊆ sources.mentions)
    (h : toTerms sources.notes params = .ok terms) :
    Traced sources (Jsx.Term.wordsOfAll terms) := by
  match params with
  | [] =>
    cases h
    exact .nil
  | param :: params =>
    rw [valuesOfParams, List.append_subset] at hvalues
    rw [mentionsOfParams, List.append_subset] at hmentions
    obtain ⟨term, ht, h⟩ := bind_eq_ok h
    obtain ⟨others, ho, h⟩ := bind_eq_ok h
    cases h
    exact .append (toTerm_traced param hvalues.1 hmentions.1 ht)
      (toTerms_traced params hvalues.2 hmentions.2 ho)

theorem Expression.toProperties_traced (hash : List (String × Expression))
    {properties : List Jsx.Property} (hvalues : valuesOfHash hash ⊆ sources.values)
    (hmentions : mentionsOfHash hash ⊆ sources.mentions)
    (h : toProperties sources.notes hash = .ok properties) :
    Traced sources (Jsx.Term.wordsOfProperties properties) := by
  match hash with
  | [] =>
    cases h
    exact .nil
  | (key, value) :: pairs =>
    rw [valuesOfHash, List.append_subset] at hvalues
    rw [mentionsOfHash, List.append_subset] at hmentions
    obtain ⟨term, ht, h⟩ := bind_eq_ok h
    obtain ⟨others, ho, h⟩ := bind_eq_ok h
    cases h
    exact .append (Jsx.PropertyKey.ofName_traced key)
      (.append (toTerm_traced value hvalues.1 hmentions.1 ht)
        (toProperties_traced pairs hvalues.2 hmentions.2 ho))

end

theorem Mustache.toTerm_traced (m : Mustache) {term : Jsx.Term}
    (hvalues : m.values ⊆ sources.values) (hmentions : m.mentions ⊆ sources.mentions)
    (h : m.toTerm sources.notes = .ok term) :
    Traced sources term.words := by
  rw [Mustache.values] at hvalues
  rw [Mustache.mentions] at hmentions
  rw [Mustache.toTerm] at h
  split at h
  · next hcall =>
    rw [if_pos hcall] at hvalues hmentions
    exact Expression.toTerm_traced (.call m.callee m.params m.hash) hvalues hmentions h
  · next hcall =>
    rw [if_neg hcall] at hvalues hmentions
    exact m.callee.toTerm_traced hvalues hmentions h

theorem Expression.mentions_subset_arguments {param : Expression} {params : List Expression}
    (hm : param ∈ params) (hash : Hash) :
    param.mentions ⊆ mentionsOfArguments params hash := by
  have hparams : param.mentions ⊆ mentionsOfParams params := by
    induction params with
    | nil => cases hm
    | cons first params ih =>
      rw [mentionsOfParams]
      rcases List.mem_cons.1 hm with rfl | hm
      · exact List.subset_append_left _ _
      · exact List.subset_append_of_subset_right _ (ih hm)
  exact List.subset_append_of_subset_left _ hparams

/-- An argument is written as its own term. -/
theorem Expression.param_traced {param : Expression} {params : List Expression} {hash : Hash}
    {term : Jsx.Term} (hm : param ∈ params)
    (hvalues : valuesOfArguments params hash ⊆ sources.values)
    (hmentions : mentionsOfArguments params hash ⊆ sources.mentions)
    (h : param.toTerm sources.notes = .ok term) :
    Traced sources term.words :=
  param.toTerm_traced (List.Subset.trans (values_subset_arguments hm hash) hvalues)
    (List.Subset.trans (mentions_subset_arguments hm hash) hmentions) h

/-! ### Parts of sources.values -/

theorem Jsx.Term.wordsOfAll_traced {terms : List Jsx.Term}
    (h : ∀ term ∈ terms, Traced sources term.words) :
    Traced sources (Jsx.Term.wordsOfAll terms) := by
  induction terms with
  | nil => exact .nil
  | cons term terms ih =>
    exact .append (h term List.mem_cons_self) (ih fun t hm => h t (List.mem_cons_of_mem _ hm))

theorem Statement.mentions_subset_all {statement : Statement} {statements : List Statement}
    (hm : statement ∈ statements) : statement.mentions ⊆ mentionsOfAll statements := by
  induction statements with
  | nil => cases hm
  | cons first statements ih =>
    rw [mentionsOfAll]
    rcases List.mem_cons.1 hm with rfl | hm
    · exact List.subset_append_left _ _
    · exact List.subset_append_of_subset_right _ (ih hm)

theorem Statement.toSummand_traced (part : Statement) {term : Jsx.Term}
    (hplaces : Place.AllIn sources.values (part.places enclosing))
    (hmentions : part.mentions ⊆ sources.mentions)
    (h : part.toSummand sources.notes = .ok term) : Traced sources term.words := by
  cases part with
  | text chars =>
    cases h
    exact .nil
  | mustache m => exact m.toTerm_traced (Place.allIn_placed.1 hplaces) hmentions h
  | element | block | partialCall | mustacheComment | markupComment => cases h

theorem Statement.sum_traced (parts : List Statement) {term : Jsx.Term}
    (hplaces : Place.AllIn sources.values (placesOfAll enclosing parts))
    (hmentions : mentionsOfAll parts ⊆ sources.mentions)
    (h : Statement.sum sources.notes parts = .ok term) :
    Traced sources term.words := by
  obtain ⟨terms, ht, h⟩ := bind_eq_ok h
  cases h
  rw [Jsx.Term.words_sum]
  refine Jsx.Term.wordsOfAll_traced fun term hm => ?_
  obtain ⟨part, hpart, hp⟩ := exists_of_mem_mapM ht hm
  exact part.toSummand_traced (hplaces.of_mem hpart)
    (List.Subset.trans (mentions_subset_all hpart) hmentions) hp

/-! ### Styles -/

namespace Style

/-- The values and mentions of the mustaches of pieces are among the sources. -/
def Known (sources : Sources) (pieces : List Piece) : Prop :=
  ∀ m, Piece.mustache m ∈ pieces → m.values ⊆ sources.values ∧ m.mentions ⊆ sources.mentions

theorem sum_traced {pieces : List Piece} {term : Jsx.Term} (hknown : Known sources pieces)
    (h : sum sources.notes pieces = .ok term) : Traced sources term.words := by
  obtain ⟨terms, ht, h⟩ := bind_eq_ok h
  cases h
  rw [Jsx.Term.words_sum]
  refine Jsx.Term.wordsOfAll_traced fun term hm => ?_
  obtain ⟨piece, hpiece, hp⟩ := exists_of_mem_mapM ht hm
  cases piece with
  | text cs =>
    cases hp
    exact .nil
  | mustache m => exact m.toTerm_traced (hknown m hpiece).1 (hknown m hpiece).2 hp

theorem toKey_traced {pieces : List Piece} {key : Jsx.PropertyKey}
    (hknown : Known sources pieces) (h : toKey sources.notes pieces = .ok key) :
    Traced sources (Jsx.Term.wordsOfKey key) := by
  rw [toKey.eq_def] at h
  split at h
  · cases h
    exact .nil
  · obtain ⟨term, ht, h⟩ := bind_eq_ok h
    cases h
    exact sum_traced hknown ht

theorem toProperties_traced {pairs : List (List Piece × List Piece)}
    {properties : List Jsx.Property}
    (hknown : ∀ pair ∈ pairs, Known sources pair.1 ∧ Known sources pair.2)
    (h : pairs.mapM (fun (key, value) => toProperty sources.notes key value) = .ok properties) :
    Traced sources (Jsx.Term.wordsOfProperties properties) := by
  have hall := forall₂_of_mapM_eq_ok h
  clear h
  induction hall with
  | nil => exact .nil
  | @cons pair property pairs properties hp _ ih =>
    obtain ⟨key, hk, hp⟩ := bind_eq_ok hp
    obtain ⟨value, hv, hp⟩ := bind_eq_ok hp
    cases hp
    obtain ⟨hkey, hvalue⟩ := hknown pair List.mem_cons_self
    exact .append (toKey_traced hkey hk) (.append (sum_traced hvalue hv)
      (ih fun pair hm => hknown pair (List.mem_cons_of_mem _ hm)))

theorem ofParts_traced (parts : List Statement) {term : Jsx.Term}
    (hplaces : Place.AllIn sources.values (Statement.placesOfAll enclosing parts))
    (hmentions : Statement.mentionsOfAll parts ⊆ sources.mentions)
    (h : ofParts sources.notes parts = .ok term) :
    Traced sources term.words := by
  obtain ⟨marks, hmarks, h⟩ := bind_eq_ok h
  obtain ⟨properties, hproperties, h⟩ := bind_eq_ok h
  cases h
  have hknown : ∀ m, Statement.mustache m ∈ parts →
      m.values ⊆ sources.values ∧ m.mentions ⊆ sources.mentions := fun m hpart =>
    ⟨Place.allIn_placed.1 (hplaces.of_mem hpart),
      List.Subset.trans (Statement.mentions_subset_all hpart) hmentions⟩
  exact toProperties_traced (fun pair hpair =>
    ⟨fun m hm => hknown m (mem_parts hmarks hpair (.inl hm)),
      fun m hm => hknown m (mem_parts hmarks hpair (.inr hm))⟩) hproperties

theorem ofValue_traced {value : AttributeValue} {term : Jsx.Term}
    (hplaces : Place.AllIn sources.values (Statement.placesOfValue enclosing value))
    (hmentions : Statement.mentionsOfValue value ⊆ sources.mentions)
    (h : ofValue sources.notes value = .ok term) :
    Traced sources term.words := by
  cases value with
  | text chars =>
    have hnone : Place.AllIn sources.values (Statement.placesOfAll enclosing [.text chars]) := by
      simp [Place.AllIn, Statement.placesOfAll, Statement.places]
    exact ofParts_traced [.text chars] hnone (List.nil_subset _) h
  | concat parts => exact ofParts_traced parts hplaces hmentions h
  | mustache m => cases h

end Style

/-! ### Attributes -/

namespace AttributeName

theorem inElements_of_isKept {name : String} (h : isKept name = true) :
    Jsx.isAttributeName (inElements name) = true ∨
      inElements name = name ∧ isWritable name = true := by
  rw [isKept] at h
  rw [inElements] at h ⊢
  cases hl : respelled.lookup (String.ofList (name.toList.map Text.lowerAscii)) with
  | none =>
    rw [hl] at h
    exact .inr ⟨rfl, by simpa using h⟩
  | some written =>
    obtain ⟨before, after, heq, -⟩ := List.lookup_eq_some_iff.1 hl
    have hm : (String.ofList (name.toList.map Text.lowerAscii), written) ∈ respelled := by
      rw [heq]
      exact List.mem_append_right _ List.mem_cons_self
    exact .inl (isAttributeName_of_mem _ hm)

end AttributeName

abbrev Jsx.Attribute.words (a : Jsx.Attribute) : List Jsx.Word := Jsx.Term.wordsOfAttributes [a]

theorem Jsx.Attribute.ofText_traced {name : String} (value : String)
    (h : (Jsx.Word.attributeName name).Comes sources) :
    Traced sources (Jsx.Attribute.ofText name value).words := by
  unfold Jsx.Attribute.ofText
  split
  · exact .cons h .nil
  · exact .cons h .nil

theorem Jsx.Attribute.term_traced {name : String} {term : Jsx.Term}
    (h : (Jsx.Word.attributeName name).Comes sources)
    (hterm : Traced sources term.words) :
    Traced sources (Jsx.Attribute.term name term).words :=
  .cons h (.append hterm .nil)

theorem Jsx.Child.ofText_traced (chars : String) :
    Traced sources
      (Jsx.Term.wordsOfChildren (Jsx.Child.ofText chars)) := by
  unfold Jsx.Child.ofText
  induction TextRun.ofText chars.toList with
  | nil => exact .nil
  | cons run runs ih =>
    cases run with
    | plain cs => exact ih
    | marked c => exact ih

theorem Attribute.toSpread_traced {name : String} {value : AttributeValue}
    {spread : Jsx.Attribute}
    (hplaces : Place.AllIn sources.values (Statement.placesOfValue enclosing value))
    (hmentions : Statement.mentionsOfValue value ⊆ sources.mentions)
    (h : Attribute.toSpread sources.notes name value = .ok spread) :
    Traced sources spread.words := by
  have hcall : ∀ term : Jsx.Term, Traced sources term.words →
      Traced sources (Jsx.Attribute.spread
        (.call (.name Vocabulary.generatorFunction) [term])).words := fun term h =>
    .append (.append (.cons (.own (by decide)) .nil) (.append h .nil)) .nil
  cases value with
  | text chars => cases h
  | mustache m =>
    obtain ⟨term, ht, h⟩ := bind_eq_ok h
    cases h
    exact hcall term (m.toTerm_traced (Place.allIn_placed.1 hplaces) hmentions ht)
  | concat parts =>
    obtain ⟨term, ht, h⟩ := bind_eq_ok h
    cases h
    exact hcall term (Statement.sum_traced parts hplaces hmentions ht)

theorem Attribute.toNamed_traced {name : String} {value : AttributeValue} {named : Jsx.Attribute}
    (hname : (Jsx.Word.attributeName (AttributeName.inElements name)).Comes sources)
    (hplaces : Place.AllIn sources.values (Statement.placesOfValue enclosing value))
    (hmentions : Statement.mentionsOfValue value ⊆ sources.mentions)
    (h : Attribute.toNamed sources.notes name value = .ok named) :
    Traced sources named.words := by
  cases value with
  | mustache m =>
    obtain ⟨term, ht, h⟩ := bind_eq_ok h
    cases h
    exact Jsx.Attribute.term_traced hname
      (m.toTerm_traced (Place.allIn_placed.1 hplaces) hmentions ht)
  | text chars =>
    rw [Attribute.toNamed] at h
    split at h
    · obtain ⟨term, ht, h⟩ := bind_eq_ok h
      cases h
      exact Jsx.Attribute.term_traced hname (Style.ofValue_traced hplaces hmentions ht)
    · cases h
      exact Jsx.Attribute.ofText_traced _ hname
  | concat parts =>
    rw [Attribute.toNamed] at h
    split at h
    · obtain ⟨term, ht, h⟩ := bind_eq_ok h
      cases h
      exact Jsx.Attribute.term_traced hname (Style.ofValue_traced hplaces hmentions ht)
    · split at h
      · cases h
      · obtain ⟨term, ht, h⟩ := bind_eq_ok h
        cases h
        exact Jsx.Attribute.term_traced hname (Statement.sum_traced parts hplaces hmentions ht)

theorem Attribute.toJsx_traced {name : String} {value : AttributeValue} {kept : Jsx.Attribute}
    (hlabel : .attributeName name ∈ sources.labels)
    (hplaces : Place.AllIn sources.values (Statement.placesOfValue enclosing value))
    (hmentions : Statement.mentionsOfValue value ⊆ sources.mentions)
    (h : Attribute.toJsx sources.notes (.mk name value) = .ok (some kept)) :
    Traced sources kept.words := by
  rw [Attribute.toJsx] at h
  split at h
  · obtain ⟨spread, hs, h⟩ := bind_eq_ok h
    cases h
    exact Attribute.toSpread_traced hplaces hmentions hs
  · split at h
    · next hkept =>
      obtain ⟨named, hn, h⟩ := bind_eq_ok h
      cases h
      refine Attribute.toNamed_traced ?_ hplaces hmentions hn
      rcases AttributeName.inElements_of_isKept hkept with hspelling | ⟨hsame, hwritable⟩
      · exact .attributeName hspelling
      · rw [hsame]
        exact .kept hlabel hwritable
    · cases h

theorem Attribute.toJsxAll_traced {attributes : List Attribute} {kept : List Jsx.Attribute}
    (hlabels : Statement.labelsOfAttributes attributes ⊆ sources.labels)
    (hplaces : Place.AllIn sources.values (Statement.placesOfAttributes enclosing attributes))
    (hmentions : Statement.mentionsOfAttributes attributes ⊆ sources.mentions)
    (h : Attribute.toJsxAll sources.notes attributes = .ok kept) :
    Traced sources (Jsx.Term.wordsOfAttributes kept) := by
  obtain ⟨converted, hc, h⟩ := bind_eq_ok h
  cases h
  clear h
  induction attributes generalizing converted with
  | nil =>
    cases hc
    exact .nil
  | cons first attributes ih =>
    obtain ⟨name, value⟩ := first
    rw [Statement.labelsOfAttributes, List.cons_subset] at hlabels
    rw [Statement.placesOfAttributes, Place.allIn_append] at hplaces
    rw [Statement.mentionsOfAttributes, List.append_subset, List.append_subset] at hmentions
    rw [List.mapM_cons] at hc
    obtain ⟨first, hf, hc⟩ := bind_eq_ok hc
    obtain ⟨others, ho, hc⟩ := bind_eq_ok hc
    cases hc
    have hrest := ih hlabels.2 hplaces.2 hmentions.2.2 others ho
    cases first with
    | none => exact hrest
    | some first =>
      change Traced sources (Jsx.Term.wordsOfAttributes ([first] ++ others.filterMap id))
      rw [Jsx.Term.wordsOfAttributes_append]
      exact .append (Attribute.toJsx_traced hlabels.1 hplaces.1 hmentions.2.1 hf) hrest

/-! ### Partials and heads of blocks -/

theorem Jsx.Attribute.ofHash_traced {hash : Hash} {named : List Jsx.Attribute}
    (hlabels : hash.map (fun pair => Label.argument pair.1) ⊆ sources.labels)
    (hvalues : Expression.valuesOfHash hash ⊆ sources.values)
    (hmentions : Expression.mentionsOfHash hash ⊆ sources.mentions)
    (h : Jsx.Attribute.ofHash sources.notes hash = .ok named) :
    Traced sources (Jsx.Term.wordsOfAttributes named) := by
  induction hash generalizing named with
  | nil =>
    cases h
    exact .nil
  | cons pair pairs ih =>
    obtain ⟨key, value⟩ := pair
    rw [List.map_cons, List.cons_subset] at hlabels
    rw [Expression.valuesOfHash, List.append_subset] at hvalues
    rw [Expression.mentionsOfHash, List.append_subset] at hmentions
    have hrest : ∀ others, Jsx.Attribute.ofHash sources.notes pairs = .ok others →
        Traced sources (Jsx.Term.wordsOfAttributes others) :=
      fun others => ih hlabels.2 hvalues.2 hmentions.2
    rw [Jsx.Attribute.ofHash.eq_def] at h
    split at h
    · next heq => cases heq
    · next heq =>
      cases heq
      obtain ⟨others, ho, h⟩ := bind_eq_ok h
      cases h
      rw [← List.singleton_append, Jsx.Term.wordsOfAttributes_append]
      exact .append (Jsx.Attribute.ofText_traced _ (.argument hlabels.1)) (hrest others ho)
    · next heq =>
      cases heq
      obtain ⟨term, ht, h⟩ := bind_eq_ok h
      obtain ⟨others, ho, h⟩ := bind_eq_ok h
      cases h
      exact .cons (.argument hlabels.1)
        (.append (value.toTerm_traced hvalues.1 hmentions.1 ht) (hrest others ho))

theorem PartialCall.toElement_traced {call : PartialCall} {element : Jsx.Element}
    (hlabels : call.hash.map (fun pair => Label.argument pair.1) ⊆ sources.labels)
    (hvalues : valuesOfArguments call.params call.hash ⊆ sources.values)
    (hmentions : mentionsOfArguments call.params call.hash ⊆ sources.mentions)
    (h : call.toElement sources.notes = .ok element) :
    Traced sources (Jsx.Term.wordsOfElement element) := by
  rw [PartialCall.toElement] at h
  split at h
  · cases h
  · split at h
    · cases h
    · obtain ⟨context, hc, h⟩ := bind_eq_ok h
      obtain ⟨named, hn, h⟩ := bind_eq_ok h
      cases h
      rw [Jsx.Term.wordsOfElement, Jsx.Term.wordsOfAttributes_append]
      refine .append (.append ?_ ?_) .nil
      · cases hparams : call.params with
        | nil =>
          rw [hparams] at hc
          cases hc
          exact .nil
        | cons param params =>
          rw [hparams] at hc
          obtain ⟨term, ht, hc⟩ := bind_eq_ok hc
          cases hc
          exact Jsx.Attribute.term_traced (.attributeName (by decide))
            (Expression.param_traced (hparams ▸ List.mem_cons_self) hvalues hmentions ht)
      · exact Jsx.Attribute.ofHash_traced hlabels
          (List.Subset.trans (List.subset_append_right _ _) hvalues)
          (List.Subset.trans (List.subset_append_right _ _) hmentions) hn

namespace BlockHead

variable {head : BlockHead} (hvalues : valuesOfArguments head.params head.hash ⊆ sources.values)
  (hmentions : mentionsOfArguments head.params head.hash ⊆ sources.mentions)
include hvalues hmentions

theorem toTest_traced {negated : Bool} {test : Jsx.Term}
    (h : head.toTest sources.notes negated = .ok test) :
    Traced sources test.words := by
  obtain ⟨param, hs, h⟩ := bind_eq_ok h
  obtain ⟨term, ht, h⟩ := bind_eq_ok h
  cases h
  have htruth : Traced sources term.truth.words :=
    .append (.cons (.own (by decide)) .nil)
      (.append (Expression.param_traced (mem_of_subject hs) hvalues hmentions ht) .nil)
  split
  · exact htruth
  · exact htruth

theorem toCollection_traced {collection : Jsx.Term}
    (h : head.toCollection sources.notes = .ok collection) :
    Traced sources collection.words := by
  obtain ⟨param, hs, h⟩ := bind_eq_ok h
  split at h
  · cases h
  · exact Expression.param_traced (mem_of_subject hs) hvalues hmentions h

theorem toLinkAttributes_traced {kept : List Jsx.Attribute}
    (h : head.toLinkAttributes sources.notes = .ok kept) :
    Traced sources (Jsx.Term.wordsOfAttributes kept) := by
  obtain ⟨param, hs, h⟩ := bind_eq_ok h
  obtain ⟨target, ht, h⟩ := bind_eq_ok h
  have htarget : Traced sources target.words :=
    Expression.param_traced (mem_of_subject hs) hvalues hmentions ht
  split at h
  · cases h
    exact .cons (.attributeName (by decide)) (.append htarget .nil)
  · next second others hd =>
    obtain ⟨className, hc, h⟩ := bind_eq_ok h
    cases h
    have hm : second ∈ head.params := List.mem_of_mem_drop (hd ▸ List.mem_cons_self)
    exact .cons (.attributeName (by decide)) (.append htarget
      (.cons (.attributeName (by decide))
        (.append (Expression.param_traced hm hvalues hmentions hc) .nil)))

theorem toLabel_traced {children : List Jsx.Child} (h : head.toLabel sources.notes = .ok children) :
    Traced sources (Jsx.Term.wordsOfChildren children) := by
  rw [toLabel] at h
  split at h
  · cases h
    exact .nil
  · cases h
    exact Jsx.Child.ofText_traced _
  · next second others _ hd =>
    obtain ⟨term, ht, h⟩ := bind_eq_ok h
    cases h
    have hm : second ∈ head.params := List.mem_of_mem_drop (hd ▸ List.mem_cons_self)
    exact .append (Expression.param_traced hm hvalues hmentions ht) .nil

end BlockHead

/-! ### Statements -/

def Converted.words : Converted → List Jsx.Word
  | .text _ => []
  | .comment _ => []
  | .term value => value.words
  | .element e => Jsx.Term.wordsOfElement e

theorem Converted.alone_traced {converted : Converted} {term : Jsx.Term}
    (hwords : Traced sources converted.words)
    (h : converted.alone = .ok term) : Traced sources term.words := by
  cases converted <;> cases h
  · exact .nil
  · exact hwords
  · exact hwords

theorem Converted.children_traced {converted : Converted}
    (hwords : Traced sources converted.words) :
    Traced sources (Jsx.Term.wordsOfChildren converted.children) := by
  cases converted with
  | text chars => exact Jsx.Child.ofText_traced _
  | comment value => exact .nil
  | term value => exact .append hwords .nil
  | element e => exact .append hwords .nil

theorem Jsx.Element.push_traced {element : Jsx.Element} {last : Jsx.Attribute}
    (hwords : Traced sources (Jsx.Term.wordsOfElement element))
    (hlast : Traced sources last.words) :
    Traced sources (Jsx.Term.wordsOfElement (element.push last)) := by
  obtain ⟨name, kept, children, selfClosing⟩ := element
  obtain ⟨hkept, hchildren⟩ := List.forall_mem_append.1 hwords
  rw [Jsx.Element.push, Jsx.Term.wordsOfElement, Jsx.Term.wordsOfAttributes_append]
  exact .append (.append hkept hlast) hchildren

theorem Jsx.Term.asElement_traced {term : Jsx.Term}
    (hwords : Traced sources term.words) :
    Traced sources (Jsx.Term.wordsOfElement term.asElement) := by
  cases term with
  | element e => exact hwords
  | _ => exact .append .nil (.append hwords .nil)

theorem Jsx.Term.loop_traced {collection body : Jsx.Term}
    (hcollection : Traced sources collection.words)
    (hbody : Traced sources body.words) :
    Traced sources (Jsx.Term.loop collection body).words := by
  have hkey : Traced sources
      (Jsx.Attribute.term Vocabulary.key (.name Vocabulary.loopIndex)).words :=
    Jsx.Attribute.term_traced (.attributeName (by decide)) (.cons (.own (by decide)) .nil)
  exact .append hcollection (.append (.cons (.own (by decide)) (.cons (.own (by decide))
    (Jsx.Element.push_traced (Jsx.Term.asElement_traced hbody) hkey))) .nil)

def Statement.labelsOfInverse : Option Body → List Label
  | some body => labelsOfBody body
  | none => []

def Statement.mentionsOfInverse : Option Body → List Mention
  | some body => mentionsOfBody body
  | none => []

theorem Statement.labels_block (head : BlockHead) (program : Body) (inverse : Option Body) :
    (Statement.block head program inverse).labels =
      labelsOfBody program ++ labelsOfInverse inverse := by
  cases inverse <;> rfl

theorem Statement.mentions_block (head : BlockHead) (program : Body) (inverse : Option Body) :
    (Statement.block head program inverse).mentions =
      head.mentions ++ mentionsOfArguments head.params head.hash ++ mentionsOfBody program ++
        mentionsOfInverse inverse := by
  cases inverse <;> rfl

/-- A block writes the words of its head, its program and its inverse, and some of its own. -/
theorem Statement.convert_block_traced {head : BlockHead} {program : Body}
    {inverse : Option Body} {converted : Converted}
    (hvalues : valuesOfArguments head.params head.hash ⊆ sources.values)
    (hmentions : mentionsOfArguments head.params head.hash ⊆ sources.mentions)
    (hprogram : ∀ term, program.toTerm sources.notes = .ok term →
      Traced sources term.words)
    (hchildren : ∀ children, program.toChildren sources.notes = .ok children →
      Traced sources (Jsx.Term.wordsOfChildren children))
    (hinverse : ∀ other, inverse = some other → ∀ term, other.toTerm sources.notes = .ok term →
      Traced sources term.words)
    (h : (block head program inverse).convert sources.notes = .ok converted) :
    Traced sources converted.words := by
  rw [convert.eq_def] at h
  dsimp only at h
  split at h
  · cases h
  · obtain ⟨test, ht, h⟩ := bind_eq_ok h
    obtain ⟨consequent, hc, h⟩ := bind_eq_ok h
    have htest : Traced sources test.words :=
      head.toTest_traced hvalues hmentions ht
    cases inverse with
    | none =>
      cases h
      exact .append htest (hprogram consequent hc)
    | some other =>
      obtain ⟨alternate, ha, h⟩ := bind_eq_ok h
      cases h
      exact .append htest (.append (hprogram consequent hc) (hinverse other rfl alternate ha))
  · obtain ⟨collection, hc, h⟩ := bind_eq_ok h
    obtain ⟨body, hb, h⟩ := bind_eq_ok h
    have hcollection : Traced sources collection.words :=
      head.toCollection_traced hvalues hmentions hc
    have hloop := Jsx.Term.loop_traced hcollection (hprogram body hb)
    cases inverse with
    | none =>
      cases h
      exact hloop
    | some other =>
      obtain ⟨alternate, ha, h⟩ := bind_eq_ok h
      cases h
      have hitems : Traced sources collection.hasItems.words :=
        .append (.cons (.own (by decide)) .nil) (.append hcollection .nil)
      exact .append hitems (.append hloop (hinverse other rfl alternate ha))
  · obtain ⟨kept, hkept, h⟩ := bind_eq_ok h
    have hlink : Traced sources (Jsx.Term.wordsOfAttributes kept) :=
      head.toLinkAttributes_traced hvalues hmentions hkept
    split at h
    · obtain ⟨children, hc, h⟩ := bind_eq_ok h
      cases h
      exact .append hlink (head.toLabel_traced hvalues hmentions hc)
    · obtain ⟨children, hc, h⟩ := bind_eq_ok h
      cases h
      exact .append hlink (hchildren children hc)

mutual

/-- Every word in a converted statement comes from somewhere. -/
theorem Statement.convert_traced (statement : Statement) {enclosing : List Enclosure}
    {converted : Converted} (hlabels : statement.labels ⊆ sources.labels)
    (hplaces : Place.AllIn sources.values (statement.places enclosing))
    (hmentions : statement.mentions ⊆ sources.mentions)
    (h : statement.convert sources.notes = .ok converted) :
    Traced sources converted.words := by
  match statement with
  | .text chars | .mustacheComment value | .markupComment value =>
    cases h
    exact .nil
  | .mustache m =>
    obtain ⟨term, ht, h⟩ := bind_eq_ok h
    cases h
    exact m.toTerm_traced (Place.allIn_placed.1 hplaces) hmentions ht
  | .partialCall call =>
    obtain ⟨element, he, h⟩ := bind_eq_ok h
    cases h
    exact call.toElement_traced hlabels (Place.allIn_placed.1 hplaces)
      (List.cons_subset.1 hmentions).2 he
  | .element tag attributes children selfClosing =>
    rw [Statement.labels, List.append_subset] at hlabels
    rw [places, Place.allIn_append] at hplaces
    rw [Statement.mentions, List.append_subset] at hmentions
    obtain ⟨kept, hk, h⟩ := bind_eq_ok h
    have hkept : Traced sources (Jsx.Term.wordsOfAttributes kept) :=
      Attribute.toJsxAll_traced hlabels.1 hplaces.1 hmentions.1 hk
    dsimp only at h
    split at h
    · cases h
      exact .append hkept .nil
    · obtain ⟨inner, hi, h⟩ := bind_eq_ok h
      cases h
      exact .append hkept (toChildren_traced children hlabels.2 hplaces.2 hmentions.2 hi)
  | .block head program inverse =>
    rw [labels_block, List.append_subset] at hlabels
    rw [places_block, Place.allIn_append, Place.allIn_append] at hplaces
    rw [mentions_block, List.append_subset, List.append_subset, List.append_subset] at hmentions
    refine convert_block_traced (Place.allIn_placed.1 hplaces.1) hmentions.1.1.2
      (fun term ht => body_traced program hlabels.1 hplaces.2.1 hmentions.1.2 ht) ?_ ?_ h
    · intro children hc
      obtain ⟨id, statements⟩ := program
      exact toChildren_traced statements hlabels.1 hplaces.2.1 hmentions.1.2 hc
    · cases inverse with
      | none => nofun
      | some body =>
        rintro other ⟨⟩ term ht
        exact body_traced body hlabels.2 hplaces.2.2 hmentions.2 ht

theorem Statement.toChildren_traced (statements : List Statement) {enclosing : List Enclosure}
    {children : List Jsx.Child} (hlabels : labelsOfAll statements ⊆ sources.labels)
    (hplaces : Place.AllIn sources.values (placesOfAll enclosing statements))
    (hmentions : mentionsOfAll statements ⊆ sources.mentions)
    (h : toChildren sources.notes statements = .ok children) :
    Traced sources (Jsx.Term.wordsOfChildren children) := by
  match statements with
  | [] =>
    cases h
    exact .nil
  | statement :: statements =>
    rw [labelsOfAll, List.append_subset] at hlabels
    rw [placesOfAll, Place.allIn_append] at hplaces
    rw [mentionsOfAll, List.append_subset] at hmentions
    obtain ⟨first, hf, h⟩ := bind_eq_ok h
    obtain ⟨rest, hr, h⟩ := bind_eq_ok h
    cases h
    rw [Jsx.Term.wordsOfChildren_append]
    exact .append (Converted.children_traced
        (convert_traced statement hlabels.1 hplaces.1 hmentions.1 hf))
      (toChildren_traced statements hlabels.2 hplaces.2 hmentions.2 hr)

theorem Statement.body_traced (body : Body) {enclosing : List Enclosure} {term : Jsx.Term}
    (hlabels : labelsOfBody body ⊆ sources.labels)
    (hplaces : Place.AllIn sources.values (placesOfBody enclosing body))
    (hmentions : mentionsOfBody body ⊆ sources.mentions)
    (h : body.toTerm sources.notes = .ok term) :
    Traced sources term.words := by
  match body with
  | .mk id [] =>
    cases h
    exact .nil
  | .mk id [statement] =>
    obtain ⟨single, hs, h⟩ := bind_eq_ok h
    rw [labelsOfBody, labelsOfAll, labelsOfAll, List.append_nil] at hlabels
    rw [placesOfBody, placesOfAll, placesOfAll, List.append_nil] at hplaces
    rw [mentionsOfBody, mentionsOfAll, mentionsOfAll, List.append_nil] at hmentions
    exact Converted.alone_traced (convert_traced statement hlabels hplaces hmentions hs) h
  | .mk id (first :: second :: rest) =>
    obtain ⟨children, hc, h⟩ := bind_eq_ok h
    cases h
    exact .append .nil
      (toChildren_traced (first :: second :: rest) hlabels hplaces hmentions hc)

end

end

def Template.sources (template : Template) (notes : Annotations) : Sources where
  notes := notes
  values := template.values
  mentions := template.mentions
  labels := template.labels

theorem Template.toTerm_traced {template : Template} {notes : Annotations} {root : Jsx.Term}
    (h : template.toTerm notes = .ok root) : Traced (template.sources notes) root.words :=
  @Statement.body_traced (template.sources notes) (.mk 0 template) [] root (List.Subset.refl _)
    (fun _ hm => List.mem_map_of_mem hm) (List.Subset.refl _) h

end MustacheJsx
