import MustacheJsx.Proofs.Conversion.Content
import MustacheJsx.Proofs.Conversion.Imports
import MustacheJsx.Proofs.Jsx.Names
import MustacheJsx.Proofs.Scope.Binder

/-!
# Partials and the components that they render

A partial becomes an element of its name, and the module imports a component of that name. The
functions around the element bind other names, so the element renders what was imported, unless its
name begins with a small letter: such an element is one of the markup, and the import is not used.
-/

namespace MustacheJsx

/-! ### Parts under functions -/

namespace Jsx

def Part.arrowsWithin (whole : Part) (arrows : List (List String)) : List (List String) :=
  match whole with
  | .term (.arrow params _) => params :: arrows
  | _ => arrows

theorem Part.mem_arrowsWithin {whole : Part} {params : List String} {arrows : List (List String)}
    (h : params ∈ whole.arrowsWithin arrows) :
    params ∈ arrows ∨ ∃ body, whole = .term (.arrow params body) := by
  unfold Part.arrowsWithin at h
  split at h
  · next own body =>
    rcases List.mem_cons.1 h with rfl | h
    · exact .inr ⟨body, rfl⟩
    · exact .inl h
  · exact .inl h

/-- A part stands under functions in a part that stands under functions itself. -/
inductive Part.Under (part : Part) (arrows : List (List String)) :
    Part → List (List String) → Prop where
  | here : Under part arrows part arrows
  | inside {next whole : Part} {outer : List (List String)}
    (h : Under part arrows next (whole.arrowsWithin outer)) (hnext : next ∈ whole.parts) :
    Under part arrows whole outer

def Element.pushAll : Element → List Attribute → Element
  | .mk name attributes children selfClosing, more =>
    .mk name (attributes ++ more) children selfClosing

theorem Element.keyed_pushAll (e : Element) (more : List Attribute) :
    (e.pushAll more).keyed =
      e.pushAll (more ++ [.term Vocabulary.key (.name Vocabulary.loopIndex)]) := by
  obtain ⟨name, attributes, children, selfClosing⟩ := e
  show Element.mk name ((attributes ++ more) ++ _) children selfClosing = _
  rw [List.append_assoc]
  rfl

theorem Part.LiesIn.exists_under {e : Element} {whole : Part}
    (h : Part.LiesIn (.term (.element e)) whole) (outer : List (List String)) :
    ∃ more arrows, Part.Under (.term (.element (e.pushAll more))) arrows whole outer := by
  induction h generalizing outer with
  | refl =>
    refine ⟨[], outer, ?_⟩
    have hself : e.pushAll [] = e := by
      obtain ⟨name, attributes, children, selfClosing⟩ := e
      rw [Element.pushAll, List.append_nil]
    rw [hself]
    exact .here
  | step _ hnext ih =>
    obtain ⟨more, arrows, hunder⟩ := ih (Part.arrowsWithin _ outer)
    exact ⟨more, arrows, .inside hunder hnext⟩
  | @keyed element _ ih =>
    obtain ⟨more, arrows, hunder⟩ := ih outer
    obtain ⟨name, attributes, children, selfClosing⟩ := element
    generalize hwhole : Part.term (.element (.mk name attributes children selfClosing)) = whole
      at hunder
    cases hunder with
    | here =>
      refine ⟨more ++ [.term Vocabulary.key (.name Vocabulary.loopIndex)], outer, ?_⟩
      rw [← Element.keyed_pushAll, ← Term.element.inj (Part.term.inj hwhole)]
      exact .here
    | inside hunder hnext =>
      subst hwhole
      refine ⟨more, arrows, .inside hunder ?_⟩
      rcases List.mem_append.1 hnext with hnext | hnext
      · obtain ⟨a, ha, rfl⟩ := List.mem_map.1 hnext
        exact List.mem_append_left _ (List.mem_map_of_mem (List.mem_append_left _ ha))
      · exact List.mem_append_right _ hnext

theorem Part.Under.arrows {stock : Stock} {part whole : Part} {arrows outer : List (List String)}
    (h : part.Under arrows whole outer) (hstocked : Stocked stock whole) :
    ∀ params ∈ arrows, params ∈ outer ∨ params = [Vocabulary.loopItem, Vocabulary.loopIndex] := by
  induction h with
  | here => exact fun params hparams => .inl hparams
  | @inside next whole outer _ hnext ih =>
    intro params hparams
    rcases ih (hstocked.parts next hnext) params hparams with hwithin | hloop
    · rcases Part.mem_arrowsWithin hwithin with houter | ⟨body, rfl⟩
      · exact .inl houter
      · exact .inr (hstocked _ (.refl _))
    · exact .inr hloop

theorem denotes_eq_none {name : String} {arrows : List (List String)}
    (h : ∀ params ∈ arrows, name ∉ params) : denotes name arrows = none := by
  induction arrows with
  | nil => rfl
  | cons params arrows ih =>
    obtain ⟨hfirst, hrest⟩ := List.forall_mem_cons.1 h
    rw [denotes, List.idxOf?_eq_none_iff.2 hfirst]
    exact ih hrest

/-! ### What names of elements refer to -/

/-- By the rules of JSX the name of an element is that of a variable, unless it begins with a small
letter of ASCII: then the element is one of the markup. -/
def isVariable (name : String) : Bool := !name.toList.head?.any Text.isAsciiLower

/-- The name of an element under functions refers to what a statement of a module binds. -/
structure Program.RefersTo (program : Program) (arrows : List (List String)) (name : String)
    (statement : Statement) : Prop where
  isVariable : isVariable name = true
  free : denotes name arrows = none
  mem : statement ∈ program
  binds : statement.binding? = some name
  once : program.bindings.count name = 1

theorem denotes_of_isVariable {stock : Stock} {part : Part} {root : Term} {name : String}
    {options : Options} {arrows : List (List String)} (hname : isVariable name = true)
    (h : part.Under arrows (.term root) options.arrows) (hstocked : Stocked stock (.term root)) :
    denotes name arrows = none := by
  refine denotes_eq_none fun params hparams hm => ?_
  have hown : name = Vocabulary.rootParam ∨ name = Vocabulary.loopItem ∨
      name = Vocabulary.loopIndex := by
    rcases h.arrows hstocked params hparams with hroot | rfl
    · rw [Options.arrows] at hroot
      split at hroot
      · rw [List.mem_singleton.1 hroot] at hm
        exact .inl (List.mem_singleton.1 hm)
      · cases hroot
    · exact .inr (List.mem_pair.1 hm)
  rcases hown with rfl | rfl | rfl <;> exact absurd hname (by decide)

end Jsx

/-! ### Partials that are mentioned -/

theorem Statement.mentions_subset_of_mem_inner {outer statement : Statement}
    (h : statement ∈ outer.inner) : statement.mentions ⊆ outer.mentions := by
  cases outer with
  | text | mustache | partialCall | mustacheComment | markupComment => cases h
  | element tag attributes children selfClosing =>
    have hchildren : statement ∈ children := by
      have h : statement ∈ if selfClosing || isSelfClosingName tag then [] else children := h
      split at h
      · cases h
      · exact h
    exact List.subset_append_of_subset_right _ (mentions_subset_all hchildren)
  | block head program inverse =>
    rw [mentions_block]
    rcases List.mem_append.1 h with h | h
    · obtain ⟨id, statements⟩ := program
      exact List.subset_append_of_subset_left _
        (List.subset_append_of_subset_right _ (mentions_subset_all h))
    · cases inverse with
      | none => cases h
      | some body =>
        obtain ⟨id, statements⟩ := body
        exact List.subset_append_of_subset_right _ (mentions_subset_all h)

theorem Statement.ReachedBy.mentions {statement : Statement} {statements : List Statement}
    (h : statement.ReachedBy inner statements) : statement.mentions ⊆ mentionsOfAll statements := by
  have htop : ∃ top ∈ statements, statement.mentions ⊆ top.mentions := by
    induction h with
    | here hm => exact ⟨statement, hm, List.Subset.refl _⟩
    | @inside outer _ _ houter ih =>
      obtain ⟨top, htop, hmentions⟩ := ih
      exact ⟨outer, houter, List.Subset.trans hmentions (mentions_subset_of_mem_inner htop)⟩
  obtain ⟨top, hm, hmentions⟩ := htop
  exact List.Subset.trans hmentions (mentions_subset_all hm)

/-! ### Partials of a template -/

theorem PartialCall.exists_of_toElement {notes : Annotations} {call : PartialCall}
    {element : Jsx.Element} (h : call.toElement notes = .ok element) :
    Text.isIdentifier call.name.toList = true ∧
      ∃ attributes, element = .mk call.name attributes [] true := by
  rw [toElement] at h
  split at h
  · cases h
  · next hidentifier =>
    split at h
    · cases h
    · obtain ⟨context, -, h⟩ := bind_eq_ok h
      obtain ⟨named, -, h⟩ := bind_eq_ok h
      cases h
      exact ⟨by simpa using hidentifier, _, rfl⟩

theorem Compilation.siblingImport_mem_of_component {source : List Char} {options : Options}
    (c : Compilation source options) (h : options.emitsImports = true) {name : String}
    (hm : .component name ∈ c.template.mentions) : .siblingImport name ∈ c.program := by
  have hpartials : c.notes.partials = (Mention.noteAll ([], []) c.template.mentions).1 :=
    congrArg Prod.fst (Template.called_of_resolve c.resolves)
  rw [c.siblingImport_mem h, hpartials]
  exact .inl (Mention.mem_components.2 hm)

/-- Every partial that conversion comes to has an identifier for its name, is imported under that
name, and becomes an element of that name. The element refers to what is imported exactly if its
name does not begin with a small letter and the module binds it once. -/
theorem partials_render_imports {source code : List Char} {options : Options}
    (h : compile source options = .ok code) (himports : options.emitsImports = true) :
    ∃ c : Compilation source options, c.code = code ∧
      ∃ root, c.template.toTerm c.notes = .ok root ∧
        c.program.getLast? = some (options.toRoot root) ∧
        ∀ call : PartialCall,
          (Statement.partialCall call).ReachedBy Statement.shown c.template →
          Text.isIdentifier call.name.toList = true ∧
          .siblingImport call.name ∈ c.program ∧
          ∃ own more arrows,
            call.toElement c.notes = .ok (.mk call.name own [] true) ∧
            Jsx.Part.Under (.term (.element (.mk call.name (own ++ more) [] true))) arrows
              (.term root) options.arrows ∧
            (c.program.RefersTo arrows call.name (.siblingImport call.name) ↔
              Jsx.isVariable call.name = true ∧ c.program.bindings.count call.name = 1) := by
  obtain ⟨c, hcode⟩ := Compilation.exists_of_compile h
  obtain ⟨root, hroot, hprogram⟩ := c.exists_root
  refine ⟨c, hcode, root, hroot, by rw [hprogram, List.getLast?_concat], fun call hcall => ?_⟩
  obtain ⟨converted, hconverted, hin⟩ : (Statement.partialCall call).Found c.notes (.term root) :=
    hcall.found fun s hs => Body.found_of_toTerm hroot hs
  obtain ⟨element, helement, hconverted⟩ := bind_eq_ok hconverted
  cases hconverted
  obtain ⟨hidentifier, own, rfl⟩ := call.exists_of_toElement helement
  obtain ⟨more, arrows, hunder⟩ := hin.liesIn_of_element.exists_under options.arrows
  have himport : .siblingImport call.name ∈ c.program :=
    c.siblingImport_mem_of_component himports (hcall.of_shown.mentions List.mem_cons_self)
  refine ⟨hidentifier, himport, own, more, arrows, helement, hunder, ?_⟩
  constructor
  · exact fun hrefers => ⟨hrefers.isVariable, hrefers.once⟩
  · rintro ⟨hvariable, honce⟩
    exact ⟨hvariable, Jsx.denotes_of_isVariable hvariable hunder (Template.toTerm_stocked hroot),
      himport, rfl, honce⟩

def cardsSource : List Char :=
  "\x7b\x7b#each rows\x7d\x7d\x7b\x7b> Card this\x7d\x7d\x7b\x7b/each\x7d\x7d".toList

def isCardLoop : Template → Bool
  | [.block head (.mk _ [.partialCall call]) none] => head.name == "each" && call.name == "Card"
  | _ => false

/-- The element in the function of the loop refers to what is imported as `Card`. -/
theorem cards_render_imports :
    ∃ code, compile cardsSource importing = .ok code ∧
      ∃ c : Compilation cardsSource importing, c.code = code ∧
        ∃ call : PartialCall, call.name = "Card" ∧
          (Statement.partialCall call).ReachedBy Statement.shown c.template ∧
          ∃ arrows, c.program.RefersTo arrows "Card" (.siblingImport "Card") := by
  obtain ⟨c, hcheck⟩ := Compilation.exists_of_check cardsSource importing
    (fun _ template program => isCardLoop template && decide (program.bindings.count "Card" = 1))
    (by decide +kernel)
  obtain ⟨hshape, honce⟩ := Bool.and_eq_true_iff.1 hcheck
  obtain ⟨c', hcode, root, -, -, hpartials⟩ := partials_render_imports (c.compile_eq rfl) rfl
  cases Subsingleton.elim c c'
  rw [isCardLoop.eq_def] at hshape
  split at hshape
  · next head id call htemplate =>
    obtain ⟨hhead, hname⟩ := Bool.and_eq_true_iff.1 hshape
    have hreached : (Statement.partialCall call).ReachedBy Statement.shown c.template := by
      rw [htemplate]
      refine .inside (.here ?_) List.mem_cons_self
      rw [Statement.shown, beq_iff_eq.1 hhead]
      exact List.mem_cons_self
    obtain ⟨-, -, own, more, arrows, -, -, hrefers⟩ := hpartials call hreached
    rw [beq_iff_eq.1 hname] at hrefers
    exact ⟨c.code, c.compile_eq rfl, c, rfl, call, beq_iff_eq.1 hname, hreached, arrows,
      hrefers.2 ⟨by decide, of_decide_eq_true honce⟩⟩
  · cases hshape

/-- A partial whose name begins with a small letter. -/
def smallCardSource : List Char := "\x7b\x7b> card\x7d\x7d".toList

/-- Nothing but the component, without arguments. -/
def isSmallCard : Template → Bool
  | [.partialCall call] => call.name == "card" && call.params.isEmpty && call.hash.isEmpty
  | _ => false

/-- It is accepted and imported, but its element is one of the markup. -/
theorem smallCard_renders_markup :
    compile smallCardSource importing =
        .ok ("import React from \"react\";\nimport card from \"./card\";\n" ++
          "export default (props) => <card />;").toList ∧
      ∃ (c : Compilation smallCardSource importing) (call : PartialCall),
        c.template = [.partialCall call] ∧
        call.toElement c.notes = .ok (.mk "card" [] [] true) ∧
        .siblingImport "card" ∈ c.program ∧
        ∀ arrows statement, ¬ c.program.RefersTo arrows "card" statement := by
  have hcompile : (compile smallCardSource importing).toOption.any (fun code => code ==
      ("import React from \"react\";\nimport card from \"./card\";\n" ++
        "export default (props) => <card />;").toList) = true := by
    decide +kernel
  obtain ⟨code, hcompile, hcode⟩ := exists_ok_of_check hcompile
  obtain ⟨c, hshape⟩ := Compilation.exists_of_check smallCardSource importing
    (fun _ template _ => isSmallCard template) (by decide +kernel)
  refine ⟨beq_iff_eq.1 hcode ▸ hcompile, c, ?_⟩
  rw [isSmallCard.eq_def] at hshape
  split at hshape
  · next call htemplate =>
    obtain ⟨name, params, hash⟩ := call
    simp only [Bool.and_eq_true, beq_iff_eq, List.isEmpty_iff] at hshape
    obtain ⟨⟨rfl, rfl⟩, rfl⟩ := hshape
    refine ⟨_, htemplate, ?_, ?_, fun arrows statement hrefers => ?_⟩
    · rw [PartialCall.toElement, if_neg (by decide), if_neg (by decide)]
      rfl
    · refine c.siblingImport_mem_of_component rfl ?_
      rw [htemplate]
      exact List.mem_cons_self
    · exact absurd hrefers.isVariable (by decide)
  · cases hshape

end MustacheJsx
