import MustacheJsx.Proofs.Conversion.Bindings
import MustacheJsx.Proofs.Conversion.Uses
import MustacheJsx.Proofs.Extraction.Supply

/-!
# Imports of a module

A module that imports binds whatever its code calls and renders. A helper is known by its name
alone, so a call in the template that has the name of a helper of the pre-processor is taken for a
call of that helper, and nothing is imported for it.
-/

namespace MustacheJsx

namespace Compilation

variable {source : List Char} {options : Options}

theorem mem_bindings_of_mention (c : Compilation source options) (h : options.emitsImports = true)
    {m : Mention} (hm : m ∈ c.template.mentions) : m.name ∈ c.program.bindings := by
  have hlists := Template.called_of_resolve c.resolves
  have hnoted := Mention.mentioned_iff.2 ⟨m, hm, rfl⟩
  rw [← hlists] at hnoted
  rw [c.bindings_eq h]
  by_cases hdefined : m.name ∈ c.prepared.helpers.map Helper.name
  · exact List.mem_append_right _ hdefined
  · refine List.mem_append_left _ (List.mem_cons_of_mem _ (List.mem_append.2 ?_))
    refine hnoted.imp_right fun hm => List.mem_filter.2 ⟨hm, ?_⟩
    rwa [Bool.not_eq_true', ← Bool.not_eq_true, List.contains_iff_mem]

theorem siblingImport_ne_framework (name : String) : Jsx.Statement.siblingImport name ≠
    .defaultImport Vocabulary.framework Vocabulary.frameworkSource := by
  intro heq
  have hsource := (Jsx.Statement.defaultImport.inj heq).2
  have hfirst := congrArg (fun source => source.toList.head?) hsource
  rw [String.toList_append] at hfirst
  have hletter : some '.' = some 'r' := hfirst
  exact absurd hletter (by decide)

theorem siblingImport_ne_toRoot (name : String) (options : Options) (root : Jsx.Term) :
    Jsx.Statement.siblingImport name ≠ options.toRoot root := by
  intro heq
  rw [Options.toRoot] at heq
  cases hmodule : options.isModule <;> rw [hmodule] at heq <;> cases heq

theorem siblingImport_mem_map {name : String} {names : List String} :
    Jsx.Statement.siblingImport name ∈ names.map Jsx.Statement.siblingImport ↔ name ∈ names :=
  List.mem_map_of_injective fun _ _ heq => (Jsx.Statement.defaultImport.inj heq).1

/-- The files beside the output that a module imports are those of its components, and of the
helpers that it does not define. -/
theorem siblingImport_mem (c : Compilation source options) (h : options.emitsImports = true)
    {name : String} : .siblingImport name ∈ c.program ↔
      name ∈ c.notes.partials ∨
        name ∈ c.notes.helpers ∧ name ∉ c.prepared.helpers.map Helper.name := by
  obtain ⟨root, -, hprogram⟩ := c.exists_root
  have hconstant : Jsx.Statement.siblingImport name ∉ c.prepared.helpers.map
      fun helper => .constant helper.name helper.toTerm := by
    intro hm
    obtain ⟨helper, -, heq⟩ := List.mem_map.1 hm
    cases heq
  rw [hprogram, if_pos h, Annotations.toImports, List.mem_append, List.mem_append, List.mem_cons,
    List.mem_singleton, siblingImport_mem_map, List.mem_append, List.mem_filter,
    Bool.not_eq_true', ← Bool.not_eq_true, List.contains_iff_mem]
  constructor
  · rintro (((heq | hm) | hm) | heq)
    · exact absurd heq (siblingImport_ne_framework name)
    · exact hm
    · exact absurd hm hconstant
    · exact absurd heq (siblingImport_ne_toRoot name options root)
  · exact fun hm => .inl (.inl (.inr hm))

end Compilation

/-! ### What is used is bound -/

/-- Whatever name a template mentions, a module that imports binds it. The code of the template
calls nothing by a name that is not bound but `Boolean`, and the elements that it renders are bound,
of the markup or fragments. -/
theorem uses_are_bound {source code : List Char} {options : Options}
    (h : compile source options = .ok code) (himports : options.emitsImports = true) :
    ∃ c : Compilation source options, c.code = code ∧
      ∃ root, c.template.toTerm c.notes = .ok root ∧
        c.program.getLast? = some (options.toRoot root) ∧
        (∀ m ∈ c.template.mentions, m.name ∈ c.program.bindings) ∧
        (∀ function arguments,
          Jsx.Part.In (.term (.call (.name function) arguments)) (.term root) →
            function = "Boolean" ∨ function ∈ c.program.bindings) ∧
        ∀ name attributes children selfClosing,
          Jsx.Part.In (.term (.element (.mk name attributes children selfClosing)))
              (.term root) →
            name = Vocabulary.fragment ∨ name ∈ c.template.tags ∨ name ∈ c.program.bindings := by
  obtain ⟨c, hcode⟩ := Compilation.exists_of_compile h
  obtain ⟨root, hroot, hprogram⟩ := c.exists_root
  have hstocked := Template.toTerm_stocked hroot
  have hbound : ∀ m ∈ c.template.mentions, m.name ∈ c.program.bindings :=
    fun m hm => c.mem_bindings_of_mention himports hm
  refine ⟨c, hcode, root, hroot, ?_, hbound, ?_, ?_⟩
  · rw [hprogram, List.getLast?_append]
    rfl
  · intro function arguments hin
    rcases hstocked _ hin with hown | hhelper | ⟨rfl, hgenerator⟩
    · exact .inl hown
    · exact .inr (hbound _ hhelper)
    · exact .inr (hbound _ hgenerator)
  · intro name attributes children selfClosing hin
    rcases hstocked _ hin with hown | htag | hcomponent
    · exact .inl hown
    · exact .inr (.inl htag)
    · exact .inr (.inr (hbound _ hcomponent))

/-- A template with a call in a call, a component, a link, and a function that generates
attributes. -/
def allUses : List Char :=
  ("<b hbs-attribute-generator=\x7b\x7battrs (nested a)\x7d\x7d></b>\x7b\x7b> Card\x7d\x7d" ++
    "\x7b\x7b#linkTo \"/x\"\x7d\x7dy\x7b\x7b/linkTo\x7d\x7d").toList

/-- The template mentions names of every kind, and all of them are bound. -/
theorem allUses_are_bound :
    ∃ code, compile allUses importing = .ok code ∧
      ∃ c : Compilation allUses importing, c.code = code ∧
        c.template.mentions = [.generator, .helper "attrs", .helper "nested", .component "Card",
          .component "Link"] ∧
        ∀ m ∈ c.template.mentions, m.name ∈ c.program.bindings := by
  obtain ⟨c, hmentions⟩ := Compilation.exists_of_check allUses importing
    (fun _ template _ => decide (template.mentions = [.generator, .helper "attrs",
      .helper "nested", .component "Card", .component "Link"])) (by decide +kernel)
  obtain ⟨c', hcode, _, -, -, hbound, -, -⟩ := uses_are_bound (c.compile_eq rfl) rfl
  cases Subsingleton.elim c c'
  exact ⟨c.code, c.compile_eq rfl, c, rfl, of_decide_eq_true hmentions, hbound⟩

/-! ### Names that extraction takes -/

/-- The names of the helpers that extraction makes depend on nothing but the attributes and blocks
that they stand for: a base that `n` of them are called after gives its first `n` candidates. If
the template mentions such a name itself, then the name is that of the helper that was made:
nothing else is imported for it, unless a component has the name, too. -/
theorem extracted_names_capture {source : List Char} {prepared : Prepared}
    (h : prepare source = .ok prepared) :
    ∃ bases : List String, (∀ base ∈ bases, HelperNames.IsBase base) ∧
      prepared.helpers.map Helper.name = HelperNames.numbered [] bases ∧
      (∀ name, name ∈ prepared.helpers.map Helper.name ↔
        ∃ base, ∃ k < bases.count base, name = HelperNames.candidate base k) ∧
      ∀ (options : Options) (c : Compilation source options),
        options.includeExperimentalFeatures = true → options.emitsImports = true →
          ∀ m ∈ c.template.mentions, .siblingImport m.name ∈ c.program ↔
            Mention.HasComponent c.template.mentions m.name ∨
              m.name ∉ prepared.helpers.map Helper.name := by
  obtain ⟨names, bases, hsupplied⟩ := HelperInvariant.of_prepare HelperNames.Supplied.invariant h
  refine ⟨bases, hsupplied.isBase, hsupplied.names_eq, fun name => ?_, ?_⟩
  · rw [hsupplied.names_eq, HelperNames.mem_numbered]
  · intro options c hextracts himports m hm
    have hprepared : c.prepared = prepared := by
      have hprepares := c.prepares
      rw [Options.prepare, if_pos hextracts, h] at hprepares
      exact (Except.ok.inj hprepares).symm
    have hlists := Template.called_of_resolve c.resolves
    have hnoted := Mention.mentioned_iff.2 ⟨m, hm, rfl⟩
    rw [← Mention.mem_components, ← hlists, c.siblingImport_mem himports, hprepared]
    rw [← hlists] at hnoted
    tauto

/-- The options for a module that imports and takes blocks out of tags. -/
def extracting : Options :=
  { isModule := true, includeImport := true, includeExperimentalFeatures := true }

def calledLikeBlock : List Char :=
  ("\x7b\x7bclassIfHelper x\x7d\x7d" ++
    "<a class=\"\x7b\x7b#if a\x7d\x7db\x7b\x7b/if\x7d\x7d\"></a>").toList

/-- One helper is made, both calls are calls of it, and the one that the template calls is not
imported. -/
theorem calledLikeBlock_captured :
    ∃ prepared, prepare calledLikeBlock = .ok prepared ∧
      prepared.helpers.map Helper.name = ["classIfHelper"] ∧
      ∃ c : Compilation calledLikeBlock extracting,
        c.template.mentions = [.helper "classIfHelper", .helper "classIfHelper"] ∧
        .siblingImport "classIfHelper" ∉ c.program := by
  obtain ⟨c, hcheck⟩ := Compilation.exists_of_check calledLikeBlock extracting
    (fun prepared template _ =>
      decide (prepared.helpers.map Helper.name = ["classIfHelper"] ∧
        template.mentions = [.helper "classIfHelper", .helper "classIfHelper"]))
    (by decide +kernel)
  obtain ⟨hhelpers, hmentions⟩ := of_decide_eq_true hcheck
  have hprepare : prepare calledLikeBlock = .ok c.prepared := c.prepares
  obtain ⟨_, -, -, -, himports⟩ := extracted_names_capture hprepare
  refine ⟨c.prepared, hprepare, hhelpers, c, hmentions, fun himport => ?_⟩
  have hcall : Mention.helper "classIfHelper" ∈ c.template.mentions := by
    rw [hmentions]
    exact List.mem_cons_self
  rcases (himports extracting c rfl rfl _ hcall).1 himport with hcomponent | hother
  · rw [Mention.HasComponent, hmentions] at hcomponent
    exact absurd hcomponent (by decide)
  · rw [hhelpers] at hother
    exact hother List.mem_cons_self

end MustacheJsx
