import MustacheJsx.Proofs.Compilation
import MustacheJsx.Proofs.Extraction.Naming
import MustacheJsx.Proofs.Scope.Mentions

/-!
# Bindings of a module

A module binds the names that it imports and those of the helpers that it defines. They differ
unless a component of the template has a name that something else takes: the framework, a helper of
a block in a tag, or a helper that is called before the component is met.
-/

namespace MustacheJsx

def Jsx.Statement.binding? : Jsx.Statement → Option String
  | .defaultImport identifier _ => some identifier
  | .constant identifier _ => some identifier
  | .expression _ => none
  | .defaultExport _ => none

/-- The names that a module binds, in order. -/
def Jsx.Program.bindings (program : Jsx.Program) : List String :=
  program.filterMap Jsx.Statement.binding?

namespace Compilation

variable {source code : List Char} {options : Options}

theorem bindings_eq (c : Compilation source options) (h : options.emitsImports = true) :
    let defined := c.prepared.helpers.map Helper.name
    c.program.bindings = Vocabulary.framework ::
      (c.notes.partials ++ c.notes.helpers.filter (fun name => !defined.contains name)) ++
      defined := by
  have himports : ∀ names : List String,
      (names.map Jsx.Statement.siblingImport).filterMap Jsx.Statement.binding? = names := by
    intro names
    rw [List.filterMap_map]
    exact List.filterMap_some
  have hdefined : ∀ helpers : List Helper,
      (helpers.map fun helper => Jsx.Statement.constant helper.name helper.toTerm).filterMap
        Jsx.Statement.binding? = helpers.map Helper.name := by
    intro helpers
    rw [List.filterMap_map, ← List.filterMap_eq_map]
    rfl
  have hroot : ∀ root : Jsx.Term, (options.toRoot root).binding? = none := by
    intro root
    rw [Options.toRoot]
    split <;> rfl
  obtain ⟨root, -, hprogram⟩ := c.exists_root
  rw [hprogram, if_pos h, Jsx.Program.bindings, List.filterMap_append, List.filterMap_append,
    hdefined, Annotations.toImports, List.filterMap_cons, List.filterMap_cons, himports, hroot]
  exact List.append_nil _

/-- The names in the lists of a compilation differ exactly if none is in two of them. -/
theorem nodup_bindings_iff (c : Compilation source options) (h : options.emitsImports = true) :
    c.program.bindings.Nodup ↔
      Vocabulary.framework ∉ c.notes.partials ∧ Vocabulary.framework ∉ c.notes.helpers ∧
      (∀ name ∈ c.notes.partials, name ∉ c.prepared.helpers.map Helper.name) ∧
      ∀ name ∈ c.notes.partials, name ∉ c.notes.helpers := by
  obtain ⟨names, hreserve⟩ := Options.exists_reserve_of_prepare c.prepares
  have hlists := Template.called_of_resolve c.resolves
  obtain ⟨hpartials, hhelpers⟩ := Mention.nodup_noteAll c.template.mentions
  rw [← hlists] at hpartials hhelpers
  rw [c.bindings_eq h]
  have hframework := hreserve.not_framework
  have hdefined := hreserve.nodup
  generalize c.prepared.helpers.map Helper.name = defined at *
  simp only [List.nodup_append, List.nodup_cons, hpartials, hdefined,
    hhelpers.filter, true_and, List.mem_append, List.mem_cons, List.mem_filter,
    List.contains_eq_mem, Bool.not_eq_eq_eq_not, Bool.not_true, decide_eq_false_iff_not]
  constructor
  · rintro ⟨⟨hfree, hapart⟩, hrest⟩
    refine ⟨fun hm => hfree (.inl hm), fun hm => hfree (.inr ⟨hm, hframework⟩), ?_, ?_⟩
    · intro name hname hd
      exact hrest name (.inr (.inl hname)) name hd rfl
    · intro name hname hh
      by_cases hd : name ∈ defined
      · exact hrest name (.inr (.inl hname)) name hd rfl
      · exact hapart name hname name ⟨hh, hd⟩ rfl
  · rintro ⟨hcomponent, hhelper, hinline, hapart⟩
    refine ⟨⟨?_, ?_⟩, ?_⟩
    · rintro (hm | ⟨hm, -⟩)
      · exact hcomponent hm
      · exact hhelper hm
    · rintro name hname _ ⟨hh, -⟩ rfl
      exact hapart name hname hh
    · rintro name (rfl | hname | ⟨-, hnew⟩) _ hd rfl
      · exact hframework hd
      · exact hinline name hname hd
      · exact hnew hd

end Compilation

/-- A module binds every name once exactly if no name in the template is that of the framework, no
component has the name of a helper that the module defines, and a name of a component is used as a
component first and for no function that generates attributes. -/
theorem bindings_nodup_iff {source code : List Char} {options : Options}
    (h : compile source options = .ok code) (himports : options.emitsImports = true) :
    ∃ c : Compilation source options, c.code = code ∧
      (c.program.bindings.Nodup ↔
        (∀ m ∈ c.template.mentions, m.name ≠ Vocabulary.framework) ∧
        (∀ helper ∈ c.prepared.helpers, ¬ Mention.HasComponent c.template.mentions helper.name) ∧
        Mention.ComponentsFirst c.template.mentions) := by
  obtain ⟨c, hcode⟩ := Compilation.exists_of_compile h
  refine ⟨c, hcode, ?_⟩
  have hlists := Template.called_of_resolve c.resolves
  have hpartials : c.notes.partials = (Mention.noteAll ([], []) c.template.mentions).1 := by
    rw [← hlists]
  have hhelpers : c.notes.helpers = (Mention.noteAll ([], []) c.template.mentions).2 := by
    rw [← hlists]
  rw [c.nodup_bindings_iff himports, hpartials, hhelpers, Mention.disjoint_iff, ← and_assoc]
  refine and_congr ?_ (and_congr ?_ Iff.rfl)
  · rw [← not_or, Mention.mentioned_iff]
    constructor
    · intro hnone m hm hname
      exact hnone ⟨m, hm, hname⟩
    · rintro hnone ⟨m, hm, hname⟩
      exact hnone m hm hname
  · constructor
    · intro hapart helper hm hcomponent
      exact hapart _ (Mention.mem_components.2 hcomponent) (List.mem_map_of_mem hm)
    · intro hapart name hname hm
      obtain ⟨helper, hhelper, rfl⟩ := List.mem_map.1 hm
      exact hapart helper hhelper (Mention.mem_components.1 hname)

def importing : Options := { isModule := true, includeImport := true }

def helperFirst : List Char := "\x7b\x7bformat a\x7d\x7d\x7b\x7b> format\x7d\x7d".toList

/-- The call is noted as that of a helper, so its name is imported twice. -/
theorem helperFirst_bindings :
    ∃ code, compile helperFirst importing = .ok code ∧
      ∃ c : Compilation helperFirst importing, c.code = code ∧ ¬ c.program.bindings.Nodup := by
  have hcompile : (compile helperFirst importing).toOption.any (fun _ => true) = true := by
    decide +kernel
  obtain ⟨code, hcompile, -⟩ := exists_ok_of_check hcompile
  obtain ⟨c, hcode, hnodup⟩ := bindings_nodup_iff hcompile rfl
  refine ⟨code, hcompile, c, hcode, fun hdistinct => ?_⟩
  obtain ⟨-, -, hfirst⟩ := hnodup.1 hdistinct
  have hmentions : c.template.mentions = [.helper "format", .component "format"] :=
    of_decide_eq_true (c.of_check rfl
      (fun template _ => decide (template.mentions = [.helper "format", .component "format"]))
      (by decide +kernel))
  rw [hmentions] at hfirst
  have hcomponent : Mention.HasComponent [.helper "format", .component "format"] "format" :=
    List.mem_cons_of_mem _ List.mem_cons_self
  rcases hfirst [] (.helper "format") _ rfl hcomponent with hr | ⟨-, hb⟩
  · cases hr
  · cases hb

end MustacheJsx
