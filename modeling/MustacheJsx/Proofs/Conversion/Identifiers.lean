import MustacheJsx.Proofs.Conversion.Bindings
import MustacheJsx.Proofs.Conversion.Words
import MustacheJsx.Proofs.Scope.Closure

/-!
# Which names are written raw

Without extraction, the identifiers and the names of attributes in the output of a compilation have
the shape that code needs, unless they came by a route on which nobody looks: the name of a helper
that is called, the name of a component that is imported, the first segment of a value outside of a
component, an attribute whose name begins with a digit or a hyphen, and a named argument of a
partial.
-/

namespace MustacheJsx

theorem Vocabulary.isModuleName_of_mem :
    ∀ name ∈ rootParam :: framework :: loopItem :: ownNames, Jsx.isModuleName name = true := by
  decide

theorem Enclosure.Binds.isModuleName {enclosing : List Enclosure} {segments : List String}
    {name : String} (h : Binds enclosing segments) (hname : segments.head? = some name) :
    Jsx.isModuleName name = true := by
  obtain ⟨first, rest, rfl, hfirst⟩ := h
  cases hname
  apply Vocabulary.isModuleName_of_mem
  rcases hfirst with rfl | ⟨rfl | rfl, -⟩ <;> decide

theorem Annotations.exists_of_mem_toImports {notes : Annotations} {helpers : List Helper}
    {statement : Jsx.Statement} (h : statement ∈ notes.toImports helpers) :
    ∃ name file, statement = .defaultImport name file := by
  rw [Annotations.toImports] at h
  rcases List.mem_cons.1 h with rfl | h
  · exact ⟨_, _, rfl⟩
  · obtain ⟨name, -, rfl⟩ := List.mem_map.1 h
    exact ⟨_, _, rfl⟩

theorem Options.of_mem_words_toRoot {options : Options} {root : Jsx.Term} {word : Jsx.Word}
    (h : word ∈ (options.toRoot root).words) :
    word = .identifier Vocabulary.rootParam ∨ word ∈ root.words := by
  have hterm : word ∈ (if options.isComponent then Jsx.Term.arrow [Vocabulary.rootParam] root
      else root).words := by
    rw [Options.toRoot] at h
    cases hm : options.isModule <;> rw [hm] at h <;> exact h
  cases hc : options.isComponent with
  | false =>
    rw [hc] at hterm
    exact .inr hterm
  | true =>
    rw [hc] at hterm
    exact List.mem_cons.1 hterm

namespace Compilation

variable {source : List Char} {options : Options}

/-- The words in the output are names that are imported, the parameter of a component, and words of
the template. -/
theorem mem_words (c : Compilation source options)
    (h : options.includeExperimentalFeatures = false) {word : Jsx.Word}
    (hword : word ∈ c.program.words) :
    (options.emitsImports = true ∧ ∃ name ∈ c.program.bindings, word = .identifier name) ∨
      word = .identifier Vocabulary.rootParam ∨ word.Comes (c.template.sources c.notes) := by
  obtain ⟨root, hroot, hprogram⟩ := c.exists_root
  have hhelpers : c.prepared.helpers = [] := by rw [c.prepared_eq h]
  obtain ⟨statement, hstatement, hword⟩ := List.mem_flatMap.1 hword
  have hm := hstatement
  rw [hprogram, hhelpers, List.map_nil, List.append_nil] at hm
  rcases List.mem_append.1 hm with hm | hm
  · split at hm
    · next hemits =>
      obtain ⟨name, file, rfl⟩ := Annotations.exists_of_mem_toImports hm
      refine .inl ⟨hemits, name, ?_, List.mem_singleton.1 hword⟩
      exact List.mem_filterMap.2 ⟨.defaultImport name file, hstatement, rfl⟩
    · cases hm
  · rw [List.mem_singleton.1 hm] at hword
    exact .inr ((Options.of_mem_words_toRoot hword).imp_right (Template.toTerm_traced hroot word))

/-- Without extraction, exactly the framework and the names that the template mentions are
imported. -/
theorem mem_bindings_iff (c : Compilation source options)
    (h : options.includeExperimentalFeatures = false) (himports : options.emitsImports = true)
    {name : String} :
    name ∈ c.program.bindings ↔
      name = Vocabulary.framework ∨ ∃ m ∈ c.template.mentions, m.name = name := by
  have hlists := Template.called_of_resolve c.resolves
  rw [← Mention.mentioned_iff, ← hlists, c.bindings_eq himports, c.prepared_eq h]
  simp

end Compilation

/-- Every identifier in the output is one for a module, or the name of a helper that is called, or
that of a component that is imported, or begins a value outside of a component. Every name of an
attribute has the shape of one, or is written as an element has it, in letters, digits, underscores
and hyphens, or names an argument of a partial. Keys without quotes are plain identifiers. All names
that the template mentions are imported, whatever their shape. -/
theorem words_of_compile {source code : List Char} {options : Options}
    (h : compile source options = .ok code)
    (hplain : options.includeExperimentalFeatures = false) :
    ∃ c : Compilation source options, c.code = code ∧
      (∀ name, .identifier name ∈ c.program.words →
        Jsx.isModuleName name = true ∨ Mention.helper name ∈ c.template.mentions ∨
        options.emitsImports = true ∧ Mention.component name ∈ c.template.mentions ∨
        options.isComponent = false ∧
          ∃ path ∈ c.template.values, (c.notes.segments path).head? = some name) ∧
      (∀ name, .attributeName name ∈ c.program.words →
        Jsx.isAttributeName name = true ∨
        .attributeName name ∈ c.template.labels ∧ AttributeName.isWritable name = true ∨
        .argument name ∈ c.template.labels) ∧
      (∀ name, .key name ∈ c.program.words → Text.isIdentifier name.toList = true) ∧
      (options.emitsImports = true → ∀ name, name ∈ c.program.bindings ↔
        name = Vocabulary.framework ∨ ∃ m ∈ c.template.mentions, m.name = name) := by
  obtain ⟨c, hcode⟩ := Compilation.exists_of_compile h
  refine ⟨c, hcode, ?_, ?_, ?_, fun himports name => c.mem_bindings_iff hplain himports⟩
  · intro name hword
    rcases c.mem_words hplain hword with ⟨himports, other, hm, heq⟩ | heq | hcomes
    · cases heq
      rcases (c.mem_bindings_iff hplain himports).1 hm with rfl | ⟨m, hmention, rfl⟩
      · exact .inl (by decide)
      · cases m with
        | helper name => exact .inr (.inl hmention)
        | component name => exact .inr (.inr (.inl ⟨himports, hmention⟩))
        | generator => exact .inl (by decide)
    · cases heq
      exact .inl (by decide)
    · cases hcomes with
      | own hm =>
        exact .inl (Vocabulary.isModuleName_of_mem name
          (List.mem_cons_of_mem _ (List.mem_cons_of_mem _ hm)))
      | helper hm => exact .inr (.inl hm)
      | @value path _ hpath hname =>
        cases hc : options.isComponent with
        | false => exact .inr (.inr (.inr ⟨rfl, path, hpath, hname⟩))
        | true =>
          obtain ⟨⟨path, enclosing⟩, hplace, rfl⟩ := List.mem_map.1 hpath
          exact .inl ((Template.binds_of_place hc c.reads c.resolves hplace).isModuleName hname)
  · intro name hword
    rcases c.mem_words hplain hword with ⟨-, other, -, heq⟩ | heq | hcomes
    · cases heq
    · cases heq
    · cases hcomes with
      | attributeName hshape => exact .inl hshape
      | kept hm hwritable => exact .inr (.inl ⟨hm, hwritable⟩)
      | argument hm => exact .inr (.inr hm)
  · intro name hword
    rcases c.mem_words hplain hword with ⟨-, other, -, heq⟩ | heq | hcomes
    · cases heq
    · cases heq
    · cases hcomes with
      | key hshape => exact hshape

def plainComponent : Options := {}

/-- A helper is called whose name has a hyphen. -/
def hyphenated : List Char := "\x7b\x7bformat-date created\x7d\x7d".toList

/-- Every identifier in the output for the helper has the shape of one, or is the helper. -/
theorem hyphenated_words :
    ∃ code, compile hyphenated plainComponent = .ok code ∧
      ∃ c : Compilation hyphenated plainComponent, c.code = code ∧
        ∀ name, .identifier name ∈ c.program.words →
          Jsx.isModuleName name = true ∨ name = "format-date" := by
  have hcompile : (compile hyphenated plainComponent).toOption.any (fun _ => true) = true := by
    decide +kernel
  obtain ⟨code, hcompile, -⟩ := exists_ok_of_check hcompile
  obtain ⟨c, hcode, hidentifiers, -⟩ := words_of_compile hcompile rfl
  have hmentions : c.template.mentions = [.helper "format-date"] :=
    of_decide_eq_true (c.of_check rfl
      (fun template _ => decide (template.mentions = [.helper "format-date"]))
      (by decide +kernel))
  refine ⟨code, hcompile, c, hcode, fun name hword => ?_⟩
  rcases hidentifiers name hword with hshape | hhelper | ⟨himports, -⟩ | ⟨hnone, -⟩
  · exact .inl hshape
  · rw [hmentions] at hhelper
    cases List.mem_singleton.1 hhelper
    exact .inr rfl
  · cases himports
  · cases hnone

/-- The name of the helper is written raw, where it reads as a subtraction. -/
theorem hyphenated_callee :
    ∃ code, compile hyphenated plainComponent = .ok code ∧
      ∃ c : Compilation hyphenated plainComponent, c.code = code ∧
        .identifier "format-date" ∈ c.program.words ∧
        Jsx.isModuleName "format-date" = false := by
  have hcompile : (compile hyphenated plainComponent).toOption.any (fun _ => true) = true := by
    decide +kernel
  obtain ⟨code, hcompile, -⟩ := exists_ok_of_check hcompile
  obtain ⟨c, hcode⟩ := Compilation.exists_of_compile hcompile
  refine ⟨code, hcompile, c, hcode, of_decide_eq_true (c.of_check rfl
    (fun _ program => decide (.identifier "format-date" ∈ program.words)) (by decide +kernel)), ?_⟩
  decide

end MustacheJsx
