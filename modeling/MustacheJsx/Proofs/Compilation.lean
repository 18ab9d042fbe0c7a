import MustacheJsx.Compile
import MustacheJsx.Proofs.Outcome

/-!
# The stages of a compilation

A compilation that succeeds went through stages that all succeeded. `Compilation` keeps what each of
them made, with the proof that it did.
-/

namespace MustacheJsx

/-- What the stages of compiling a template make, one from the other. -/
structure Compilation (source : List Char) (options : Options) where
  prepared : Prepared
  template : Template
  notes : Annotations
  program : Jsx.Program
  prepares : options.prepare source = .ok prepared
  reads : Template.read prepared.template = .ok template
  resolves : template.resolve options = .ok notes
  converts : template.toProgram options notes prepared.helpers = .ok program

namespace Compilation

variable {source : List Char} {options : Options}

def code (c : Compilation source options) : List Char := Layout.arrange c.program.print

/-- Each stage makes one thing. -/
instance : Subsingleton (Compilation source options) where
  allEq c c' := by
    obtain ⟨prepared, template, notes, program, hprepare, hread, hresolve, hprogram⟩ := c
    obtain ⟨prepared', template', notes', program', hprepare', hread', hresolve', hprogram'⟩ := c'
    cases hprepare.symm.trans hprepare'
    cases hread.symm.trans hread'
    cases hresolve.symm.trans hresolve'
    cases hprogram.symm.trans hprogram'
    rfl

theorem exists_of_compile {code : List Char} (h : compile source options = .ok code) :
    ∃ c : Compilation source options, c.code = code := by
  obtain ⟨prepared, hprepare, h⟩ := bind_eq_ok h
  obtain ⟨written, hcode, h⟩ := bind_eq_ok h
  obtain ⟨template, hread, hcode⟩ := bind_eq_ok hcode
  obtain ⟨notes, hresolve, hcode⟩ := bind_eq_ok hcode
  obtain ⟨program, hprogram, hcode⟩ := bind_eq_ok hcode
  cases hcode
  split at h
  · cases h
  · cases h
    exact ⟨⟨prepared, template, notes, program, hprepare, hread, hresolve, hprogram⟩, rfl⟩

theorem prepared_eq (c : Compilation source options)
    (h : options.includeExperimentalFeatures = false) :
    c.prepared = { template := source, helpers := [] } := by
  have hprepares := c.prepares
  rw [Options.prepare, h] at hprepares
  exact (Except.ok.inj hprepares).symm

/-- The root of the template is the last statement of the program. -/
theorem exists_root (c : Compilation source options) :
    ∃ root, c.template.toTerm c.notes = .ok root ∧
      c.program = (if options.emitsImports then c.notes.toImports c.prepared.helpers else []) ++
        c.prepared.helpers.map (fun helper => .constant helper.name helper.toTerm) ++
        [options.toRoot root] := by
  obtain ⟨root, hroot, h⟩ := bind_eq_ok c.converts
  exact ⟨root, hroot, (Except.ok.inj h).symm⟩

theorem compile_eq (c : Compilation source options) (h : options.verifyOutput = false) :
    compile source options = .ok c.code := by
  have hcode : c.prepared.code options = .ok c.code := by
    rw [Prepared.code, c.reads, ok_bind, c.resolves, ok_bind, c.converts, ok_bind]
    rfl
  rw [compile, c.prepares, ok_bind, hcode, ok_bind, h]
  rfl

/-- Stages that pass a check together make a compilation. -/
theorem exists_of_check (source : List Char) (options : Options)
    (check : Prepared → Template → Jsx.Program → Bool)
    (hcheck : ((options.prepare source).toOption.any fun prepared =>
      (Template.read prepared.template).toOption.any fun template =>
        (template.resolve options).toOption.any fun notes =>
          (template.toProgram options notes prepared.helpers).toOption.any
            (check prepared template)) = true) :
    ∃ c : Compilation source options, check c.prepared c.template c.program = true := by
  obtain ⟨prepared, hprepare, hcheck⟩ := exists_ok_of_check hcheck
  obtain ⟨template, hread, hcheck⟩ := exists_ok_of_check hcheck
  obtain ⟨notes, hresolve, hcheck⟩ := exists_ok_of_check hcheck
  obtain ⟨program, hprogram, hcheck⟩ := exists_ok_of_check hcheck
  exact ⟨⟨prepared, template, notes, program, hprepare, hread, hresolve, hprogram⟩, hcheck⟩

/-- What a check finds in the stages holds of the compilation. -/
theorem of_check (c : Compilation source options)
    (h : options.includeExperimentalFeatures = false) (check : Template → Jsx.Program → Bool)
    (hcheck : ((Template.read source).toOption.any fun template =>
      (template.resolve options).toOption.any fun notes =>
        (template.toProgram options notes []).toOption.any (check template)) = true) :
    check c.template c.program = true := by
  have hprepared := c.prepared_eq h
  have hread := c.reads
  have hconverts := c.converts
  rw [hprepared] at hread hconverts
  rw [hread] at hcheck
  change ((c.template.resolve options).toOption.any fun notes =>
    (c.template.toProgram options notes []).toOption.any (check c.template)) = true at hcheck
  rw [c.resolves] at hcheck
  change (c.template.toProgram options c.notes []).toOption.any (check c.template) = true at hcheck
  rw [hconverts] at hcheck
  exact hcheck

end Compilation

end MustacheJsx
