import MustacheJsx.Compile
import MustacheJsx.Proofs.Conversion.Lookups
import MustacheJsx.Proofs.Extraction.Preparation
import MustacheJsx.Proofs.Reading.Nesting
import MustacheJsx.Proofs.Scope.Hygiene

/-!
# Components are closed

In a component every value begins at the data of the component, or at the item or the index of a
loop around it. `Scope.Grounded` is the invariant of the environments that shows this. So the first
segment of a value stands under a function that binds it, and there is always a first segment.
-/

namespace MustacheJsx

/-! ### Names under functions -/

theorem Jsx.isSome_denotes {name : String} {arrows : List (List String)}
    (h : ∃ params ∈ arrows, name ∈ params) : (Jsx.denotes name arrows).isSome := by
  induction arrows with
  | nil =>
    obtain ⟨params, hm, -⟩ := h
    cases hm
  | cons first arrows ih =>
    rw [Jsx.denotes]
    cases hi : first.idxOf? name with
    | some position => rfl
    | none =>
      obtain ⟨params, hm, hn⟩ := h
      rcases List.mem_cons.1 hm with rfl | hm
      · exact absurd hn (List.idxOf?_eq_none_iff.1 hi)
      · exact ih ⟨params, hm, hn⟩

namespace Enclosure

theorem base_subset_arrows (base : List (List String)) (enclosing : List Enclosure) :
    base ⊆ arrows base enclosing := by
  induction enclosing with
  | nil => exact List.Subset.refl _
  | cons block enclosing ih =>
    cases block with
    | loop => exact List.subset_cons_of_subset _ ih
    | narrowing subject => exact ih

theorem loop_mem_arrows {base : List (List String)} {enclosing : List Enclosure}
    (h : .loop ∈ enclosing) :
    [Vocabulary.loopItem, Vocabulary.loopIndex] ∈ arrows base enclosing := by
  induction enclosing with
  | nil => cases h
  | cons block enclosing ih =>
    cases block with
    | loop => exact List.mem_cons_self
    | narrowing subject =>
      rcases List.mem_cons.1 h with h | h
      · cases h
      · exact ih h

/-- Segments that begin at the data of a component, or at the item or the index of a loop among the
blocks `enclosing`. -/
def Binds (enclosing : List Enclosure) (segments : List String) : Prop :=
  ∃ first rest, segments = first :: rest ∧
    (first = Vocabulary.rootParam ∨
      (first = Vocabulary.loopItem ∨ first = Vocabulary.loopIndex) ∧ .loop ∈ enclosing)

namespace Binds

variable {options : Options} {enclosing : List Enclosure} {segments : List String}

theorem append (h : Binds enclosing segments) (parts : List String) :
    Binds enclosing (segments ++ parts) := by
  obtain ⟨first, rest, rfl, hfirst⟩ := h
  exact ⟨first, rest ++ parts, rfl, hfirst⟩

theorem cons (h : Binds enclosing segments) (block : Enclosure) :
    Binds (block :: enclosing) segments := by
  obtain ⟨first, rest, rfl, hfirst⟩ := h
  exact ⟨first, rest, rfl, hfirst.imp_right fun h => ⟨h.1, List.mem_cons_of_mem _ h.2⟩⟩

theorem ne_nil (h : Binds enclosing segments) : segments ≠ [] := by
  obtain ⟨first, rest, rfl, -⟩ := h
  exact List.cons_ne_nil _ _

theorem rootScope (hc : options.isComponent = true) (enclosing : List Enclosure) :
    Binds enclosing options.rootScope := by
  have hroot : ∃ rest, options.rootScope = Vocabulary.rootParam :: rest := by
    rw [Options.rootScope, hc]
    cases options.alwaysIncludeContext
    · exact ⟨[], rfl⟩
    · exact ⟨[Vocabulary.context], rfl⟩
  obtain ⟨rest, hroot⟩ := hroot
  exact ⟨_, rest, hroot, .inl rfl⟩

theorem isSome_denotes (hc : options.isComponent = true) (h : Binds enclosing segments) :
    ∃ first rest, segments = first :: rest ∧
      (Jsx.denotes first (arrows options.arrows enclosing)).isSome := by
  obtain ⟨first, rest, rfl, hfirst⟩ := h
  refine ⟨first, rest, rfl, Jsx.isSome_denotes ?_⟩
  rcases hfirst with rfl | ⟨hfirst, hloop⟩
  · have hbase : [Vocabulary.rootParam] ∈ options.arrows := by
      rw [Options.arrows, if_pos hc]
      exact List.mem_cons_self
    exact ⟨_, base_subset_arrows _ _ hbase, List.mem_cons_self⟩
  · refine ⟨_, loop_mem_arrows hloop, ?_⟩
    rcases hfirst with rfl | rfl
    · exact List.mem_cons_self
    · exact List.mem_cons_of_mem _ List.mem_cons_self

end Binds

end Enclosure

/-! ### Environments -/

namespace Scope

variable {options : Options} {enclosing : List Enclosure} {env : List Scope} {path : Path}
  {segments : List String}

/-- What the environment inside the blocks `enclosing` of a component is like: every scope of it
begins where something is bound, there is one around every scope but that of the data, and a scope
of a loop is there for a loop. -/
structure Grounded (options : Options) (enclosing : List Enclosure) (env : List Scope) :
    Prop where
  binds : ∀ scope ∈ env, Enclosure.Binds enclosing scope.segments
  nonempty : env ≠ []
  inner : (∃ scope ∈ env, scope.kind ≠ .root) → env.tail ≠ []
  loop : ∀ scope ∈ env, scope.kind = .loop → .loop ∈ enclosing
  root : Scope.root env = options.rootScope

namespace Grounded

theorem binds_innermost {scopes : List Scope} (hne : scopes ≠ [])
    (h : ∀ scope ∈ scopes, Enclosure.Binds enclosing scope.segments) :
    Enclosure.Binds enclosing (innermost scopes) := by
  cases scopes with
  | nil => exact absurd rfl hne
  | cons scope scopes => exact h scope List.mem_cons_self

theorem binds_resolveData (hc : options.isComponent = true) (h : Grounded options enclosing env)
    (hr : resolveData env path = .ok segments) : Enclosure.Binds enclosing segments := by
  rw [resolveData] at hr
  split at hr
  · cases hr
    rw [h.root]
    exact (Enclosure.Binds.rootScope hc enclosing).append _
  · split at hr
    · split at hr
      · next hany =>
        cases hr
        obtain ⟨scope, hm, hk⟩ := List.any_eq_true.1 hany
        exact ⟨_, [], rfl, .inr ⟨.inr rfl, h.loop scope hm (of_decide_eq_true hk)⟩⟩
      · cases hr
    · cases hr
  · cases hr

theorem binds_resolve (hc : options.isComponent = true) (h : Grounded options enclosing env)
    (hr : resolve env path = .ok segments) : Enclosure.Binds enclosing segments := by
  rw [resolve] at hr
  split at hr
  · exact h.binds_resolveData hc hr
  · split at hr
    · cases hr
      exact (binds_innermost h.nonempty h.binds).append _
    · split at hr
      · next hany =>
        cases hr
        obtain ⟨scope, hm, hk⟩ := List.any_eq_true.1 hany
        have htail := h.inner ⟨scope, hm, of_decide_eq_true hk⟩
        exact (binds_innermost htail fun scope hm => h.binds scope (List.mem_of_mem_tail hm)).append
          _
      · cases hr
    · cases hr

theorem cons {block : Enclosure} {scope : Scope} (h : Grounded options enclosing env)
    (hbinds : Enclosure.Binds (block :: enclosing) scope.segments) (hroot : scope.kind ≠ .root)
    (hloop : scope.kind = .loop → block = .loop) :
    Grounded options (block :: enclosing) (scope :: env) where
  binds := List.forall_mem_cons.2 ⟨hbinds, fun inner hm => (h.binds inner hm).cons block⟩
  nonempty := List.cons_ne_nil _ _
  inner := fun _ => h.nonempty
  loop := List.forall_mem_cons.2 ⟨fun hk => hloop hk ▸ List.mem_cons_self,
    fun inner hm hk => List.mem_cons_of_mem _ (h.loop inner hm hk)⟩
  root := by rw [root_cons hroot, h.root]

theorem initial (hc : options.isComponent = true) :
    Grounded options [] (Scope.initial options) := by
  have hne : options.rootScope ≠ [] := (Enclosure.Binds.rootScope hc []).ne_nil
  have hinitial : Scope.initial options =
      [{ bound := none, kind := .root, segments := options.rootScope }] := by
    rw [Scope.initial, if_neg]
    simpa using hne
  rw [hinitial]
  refine ⟨?_, List.cons_ne_nil _ _, ?_, ?_, rfl⟩
  · intro scope hm
    cases List.mem_singleton.1 hm
    exact Enclosure.Binds.rootScope hc []
  · rintro ⟨scope, hm, hk⟩
    cases List.mem_singleton.1 hm
    exact absurd rfl hk
  · intro scope hm hk
    cases List.mem_singleton.1 hm
    cases hk

end Grounded

theorem grounded_around (hc : options.isComponent = true) {enclosing : List Enclosure}
    {env : List Scope} (h : around options enclosing = .ok env) :
    Grounded options enclosing env := by
  induction enclosing generalizing env with
  | nil =>
    cases h
    exact .initial hc
  | cons block enclosing ih =>
    cases block with
    | loop =>
      obtain ⟨outer, ho, h⟩ := bind_eq_ok h
      cases h
      exact (ih ho).cons ⟨_, [], rfl, .inr ⟨.inl rfl, List.mem_cons_self⟩⟩ nofun fun _ => rfl
    | narrowing subject =>
      obtain ⟨outer, ho, h⟩ := bind_eq_ok h
      obtain ⟨segments, hs, h⟩ := bind_eq_ok h
      cases h
      exact (ih ho).cons (((ih ho).binds_resolve hc hs).cons _) nofun nofun

end Scope

/-! ### Templates -/

namespace Template

/-- The values of a component are recorded with segments that begin where something is bound, and
each is emitted under a function that binds its first segment. -/
structure IsClosed (template : Template) (options : Options) (notes : Annotations) : Prop where
  recorded : ∀ entry ∈ notes.paths, ∃ path enclosing,
    (path, enclosing) ∈ template.places ∧ entry = (path.id, notes.segments path)
  binds : ∀ path enclosing, (path, enclosing) ∈ template.places →
    Enclosure.Binds enclosing (notes.segments path)
  emitted : ∀ path enclosing mark root arrows, (path, enclosing) ∈ template.places →
    template.Fresh notes mark → template.toTerm (notes.record path [mark]) = .ok root →
    (mark, arrows) ∈ (options.toRoot root).names →
    ∃ first rest, notes.segments path = first :: rest ∧ (Jsx.denotes first arrows).isSome

variable {template : Template} {options : Options} {notes : Annotations} {source : List Char}

theorem binds_of_place (hc : options.isComponent = true)
    (hread : Template.read source = .ok template) (hresolve : template.resolve options = .ok notes)
    {path : Path} {enclosing : List Enclosure} (hplace : (path, enclosing) ∈ template.places) :
    Enclosure.Binds enclosing (notes.segments path) := by
  obtain ⟨hpaths, hbodies⟩ := nodup_of_nodup_numbers (nodup_numbers_of_read hread)
  obtain ⟨env, he, hs⟩ := exists_resolve_of_place hbodies hpaths hresolve hplace
  exact (Scope.grounded_around hc he).binds_resolve hc hs

theorem isClosed_of_read (hc : options.isComponent = true)
    (hread : Template.read source = .ok template)
    (hresolve : template.resolve options = .ok notes) : template.IsClosed options notes where
  recorded := by
    intro entry hentry
    obtain ⟨hpaths, hbodies⟩ := nodup_of_nodup_numbers (nodup_numbers_of_read hread)
    obtain ⟨rs, hr, hentries⟩ := exists_readings_of_resolve hbodies hresolve
    rw [hentries, Walk.entries, List.mem_reverse] at hentry
    obtain ⟨reading, hm, rfl⟩ := List.mem_map.1 hentry
    have hvalue : reading.1 ∈ template.values := by
      rw [values, ← (readings_aligned hr).map_fst]
      exact List.mem_map_of_mem hm
    obtain ⟨⟨path, enclosing⟩, hplace, hpath⟩ := List.mem_map.1 hvalue
    have hsegments := Annotations.segments_of_entries hentries (nodup_readings hpaths hr) hm
    refine ⟨path, enclosing, hplace, ?_⟩
    rw [← hsegments, ← hpath]
  binds := fun _ _ hplace => binds_of_place hc hread hresolve hplace
  emitted := by
    intro path enclosing mark root arrows hplace hfresh hroot hmark
    obtain ⟨hpaths, -⟩ := nodup_of_nodup_numbers (nodup_numbers_of_read hread)
    rw [arrows_of_mark hpaths hplace hfresh hroot hmark]
    exact (binds_of_place hc hread hresolve hplace).isSome_denotes hc

theorem toProgram_ne_emptyPath (hc : options.isComponent = true)
    (hread : Template.read source = .ok template) (hresolve : template.resolve options = .ok notes)
    (helpers : List Helper) : template.toProgram options notes helpers ≠ .error .emptyPath := by
  intro he
  obtain ⟨log, hlog, hvalues⟩ := toProgram_looksIn template options notes helpers
  obtain ⟨path, hm, hempty⟩ := hlog.exists_of_emptyPath he
  obtain ⟨⟨path, enclosing⟩, hplace, rfl⟩ := List.mem_map.1 (hvalues hm)
  exact (binds_of_place hc hread hresolve hplace).ne_nil hempty

end Template

theorem compile_ne_emptyPath {options : Options} (hc : options.isComponent = true)
    (source : List Char) : compile source options ≠ .error .emptyPath := by
  intro h
  obtain hprepare | ⟨prepared, -, h⟩ := bind_eq_error h
  · rw [Options.prepare] at hprepare
    split at hprepare
    · obtain ⟨_, _, he⟩ | ⟨_, he⟩ := isRefusal_of_prepare hprepare
      · cases he
      · cases he
    · cases hprepare
  obtain hcode | ⟨code, -, h⟩ := bind_eq_error h
  · obtain hread | ⟨template, hread, hcode⟩ := bind_eq_error hcode
    · obtain ⟨_, _, he⟩ := Template.isParse_of_read hread
      cases he
    obtain hresolve | ⟨notes, hresolve, hcode⟩ := bind_eq_error hcode
    · exact Template.resolve_ne_emptyPath template options hresolve
    obtain hprogram | ⟨program, -, hcode⟩ := bind_eq_error hcode
    · exact Template.toProgram_ne_emptyPath hc hread hresolve prepared.helpers hprogram
    · cases hcode
  · split at h <;> cases h

/-- The output of a component uses nothing but its data: every value of a template that was read and
resolved begins at the data or at a loop around it, stands under the function that binds it, and
always has something to begin with, so compilation never fails for want of it. -/
theorem Template.component_closed {options : Options} (hc : options.isComponent = true) :
    (∀ source template notes, Template.read source = .ok template →
      template.resolve options = .ok notes → template.IsClosed options notes) ∧
    ∀ source, compile source options ≠ .error .emptyPath :=
  ⟨fun _ _ _ hread hresolve => isClosed_of_read hc hread hresolve, compile_ne_emptyPath hc⟩

/-- A list of rows in a table of the root, with its index, a path out of the loop, and an inverse
that is read outside of it. -/
def Template.rowsSource : List Char :=
  ("\x7b\x7b#each this.rows\x7d\x7d\x7b\x7b#with @root.names\x7d\x7d\x7b\x7b@index\x7d\x7d" ++
    "\x7b\x7bthis\x7d\x7d\x7b\x7b../title\x7d\x7d\x7b\x7belse\x7d\x7d\x7b\x7b../this\x7d\x7d" ++
    "\x7b\x7b/with\x7d\x7d\x7b\x7belse\x7d\x7d\x7b\x7bthis\x7d\x7d\x7b\x7b/each\x7d\x7d").toList

theorem Template.rowsSource_closed :
    (∃ template notes, Template.read rowsSource = .ok template ∧
      template.resolve {} = .ok notes ∧ template.IsClosed {} notes) ∧
    compile rowsSource {} ≠ .error .emptyPath := by
  obtain ⟨hclosed, hcompile⟩ := component_closed (rfl : ({} : Options).isComponent = true)
  have hresolves : (Template.read rowsSource).toOption.any (fun template =>
      (template.resolve {}).toOption.any fun _ => true) = true := by
    decide +kernel
  obtain ⟨template, hread, hresolves⟩ := exists_ok_of_check hresolves
  obtain ⟨notes, hresolve, -⟩ := exists_ok_of_check hresolves
  exact ⟨⟨template, notes, hread, hresolve, hclosed _ _ _ hread hresolve⟩, hcompile _⟩

end MustacheJsx
