import MustacheJsx.Proofs.Conversion.Names
import MustacheJsx.Proofs.Scope.Coverage

/-!
# Which segments conversion looks up

Conversion is given the table of segments and looks up those of the paths that it writes.
`LooksUp` traces a run of it: which paths it looks up, in which order. Every path of such a trace is
a value of the template, so conversion never meets a path that the walk has not recorded, and what a
table says of other paths does not matter.
-/

namespace MustacheJsx

/-- A part of conversion: its outcome for every table of segments. -/
abbrev Converter (α : Type) := Annotations → Except CompileError α

/-- Run on the table `notes`, a part of conversion looks up the segments of the paths in the list,
in this order. A part that looks up none may use the names that are called, and has no reason to
complain about segments. -/
inductive LooksUp (notes : Annotations) : {α : Type} → Converter α → List Path → Prop where
  | plain {α : Type} (outcome : List String → List String → Except CompileError α)
      (h : outcome notes.partials notes.helpers ≠ .error .emptyPath) :
    LooksUp notes (fun table => outcome table.partials table.helpers) []
  | path (path : Path) : LooksUp notes (fun table => path.toTerm table) [path]
  | stopped {α β : Type} {first : Converter α} {next : α → Converter β} {e : CompileError}
      {log : List Path} (hfirst : LooksUp notes first log) (he : first notes = .error e) :
    LooksUp notes (fun table => first table >>= fun a => next a table) log
  | continued {α β : Type} {first : Converter α} {next : α → Converter β} {a : α}
      {log later : List Path} (hfirst : LooksUp notes first log) (ha : first notes = .ok a)
      (hnext : LooksUp notes (next a) later) :
    LooksUp notes (fun table => first table >>= fun a => next a table) (log ++ later)

namespace LooksUp

variable {notes : Annotations} {α : Type} {part : Converter α} {log : List Path}

/-- A part has the same outcome on every table that agrees on what it looks up. -/
theorem congr {other : Annotations} (h : LooksUp notes part log)
    (hpartials : other.partials = notes.partials) (hhelpers : other.helpers = notes.helpers)
    (hsegments : ∀ path ∈ log, other.segments path = notes.segments path) :
    part other = part notes := by
  induction h with
  | plain outcome _ =>
    dsimp only
    rw [hpartials, hhelpers]
  | path path =>
    dsimp only [Path.toTerm]
    rw [hsegments path (List.mem_singleton.2 rfl)]
  | stopped _ he ih =>
    dsimp only
    rw [ih hsegments, he]
    rfl
  | continued _ ha _ ihf ihn =>
    dsimp only
    rw [ihf fun path hm => hsegments path (List.mem_append_left _ hm), ha]
    exact ihn fun path hm => hsegments path (List.mem_append_right _ hm)

theorem exists_of_emptyPath (h : LooksUp notes part log) (he : part notes = .error .emptyPath) :
    ∃ path ∈ log, notes.segments path = [] := by
  induction h with
  | plain outcome hne => exact absurd he hne
  | path path =>
    refine ⟨path, List.mem_singleton.2 rfl, ?_⟩
    dsimp only [Path.toTerm] at he
    cases hs : notes.segments path with
    | nil => rfl
    | cons first rest =>
      rw [hs] at he
      cases he
  | stopped _ hfirst ih =>
    dsimp only at he
    rw [hfirst] at he
    cases he
    exact ih hfirst
  | continued _ ha _ ihf ihn =>
    dsimp only at he
    rw [ha] at he
    obtain ⟨path, hm, hs⟩ := ihn he
    exact ⟨path, List.mem_append_right _ hm, hs⟩

end LooksUp

/-- A part of conversion looks up paths among `values` alone. -/
def Converter.LooksIn {α : Type} (notes : Annotations) (values : List Path)
    (part : Converter α) : Prop :=
  ∃ log, LooksUp notes part log ∧ log ⊆ values

section

variable {notes : Annotations} {values : List Path} {enclosing : List Enclosure}

namespace Converter.LooksIn

theorem plain {α : Type} (outcome : Except CompileError α) (h : outcome ≠ .error .emptyPath) :
    LooksIn notes values fun _ => outcome :=
  ⟨[], .plain (fun _ _ => outcome) h, List.nil_subset _⟩

theorem ok {α : Type} (a : α) : LooksIn notes values fun _ => .ok a := plain _ (by simp)

theorem bind {α β : Type} {first : Converter α} {next : α → Converter β}
    (h : LooksIn notes values first)
    (hnext : ∀ a, first notes = .ok a → LooksIn notes values (next a)) :
    LooksIn notes values fun table => first table >>= fun a => next a table := by
  obtain ⟨log, hlog, hsub⟩ := h
  cases hf : first notes with
  | error e => exact ⟨log, .stopped hlog hf, hsub⟩
  | ok a =>
    obtain ⟨later, hlater, hsub'⟩ := hnext a hf
    exact ⟨log ++ later, .continued hlog hf hlater, List.append_subset.2 ⟨hsub, hsub'⟩⟩

theorem map {α β : Type} {first : Converter α} (h : LooksIn notes values first) (f : α → β) :
    LooksIn notes values fun table => first table >>= fun a => .ok (f a) :=
  h.bind fun a _ => ok (f a)

theorem mapM {α β : Type} {xs : List α} {f : α → Converter β}
    (h : ∀ x ∈ xs, LooksIn notes values (f x)) :
    LooksIn notes values fun table => xs.mapM fun x => f x table := by
  induction xs with
  | nil => exact ok []
  | cons x xs ih =>
    simp only [List.mapM_cons]
    refine (h x List.mem_cons_self).bind fun y _ => ?_
    exact (ih fun x hm => h x (List.mem_cons_of_mem _ hm)).map (y :: ·)

end Converter.LooksIn

/-! ### Expressions -/

theorem Path.toTerm_looksIn {path : Path} (h : path ∈ values) :
    Converter.LooksIn notes values fun table => path.toTerm table :=
  ⟨[path], .path path, List.cons_subset.2 ⟨h, List.nil_subset _⟩⟩

mutual

theorem Expression.toTerm_looksIn (e : Expression) (h : e.values ⊆ values) :
    Converter.LooksIn notes values fun table => e.toTerm table := by
  match e with
  | .path p => exact p.toTerm_looksIn (h (List.mem_singleton.2 rfl))
  | .literal l => exact .ok _
  | .call callee params hash =>
    rw [Expression.values, List.append_subset] at h
    simp only [toTerm]
    split
    · exact .plain _ (by simp)
    · refine (toTerms_looksIn params h.1).bind fun arguments _ => ?_
      exact (toProperties_looksIn hash h.2).map _

theorem Expression.toTerms_looksIn (params : List Expression)
    (h : valuesOfParams params ⊆ values) :
    Converter.LooksIn notes values fun table => toTerms table params := by
  match params with
  | [] => exact .ok _
  | param :: params =>
    rw [valuesOfParams, List.append_subset] at h
    simp only [toTerms]
    refine (toTerm_looksIn param h.1).bind fun term _ => ?_
    exact (toTerms_looksIn params h.2).map _

theorem Expression.toProperties_looksIn (hash : List (String × Expression))
    (h : valuesOfHash hash ⊆ values) :
    Converter.LooksIn notes values fun table => toProperties table hash := by
  match hash with
  | [] => exact .ok _
  | (key, value) :: pairs =>
    rw [valuesOfHash, List.append_subset] at h
    simp only [toProperties]
    refine (toTerm_looksIn value h.1).bind fun term _ => ?_
    exact (toProperties_looksIn pairs h.2).map _

end

theorem Mustache.toTerm_looksIn (m : Mustache) (h : m.values ⊆ values) :
    Converter.LooksIn notes values fun table => m.toTerm table := by
  rw [Mustache.values] at h
  simp only [Mustache.toTerm]
  split at h
  · next hcall =>
    simp only [if_pos hcall]
    exact Expression.toTerm_looksIn (.call m.callee m.params m.hash) h
  · next hcall =>
    simp only [if_neg hcall]
    exact m.callee.toTerm_looksIn h

theorem Expression.values_subset_arguments {param : Expression} {params : List Expression}
    (hm : param ∈ params) (hash : Hash) : param.values ⊆ valuesOfArguments params hash := by
  have hparams : param.values ⊆ valuesOfParams params := by
    induction params with
    | nil => cases hm
    | cons first params ih =>
      rw [valuesOfParams]
      rcases List.mem_cons.1 hm with rfl | hm
      · exact List.subset_append_left _ _
      · exact List.subset_append_of_subset_right _ (ih hm)
  exact List.subset_append_of_subset_left _ hparams

/-! ### Parts of values -/

/-- The values at places are among `values`. -/
def Place.AllIn (values : List Path) (places : List Place) : Prop :=
  ∀ place ∈ places, place.1 ∈ values

theorem Place.allIn_append {places others : List Place} :
    AllIn values (places ++ others) ↔ AllIn values places ∧ AllIn values others :=
  List.forall_mem_append

theorem Place.allIn_placed {paths : List Path} :
    AllIn values (placed enclosing paths) ↔ paths ⊆ values := by
  constructor
  · intro h p hp
    exact h (p, enclosing) (mem_placed.2 ⟨hp, rfl⟩)
  · intro h place hm
    exact h (mem_placed.1 hm).1

theorem Place.AllIn.of_mem {statement : Statement} {statements : List Statement}
    (h : AllIn values (Statement.placesOfAll enclosing statements))
    (hm : statement ∈ statements) : AllIn values (statement.places enclosing) :=
  fun place hp => h place (Statement.places_subset_all hm hp)

theorem Statement.toSummand_looksIn (part : Statement)
    (h : Place.AllIn values (part.places enclosing)) :
    Converter.LooksIn notes values fun table => part.toSummand table := by
  cases part with
  | text chars => exact .ok _
  | mustache m => exact m.toTerm_looksIn (Place.allIn_placed.1 h)
  | element | block | partialCall | mustacheComment | markupComment => exact .plain _ (by simp)

theorem Statement.sum_looksIn (parts : List Statement)
    (h : Place.AllIn values (placesOfAll enclosing parts)) :
    Converter.LooksIn notes values fun table => Statement.sum table parts :=
  (Converter.LooksIn.mapM fun part hm => part.toSummand_looksIn (h.of_mem hm)).map _

/-! ### Styles -/

namespace Style

theorem pieces_ne_emptyPath (part : Statement) : pieces part ≠ .error .emptyPath := by
  cases part with
  | text chars =>
    rw [pieces]
    split <;> simp
  | mustache | element | block | partialCall | mustacheComment | markupComment => simp [pieces]

theorem sum_looksIn {pieces : List Piece}
    (h : ∀ m, Piece.mustache m ∈ pieces → m.values ⊆ values) :
    Converter.LooksIn notes values fun table => sum table pieces := by
  refine (Converter.LooksIn.mapM fun piece hm => ?_).map _
  cases piece with
  | text cs => exact .ok _
  | mustache m => exact m.toTerm_looksIn (h m hm)

theorem toKey_looksIn {pieces : List Piece}
    (h : ∀ m, Piece.mustache m ∈ pieces → m.values ⊆ values) :
    Converter.LooksIn notes values fun table => toKey table pieces := by
  simp only [toKey.eq_def]
  split
  · exact .ok _
  · exact (sum_looksIn h).map _

theorem toProperty_looksIn {key value : List Piece}
    (hkey : ∀ m, Piece.mustache m ∈ key → m.values ⊆ values)
    (hvalue : ∀ m, Piece.mustache m ∈ value → m.values ⊆ values) :
    Converter.LooksIn notes values fun table => toProperty table key value :=
  (toKey_looksIn hkey).bind fun _ _ => (sum_looksIn hvalue).map _

theorem ofParts_looksIn (parts : List Statement)
    (h : Place.AllIn values (Statement.placesOfAll enclosing parts)) :
    Converter.LooksIn notes values fun table => ofParts table parts := by
  have hpieces : Converter.LooksIn notes values fun _ => parts.mapM pieces :=
    Converter.LooksIn.mapM fun part _ => .plain _ (pieces_ne_emptyPath part)
  refine hpieces.bind fun marks hmarks => ?_
  have hmustaches : ∀ m, Statement.mustache m ∈ parts → m.values ⊆ values :=
    fun m hpart => Place.allIn_placed.1 (h.of_mem hpart)
  refine (Converter.LooksIn.mapM fun pair hpair => ?_).map _
  exact toProperty_looksIn (fun m hm => hmustaches m (mem_parts hmarks hpair (.inl hm)))
    (fun m hm => hmustaches m (mem_parts hmarks hpair (.inr hm)))

theorem ofValue_looksIn {value : AttributeValue}
    (h : Place.AllIn values (Statement.placesOfValue enclosing value)) :
    Converter.LooksIn notes values fun table => ofValue table value := by
  cases value with
  | text chars =>
    have hnone : Place.AllIn values (Statement.placesOfAll enclosing [.text chars]) := by
      simp [Place.AllIn, Statement.placesOfAll, Statement.places]
    exact ofParts_looksIn [.text chars] hnone
  | concat parts => exact ofParts_looksIn parts h
  | mustache m => exact .plain _ (by simp)

end Style

/-! ### Attributes -/

theorem Attribute.toSpread_looksIn {name : String} {value : AttributeValue}
    (h : Place.AllIn values (Statement.placesOfValue enclosing value)) :
    Converter.LooksIn notes values fun table => Attribute.toSpread table name value := by
  cases value with
  | text chars => exact .plain _ (by simp)
  | mustache m => exact (m.toTerm_looksIn (Place.allIn_placed.1 h)).map _
  | concat parts => exact (Statement.sum_looksIn parts h).map _

theorem Attribute.toNamed_looksIn {name : String} {value : AttributeValue}
    (h : Place.AllIn values (Statement.placesOfValue enclosing value)) :
    Converter.LooksIn notes values fun table => Attribute.toNamed table name value := by
  cases value with
  | mustache m => exact (m.toTerm_looksIn (Place.allIn_placed.1 h)).map _
  | text chars =>
    simp only [Attribute.toNamed]
    split
    · exact (Style.ofValue_looksIn h).map _
    · exact .ok _
  | concat parts =>
    simp only [Attribute.toNamed]
    split
    · exact (Style.ofValue_looksIn h).map _
    · split
      · exact .plain _ (by simp)
      · exact (Statement.sum_looksIn parts h).map _

theorem Attribute.toJsx_looksIn {name : String} {value : AttributeValue}
    (h : Place.AllIn values (Statement.placesOfValue enclosing value)) :
    Converter.LooksIn notes values fun table => Attribute.toJsx table (.mk name value) := by
  simp only [Attribute.toJsx]
  split
  · exact (Attribute.toSpread_looksIn h).map _
  · split
    · exact (Attribute.toNamed_looksIn h).map _
    · exact .ok _

theorem Attribute.toJsxAll_looksIn {attributes : List Attribute}
    (h : Place.AllIn values (Statement.placesOfAttributes enclosing attributes)) :
    Converter.LooksIn notes values fun table => Attribute.toJsxAll table attributes := by
  refine Converter.LooksIn.map ?_ _
  induction attributes with
  | nil => exact .ok []
  | cons first attributes ih =>
    obtain ⟨name, value⟩ := first
    rw [Statement.placesOfAttributes, Place.allIn_append] at h
    simp only [List.mapM_cons]
    exact (Attribute.toJsx_looksIn h.1).bind fun first _ => (ih h.2).map _

/-! ### Partials and heads of blocks -/

theorem Jsx.Attribute.ofHash_looksIn {hash : Hash}
    (h : Expression.valuesOfHash hash ⊆ values) :
    Converter.LooksIn notes values fun table => Jsx.Attribute.ofHash table hash := by
  induction hash with
  | nil => exact .ok _
  | cons pair pairs ih =>
    obtain ⟨key, value⟩ := pair
    rw [Expression.valuesOfHash, List.append_subset] at h
    simp only [Jsx.Attribute.ofHash.eq_def _ (_ :: _)]
    split
    · next heq => cases heq
    · next heq =>
      cases heq
      exact (ih h.2).map _
    · next heq =>
      cases heq
      exact (value.toTerm_looksIn h.1).bind fun term _ => (ih h.2).map _

theorem PartialCall.toElement_looksIn {call : PartialCall}
    (h : valuesOfArguments call.params call.hash ⊆ values) :
    Converter.LooksIn notes values fun table => call.toElement table := by
  simp only [PartialCall.toElement]
  split
  · exact .plain _ (by simp)
  · split
    · exact .plain _ (by simp)
    · refine Converter.LooksIn.bind ?_ fun context _ => ?_
      · cases hp : call.params with
        | nil => exact .ok _
        | cons param params =>
          have hm : param ∈ call.params := hp ▸ List.mem_cons_self
          have hparam := Expression.values_subset_arguments hm call.hash
          exact (param.toTerm_looksIn (List.Subset.trans hparam h)).map _
      · exact (Jsx.Attribute.ofHash_looksIn
          (List.Subset.trans (List.subset_append_right _ _) h)).map _

namespace BlockHead

variable {head : BlockHead}

theorem subject_ne_emptyPath (head : BlockHead) (expected : Expected) :
    head.subject expected ≠ .error .emptyPath := by
  rw [subject]
  split <;> simp

theorem bind_subject_looksIn {α : Type} {expected : Expected} {next : Expression → Converter α}
    (hnext : ∀ param ∈ head.params, Converter.LooksIn notes values (next param)) :
    Converter.LooksIn notes values fun table =>
      head.subject expected >>= fun param => next param table :=
  (Converter.LooksIn.plain _ (head.subject_ne_emptyPath expected)).bind
    fun param hs => hnext param (mem_of_subject hs)

variable (h : valuesOfArguments head.params head.hash ⊆ values)
include h

theorem param_looksIn {param : Expression} (hm : param ∈ head.params) :
    Converter.LooksIn notes values fun table => param.toTerm table :=
  param.toTerm_looksIn (List.Subset.trans (Expression.values_subset_arguments hm head.hash) h)

theorem toTest_looksIn (negated : Bool) :
    Converter.LooksIn notes values fun table => head.toTest table negated :=
  bind_subject_looksIn fun _ hm => (param_looksIn h hm).map _

theorem toCollection_looksIn :
    Converter.LooksIn notes values fun table => head.toCollection table := by
  refine bind_subject_looksIn fun param hm => ?_
  cases param with
  | literal l => exact .plain _ (by simp)
  | path | call => exact param_looksIn h hm

theorem toLinkAttributes_looksIn :
    Converter.LooksIn notes values fun table => head.toLinkAttributes table := by
  refine bind_subject_looksIn fun param hm => (param_looksIn h hm).bind fun target _ => ?_
  split
  · exact .ok _
  · next second others hd =>
    exact (param_looksIn h (List.mem_of_mem_drop (hd ▸ List.mem_cons_self))).map _

theorem toLabel_looksIn : Converter.LooksIn notes values fun table => head.toLabel table := by
  simp only [toLabel]
  split
  · exact .ok _
  · exact .ok _
  · next second others _ hd =>
    exact (param_looksIn h (List.mem_of_mem_drop (hd ▸ List.mem_cons_self))).map _

end BlockHead

/-! ### Statements -/

theorem Converted.alone_looksIn (converted : Converted) :
    Converter.LooksIn notes values fun _ => converted.alone := by
  cases converted with
  | comment value => exact .plain _ (by simp [alone])
  | text | term | element => exact .ok _

/-- A block looks up what its head, its program and its inverse look up. -/
theorem Statement.convert_block_looksIn {head : BlockHead} {program : Body}
    {inverse : Option Body} (hhead : valuesOfArguments head.params head.hash ⊆ values)
    (hprogram : Converter.LooksIn notes values fun table => program.toTerm table)
    (hchildren : Converter.LooksIn notes values fun table => program.toChildren table)
    (hinverse : ∀ other, inverse = some other →
      Converter.LooksIn notes values fun table => other.toTerm table) :
    Converter.LooksIn notes values fun table => (block head program inverse).convert table := by
  rw [funext fun table => convert.eq_def table (block head program inverse)]
  dsimp only
  split
  · exact .plain _ (by simp)
  · refine (head.toTest_looksIn hhead _).bind fun test _ => ?_
    refine hprogram.bind fun consequent _ => ?_
    cases inverse with
    | none => exact .ok _
    | some other => exact (hinverse other rfl).map _
  · refine (head.toCollection_looksIn hhead).bind fun collection _ => ?_
    refine hprogram.bind fun body _ => ?_
    cases inverse with
    | none => exact .ok _
    | some other => exact (hinverse other rfl).map _
  · refine (head.toLinkAttributes_looksIn hhead).bind fun attributes _ => ?_
    split
    · exact (head.toLabel_looksIn hhead).map _
    · exact hchildren.map _

mutual

theorem Statement.convert_looksIn (statement : Statement) {enclosing : List Enclosure}
    (h : Place.AllIn values (statement.places enclosing)) :
    Converter.LooksIn notes values fun table => statement.convert table := by
  match statement with
  | .text chars | .mustacheComment value | .markupComment value => exact .ok _
  | .mustache m => exact (m.toTerm_looksIn (Place.allIn_placed.1 h)).map _
  | .partialCall call => exact (call.toElement_looksIn (Place.allIn_placed.1 h)).map _
  | .element tag attributes children selfClosing =>
    rw [places, Place.allIn_append] at h
    simp only [convert]
    refine (Attribute.toJsxAll_looksIn h.1).bind fun kept _ => ?_
    split
    · exact .ok _
    · exact (toChildren_looksIn children h.2).map _
  | .block head program inverse =>
    rw [places_block, Place.allIn_append, Place.allIn_append] at h
    refine convert_block_looksIn (Place.allIn_placed.1 h.1) (body_looksIn program h.2.1) ?_ ?_
    · obtain ⟨id, statements⟩ := program
      exact toChildren_looksIn statements h.2.1
    · cases inverse with
      | none => nofun
      | some body =>
        rintro other ⟨⟩
        exact body_looksIn body h.2.2

theorem Statement.toChildren_looksIn (statements : List Statement) {enclosing : List Enclosure}
    (h : Place.AllIn values (placesOfAll enclosing statements)) :
    Converter.LooksIn notes values fun table => toChildren table statements := by
  match statements with
  | [] => exact .ok _
  | statement :: statements =>
    rw [placesOfAll, Place.allIn_append] at h
    simp only [toChildren]
    exact (convert_looksIn statement h.1).bind fun first _ =>
      (toChildren_looksIn statements h.2).map _

theorem Statement.body_looksIn (body : Body) {enclosing : List Enclosure}
    (h : Place.AllIn values (placesOfBody enclosing body)) :
    Converter.LooksIn notes values fun table => body.toTerm table := by
  match body with
  | .mk id [] => exact .ok _
  | .mk id [statement] =>
    rw [placesOfBody, placesOfAll, placesOfAll, List.append_nil] at h
    simp only [Body.toTerm]
    exact (convert_looksIn statement h).bind fun single _ => single.alone_looksIn
  | .mk id (first :: second :: rest) =>
    simp only [Body.toTerm]
    exact (toChildren_looksIn (first :: second :: rest) h).map _

end

end

namespace Template

variable {template : Template} {options : Options} {notes : Annotations}

theorem toProgram_looksIn (template : Template) (options : Options) (notes : Annotations)
    (helpers : List Helper) :
    Converter.LooksIn notes template.values fun table =>
      template.toProgram options table helpers := by
  have hroot : Converter.LooksIn notes template.values fun table => template.toTerm table :=
    Statement.body_looksIn (.mk 0 template) fun place hm => List.mem_map_of_mem hm
  refine hroot.bind fun root _ => ?_
  -- The imports use the names that are called, which no table of segments changes.
  have hnames : LooksUp notes _ [] := .plain (fun partials called =>
    let table : Annotations := { partials, helpers := called }
    let imports := if options.emitsImports then table.toImports helpers else []
    let definitions := helpers.map fun helper => Jsx.Statement.constant helper.name helper.toTerm
    .ok (imports ++ definitions ++ [options.toRoot root])) (by simp)
  exact ⟨[], hnames, List.nil_subset _⟩

/-- If every path of a template can be resolved, then conversion looks up only paths for which
segments are recorded. No path that it looks up keeps its own segments, so its outcome does not
depend on what would be recorded for the others. -/
theorem lookups_are_recorded (h : template.resolve options = .ok notes) (helpers : List Helper) :
    ∃ log, LooksUp notes (fun table => template.toProgram options table helpers) log ∧
      (∀ path ∈ log, path ∈ template.values ∧ (notes.recorded? path).isSome) ∧
      ∀ more, template.toProgram options { notes with paths := notes.paths ++ more } helpers =
        template.toProgram options notes helpers := by
  obtain ⟨log, hlog, hvalues⟩ := toProgram_looksIn template options notes helpers
  have hrecorded : ∀ path ∈ log, (notes.recorded? path).isSome := fun path hm =>
    isSome_recorded_of_resolve h (hvalues hm)
  refine ⟨log, hlog, fun path hm => ⟨hvalues hm, hrecorded path hm⟩, fun more => ?_⟩
  exact hlog.congr rfl rfl fun path hm => Annotations.segments_append (hrecorded path hm) more

/-- A loop over links in which each kind of place reads a path: a mustache, the argument of a call,
of a call in it, and of a name, a style, a generator, a partial, and a `with` block. -/
def everyPlace : Template :=
  [.block ⟨⟨0, "each", ["each"], false, 0⟩, [.path ⟨1, "rows", ["rows"], false, 0⟩], []⟩
    (.mk 20 [.element "a"
        [.mk "title" (.mustache ⟨.path ⟨2, "title", ["title"], false, 0⟩, [], [], false⟩),
          .mk "style" (.concat [.text "color: ",
            .mustache ⟨.path ⟨3, "color", ["color"], false, 0⟩, [], [], false⟩]),
          .mk "hbs-attribute-generator0" (.mustache ⟨.path ⟨4, "link", ["link"], false, 0⟩,
            [.path ⟨5, "href", ["href"], false, 0⟩], [], false⟩)]
        [.mustache ⟨.path ⟨6, "format", ["format"], false, 0⟩,
          [.call (.path ⟨7, "first", ["first"], false, 0⟩)
            [.path ⟨8, "this", [], false, 0⟩] [("by", .path ⟨9, "@index", ["index"], true, 0⟩)]],
          [("as", .path ⟨10, "../kind", ["kind"], false, 1⟩)], false⟩] false])
    (some (.mk 21 [.block ⟨⟨11, "with", ["with"], false, 0⟩,
        [.path ⟨12, "empty", ["empty"], false, 0⟩], []⟩
      (.mk 22 [.partialCall ⟨"Notice", [.path ⟨13, "this", [], false, 0⟩],
        [("text", .path ⟨14, "text", ["text"], false, 0⟩)]⟩]) none]))]

theorem everyPlace_lookups_are_recorded :
    ∃ notes, everyPlace.resolve {} = .ok notes ∧
      ∃ log, LooksUp notes (fun table => everyPlace.toProgram {} table []) log ∧
        (∀ path ∈ log, path ∈ everyPlace.values ∧ (notes.recorded? path).isSome) ∧
        ∀ more, everyPlace.toProgram {} { notes with paths := notes.paths ++ more } [] =
          everyPlace.toProgram {} notes [] := by
  have hresolve : (everyPlace.resolve {}).toOption.any (fun _ => true) = true := by decide
  obtain ⟨notes, hnotes, -⟩ := exists_ok_of_check hresolve
  exact ⟨notes, hnotes, lookups_are_recorded hnotes []⟩

end Template

end MustacheJsx
