import MustacheJsx.Conversion.Program
import MustacheJsx.Proofs.Jsx.Denotation
import MustacheJsx.Proofs.Rendering.Agreement
import MustacheJsx.Proofs.Scope.Refinement
import MustacheJsx.Proofs.Template.Numbers

/-!
# A component renders what its template renders

Conversion keeps what is rendered, wherever the scopes, the bindings and the context agree: of a
statement, inside an element, and of a body. The main statement is `Template.component_renders`.
-/

namespace MustacheJsx

open Jsx (Bindings)

section

variable {read : String → String} {bindings : Bindings} {notes : Annotations} {options : Options}

/-! ### Statements -/

/-- A text reads as it is written: each of its runs between tags does. Where references are decoded,
this leaves out the texts that hold one in such a run, and no others
(`readsLiterally_decoded_iff`). -/
def ReadsLiterally (read : String → String) (chars : String) : Prop :=
  ∀ cs, TextRun.plain cs ∈ TextRun.ofText chars.toList → read (String.ofList cs) = String.ofList cs

/-- Text with its references decoded; a number without a character leaves no text. -/
def decoded (named : List Char → Option Char) (chars : String) : String :=
  ((Jsx.decode named 0 chars.toList).map String.ofList).getD ""

theorem decoded_eq_self_iff {named : List Char → Option Char} {cs : List Char} :
    decoded named (String.ofList cs) = String.ofList cs ↔ Jsx.holdsReference named cs = false := by
  rw [← Jsx.decode_eq_some_self_iff, decoded, String.toList_ofList]
  cases hdecode : Jsx.decode named 0 cs with
  | none =>
    refine ⟨fun hempty => ?_, fun h => by cases h⟩
    obtain rfl : cs = [] := by simpa using (congrArg String.toList hempty).symm
    cases hdecode
  | some ds => simp [String.ofList_inj]

theorem readsLiterally_decoded_iff {named : List Char → Option Char} {chars : String} :
    ReadsLiterally (decoded named) chars ↔
      ∀ cs, TextRun.plain cs ∈ TextRun.ofText chars.toList → Jsx.holdsReference named cs = false :=
  forall₂_congr fun _ _ => decoded_eq_self_iff

theorem Jsx.Child.Render.ofText {chars : String} (h : ReadsLiterally read chars) :
    Jsx.Child.Render read bindings (Jsx.Child.ofText chars) (Mark.ofText chars) := by
  have hruns : ∀ runs : List TextRun,
      (∀ cs, TextRun.plain cs ∈ runs → read (String.ofList cs) = String.ofList cs) →
      Jsx.Child.Render read bindings (runs.map TextRun.toChild)
        ((runs.flatMap TextRun.chars).map Mark.char) := by
    intro runs hread
    induction runs with
    | nil => exact .nil
    | cons run runs ih =>
      have hrest := ih fun cs hm => hread cs (List.mem_cons_of_mem _ hm)
      rw [List.flatMap_cons, List.map_append, List.map_cons]
      cases run with
      | plain cs =>
        obtain ⟨values, hv, hr⟩ := hrest
        refine ⟨.string (String.ofList cs) :: values, ?_, ?_⟩
        · rw [TextRun.toChild, Jsx.Term.evalChildren, hv, hread cs List.mem_cons_self]
          rfl
        · rw [Value.renderAll, Value.render, hr, Mark.ofText, String.toList_ofList]
          rfl
      | marked c =>
        refine .cons ⟨.string (String.singleton c), ?_, ?_⟩ hrest
        · rw [Jsx.Term.eval]
        · rw [Value.render, Mark.ofText, String.toList_singleton]
          rfl
  have hall := hruns (TextRun.ofText chars.toList) h
  rwa [TextRun.flatMap_chars_ofText] at hall

/-- What a statement becomes renders marks, alone and inside an element. -/
def Converted.Renders (read : String → String) (bindings : Bindings) (marks : List Mark) :
    Converted → Prop
  | .text chars => ReadsLiterally read chars ∧ marks = Mark.ofText chars
  | .comment _ => marks = []
  | .term value => value.Renders read bindings marks
  | .element e => (Jsx.Term.element e).Renders read bindings marks

theorem Converted.Renders.alone {converted : Converted} {marks : List Mark} {term : Jsx.Term}
    (h : converted.Renders read bindings marks) (ht : converted.alone = .ok term) :
    term.Renders read bindings marks := by
  cases converted with
  | text chars =>
    cases ht
    refine ⟨.string chars, ?_, ?_⟩
    · rw [Jsx.Term.eval]
    · rw [h.2, Value.render]
  | comment value => cases ht
  | term term =>
    cases ht
    exact h
  | element element =>
    cases ht
    exact h

theorem Converted.Renders.children {converted : Converted} {marks : List Mark}
    (h : converted.Renders read bindings marks) :
    Jsx.Child.Render read bindings converted.children marks := by
  have hone : ∀ {term : Jsx.Term}, term.Renders read bindings marks →
      Jsx.Child.Render read bindings [.term term] marks := by
    intro term ht
    have hcons := Jsx.Child.Render.cons ht .nil
    rwa [List.append_nil] at hcons
  cases converted with
  | text chars =>
    rw [h.2]
    exact .ofText h.1
  | comment value =>
    obtain rfl : marks = [] := h
    exact ⟨[], rfl, rfl⟩
  | term term => exact hone h
  | element element =>
    obtain ⟨values, hv, hr⟩ := hone h
    refine ⟨values, ?_, hr⟩
    rw [Converted.children, Jsx.Term.eval_element]
    exact hv

theorem BlockHead.around_eq {head : BlockHead} (enclosing : List Enclosure)
    (heach : head.name ≠ "each") (hwith : head.name ≠ "with") :
    head.around enclosing = enclosing := by
  rw [BlockHead.around, if_neg heach, if_neg hwith]

/-- The inverse of a block renders marks; without an inverse there are none. -/
def InverseRenders (read : String → String) (bindings : Bindings) (notes : Annotations)
    (marks : List Mark) : Option Body → Prop
  | some body => ∀ term, body.toTerm notes = .ok term → term.Renders read bindings marks
  | none => marks = []

theorem Statement.condition_renders {head : BlockHead} {program : Body} {inverse : Option Body}
    {negated holds : Bool} {converted : Converted} {marks : List Mark}
    (hk : BlockKind.ofName? head.name = some (.condition negated))
    (htest : ∀ test, head.toTest notes negated = .ok test →
      test.eval read bindings = some (.boolean holds))
    (hyes : holds = true → ∀ term, program.toTerm notes = .ok term →
      term.Renders read bindings marks)
    (hno : holds = false → InverseRenders read bindings notes marks inverse)
    (hc : (Statement.block head program inverse).convert notes = .ok converted) :
    converted.Renders read bindings marks := by
  rw [convert.eq_def] at hc
  dsimp only at hc
  rw [hk] at hc
  obtain ⟨test, ht, hc⟩ := bind_eq_ok hc
  obtain ⟨consequent, hp, hc⟩ := bind_eq_ok hc
  cases inverse with
  | none =>
    cases hc
    exact Jsx.Term.Renders.and (htest test ht) (fun h => hyes h consequent hp) hno
  | some other =>
    obtain ⟨alternate, ho, hc⟩ := bind_eq_ok hc
    cases hc
    exact Jsx.Term.Renders.conditional (htest test ht) (fun h => hyes h consequent hp)
      (fun h => hno h alternate ho)

/-- A loop renders its turns, or its inverse if it has no items. -/
theorem Statement.loop_renders {head : BlockHead} {program : Body} {inverse : Option Body}
    {items : List Value} {converted : Converted} {marks : List Mark}
    (hname : head.name = "each") (hfree : bindings.lookup "Boolean" = none)
    (hcollection : ∀ collection, head.toCollection notes = .ok collection →
      collection.eval read bindings = some (.list items))
    (hturns : (items = [] → inverse = none) → ∀ collection body,
      collection.eval read bindings = some (.list items) → program.toTerm notes = .ok body →
      (Jsx.Term.loop collection body).Renders read bindings marks)
    (hempty : items = [] → InverseRenders read bindings notes marks inverse)
    (hc : (Statement.block head program inverse).convert notes = .ok converted) :
    converted.Renders read bindings marks := by
  have hk : BlockKind.ofName? head.name = some .loop := by
    rw [hname]
    rfl
  rw [convert.eq_def] at hc
  dsimp only at hc
  rw [hk] at hc
  obtain ⟨collection, hl, hc⟩ := bind_eq_ok hc
  obtain ⟨body, hp, hc⟩ := bind_eq_ok hc
  have hlist := hcollection collection hl
  cases inverse with
  | none =>
    cases hc
    exact hturns (fun _ => rfl) collection body hlist hp
  | some other =>
    obtain ⟨alternate, ho, hc⟩ := bind_eq_ok hc
    cases hc
    refine Jsx.Term.Renders.conditional (Jsx.Term.eval_hasItems hfree hlist) ?_ ?_
    · intro h
      refine hturns (fun he => ?_) collection body hlist hp
      rw [he] at h
      cases h
    · intro h
      exact hempty (by simpa using h) alternate ho

/-- A block over a list renders its turns, or its inverse if it has no items. -/
theorem Statement.each_renders {head : BlockHead} {program : Body} {inverse : Option Body}
    {enclosing : List Enclosure} {scopes : List Scope} {context : Context} {converted : Converted}
    {marks : List Mark} {items : List Value} {path : Path} {params : List Expression}
    (hname : head.name = "each") (hp : head.params = .path path :: params)
    (hsegments : SegmentsEval bindings (notes.segments path) (.list items))
    (hs : Scope.around options enclosing = .ok scopes) (ha : Agrees scopes bindings context)
    (hprogram : ∀ {inner : List Scope} {bindings : Bindings} {context : Context} {marks term},
      Scope.around options (head.around enclosing) = .ok inner →
      Agrees inner bindings context → renderedBody context program = some marks →
      program.toTerm notes = .ok term → term.Renders read bindings marks)
    (hotherwise : renderedInverse context inverse = some marks →
      InverseRenders read bindings notes marks inverse)
    (hc : (Statement.block head program inverse).convert notes = .ok converted)
    (hempty : items = [] → renderedInverse context inverse = some marks)
    (hturns : items ≠ [] → (renderedTurns items program).map List.flatten = some marks) :
    converted.Renders read bindings marks := by
  have hinner : Scope.around options (head.around enclosing) =
      .ok ({ bound := none, kind := .loop, segments := [Vocabulary.loopItem] } :: scopes) := by
    rw [BlockHead.around, if_pos hname, Scope.around, hs]
    rfl
  refine loop_renders hname ha.truth
    (fun collection h => BlockHead.eval_toCollection hp hsegments h) ?_ ?_ hc
  · intro hnone collection body hlist hbody
    obtain ⟨all, hall, hmarks⟩ : ∃ all, renderedTurns items program = some all ∧
        all.flatten = marks := by
      cases items with
      | nil =>
        have hm := hempty rfl
        rw [hnone rfl] at hm
        exact ⟨[], rfl, Option.some.inj hm⟩
      | cons item items => exact Option.map_eq_some_iff.1 (hturns (List.cons_ne_nil _ _))
    rw [← hmarks]
    exact Jsx.Term.Renders.loop hlist hall fun item n marks hturn =>
      hprogram hinner (ha.loop none item (.number (.ofNat n)) (.list items)) hturn hbody
  · exact fun hnil => hotherwise (hempty hnil)

/-- What a block becomes renders what the block renders, if its program and its inverse do. -/
theorem Statement.block_renders {head : BlockHead} {program : Body} {inverse : Option Body}
    {enclosing : List Enclosure} {scopes : List Scope} {context : Context} {converted : Converted}
    {marks : List Mark}
    (hnotes : ∀ place ∈ placed enclosing (valuesOfArguments head.params head.hash),
      notes.Resolved options place)
    (hs : Scope.around options enclosing = .ok scopes) (ha : Agrees scopes bindings context)
    (hprogram : ∀ {inner : List Scope} {bindings : Bindings} {context : Context} {marks term},
      Scope.around options (head.around enclosing) = .ok inner →
      Agrees inner bindings context → renderedBody context program = some marks →
      program.toTerm notes = .ok term → term.Renders read bindings marks)
    (hotherwise : renderedInverse context inverse = some marks →
      InverseRenders read bindings notes marks inverse)
    (hc : (Statement.block head program inverse).convert notes = .ok converted)
    (hm : (Statement.block head program inverse).rendered context = some marks) :
    converted.Renders read bindings marks := by
  rw [rendered_block] at hm
  obtain ⟨value, hv, hm⟩ := Option.bind_eq_some_iff.1 hm
  obtain ⟨path, params, hp, hsegments, hresolve⟩ := head.subject_of_value hnotes hs ha hv
  have htest : ∀ negated test, head.toTest notes negated = .ok test →
      test.eval read bindings = some (.boolean (value.truthy != negated)) :=
    fun negated test ht => BlockHead.eval_toTest hp hsegments ha.truth ht
  split at hm
  · next hname =>
    have haround := head.around_eq enclosing (by rw [hname]; decide) (by rw [hname]; decide)
    rw [haround] at hprogram
    refine condition_renders (by rw [hname]; rfl) (htest false) (fun h => ?_) (fun h => ?_) hc
    · rw [Bool.bne_false] at h
      rw [if_pos h] at hm
      exact fun term ht => hprogram hs ha hm ht
    · rw [Bool.bne_false] at h
      rw [if_neg (by rw [h]; decide)] at hm
      exact hotherwise hm
  · split at hm
    · next hname =>
      have haround := head.around_eq enclosing (by rw [hname]; decide) (by rw [hname]; decide)
      rw [haround] at hprogram
      refine condition_renders (by rw [hname]; rfl) (htest true) (fun h => ?_) (fun h => ?_) hc
      · rw [if_neg (by simpa using h)] at hm
        exact fun term ht => hprogram hs ha hm ht
      · rw [if_pos (by simpa using h)] at hm
        exact hotherwise hm
    · split at hm
      · next hname =>
        have haround : head.around enclosing = .narrowing path :: enclosing := by
          rw [BlockHead.around, if_neg (by rw [hname]; decide), if_pos hname, hp]
        have hinner : Scope.around options (.narrowing path :: enclosing) =
            .ok ({ bound := none, kind := .narrowing, segments := notes.segments path } ::
              scopes) := by
          rw [Scope.around, hs]
          change (Scope.resolve scopes path >>= fun segments => _) = _
          rw [hresolve]
          rfl
        rw [haround] at hprogram
        refine condition_renders (by rw [hname]; rfl) (htest false) (fun h => ?_) (fun h => ?_) hc
        · rw [Bool.bne_false] at h
          rw [if_pos h] at hm
          exact fun term ht => hprogram hinner (ha.narrow none hsegments) hm ht
        · rw [Bool.bne_false] at h
          rw [if_neg (by rw [h]; decide)] at hm
          exact hotherwise hm
      · split at hm
        · next hname =>
          cases value with
          | list items =>
            refine each_renders hname hp hsegments hs ha hprogram hotherwise hc (fun hnil => ?_)
              (fun hne => ?_)
            · rw [hnil] at hm
              exact hm
            · obtain ⟨item, items, rfl⟩ := List.exists_cons_of_ne_nil hne
              exact hm
          | undefined | null | boolean | number | string | object | element => cases hm
        · cases hm

mutual

/-- What a statement becomes renders what the statement renders. -/
theorem Statement.convert_renders (statement : Statement) {enclosing : List Enclosure}
    {scopes : List Scope} {bindings : Bindings} {context : Context} {converted : Converted}
    {marks : List Mark}
    (hnotes : ∀ place ∈ statement.places enclosing, notes.Resolved options place)
    (hread : ∀ chars ∈ statement.texts, ReadsLiterally read chars)
    (hs : Scope.around options enclosing = .ok scopes) (ha : Agrees scopes bindings context)
    (hc : statement.convert notes = .ok converted)
    (hm : statement.rendered context = some marks) : converted.Renders read bindings marks := by
  match statement with
  | .text chars =>
    cases hc
    cases hm
    exact ⟨hread chars (List.mem_singleton.2 rfl), rfl⟩
  | .mustacheComment value | .markupComment value =>
    cases hc
    cases hm
    exact rfl
  | .partialCall call => cases hm
  | .mustache m =>
    obtain ⟨term, ht, hc⟩ := bind_eq_ok hc
    cases hc
    obtain ⟨value, hv, hr⟩ := Option.bind_eq_some_iff.1 hm
    refine ⟨value, ?_, hr⟩
    exact m.eval_toTerm (fun path hp => hnotes _ (mem_placed.2 ⟨hp, rfl⟩)) hs ha hv ht
  | .element tag attributes children selfClosing =>
    obtain ⟨kept, -, hc⟩ := bind_eq_ok hc
    rw [rendered] at hm
    split at hc
    · next hclosed =>
      rw [if_pos hclosed] at hm
      cases hc
      cases hm
      exact Jsx.Child.Render.element .nil tag kept _
    · next hclosed =>
      rw [if_neg hclosed] at hm
      obtain ⟨inner, hi, hc⟩ := bind_eq_ok hc
      obtain ⟨content, hcontent, hm⟩ := Option.map_eq_some_iff.1 hm
      cases hc
      rw [← hm]
      refine Jsx.Child.Render.element ?_ tag kept _
      exact toChildren_renders children (fun place hp => hnotes place (List.mem_append_right _ hp))
        hread hs ha hi hcontent
  | .block head program inverse =>
    rw [places_block] at hnotes
    rw [texts_block] at hread
    refine block_renders (fun place h => hnotes place (List.mem_append_left _ h)) hs ha ?_ ?_ hc hm
    · intro inner bindings context marks term hs ha hm ht
      exact body_renders program
        (fun place h => hnotes place (List.mem_append_right _ (List.mem_append_left _ h)))
        (fun chars h => hread chars (List.mem_append_left _ h)) hs ha ht hm
    · intro hm
      cases inverse with
      | none => exact (Option.some.inj hm).symm
      | some body =>
        intro term ht
        exact body_renders body
          (fun place h => hnotes place (List.mem_append_right _ (List.mem_append_right _ h)))
          (fun chars h => hread chars (List.mem_append_right _ h)) hs ha ht hm

/-- What statements become inside an element renders what they render. -/
theorem Statement.toChildren_renders (statements : List Statement) {enclosing : List Enclosure}
    {scopes : List Scope} {bindings : Bindings} {context : Context} {children : List Jsx.Child}
    {marks : List Mark}
    (hnotes : ∀ place ∈ placesOfAll enclosing statements, notes.Resolved options place)
    (hread : ∀ chars ∈ textsOfAll statements, ReadsLiterally read chars)
    (hs : Scope.around options enclosing = .ok scopes) (ha : Agrees scopes bindings context)
    (hc : toChildren notes statements = .ok children)
    (hm : renderedAll context statements = some marks) :
    Jsx.Child.Render read bindings children marks := by
  match statements with
  | [] =>
    cases hc
    cases hm
    exact .nil
  | statement :: statements =>
    obtain ⟨first, hf, hc⟩ := bind_eq_ok hc
    obtain ⟨rest, hr, hc⟩ := bind_eq_ok hc
    cases hc
    obtain ⟨marksOfFirst, hmf, hm⟩ := Option.bind_eq_some_iff.1 hm
    obtain ⟨marksOfRest, hmr, hm⟩ := Option.bind_eq_some_iff.1 hm
    cases hm
    refine .append (Converted.Renders.children ?_) ?_
    · exact convert_renders statement (fun place hp => hnotes place (List.mem_append_left _ hp))
        (fun chars ht => hread chars (List.mem_append_left _ ht)) hs ha hf hmf
    · exact toChildren_renders statements
        (fun place hp => hnotes place (List.mem_append_right _ hp))
        (fun chars ht => hread chars (List.mem_append_right _ ht)) hs ha hr hmr

/-- The term of a body renders what the body renders. -/
theorem Statement.body_renders (body : Body) {enclosing : List Enclosure} {scopes : List Scope}
    {bindings : Bindings} {context : Context} {term : Jsx.Term} {marks : List Mark}
    (hnotes : ∀ place ∈ placesOfBody enclosing body, notes.Resolved options place)
    (hread : ∀ chars ∈ textsOfBody body, ReadsLiterally read chars)
    (hs : Scope.around options enclosing = .ok scopes) (ha : Agrees scopes bindings context)
    (hc : body.toTerm notes = .ok term) (hm : renderedBody context body = some marks) :
    term.Renders read bindings marks := by
  match body with
  | .mk id [statement] =>
    obtain ⟨single, hsingle, hc⟩ := bind_eq_ok hc
    rw [renderedBody, renderedAll] at hm
    obtain ⟨marksOfOne, hone, hm⟩ := Option.bind_eq_some_iff.1 hm
    cases hm
    rw [List.append_nil]
    refine Converted.Renders.alone ?_ hc
    exact convert_renders statement (fun place h => hnotes place (List.mem_append_left _ h))
      (fun chars h => hread chars (List.mem_append_left _ h)) hs ha hsingle hone
  | .mk id [] =>
    cases hc
    cases hm
    exact Jsx.Child.Render.element .nil Vocabulary.fragment [] false
  | .mk id (first :: second :: rest) =>
    obtain ⟨children, hchildren, hc⟩ := bind_eq_ok hc
    cases hc
    have hcontent := toChildren_renders (first :: second :: rest) hnotes hread hs ha hchildren hm
    have hfragment := hcontent.element Vocabulary.fragment [] false
    rwa [Mark.ofElement, if_pos rfl] at hfragment

end

end

/-! ### Components -/

def Options.data? (options : Options) (props : Value) : Option Value :=
  if options.alwaysIncludeContext then props.member Vocabulary.context else some props

theorem agrees_root {options : Options} {props data : Value} (hc : options.isComponent = true)
    (hd : options.data? props = some data) :
    Agrees (Scope.initial options) (Bindings.bind [] [Vocabulary.rootParam] [props])
      { value := data } where
  value := by
    rw [Options.data?] at hd
    rw [Scope.initial, Options.rootScope]
    simp only [hc, Bool.not_true, Bool.false_eq_true, if_false]
    split at hd
    · next hcontext =>
      rw [if_pos hcontext]
      exact ⟨Vocabulary.rootParam, [Vocabulary.context], props, rfl, rfl, by
        rw [Value.chain, List.foldlM_cons, hd]
        rfl⟩
    · next hcontext =>
      rw [if_neg hcontext]
      exact ⟨Vocabulary.rootParam, [], props, rfl, rfl, congrArg some (Option.some.inj hd)⟩
  index := by
    intro hloop
    rw [Scope.initial] at hloop
    split at hloop <;> simp at hloop
  truth := rfl
  undefined := rfl

namespace Template

/-- A component that a template with numbers of its own becomes renders for its properties what the
template renders for the data in them, under every reading of text between tags that leaves the
texts of the template as they are written. If nothing is decoded, these are all texts; if references
are decoded, those that hold none. -/
theorem component_renders {template : Template} {options : Options} {notes : Annotations}
    {helpers : List Helper} {program : Jsx.Program} {props data : Value} {marks : List Mark}
    (read : String → String) (hnumbers : template.numbers.Nodup)
    (hresolve : template.resolve options = .ok notes)
    (hprogram : template.toProgram options notes helpers = .ok program)
    (hcomponent : options.isComponent = true) (hdata : options.data? props = some data)
    (hread : ∀ chars ∈ template.texts, ReadsLiterally read chars)
    (hrendered : template.rendered data = some marks) :
    ∃ component value, program.getLast?.bind Jsx.Statement.term? = some component ∧
      component.apply read [props] = some value ∧ value.render = some marks := by
  obtain ⟨hpaths, hbodies⟩ := nodup_of_nodup_numbers hnumbers
  obtain ⟨root, hroot, hprogram⟩ := bind_eq_ok hprogram
  cases hprogram
  have hrenders : root.Renders read (Bindings.bind [] [Vocabulary.rootParam] [props]) marks :=
    Statement.body_renders (.mk 0 template)
      (fun _ hplace => exists_resolve_of_place hbodies hpaths hresolve hplace) hread rfl
      (agrees_root hcomponent hdata) hroot hrendered
  obtain ⟨value, hvalue, hmarks⟩ := hrenders
  refine ⟨.arrow [Vocabulary.rootParam] root, value, ?_, hvalue, hmarks⟩
  rw [List.getLast?_concat, Options.toRoot, if_pos hcomponent]
  cases options.isModule <;> rfl

/-- A list of the titles in `rows`, with their numbers; rows without a head say so. -/
def titles : Template :=
  [.element "ul" []
    [.block ⟨⟨0, "each", ["each"], false, 0⟩, [.path ⟨1, "rows", ["rows"], false, 0⟩], []⟩
      (.mk 9 [.element "li" []
        [.mustache ⟨.path ⟨2, "@index", ["index"], true, 0⟩, [], [], false⟩, .text ": ",
          .block ⟨⟨3, "with", ["with"], false, 0⟩, [.path ⟨4, "head", ["head"], false, 0⟩], []⟩
            (.mk 7 [.mustache ⟨.path ⟨5, "title", ["title"], false, 0⟩, [], [], false⟩])
            (some (.mk 8 [.text "no head & no title"]))] false])
      (some (.mk 10 [.text "empty"]))] false]

def twoRows : Value :=
  .object [("rows", .list [.object [("head", .object [("title", .string "A")])],
    .object [("head", .null)]])]

/-- The name of the ampersand. -/
def ampersand? (name : List Char) : Option Char := if name = "amp".toList then some '&' else none

example : decoded ampersand? "a &amp; b &lt;" = "a & b &lt;" := by decide +kernel

theorem titles_readLiterally :
    ∀ chars ∈ titles.texts, ReadsLiterally (decoded ampersand?) chars := by
  have hruns : ∀ chars ∈ titles.texts, TextRun.ofText chars.toList = [.plain chars.toList] ∧
      Jsx.holdsReference ampersand? chars.toList = false :=
    List.forall_mem_cons.2 ⟨⟨rfl, rfl⟩, List.forall_mem_cons.2 ⟨⟨rfl, rfl⟩,
      List.forall_mem_singleton.2 ⟨rfl, rfl⟩⟩⟩
  intro chars hchars
  obtain ⟨hplain, hreference⟩ := hruns chars hchars
  refine readsLiterally_decoded_iff.2 fun cs hcs => ?_
  rw [hplain, List.mem_singleton] at hcs
  cases hcs
  exact hreference

theorem titles_component_renders :
    titles.numbers.Nodup ∧ ∃ notes program, titles.resolve {} = .ok notes ∧
      titles.toProgram {} notes [] = .ok program ∧ Options.data? {} twoRows = some twoRows ∧
      ∀ read ∈ [id, decoded ampersand?],
        (∀ chars ∈ titles.texts, ReadsLiterally read chars) ∧
        ∃ component value, program.getLast?.bind Jsx.Statement.term? = some component ∧
          component.apply read [twoRows] = some value ∧
          value.render = some (.start "ul" ::
            (.start "li" :: Mark.ofText "0: A" ++ [.finish]) ++
            (.start "li" :: Mark.ofText "1: no head & no title" ++ [.finish]) ++ [.finish]) := by
  have hnumbers : titles.numbers.Nodup := by decide
  obtain ⟨notes, hresolve, hcheck⟩ : ∃ notes, titles.resolve {} = .ok notes ∧
      (titles.toProgram {} notes []).toOption.any (fun _ => true) = true := ⟨_, rfl, rfl⟩
  obtain ⟨program, hprogram, -⟩ := exists_ok_of_check hcheck
  refine ⟨hnumbers, notes, program, hresolve, hprogram, rfl, fun read hmem => ?_⟩
  have hread : ∀ chars ∈ titles.texts, ReadsLiterally read chars := by
    rcases List.mem_pair.1 hmem with rfl | rfl
    · exact fun _ _ _ _ => rfl
    · exact titles_readLiterally
  exact ⟨hread, component_renders read hnumbers hresolve hprogram rfl rfl hread (by decide +kernel)⟩

end Template

end MustacheJsx
