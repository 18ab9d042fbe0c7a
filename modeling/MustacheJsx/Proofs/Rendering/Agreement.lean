import MustacheJsx.Conversion.Statement
import MustacheJsx.Proofs.Outcome
import MustacheJsx.Proofs.Rendering.Evaluation
import MustacheJsx.Proofs.Rendering.Reference
import MustacheJsx.Proofs.Scope.Alignment

/-!
# Scopes, bindings and contexts agree

The scopes of a place turn paths into chains of properties, and the functions around the emitted
chain bind its first name. `Agrees` says that such a chain has the value of the context. A loop and
a `with` block keep the agreement. Terms are then compared by what their values render.
-/

namespace MustacheJsx

open Jsx (Bindings)

section

variable {read : String → String} {bindings : Bindings}

/-! ### Chains -/

theorem Jsx.Term.eval_foldl_member (term : Jsx.Term) (properties : List String) :
    (properties.foldl Jsx.Term.member term).eval read bindings =
      (term.eval read bindings).bind (Value.chain properties) := by
  induction properties generalizing term with
  | nil =>
    cases h : term.eval read bindings with
    | none => simp [h]
    | some value => simp [h, Value.chain]
  | cons property properties ih =>
    rw [List.foldl_cons, ih, Jsx.Term.eval]
    cases term.eval read bindings with
    | none => rfl
    | some value => rfl

theorem Value.chain_append (before after : List String) (value : Value) :
    value.chain (before ++ after) = (value.chain before).bind (chain after) := by
  rw [chain, List.foldlM_append]
  rfl

/-- Segments have a value in bindings: there is a first one, and the chain leads there. -/
def SegmentsEval (bindings : Bindings) (segments : List String) (value : Value) : Prop :=
  ∃ first rest start, segments = first :: rest ∧ bindings.lookup first = some start ∧
    start.chain rest = some value

theorem SegmentsEval.append {segments : List String} {value inner : Value}
    (h : SegmentsEval bindings segments value) {parts : List String}
    (hchain : value.chain parts = some inner) :
    SegmentsEval bindings (segments ++ parts) inner := by
  obtain ⟨first, rest, start, rfl, hl, hc⟩ := h
  refine ⟨first, rest ++ parts, start, rfl, hl, ?_⟩
  rw [Value.chain_append, hc]
  exact hchain

theorem SegmentsEval.eval {segments : List String} {value : Value}
    (h : SegmentsEval bindings segments value) {term : Jsx.Term}
    (ht : Jsx.Term.ofSegments segments = .ok term) : term.eval read bindings = some value := by
  obtain ⟨first, rest, start, rfl, hl, hc⟩ := h
  cases ht
  rw [Jsx.Term.eval_foldl_member, Jsx.Term.eval, hl]
  exact hc

/-! ### Agreement of scopes, bindings and contexts -/

/-- The scopes of a place, the parameters around the code there, and the context agree. -/
structure Agrees (scopes : List Scope) (bindings : Bindings) (context : Context) : Prop where
  /-- The innermost scope leads to the value of the context. -/
  value : SegmentsEval bindings (Scope.innermost scopes) context.value
  /-- Inside a loop its index is bound. -/
  index : (scopes.any fun scope => scope.kind = .loop) = true →
    bindings.lookup Vocabulary.loopIndex = context.index
  /-- The names that code relies on are not bound. -/
  truth : bindings.lookup "Boolean" = none
  undefined : bindings.lookup "undefined" = none

namespace Agrees

variable {scopes : List Scope} {context : Context}

theorem segments (h : Agrees scopes bindings context) {path : Path} {segments : List String}
    {value : Value} (hr : Scope.resolve scopes path = .ok segments)
    (hv : context.read path = some value) : SegmentsEval bindings segments value := by
  rw [Context.read] at hv
  split at hv
  · cases hv
  · next hdepth =>
    have hzero : path.depth = 0 := by simpa using hdepth
    split at hv
    · next hdata =>
      split at hv
      · next hparts =>
        obtain ⟨name, hname, hp⟩ : ∃ name, (name = "index" ∨ name = "key") ∧
            path.parts = [name] := by
          rcases hparts with hp | hp
          · exact ⟨_, .inl rfl, hp⟩
          · exact ⟨_, .inr rfl, hp⟩
        have hroot : name ≠ "root" := by
          rcases hname with rfl | rfl <;> decide
        rw [Scope.resolve, if_pos hdata, Scope.resolveData] at hr
        split at hr
        · next heq =>
          rw [hp] at heq
          exact absurd (List.cons.inj heq).1 hroot
        · split at hr
          · split at hr
            · next hloop =>
              cases hr
              refine ⟨Vocabulary.loopIndex, [], value, rfl, ?_, rfl⟩
              rw [h.index hloop, hv]
            · cases hr
          · cases hr
        · cases hr
      · cases hv
    · next hdata =>
      rw [Scope.resolve_plain (by simpa using hdata) hzero] at hr
      cases hr
      exact h.value.append hv

theorem loop (h : Agrees scopes bindings context) (bound : Option Nat) (item index list : Value) :
    Agrees ({ bound, kind := .loop, segments := [Vocabulary.loopItem] } :: scopes)
      (bindings.bind [Vocabulary.loopItem, Vocabulary.loopIndex] [item, index, list])
      { value := item, index := some index } where
  value := ⟨Vocabulary.loopItem, [], item, rfl, rfl, rfl⟩
  index := fun _ => rfl
  truth := h.truth
  undefined := h.undefined

theorem narrow (h : Agrees scopes bindings context) (bound : Option Nat) {segments : List String}
    {value : Value} (hs : SegmentsEval bindings segments value) :
    Agrees ({ bound, kind := .narrowing, segments } :: scopes) bindings
      { context with value } where
  value := hs
  index := by
    intro hloop
    exact h.index (by simpa using hloop)
  truth := h.truth
  undefined := h.undefined

end Agrees

/-! ### Terms that render marks -/

/-- A term has a value that renders `marks`. -/
def Jsx.Term.Renders (read : String → String) (bindings : Bindings) (term : Jsx.Term)
    (marks : List Mark) : Prop :=
  ∃ value, term.eval read bindings = some value ∧ value.render = some marks

/-- Children have values that render `marks`. -/
def Jsx.Child.Render (read : String → String) (bindings : Bindings) (children : List Jsx.Child)
    (marks : List Mark) : Prop :=
  ∃ values, Jsx.Term.evalChildren read bindings children = some values ∧
    Value.renderAll values = some marks

theorem Jsx.Term.eval_element (element : Jsx.Element) (children : List Jsx.Child) :
    Jsx.Term.evalChildren read bindings (.element element :: children) =
      Jsx.Term.evalChildren read bindings (.term (.element element) :: children) := by
  obtain ⟨tag, kept, inner, selfClosing⟩ := element
  rw [Jsx.Term.evalChildren, Jsx.Term.evalChildren, Jsx.Term.eval]
  cases Jsx.Term.evalChildren read bindings inner with
  | none => rfl
  | some values => rfl

theorem Jsx.Child.Render.nil : Jsx.Child.Render read bindings [] [] := ⟨[], rfl, rfl⟩

theorem Jsx.Child.Render.cons {term : Jsx.Term} {children : List Jsx.Child}
    {marks others : List Mark} (ht : term.Renders read bindings marks)
    (hc : Jsx.Child.Render read bindings children others) :
    Jsx.Child.Render read bindings (.term term :: children) (marks ++ others) := by
  obtain ⟨value, hv, hr⟩ := ht
  obtain ⟨values, hvs, hrs⟩ := hc
  refine ⟨value :: values, ?_, ?_⟩
  · rw [Jsx.Term.evalChildren, hv, hvs]
    rfl
  · rw [Value.renderAll, hr, hrs]
    rfl

theorem Jsx.Child.Render.append {before after : List Jsx.Child} {marks others : List Mark}
    (hb : Jsx.Child.Render read bindings before marks)
    (ha : Jsx.Child.Render read bindings after others) :
    Jsx.Child.Render read bindings (before ++ after) (marks ++ others) := by
  have hevals : ∀ {first second : List Jsx.Child} {values more : List Value},
      Jsx.Term.evalChildren read bindings first = some values →
      Jsx.Term.evalChildren read bindings second = some more →
      Jsx.Term.evalChildren read bindings (first ++ second) = some (values ++ more) := by
    intro first second values more hf hs
    induction first generalizing values with
    | nil =>
      cases hf
      exact hs
    | cons child first ih =>
      cases child with
      | comment chars => exact ih hf
      | text chars =>
        obtain ⟨rest, hr, hf⟩ := Option.bind_eq_some_iff.1 hf
        cases hf
        rw [List.cons_append, Jsx.Term.evalChildren, ih hr]
        rfl
      | term term =>
        obtain ⟨value, hv, hf⟩ := Option.bind_eq_some_iff.1 hf
        obtain ⟨rest, hr, hf⟩ := Option.bind_eq_some_iff.1 hf
        cases hf
        rw [List.cons_append, Jsx.Term.evalChildren, hv, ih hr]
        rfl
      | element element =>
        rw [Jsx.Term.eval_element] at hf
        obtain ⟨value, hv, hf⟩ := Option.bind_eq_some_iff.1 hf
        obtain ⟨rest, hr, hf⟩ := Option.bind_eq_some_iff.1 hf
        cases hf
        rw [List.cons_append, Jsx.Term.eval_element, Jsx.Term.evalChildren, hv, ih hr]
        rfl
  obtain ⟨values, hv, hr⟩ := hb
  obtain ⟨more, hm, hrm⟩ := ha
  exact ⟨values ++ more, hevals hv hm, Value.renderAll_append hr hrm⟩

/-- An element renders its content between its tags. -/
theorem Jsx.Child.Render.element {children : List Jsx.Child} {marks : List Mark}
    (h : Jsx.Child.Render read bindings children marks) (tag : String)
    (kept : List Jsx.Attribute) (selfClosing : Bool) :
    (Jsx.Term.element (.mk tag kept children selfClosing)).Renders read bindings
      (Mark.ofElement tag marks) := by
  obtain ⟨values, hv, hr⟩ := h
  refine ⟨.element tag values, ?_, ?_⟩
  · rw [Jsx.Term.eval, hv]
    rfl
  · rw [Value.render, hr]
    rfl

theorem Jsx.Term.Renders.asElement {term : Jsx.Term} {marks : List Mark}
    (h : term.Renders read bindings marks) (last : Jsx.Attribute) :
    (Jsx.Term.element (term.asElement.push last)).Renders read bindings marks := by
  have hfragment : (Jsx.Term.element (.mk Vocabulary.fragment [last] [.term term] false)).Renders
      read bindings marks := by
    have hcontent := Jsx.Child.Render.element (.cons h .nil) Vocabulary.fragment [last] false
    rwa [List.append_nil, Mark.ofElement, if_pos rfl] at hcontent
  cases term with
  | element element =>
    obtain ⟨tag, kept, children, selfClosing⟩ := element
    obtain ⟨value, hv, hr⟩ := h
    refine ⟨value, ?_, hr⟩
    rw [Jsx.Term.eval] at hv
    rw [Jsx.Term.asElement, Jsx.Element.push, Jsx.Term.eval]
    exact hv
  | _ => exact hfragment

/-! ### Conditions and loops -/

theorem Jsx.Term.eval_truth {term : Jsx.Term} {value : Value}
    (hfree : bindings.lookup "Boolean" = none) (h : term.eval read bindings = some value) :
    term.truth.eval read bindings = some (.boolean value.truthy) := by
  rw [Jsx.Term.truth, Jsx.Term.eval, if_pos ⟨rfl, hfree⟩, h]
  rfl

/-- Without an alternative a condition renders its program or nothing. -/
theorem Jsx.Term.Renders.and {test consequent : Jsx.Term} {marks : List Mark} {holds : Bool}
    (ht : test.eval read bindings = some (.boolean holds))
    (hyes : holds = true → consequent.Renders read bindings marks)
    (hno : holds = false → marks = []) :
    (Jsx.Term.and test consequent).Renders read bindings marks := by
  cases holds with
  | true =>
    obtain ⟨value, hv, hr⟩ := hyes rfl
    refine ⟨value, ?_, hr⟩
    rw [Jsx.Term.eval, ht]
    exact hv
  | false =>
    refine ⟨.boolean false, ?_, ?_⟩
    · rw [Jsx.Term.eval, ht]
      rfl
    · rw [hno rfl]
      rfl

theorem Jsx.Term.Renders.conditional {test consequent alternate : Jsx.Term} {marks : List Mark}
    {holds : Bool} (ht : test.eval read bindings = some (.boolean holds))
    (hyes : holds = true → consequent.Renders read bindings marks)
    (hno : holds = false → alternate.Renders read bindings marks) :
    (Jsx.Term.conditional test consequent alternate).Renders read bindings marks := by
  cases holds with
  | true =>
    obtain ⟨value, hv, hr⟩ := hyes rfl
    refine ⟨value, ?_, hr⟩
    rw [Jsx.Term.eval, ht]
    exact hv
  | false =>
    obtain ⟨value, hv, hr⟩ := hno rfl
    refine ⟨value, ?_, hr⟩
    rw [Jsx.Term.eval, ht]
    exact hv

/-- Items that render marks one by one have values that render them one after the other. -/
theorem exists_mapM_renderAll {α : Type} {f : α → Option (List Mark)} {g : α → Option Value}
    (h : ∀ x marks, f x = some marks → ∃ value, g x = some value ∧ value.render = some marks)
    {xs : List α} {all : List (List Mark)} (hf : xs.mapM f = some all) :
    ∃ values, xs.mapM g = some values ∧ Value.renderAll values = some all.flatten := by
  induction xs generalizing all with
  | nil =>
    cases hf
    exact ⟨[], rfl, rfl⟩
  | cons x xs ih =>
    rw [List.mapM_cons] at hf
    obtain ⟨marks, hx, hf⟩ := Option.bind_eq_some_iff.1 hf
    obtain ⟨others, hxs, hf⟩ := Option.bind_eq_some_iff.1 hf
    cases hf
    obtain ⟨value, hv, hr⟩ := h x marks hx
    obtain ⟨values, hvs, hrs⟩ := ih hxs
    refine ⟨value :: values, ?_, ?_⟩
    · rw [List.mapM_cons, hv, hvs]
      rfl
    · rw [Value.renderAll, hr, hrs]
      rfl

/-- A loop renders its turns one after the other. -/
theorem Jsx.Term.Renders.loop {collection body : Jsx.Term} {items : List Value}
    {all : List (List Mark)} {turn : Value × Nat → Option (List Mark)}
    (hc : collection.eval read bindings = some (.list items))
    (hall : items.zipIdx.mapM turn = some all)
    (hbody : ∀ item n marks, turn (item, n) = some marks →
      body.Renders read
        (bindings.bind [Vocabulary.loopItem, Vocabulary.loopIndex]
          [item, .number (.ofNat n), .list items]) marks) :
    (Jsx.Term.loop collection body).Renders read bindings all.flatten := by
  obtain ⟨values, hv, hr⟩ := exists_mapM_renderAll
    (g := fun entry : Value × Nat => (Jsx.Term.element
      (body.asElement.push (.term Vocabulary.key (.name Vocabulary.loopIndex)))).eval read
        (bindings.bind [Vocabulary.loopItem, Vocabulary.loopIndex]
          [entry.1, .number (.ofNat entry.2), .list items]))
    (fun (entry : Value × Nat) marks ht => (hbody entry.1 entry.2 marks ht).asElement _) hall
  refine ⟨.list values, ?_, hr⟩
  rw [Jsx.Term.loop, Jsx.Term.eval, if_pos rfl, hc]
  exact congrArg (Option.map Value.list) hv

theorem Jsx.Term.eval_hasItems {collection : Jsx.Term} {items : List Value}
    (hfree : bindings.lookup "Boolean" = none)
    (hc : collection.eval read bindings = some (.list items)) :
    collection.hasItems.eval read bindings = some (.boolean !items.isEmpty) := by
  have hlength : (Jsx.Term.member collection "length").eval read bindings =
      some (.number (.ofNat items.length)) := by
    rw [Jsx.Term.eval, hc]
    rfl
  have htruth := Jsx.Term.eval_truth hfree hlength
  rw [Value.truthy, Double.isFalsy_ofNat] at htruth
  rw [Jsx.Term.hasItems, htruth]
  cases items with
  | nil => rfl
  | cons item items => rfl

/-! ### Paths, heads and texts -/

variable {notes : Annotations} {options : Options} {scopes : List Scope} {context : Context}

/-- The segments of a value are those that the scopes of its place give to it. -/
def Annotations.Resolved (notes : Annotations) (options : Options) (place : Place) : Prop :=
  ∃ scopes, Scope.around options place.2 = .ok scopes ∧
    Scope.resolve scopes place.1 = .ok (notes.segments place.1)

theorem Annotations.Resolved.segments {path : Path} {enclosing : List Enclosure} {value : Value}
    (h : notes.Resolved options (path, enclosing))
    (hs : Scope.around options enclosing = .ok scopes) (ha : Agrees scopes bindings context)
    (hv : context.read path = some value) : SegmentsEval bindings (notes.segments path) value := by
  obtain ⟨scopes', hs', hr⟩ := h
  rw [hs] at hs'
  cases hs'
  exact ha.segments hr hv

theorem Literal.eval_toTerm (literal : Literal) (hfree : bindings.lookup "undefined" = none) :
    literal.toTerm.eval read bindings = some literal.value := by
  cases literal with
  | undefined =>
    rw [Literal.toTerm, Jsx.Term.eval, hfree]
    rfl
  | boolean | number | string | null =>
    rw [Literal.toTerm, Jsx.Term.eval]
    rfl

theorem Mustache.eval_toTerm {m : Mustache} {enclosing : List Enclosure} {term : Jsx.Term}
    {value : Value} (hnotes : ∀ path ∈ m.values, notes.Resolved options (path, enclosing))
    (hs : Scope.around options enclosing = .ok scopes) (ha : Agrees scopes bindings context)
    (hv : m.value? context = some value) (ht : m.toTerm notes = .ok term) :
    term.eval read bindings = some value := by
  rw [Mustache.value?] at hv
  rw [Mustache.values] at hnotes
  rw [Mustache.toTerm] at ht
  split at hv
  · cases hv
  · next hcall =>
    rw [if_neg hcall] at ht hnotes
    split at hv
    · next l hm =>
      rw [hm] at ht
      cases hv
      cases ht
      exact l.eval_toTerm ha.undefined
    · next p hm =>
      rw [hm] at ht hnotes
      exact ((hnotes p (List.mem_singleton.2 rfl)).segments hs ha hv).eval ht
    · cases hv

/-- The first argument of a block as a term has the value that the block is about. -/
theorem BlockHead.subject_of_value {head : BlockHead} {enclosing : List Enclosure} {value : Value}
    (hnotes : ∀ place ∈ placed enclosing (valuesOfArguments head.params head.hash),
      notes.Resolved options place)
    (hs : Scope.around options enclosing = .ok scopes) (ha : Agrees scopes bindings context)
    (hv : head.value? context = some value) :
    ∃ path rest, head.params = .path path :: rest ∧
      SegmentsEval bindings (notes.segments path) value ∧
      Scope.resolve scopes path = .ok (notes.segments path) := by
  rw [BlockHead.value?] at hv
  split at hv
  · next path rest hp =>
    have hm : path ∈ valuesOfArguments head.params head.hash := by
      rw [hp]
      exact List.mem_append_left _ (List.mem_append_left _ (List.mem_singleton.2 rfl))
    have hresolved := hnotes (path, enclosing) (mem_placed.2 ⟨hm, rfl⟩)
    refine ⟨path, rest, hp, hresolved.segments hs ha hv, ?_⟩
    obtain ⟨scopes', hs', hr⟩ := hresolved
    rw [hs] at hs'
    cases hs'
    exact hr
  · cases hv

theorem BlockHead.eval_toTest {head : BlockHead} {path : Path} {rest : List Expression}
    {value : Value} {negated : Bool} {test : Jsx.Term} (hp : head.params = .path path :: rest)
    (hsegments : SegmentsEval bindings (notes.segments path) value)
    (hfree : bindings.lookup "Boolean" = none) (ht : head.toTest notes negated = .ok test) :
    test.eval read bindings = some (.boolean (value.truthy != negated)) := by
  obtain ⟨subject, hsubject, ht⟩ := bind_eq_ok ht
  rw [BlockHead.subject, hp] at hsubject
  cases hsubject
  obtain ⟨term, hterm, ht⟩ := bind_eq_ok ht
  have hvalue : term.eval read bindings = some value := hsegments.eval hterm
  have htruth := Jsx.Term.eval_truth hfree hvalue
  cases ht
  cases negated with
  | false =>
    rw [if_neg (by decide), htruth]
    cases value.truthy <;> rfl
  | true =>
    rw [if_pos rfl, Jsx.Term.eval, htruth]
    cases value.truthy <;> rfl

theorem BlockHead.eval_toCollection {head : BlockHead} {path : Path} {rest : List Expression}
    {value : Value} {collection : Jsx.Term} (hp : head.params = .path path :: rest)
    (hsegments : SegmentsEval bindings (notes.segments path) value)
    (ht : head.toCollection notes = .ok collection) :
    collection.eval read bindings = some value := by
  obtain ⟨subject, hsubject, ht⟩ := bind_eq_ok ht
  rw [BlockHead.subject, hp] at hsubject
  cases hsubject
  exact hsegments.eval ht

end

end MustacheJsx
