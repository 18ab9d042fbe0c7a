import Mathlib.Data.List.Nodup
import MustacheJsx.Proofs.Scope.Alignment
import MustacheJsx.Proofs.Template.Bodies

/-!
# The walk reads what the environments say

`Walk.Follows` says what a part of the walk leaves behind, in terms of the readings of the same part
of the template: the stack of scopes is as before, and the walk has recorded the readings or kept
their failure. Parts of the walk follow one another, so the theorem about a whole template is put
together from one lemma for each kind of node. The numbers of bodies must differ, because a scope is
closed by the number of its body.
-/

namespace MustacheJsx

def Scope.unbound (scope : Scope) : Scope := { scope with bound := none }

namespace Scope

theorem innermost_unbound (scopes : List Scope) :
    innermost (scopes.map unbound) = innermost scopes := by
  cases scopes <;> rfl

theorem parent_unbound (scopes : List Scope) : parent (scopes.map unbound) = parent scopes := by
  rw [parent, ← List.map_tail, innermost_unbound, parent]

theorem root_unbound (scopes : List Scope) : root (scopes.map unbound) = root scopes := by
  rw [root, List.getLast?_map, root]
  cases scopes.getLast? <;> rfl

theorem any_unbound {p : Scope → Bool} (hp : ∀ scope : Scope, p scope.unbound = p scope)
    (scopes : List Scope) : (scopes.map unbound).any p = scopes.any p := by
  simp [List.any_map, Function.comp_def, hp]

theorem resolve_unbound (scopes : List Scope) (path : Path) :
    resolve (scopes.map unbound) path = resolve scopes path := by
  have hloop := any_unbound (p := fun scope => scope.kind = .loop) (fun _ => rfl) scopes
  have hroot := any_unbound (p := fun scope => scope.kind ≠ .root) (fun _ => rfl) scopes
  simp only [resolve, resolveData, innermost_unbound, parent_unbound, root_unbound, hloop, hroot]

theorem initial_unbound (options : Options) :
    (initial options).map unbound = initial options := by
  rw [initial]
  split <;> rfl

end Scope

namespace Walk

def environment (w : Walk) : List Scope := w.scopes.map Scope.unbound

/-- What is recorded for readings, the latest first. -/
def entries (readings : List Reading) : List (Nat × List String) :=
  (readings.map fun reading => (reading.1.id, reading.2)).reverse

theorem entries_append (first second : List Reading) :
    entries (first ++ second) = entries second ++ entries first := by
  simp [entries]

/-- What a part of the walk from `w` to `w'` leaves behind, if the environments give `readings` for
that part of the template. -/
structure Follows (w w' : Walk) (readings : Except CompileError (List Reading)) : Prop where
  scopes : w'.scopes = w.scopes
  pending : w'.pending = w.pending
  failed : ∀ e, w.error = some e → w'.error = some e
  refused : ∀ e, w.error = none → readings = .error e → w'.error = some e
  recorded : ∀ rs, w.error = none → readings = .ok rs →
    w'.error = none ∧ w'.annotations.paths = entries rs ++ w.annotations.paths

namespace Follows

theorem of_same {w w' : Walk} (hs : w'.scopes = w.scopes) (hp : w'.pending = w.pending)
    (he : w'.error = w.error) (ha : w'.annotations.paths = w.annotations.paths) :
    Follows w w' (.ok []) where
  scopes := hs
  pending := hp
  failed := fun e h => he.trans h
  refused := by simp
  recorded := by
    rintro rs h ⟨⟩
    exact ⟨he.trans h, by simpa [entries] using ha⟩

theorem environment {w w' : Walk} {readings : Except CompileError (List Reading)}
    (h : Follows w w' readings) : w'.environment = w.environment := by
  rw [Walk.environment, h.scopes, Walk.environment]

theorem chain {w w' w'' : Walk} {first second : Except CompileError (List Reading)}
    (h : Follows w w' first) (h' : Follows w' w'' second) :
    Follows w w'' (Reading.chain first second) where
  scopes := h'.scopes.trans h.scopes
  pending := h'.pending.trans h.pending
  failed := fun e he => h'.failed e (h.failed e he)
  refused := by
    intro e he hr
    cases first with
    | error e' =>
      cases hr
      exact h'.failed e (h.refused e he rfl)
    | ok before =>
      cases second with
      | error e' =>
        cases hr
        exact h'.refused e (h.recorded before he rfl).1 rfl
      | ok after => cases hr
  recorded := by
    intro rs he hr
    cases first with
    | error e' => cases hr
    | ok before =>
      cases second with
      | error e' => cases hr
      | ok after =>
        cases hr
        obtain ⟨hb, hbp⟩ := h.recorded before he rfl
        obtain ⟨ha, hap⟩ := h'.recorded after hb rfl
        exact ⟨ha, by rw [hap, hbp, entries_append, List.append_assoc]⟩

theorem nil_chain {w w' w'' : Walk} {readings : Except CompileError (List Reading)}
    (h : Follows w w' (.ok [])) (h' : Follows w' w'' readings) : Follows w w'' readings := by
  have := h.chain h'
  cases readings <;> exact this

end Follows

/-! ### Expressions -/

theorem visitPath_follows (w : Walk) (path : Path) :
    Follows w (w.visitPath path) (path.readings w.environment) := by
  rw [Path.readings, environment, Scope.resolve_unbound, visitPath]
  cases hr : Scope.resolve w.scopes path with
  | ok segments =>
    refine ⟨rfl, rfl, fun e h => h, ?_, ?_⟩
    · rintro e - ⟨⟩
    · rintro rs h ⟨⟩
      exact ⟨h, rfl⟩
  | error e =>
    refine ⟨rfl, rfl, fun e' h => by simp [fail, h], ?_, ?_⟩
    · rintro e' h ⟨⟩
      simp [fail, h]
    · rintro rs - ⟨⟩

theorem paths_addCallee (annotations : Annotations) (callee : Expression) :
    (annotations.addCallee callee).paths = annotations.paths := by
  rw [Annotations.addCallee]
  split
  · split <;> rfl
  · rfl

theorem visitCallee_follows (w : Walk) (callee : Expression) :
    Follows w (w.visitCallee callee) (.ok []) :=
  .of_same rfl rfl rfl (paths_addCallee w.annotations callee)

mutual

theorem visitExpression_follows (w : Walk) (expression : Expression) :
    Follows w (w.visitExpression expression) (expression.readings w.environment) := by
  cases expression with
  | path p => exact visitPath_follows w p
  | literal l => exact .of_same rfl rfl rfl rfl
  | call callee params hash =>
    rw [visitExpression, Expression.readings]
    have hc := visitCallee_follows w callee
    have hp := visitParams_follows (w.visitCallee callee) params
    have hh := visitHash_follows ((w.visitCallee callee).visitParams params) hash
    rw [hp.environment, hc.environment] at hh
    rw [hc.environment] at hp
    exact hc.nil_chain (hp.chain hh)

theorem visitParams_follows (w : Walk) (params : List Expression) :
    Follows w (w.visitParams params) (Expression.readingsOfParams w.environment params) := by
  cases params with
  | nil => exact .of_same rfl rfl rfl rfl
  | cons param params =>
    have hp := visitExpression_follows w param
    have hps := visitParams_follows (w.visitExpression param) params
    rw [hp.environment] at hps
    exact hp.chain hps

theorem visitHash_follows (w : Walk) (hash : List (String × Expression)) :
    Follows w (w.visitHash hash) (Expression.readingsOfHash w.environment hash) := by
  match hash with
  | [] => exact .of_same rfl rfl rfl rfl
  | (key, value) :: pairs =>
    have hv := visitExpression_follows w value
    have hps := visitHash_follows (w.visitExpression value) pairs
    rw [hv.environment] at hps
    exact hv.chain hps

end

theorem visitArguments_follows (w : Walk) (params : List Expression) (hash : Hash) :
    Follows w ((w.visitParams params).visitHash hash)
      (readingsOfArguments w.environment params hash) := by
  have hp := visitParams_follows w params
  have hh := visitHash_follows (w.visitParams params) hash
  rw [hp.environment] at hh
  exact hp.chain hh

theorem visitMustache_follows (w : Walk) (m : Mustache) :
    Follows w (w.visitMustache m) (m.readings w.environment) := by
  rw [visitMustache, Mustache.readings]
  split
  · have hc := visitCallee_follows w m.callee
    have ha := visitArguments_follows (w.visitCallee m.callee) m.params m.hash
    rw [hc.environment] at ha
    exact hc.nil_chain ha
  · exact visitExpression_follows w m.callee

theorem visitPartial_follows (w : Walk) (call : PartialCall) :
    Follows w (w.visitPartial call)
      (readingsOfArguments w.environment call.params call.hash) := by
  have hn : Follows w { w with annotations := w.annotations.addPartial call.name } (.ok []) :=
    .of_same rfl rfl rfl rfl
  have ha := visitArguments_follows
    { w with annotations := w.annotations.addPartial call.name } call.params call.hash
  exact hn.nil_chain ha

/-! ### Blocks -/

def settled (w : Walk) : Walk := { w with pending := none }

def opened (w : Walk) : List Scope :=
  match w.pending with
  | some (kind, segments) => { bound := none, kind, segments } :: w.environment
  | none => w.environment

theorem environment_enter (w : Walk) (id : Nat) : (w.enter id).environment = w.opened := by
  cases hp : w.pending <;> simp [enter, opened, environment, Scope.unbound, hp]

theorem Follows.settled {w w' : Walk} {readings : Except CompileError (List Reading)}
    (h : Follows w w' readings) : Follows w.settled w'.settled readings :=
  ⟨h.scopes, rfl, h.failed, h.refused, h.recorded⟩

theorem Follows.opened {w w' : Walk} {readings : Except CompileError (List Reading)}
    (h : Follows w w' readings) : w'.opened = w.opened := by
  rw [Walk.opened, h.pending, h.environment, Walk.opened]

/-- A block announces the scope that its program is read in, or fails as the environments do. -/
theorem announce_spec (w : Walk) (head : BlockHead) (hp : w.pending = none) :
    (w.announce head).scopes = w.scopes ∧
    (w.announce head).annotations.paths = w.annotations.paths ∧
    ((head.inner w.environment = .ok (w.announce head).opened ∧
        (w.announce head).error = w.error) ∨
      ∃ e, head.inner w.environment = .error e ∧
        (w.announce head).error = w.error.or (some e)) := by
  have hsame : w.opened = w.environment := by rw [opened, hp]
  by_cases heach : head.name = "each"
  · rw [announce, BlockHead.inner, if_pos heach, if_pos heach]
    exact ⟨rfl, rfl, .inl ⟨rfl, rfl⟩⟩
  by_cases hwith : head.name = "with"
  · have hfail : ∀ e, head.inner w.environment = .error e → w.announce head = w.fail e →
        (w.announce head).scopes = w.scopes ∧
        (w.announce head).annotations.paths = w.annotations.paths ∧
        ((head.inner w.environment = .ok (w.announce head).opened ∧
            (w.announce head).error = w.error) ∨
          ∃ e, head.inner w.environment = .error e ∧
            (w.announce head).error = w.error.or (some e)) := by
      intro e hi hw
      rw [hw]
      exact ⟨rfl, rfl, .inr ⟨e, hi, rfl⟩⟩
    by_cases hpath : ∃ path params, head.params = .path path :: params
    · obtain ⟨path, params, hps⟩ := hpath
      have hresolve := Scope.resolve_unbound w.scopes path
      cases hr : Scope.resolve w.scopes path with
      | ok segments =>
        have hw : w.announce head = { w with pending := some (.narrowing, segments) } := by
          simp only [announce, if_neg heach, if_pos hwith, hps, hr]
        have hi : head.inner w.environment =
            .ok ({ bound := none, kind := .narrowing, segments } :: w.environment) := by
          simp only [BlockHead.inner, if_neg heach, if_pos hwith, hps, environment, hresolve, hr]
          rfl
        rw [hw]
        exact ⟨rfl, rfl, .inl ⟨hi, rfl⟩⟩
      | error e =>
        refine hfail e ?_ ?_
        · simp only [BlockHead.inner, if_neg heach, if_pos hwith, hps, environment, hresolve, hr]
          rfl
        · simp only [announce, if_neg heach, if_pos hwith, hps, hr]
    · have hother : ∀ path params, head.params ≠ .path path :: params :=
        fun path params hps => hpath ⟨path, params, hps⟩
      refine hfail (.blockParams "with" .path) ?_ ?_
      · simp only [BlockHead.inner, if_neg heach, if_pos hwith]
      · simp only [announce, if_neg heach, if_pos hwith]
  have hinner : head.inner w.environment = .ok w.environment := by
    rw [BlockHead.inner, if_neg heach, if_neg hwith]
  by_cases hlink : head.name = "linkTo"
  · rw [announce, if_neg heach, if_neg hwith, if_pos hlink]
    exact ⟨rfl, rfl, .inl ⟨by rw [hinner, ← hsame]; rfl, rfl⟩⟩
  · rw [announce, if_neg heach, if_neg hwith, if_neg hlink]
    exact ⟨rfl, rfl, .inl ⟨by rw [hinner, hsame], rfl⟩⟩

/-- The bodies `ids` differ, and no open scope belongs to one of them. -/
structure Clear (w : Walk) (ids : List Nat) : Prop where
  distinct : ids.Nodup
  apart : ∀ scope ∈ w.scopes, ∀ id ∈ ids, scope.bound ≠ some id

namespace Clear

theorem of_scopes {w w' : Walk} {ids : List Nat} (h : w.Clear ids) (hs : w'.scopes = w.scopes) :
    w'.Clear ids :=
  ⟨h.distinct, fun scope hm => h.apart scope (hs ▸ hm)⟩

theorem left {w : Walk} {ids others : List Nat} (h : w.Clear (ids ++ others)) : w.Clear ids :=
  ⟨(List.nodup_append.1 h.distinct).1,
    fun scope hm id hid => h.apart scope hm id (List.mem_append_left _ hid)⟩

theorem right {w : Walk} {ids others : List Nat} (h : w.Clear (ids ++ others)) :
    w.Clear others :=
  ⟨(List.nodup_append.1 h.distinct).2.1,
    fun scope hm id hid => h.apart scope hm id (List.mem_append_right _ hid)⟩

theorem enter {w : Walk} {id : Nat} {ids : List Nat} (h : w.Clear (id :: ids)) :
    (w.enter id).Clear ids := by
  obtain ⟨hid, hds⟩ := List.nodup_cons.1 h.distinct
  refine ⟨hds, ?_⟩
  have hrest : ∀ scope ∈ w.scopes, ∀ n ∈ ids, scope.bound ≠ some n := fun scope hm n hn =>
    h.apart scope hm n (List.mem_cons_of_mem _ hn)
  rw [Walk.enter]
  split
  · intro scope hm n hn hb
    rcases List.mem_cons.1 hm with rfl | hm
    · cases hb
      exact hid hn
    · exact hrest scope hm n hn hb
  · exact hrest

end Clear

theorem pending_enter (w : Walk) (id : Nat) : (w.enter id).pending = none := by
  rw [enter]
  split
  · rfl
  · assumption

theorem leave_follows {w w' : Walk} {id : Nat} {ids : List Nat}
    {readings : Except CompileError (List Reading)} (ha : w.Clear (id :: ids))
    (h : Follows (w.enter id) w' readings) : Follows w.settled (w'.leave id) readings := by
  cases hp : w.pending with
  | some announced =>
    have hs : w'.scopes =
        { bound := some id, kind := announced.1, segments := announced.2 } :: w.scopes := by
      rw [h.scopes, enter, hp]
    have hl : w'.leave id = { w' with scopes := w.scopes } := by
      rw [leave, hs]
      simp
    have he : (w.enter id).error = w.error ∧ (w.enter id).annotations = w.annotations := by
      rw [enter, hp]
      exact ⟨rfl, rfl⟩
    rw [hl]
    refine ⟨rfl, ?_, ?_, ?_, ?_⟩
    · exact h.pending.trans (pending_enter w id)
    · intro e hw
      exact h.failed e (he.1.trans hw)
    · intro e hw hr
      exact h.refused e (he.1.trans hw) hr
    · intro rs hw hr
      have := h.recorded rs (he.1.trans hw) hr
      rw [he.2] at this
      exact this
  | none =>
    have hw : w.enter id = w := by rw [enter, hp]
    have hsettled : w.settled = w := by rw [settled, ← hp]
    rw [hw] at h
    have hl : w'.leave id = w' := by
      rw [leave]
      split
      · next scope scopes hs =>
        have hm : scope ∈ w.scopes := by
          rw [← h.scopes, hs]
          exact List.mem_cons_self ..
        have hn : scope.bound ≠ some id := ha.apart scope hm id (List.mem_cons_self ..)
        rw [if_neg hn]
      · rfl
    rw [hl, hsettled]
    exact h

/-! ### Statements -/

/-- Notes the function that an attribute with this name calls, if it generates attributes. -/
def visitName (w : Walk) (name : String) : Walk :=
  if Text.startsWith Vocabulary.generatorAttribute.toList name.toList then
    { w with annotations := w.annotations.addHelper Vocabulary.generatorFunction }
  else w

theorem visitName_follows (w : Walk) (name : String) : Follows w (w.visitName name) (.ok []) := by
  rw [visitName]
  split <;> exact .of_same rfl rfl rfl rfl

def visitInverse (w : Walk) : Option Body → Walk
  | some body => w.visitBody body
  | none => w

theorem visitStatement_block (w : Walk) (head : BlockHead) (program : Body)
    (inverse : Option Body) :
    w.visitStatement (.block head program inverse) =
      ((((w.announce head).visitParams head.params).visitHash head.hash).visitBody
        program).visitInverse inverse := by
  cases inverse <;> rfl

mutual

theorem visitStatement_follows (w : Walk) (statement : Statement) (hp : w.pending = none)
    (hc : w.Clear statement.bodyIds) :
    Follows w (w.visitStatement statement) (statement.readings w.environment) := by
  match statement with
  | .text _ => exact .of_same rfl rfl rfl rfl
  | .mustacheComment _ => exact .of_same rfl rfl rfl rfl
  | .markupComment _ => exact .of_same rfl rfl rfl rfl
  | .mustache m => exact visitMustache_follows w m
  | .partialCall call => exact visitPartial_follows w call
  | .element tag attributes children selfClosing =>
    rw [Statement.bodyIds] at hc
    have hattributes := visitAttributes_follows w attributes hp hc.left
    have hchildren := visitStatements_follows (w.visitAttributes attributes) children
      (hattributes.pending.trans hp) (hc.right.of_scopes hattributes.scopes)
    rw [hattributes.environment] at hchildren
    exact hattributes.chain hchildren
  | .block head program inverse =>
    rw [Statement.bodyIds_block] at hc
    obtain ⟨hscopes, hpaths, hopened⟩ := announce_spec w head hp
    have harguments := visitArguments_follows (w.announce head) head.params head.hash
    generalize hw₂ : ((w.announce head).visitParams head.params).visitHash head.hash = w₂
      at harguments
    have hprogram := visitBody_follows w₂ program
      (hc.left.of_scopes (harguments.scopes.trans hscopes))
    have hinverse : Follows (w₂.visitBody program) ((w₂.visitBody program).visitInverse inverse)
        (Statement.readingsOfInverse w.environment inverse) := by
      have hs : (w₂.visitBody program).scopes = w.scopes :=
        hprogram.scopes.trans (harguments.scopes.trans hscopes)
      have hn : (w₂.visitBody program).pending = none := hprogram.pending
      cases inverse with
      | none => exact .of_same rfl rfl rfl rfl
      | some body =>
        have hbody := visitBody_follows (w₂.visitBody program) body (hc.right.of_scopes hs)
        have hsettled : (w₂.visitBody program).settled = w₂.visitBody program := by
          rw [settled, ← hn]
        rw [opened, hn, hsettled, environment, hs] at hbody
        exact hbody
    have henv : (w.announce head).environment = w.environment := by
      rw [environment, hscopes, environment]
    rw [harguments.opened] at hprogram
    have hall := harguments.settled.chain (hprogram.chain hinverse)
    rw [henv] at hall
    rw [visitStatement_block, hw₂, Statement.readings_block]
    rcases hopened with ⟨hinner, herror⟩ | ⟨e, hinner, herror⟩
    · have hfirst : Follows w (w.announce head).settled (.ok []) :=
        .of_same hscopes hp.symm herror hpaths
      rw [hinner]
      exact hfirst.nil_chain hall
    · rw [hinner]
      refine ⟨hall.scopes.trans hscopes, hall.pending.trans hp.symm, ?_, ?_, ?_⟩
      · intro e' he
        exact hall.failed e' (by rw [settled, herror, he]; rfl)
      · rintro e' he ⟨⟩
        exact hall.failed e (by rw [settled, herror, he]; rfl)
      · rintro rs - ⟨⟩

theorem visitStatements_follows (w : Walk) (statements : List Statement) (hp : w.pending = none)
    (hc : w.Clear (Statement.bodyIdsOfAll statements)) :
    Follows w (w.visitStatements statements)
      (Statement.readingsOfAll w.environment statements) := by
  match statements with
  | [] => exact .of_same rfl rfl rfl rfl
  | statement :: statements =>
    rw [Statement.bodyIdsOfAll] at hc
    have hfirst := visitStatement_follows w statement hp hc.left
    have hrest := visitStatements_follows (w.visitStatement statement) statements
      (hfirst.pending.trans hp) (hc.right.of_scopes hfirst.scopes)
    rw [hfirst.environment] at hrest
    exact hfirst.chain hrest

theorem visitBody_follows (w : Walk) (body : Body)
    (hc : w.Clear (Statement.bodyIdsOfBody body)) :
    Follows w.settled (w.visitBody body) (Statement.readingsOfBody w.opened body) := by
  match body with
  | .mk id statements =>
    rw [Statement.bodyIdsOfBody] at hc
    have hstatements :=
      visitStatements_follows (w.enter id) statements (pending_enter w id) hc.enter
    rw [environment_enter] at hstatements
    exact leave_follows hc hstatements

theorem visitAttributes_follows (w : Walk) (attributes : List Attribute) (hp : w.pending = none)
    (hc : w.Clear (Statement.bodyIdsOfAttributes attributes)) :
    Follows w (w.visitAttributes attributes)
      (Statement.readingsOfAttributes w.environment attributes) := by
  match attributes with
  | [] => exact .of_same rfl rfl rfl rfl
  | .mk name value :: attributes =>
    rw [Statement.bodyIdsOfAttributes] at hc
    have hname := visitName_follows w name
    have hvalue := visitValue_follows (w.visitName name) value (hname.pending.trans hp)
      (hc.left.of_scopes hname.scopes)
    have hrest := visitAttributes_follows ((w.visitName name).visitValue value) attributes
      (hvalue.pending.trans (hname.pending.trans hp))
      (hc.right.of_scopes (hvalue.scopes.trans hname.scopes))
    rw [hvalue.environment, hname.environment] at hrest
    rw [hname.environment] at hvalue
    exact hname.nil_chain (hvalue.chain hrest)

theorem visitValue_follows (w : Walk) (value : AttributeValue) (hp : w.pending = none)
    (hc : w.Clear (Statement.bodyIdsOfValue value)) :
    Follows w (w.visitValue value) (Statement.readingsOfValue w.environment value) := by
  match value with
  | .text _ => exact .of_same rfl rfl rfl rfl
  | .mustache m => exact visitMustache_follows w m
  | .concat parts => exact visitStatements_follows w parts hp hc

end

/-! ### Blocks -/

def visitHead (w : Walk) (head : BlockHead) : Walk :=
  ((w.announce head).visitParams head.params).visitHash head.hash

theorem scopes_visitHead (w : Walk) (head : BlockHead) (hp : w.pending = none) :
    (w.visitHead head).scopes = w.scopes :=
  (visitArguments_follows (w.announce head) head.params head.hash).scopes.trans
    (announce_spec w head hp).1

section

variable {w : Walk} {head : BlockHead} {program : Body} {inverse : Option Body}
  (hc : w.Clear (Statement.block head program inverse).bodyIds) (hp : w.pending = none)
include hc hp

/-- No open scope belongs to the bodies in the program of a block when it is visited. -/
theorem Clear.of_program : (w.visitHead head).Clear (Statement.bodyIdsOfBody program) := by
  rw [Statement.bodyIds_block] at hc
  exact hc.left.of_scopes (scopes_visitHead w head hp)

theorem Clear.of_inverse :
    ((w.visitHead head).visitBody program).Clear (Statement.bodyIdsOfInverse inverse) := by
  have hprogram := visitBody_follows _ program (hc.of_program hp)
  rw [Statement.bodyIds_block] at hc
  exact hc.right.of_scopes (hprogram.scopes.trans (scopes_visitHead w head hp))

end

/-! ### Every statement on the way -/

/-- The walk of `statements` from `w` meets a statement in the state `w'`. -/
inductive Meets : Walk → List Statement → Walk → Statement → Prop where
  | here (w : Walk) (statement : Statement) (rest : List Statement) :
    Meets w (statement :: rest) w statement
  | later {w w' : Walk} {statement found : Statement} {rest : List Statement}
      (h : Meets (w.visitStatement statement) rest w' found) :
    Meets w (statement :: rest) w' found
  | child {w w' : Walk} {tag : String} {attributes : List Attribute} {children : List Statement}
      {selfClosing : Bool} {rest : List Statement} {found : Statement}
      (h : Meets (w.visitAttributes attributes) children w' found) :
    Meets w (.element tag attributes children selfClosing :: rest) w' found
  | part {w w' : Walk} {tag name : String} {before after : List Attribute}
      {parts children : List Statement} {selfClosing : Bool} {rest : List Statement}
      {found : Statement} (h : Meets ((w.visitAttributes before).visitName name) parts w' found) :
    Meets w (.element tag (before ++ .mk name (.concat parts) :: after) children selfClosing
      :: rest) w' found
  | program {w w' : Walk} {head : BlockHead} {id : Nat} {body : List Statement}
      {inverse : Option Body} {rest : List Statement} {found : Statement}
      (h : Meets ((((w.announce head).visitParams head.params).visitHash head.hash).enter id) body
        w' found) :
    Meets w (.block head (.mk id body) inverse :: rest) w' found
  | inverse {w w' : Walk} {head : BlockHead} {program : Body} {id : Nat} {body : List Statement}
      {rest : List Statement} {found : Statement}
      (h : Meets (((((w.announce head).visitParams head.params).visitHash head.hash).visitBody
        program).enter id) body w' found) :
    Meets w (.block head program (some (.mk id body)) :: rest) w' found

theorem bodyIdsOfAttributes_append (before after : List Attribute) :
    Statement.bodyIdsOfAttributes (before ++ after) =
      Statement.bodyIdsOfAttributes before ++ Statement.bodyIdsOfAttributes after := by
  induction before with
  | nil => rfl
  | cons first before ih =>
    cases first
    simp only [List.cons_append, Statement.bodyIdsOfAttributes, ih, List.append_assoc]

/-- Where the walk meets a statement, no scope is announced and none belongs to its bodies. -/
theorem Meets.clear {w w' : Walk} {statements : List Statement} {found : Statement}
    (h : Meets w statements w' found) (hp : w.pending = none)
    (hc : w.Clear (Statement.bodyIdsOfAll statements)) :
    w'.pending = none ∧ w'.Clear found.bodyIds := by
  induction h with
  | here w statement rest => exact ⟨hp, hc.left⟩
  | @later w _ statement _ rest _ ih =>
    have hf := visitStatement_follows w statement hp hc.left
    exact ih (hf.pending.trans hp) (hc.right.of_scopes hf.scopes)
  | @child w _ tag attributes children _ rest _ _ ih =>
    have hce := hc.left
    rw [Statement.bodyIds] at hce
    have hf := visitAttributes_follows w attributes hp hce.left
    exact ih (hf.pending.trans hp) (hce.right.of_scopes hf.scopes)
  | @part w _ tag name before after parts children _ rest _ _ ih =>
    have hce := hc.left
    rw [Statement.bodyIds, bodyIdsOfAttributes_append, Statement.bodyIdsOfAttributes,
      Statement.bodyIdsOfValue] at hce
    have hf := visitAttributes_follows w before hp hce.left.left
    have hn := visitName_follows (w.visitAttributes before) name
    exact ih (hn.pending.trans (hf.pending.trans hp))
      (hce.left.right.left.of_scopes (hn.scopes.trans hf.scopes))
  | program _ ih => exact ih (pending_enter _ _) (hc.left.of_program hp).enter
  | inverse _ ih => exact ih (pending_enter _ _) (hc.left.of_inverse hp).enter

/-- The state in which the walk of a template begins. -/
def start (options : Options) : Walk := { scopes := Scope.initial options }

theorem start_clear (options : Options) {ids : List Nat} (hd : ids.Nodup) :
    (start options).Clear ids := by
  refine ⟨hd, ?_⟩
  intro scope hm id _ hb
  simp only [start, Scope.initial] at hm
  split at hm
  · cases hm
  · rcases List.mem_singleton.1 hm with rfl
    cases hb

theorem start_environment (options : Options) :
    (start options).environment = Scope.initial options :=
  Scope.initial_unbound options

end Walk

namespace Template

variable {template : Template} {options : Options}

theorem resolve_of_readings (hbodies : template.bodyIds.Nodup) :
    (∀ e, template.readings options = .error e → template.resolve options = .error e) ∧
    ∀ rs, template.readings options = .ok rs →
      ∃ notes, template.resolve options = .ok notes ∧ notes.paths = Walk.entries rs := by
  have hf := Walk.visitStatements_follows (Walk.start options) template rfl
    (Walk.start_clear options hbodies)
  rw [Walk.start_environment] at hf
  have hstart : ({ scopes := Scope.initial options } : Walk) = Walk.start options := rfl
  constructor
  · intro e he
    rw [resolve, hstart, hf.refused e rfl he]
  · intro rs hr
    obtain ⟨hn, hp⟩ := hf.recorded rs rfl hr
    rw [resolve, hstart, hn]
    exact ⟨_, rfl, hp.trans (List.append_nil _)⟩

theorem exists_readings_of_resolve {notes : Annotations} (hbodies : template.bodyIds.Nodup)
    (h : template.resolve options = .ok notes) :
    ∃ rs, template.readings options = .ok rs ∧ notes.paths = Walk.entries rs := by
  obtain ⟨hfail, hok⟩ := @resolve_of_readings template options hbodies
  cases hr : template.readings options with
  | error e =>
    rw [hfail e hr] at h
    cases h
  | ok rs =>
    obtain ⟨notes', hn, hp⟩ := hok rs hr
    rw [h] at hn
    cases hn
    exact ⟨rs, rfl, hp⟩

end Template

theorem Annotations.segments_of_entries {notes : Annotations} {rs : List Reading}
    (hp : notes.paths = Walk.entries rs) (hd : (rs.map fun r => r.1.id).Nodup) {r : Reading}
    (hr : r ∈ rs) : notes.segments r.1 = r.2 := by
  have hunique : ∀ entry ∈ Walk.entries rs, entry.1 = r.1.id → entry.2 = r.2 := by
    intro entry hm he
    simp only [Walk.entries, List.mem_reverse, List.mem_map] at hm
    obtain ⟨r', hr', rfl⟩ := hm
    rw [List.inj_on_of_nodup_map hd hr' hr he]
  have hm : (r.1.id, r.2) ∈ Walk.entries rs := by
    simp only [Walk.entries, List.mem_reverse, List.mem_map]
    exact ⟨r, hr, rfl⟩
  rw [Annotations.segments, hp]
  cases hf : (Walk.entries rs).find? fun entry => entry.1 == r.1.id with
  | none => exact absurd (beq_self_eq_true r.1.id) (by simpa using List.find?_eq_none.1 hf _ hm)
  | some entry =>
    have he := List.find?_some hf
    exact hunique entry (List.mem_of_find?_eq_some hf) (by simpa using he)

namespace Template

theorem nodup_readings {template : Template} {options : Options} {rs : List Reading}
    (hpaths : (template.paths.map Path.id).Nodup) (h : template.readings options = .ok rs) :
    (rs.map fun r => r.1.id).Nodup := by
  have hvalues : rs.map Prod.fst = template.values := (readings_aligned h).map_fst
  have hsub : (template.values.map Path.id).Nodup :=
    hpaths.sublist (template.values_sublist.map Path.id)
  rw [← hvalues, List.map_map] at hsub
  exact hsub

/-- The segments of a value are those that its environment gives to it. -/
theorem exists_resolve_of_place {template : Template} {options : Options}
    (hbodies : template.bodyIds.Nodup)
    (hpaths : (template.paths.map Path.id).Nodup) {notes : Annotations}
    (hresolve : template.resolve options = .ok notes)
    {path : Path} {enclosing : List Enclosure} (hplace : (path, enclosing) ∈ template.places) :
    ∃ env, Scope.around options enclosing = .ok env ∧
      Scope.resolve env path = .ok (notes.segments path) := by
  obtain ⟨rs, hr, hentries⟩ := exists_readings_of_resolve hbodies hresolve
  obtain ⟨reading, hm, hpath, env, he, hs⟩ := (readings_aligned hr).exists_of_mem hplace
  refine ⟨env, he, ?_⟩
  have hsegments := Annotations.segments_of_entries hentries (nodup_readings hpaths hr) hm
  rw [hpath] at hsegments
  rw [hsegments]
  exact hs

/-- The walk with its stack of scopes refines the recursion over environments: it fails exactly
when the recursion does, with the same first failure; otherwise every value of the template has the
segments that the recursion gives to it; and no statement on the way changes the stack. -/
theorem resolve_refines_readings (template : Template) (options : Options)
    (hbodies : template.bodyIds.Nodup) (hpaths : (template.paths.map Path.id).Nodup) :
    (∀ e, template.resolve options = .error e ↔ template.readings options = .error e) ∧
    (∀ rs, template.readings options = .ok rs →
      ∃ notes, template.resolve options = .ok notes ∧ rs.map Prod.fst = template.values ∧
        (∀ r ∈ rs, notes.segments r.1 = r.2) ∧
        notes.paths.reverse = rs.map fun r => (r.1.id, r.2)) ∧
    ∀ w statement, Walk.Meets (Walk.start options) template w statement →
      (w.visitStatement statement).scopes = w.scopes := by
  obtain ⟨hfail, hok⟩ := @resolve_of_readings template options hbodies
  refine ⟨?_, ?_, ?_⟩
  · intro e
    constructor
    · intro h
      cases hr : template.readings options with
      | error e' =>
        rw [hfail e' hr] at h
        cases h
        rfl
      | ok rs =>
        obtain ⟨notes, hn, -⟩ := hok rs hr
        rw [h] at hn
        cases hn
    · exact hfail e
  · intro rs hr
    obtain ⟨notes, hn, hp⟩ := hok rs hr
    refine ⟨notes, hn, (readings_aligned hr).map_fst, ?_, ?_⟩
    · intro r hm
      exact Annotations.segments_of_entries hp (nodup_readings hpaths hr) hm
    · rw [hp, Walk.entries, List.reverse_reverse]
  · intro w statement hm
    obtain ⟨hp, hc⟩ := hm.clear rfl (Walk.start_clear options hbodies)
    exact (Walk.visitStatement_follows w statement hp hc).scopes

/-- A loop over `rows`, narrowed to `head` around `title`; where there is no head, `title` is read
in the loop. -/
def rowsWithHeads : Template :=
  [.block ⟨⟨0, "each", ["each"], false, 0⟩, [.path ⟨1, "rows", ["rows"], false, 0⟩], []⟩
    (.mk 8 [.block ⟨⟨2, "with", ["with"], false, 0⟩, [.path ⟨3, "head", ["head"], false, 0⟩], []⟩
      (.mk 6 [.mustache ⟨.path ⟨4, "title", ["title"], false, 0⟩, [], [], false⟩])
      (some (.mk 7 [.mustache ⟨.path ⟨5, "title", ["title"], false, 0⟩, [], [], false⟩]))])
    none]

theorem rowsWithHeads_resolve_refines :
    rowsWithHeads.bodyIds.Nodup ∧ (rowsWithHeads.paths.map Path.id).Nodup ∧
      ∃ notes, rowsWithHeads.resolve {} = .ok notes ∧
        notes.segments ⟨4, "title", ["title"], false, 0⟩ = ["item", "head", "title"] ∧
        notes.segments ⟨5, "title", ["title"], false, 0⟩ = ["item", "title"] := by
  have hbodies : rowsWithHeads.bodyIds.Nodup := by decide
  have hpaths : (rowsWithHeads.paths.map Path.id).Nodup := by decide
  obtain ⟨-, hok, -⟩ := resolve_refines_readings rowsWithHeads {} hbodies hpaths
  obtain ⟨notes, hn, -, hsegments, -⟩ := hok _ rfl
  refine ⟨hbodies, hpaths, notes, hn, ?_, ?_⟩
  · exact hsegments (⟨4, "title", ["title"], false, 0⟩, ["item", "head", "title"]) (by decide)
  · exact hsegments (⟨5, "title", ["title"], false, 0⟩, ["item", "title"]) (by decide)

end Template

end MustacheJsx
