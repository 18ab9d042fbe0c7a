import Mathlib.Data.List.Induction
import MustacheJsx.Proofs.Scope.Refinement

/-!
# Names that a template mentions

Partials, links, calls of helpers and attributes that generate attributes mention names that the
output imports. `Template.mentions` lists them in the order of the walk, and the lists of the walk
are what is left of the mentions one by one. A name may end up in both lists: a call looks for a
component of its name, but a component does not look for a call.
-/

namespace MustacheJsx

/-- A name in a template that the output needs: of a component, of a helper that is called, or of
the function for an attribute that generates attributes. -/
inductive Mention where
  | component (name : String)
  | helper (name : String)
  | generator
  deriving DecidableEq

def Mention.name : Mention → String
  | .component name => name
  | .helper name => name
  | .generator => Vocabulary.generatorFunction

/-! ### In the order of the walk -/

def Expression.calleeMentions (callee : Expression) : List Mention :=
  match callee.helperName? with
  | some name => [.helper name]
  | none => []

mutual

def Expression.mentions : Expression → List Mention
  | .path _ => []
  | .literal _ => []
  | .call callee params hash =>
    callee.calleeMentions ++ (mentionsOfParams params ++ mentionsOfHash hash)

def Expression.mentionsOfParams : List Expression → List Mention
  | [] => []
  | param :: params => param.mentions ++ mentionsOfParams params

def Expression.mentionsOfHash : List (String × Expression) → List Mention
  | [] => []
  | (_, value) :: pairs => value.mentions ++ mentionsOfHash pairs

end

def mentionsOfArguments (params : List Expression) (hash : Hash) : List Mention :=
  Expression.mentionsOfParams params ++ Expression.mentionsOfHash hash

def Mustache.mentions (m : Mustache) : List Mention :=
  if m.isHelperCall then m.callee.calleeMentions ++ mentionsOfArguments m.params m.hash
  else m.callee.mentions

def BlockHead.mentions (head : BlockHead) : List Mention :=
  if head.name = "linkTo" then [.component Vocabulary.link] else []

mutual

def Statement.mentions : Statement → List Mention
  | .element _ attributes children _ => mentionsOfAttributes attributes ++ mentionsOfAll children
  | .text _ => []
  | .mustache m => m.mentions
  | .block head program inverse =>
    head.mentions ++ mentionsOfArguments head.params head.hash ++ mentionsOfBody program ++
      match inverse with
      | some body => mentionsOfBody body
      | none => []
  | .partialCall call => .component call.name :: mentionsOfArguments call.params call.hash
  | .mustacheComment _ => []
  | .markupComment _ => []

def Statement.mentionsOfAll : List Statement → List Mention
  | [] => []
  | statement :: statements => statement.mentions ++ mentionsOfAll statements

def Statement.mentionsOfBody : Body → List Mention
  | .mk _ statements => mentionsOfAll statements

def Statement.mentionsOfAttributes : List Attribute → List Mention
  | [] => []
  | .mk name value :: attributes =>
    (if Text.startsWith Vocabulary.generatorAttribute.toList name.toList then
      [.generator] else []) ++
      (mentionsOfValue value ++ mentionsOfAttributes attributes)

def Statement.mentionsOfValue : AttributeValue → List Mention
  | .text _ => []
  | .mustache m => m.mentions
  | .concat parts => mentionsOfAll parts

end

/-- The names that a template mentions, in the order of the walk. -/
def Template.mentions (template : Template) : List Mention := Statement.mentionsOfAll template

/-! ### What mentions leave -/

abbrev Called := List String × List String

/-- Notes a mention: a helper is not noted if a component has its name already. -/
def Mention.note (called : Called) : Mention → Called
  | .component name => (Annotations.insertName name called.1, called.2)
  | .helper name =>
    if called.1.contains name then called
    else (called.1, Annotations.insertName name called.2)
  | .generator => (called.1, Annotations.insertName Vocabulary.generatorFunction called.2)

def Mention.noteAll (called : Called) (mentions : List Mention) : Called :=
  mentions.foldl Mention.note called

def Mention.HasComponent (mentions : List Mention) (name : String) : Prop :=
  .component name ∈ mentions

theorem mem_insertName {name other : String} {names : List String} :
    other ∈ Annotations.insertName name names ↔ other ∈ names ∨ other = name := by
  rw [Annotations.insertName]
  split
  · next h =>
    constructor
    · exact .inl
    · rintro (hm | rfl)
      · exact hm
      · exact List.contains_iff_mem.1 h
  · rw [List.mem_append, List.mem_singleton]

theorem nodup_insertName {name : String} {names : List String} (h : names.Nodup) :
    (Annotations.insertName name names).Nodup := by
  rw [Annotations.insertName]
  split
  · exact h
  · next hnew =>
    refine List.nodup_append.2 ⟨h, List.nodup_singleton _, ?_⟩
    rintro other hm _ hs rfl
    rw [List.mem_singleton.1 hs] at hm
    exact hnew (List.contains_iff_mem.2 hm)

namespace Mention

theorem noteAll_append (called : Called) (mentions others : List Mention) :
    noteAll called (mentions ++ others) = noteAll (noteAll called mentions) others :=
  List.foldl_append

theorem nodup_noteAll (mentions : List Mention) :
    (noteAll ([], []) mentions).1.Nodup ∧ (noteAll ([], []) mentions).2.Nodup := by
  induction mentions using List.reverseRecOn with
  | nil => exact ⟨List.nodup_nil, List.nodup_nil⟩
  | append_singleton mentions m ih =>
    rw [noteAll_append]
    change (note (noteAll ([], []) mentions) m).1.Nodup ∧
      (note (noteAll ([], []) mentions) m).2.Nodup
    cases m with
    | component name => exact ⟨nodup_insertName ih.1, ih.2⟩
    | generator => exact ⟨ih.1, nodup_insertName ih.2⟩
    | helper name =>
      rw [note]
      split
      · exact ih
      · exact ⟨ih.1, nodup_insertName ih.2⟩

theorem mem_components {mentions : List Mention} {name : String} :
    name ∈ (noteAll ([], []) mentions).1 ↔ HasComponent mentions name := by
  induction mentions using List.reverseRecOn with
  | nil => simp [noteAll, HasComponent]
  | append_singleton mentions m ih =>
    rw [noteAll_append, HasComponent, List.mem_append, List.mem_singleton, ← HasComponent, ← ih]
    change name ∈ (note (noteAll ([], []) mentions) m).1 ↔ _
    cases m with
    | component other => simp only [note, mem_insertName, Mention.component.injEq]
    | generator => simp only [note, reduceCtorEq, or_false]
    | helper other =>
      rw [note]
      split <;> simp only [reduceCtorEq, or_false]

/-- A mention that is noted as a helper: a function that generates attributes always is, a helper if
no component of its name is mentioned before it. -/
def Imports (before : List Mention) : Mention → Prop
  | .component _ => False
  | .helper name => ¬ HasComponent before name
  | .generator => True

theorem mem_helpers {mentions : List Mention} {name : String} :
    name ∈ (noteAll ([], []) mentions).2 ↔
      ∃ before m after, mentions = before ++ m :: after ∧ m.name = name ∧ Imports before m := by
  induction mentions using List.reverseRecOn with
  | nil => simp [noteAll]
  | append_singleton mentions m ih =>
    have hlast : name ∈ (note (noteAll ([], []) mentions) m).2 ↔
        name ∈ (noteAll ([], []) mentions).2 ∨ m.name = name ∧ Imports mentions m := by
      cases m with
      | component other => simp [note, Imports]
      | generator => simp [note, Imports, Mention.name, mem_insertName, eq_comm]
      | helper other =>
        rw [note]
        split
        · next hc =>
          have hcomponent := mem_components.1 (List.contains_iff_mem.1 hc)
          simp [Imports, hcomponent]
        · next hc =>
          have hcomponent : ¬ HasComponent mentions other := fun h =>
            hc (List.contains_iff_mem.2 (mem_components.2 h))
          simp [Imports, Mention.name, hcomponent, mem_insertName, eq_comm]
    rw [noteAll_append]
    change name ∈ (note (noteAll ([], []) mentions) m).2 ↔ _
    rw [hlast, ih]
    constructor
    · rintro (⟨before, found, after, rfl, hname, himports⟩ | ⟨hname, himports⟩)
      · exact ⟨before, found, after ++ [m], by simp, hname, himports⟩
      · exact ⟨mentions, m, [], rfl, hname, himports⟩
    · rintro ⟨before, found, after, heq, hname, himports⟩
      rcases List.eq_nil_or_concat after with rfl | ⟨after', last, rfl⟩
      · obtain ⟨rfl, hm⟩ := List.append_inj' heq rfl
        cases hm
        exact .inr ⟨hname, himports⟩
      · rw [List.concat_eq_append, ← List.cons_append, ← List.append_assoc] at heq
        obtain ⟨rfl, -⟩ := List.append_inj' heq rfl
        exact .inl ⟨before, found, after', rfl, hname, himports⟩

/-- Every name that is mentioned is noted, as a component or as a helper. -/
theorem mentioned_iff {mentions : List Mention} {name : String} :
    name ∈ (noteAll ([], []) mentions).1 ∨ name ∈ (noteAll ([], []) mentions).2 ↔
      ∃ m ∈ mentions, m.name = name := by
  rw [mem_components, mem_helpers]
  constructor
  · rintro (hm | ⟨before, m, after, rfl, hname, -⟩)
    · exact ⟨_, hm, rfl⟩
    · exact ⟨m, List.mem_append_right _ List.mem_cons_self, hname⟩
  · rintro ⟨m, hm, rfl⟩
    by_cases hcomponent : HasComponent mentions m.name
    · exact .inl hcomponent
    · obtain ⟨before, after, rfl⟩ := List.append_of_mem hm
      refine .inr ⟨before, m, after, rfl, rfl, ?_⟩
      cases m with
      | component name => exact hcomponent hm
      | generator => exact trivial
      | helper name => exact fun hb => hcomponent (List.mem_append_left _ hb)

/-- A name of a component belongs to the component: whatever else mentions it is a call of a helper
after the component. -/
def ComponentsFirst (mentions : List Mention) : Prop :=
  ∀ before m after, mentions = before ++ m :: after → HasComponent mentions m.name →
    m = .component m.name ∨ m = .helper m.name ∧ HasComponent before m.name

theorem disjoint_iff {mentions : List Mention} :
    (∀ name ∈ (noteAll ([], []) mentions).1, name ∉ (noteAll ([], []) mentions).2) ↔
      ComponentsFirst mentions := by
  constructor
  · intro h before m after heq hcomponent
    have hfree := h m.name (mem_components.2 hcomponent)
    rw [mem_helpers] at hfree
    cases m with
    | component name => exact .inl rfl
    | generator => exact absurd ⟨before, _, after, heq, rfl, trivial⟩ hfree
    | helper name =>
      refine .inr ⟨rfl, ?_⟩
      by_contra hb
      exact hfree ⟨before, _, after, heq, rfl, hb⟩
  · intro h name hcomponent hhelper
    obtain ⟨before, m, after, heq, rfl, himports⟩ := mem_helpers.1 hhelper
    rcases h before m after heq (mem_components.1 hcomponent) with hm | ⟨hm, hb⟩
    · rw [hm] at himports
      exact himports
    · rw [hm] at himports
      exact himports hb

end Mention

/-! ### The walk -/

namespace Walk

def called (w : Walk) : Called := (w.annotations.partials, w.annotations.helpers)

/-- What a part of the walk from `w` to `w'` notes is what the mentions of that part leave. -/
def Notes (w w' : Walk) (mentions : List Mention) : Prop :=
  w'.called = Mention.noteAll w.called mentions

theorem Notes.of_same {w w' : Walk} (h : w'.called = w.called) : Notes w w' [] := h

theorem Notes.append {w w' w'' : Walk} {mentions others : List Mention} (h : Notes w w' mentions)
    (h' : Notes w' w'' others) : Notes w w'' (mentions ++ others) := by
  rw [Notes, Mention.noteAll_append, ← h, ← h']

theorem visitPath_notes (w : Walk) (path : Path) : Notes w (w.visitPath path) [] := by
  rw [visitPath]
  split <;> exact .of_same rfl

theorem visitCallee_notes (w : Walk) (callee : Expression) :
    Notes w (w.visitCallee callee) callee.calleeMentions := by
  rw [visitCallee, Annotations.addCallee, Expression.calleeMentions]
  cases callee.helperName? with
  | none => exact .of_same rfl
  | some name =>
    change called _ = Mention.note w.called (.helper name)
    dsimp only [Mention.note, called]
    split <;> rfl

mutual

theorem visitExpression_notes (w : Walk) (e : Expression) :
    Notes w (w.visitExpression e) e.mentions := by
  match e with
  | .path p => exact visitPath_notes w p
  | .literal _ => exact .of_same rfl
  | .call callee params hash =>
    exact (visitCallee_notes w callee).append
      ((visitParams_notes _ params).append (visitHash_notes _ hash))

theorem visitParams_notes (w : Walk) (params : List Expression) :
    Notes w (w.visitParams params) (Expression.mentionsOfParams params) := by
  match params with
  | [] => exact .of_same rfl
  | param :: params =>
    exact (visitExpression_notes w param).append (visitParams_notes _ params)

theorem visitHash_notes (w : Walk) (hash : List (String × Expression)) :
    Notes w (w.visitHash hash) (Expression.mentionsOfHash hash) := by
  match hash with
  | [] => exact .of_same rfl
  | (key, value) :: pairs =>
    exact (visitExpression_notes w value).append (visitHash_notes _ pairs)

end

theorem visitArguments_notes (w : Walk) (params : List Expression) (hash : Hash) :
    Notes w ((w.visitParams params).visitHash hash) (mentionsOfArguments params hash) :=
  (visitParams_notes w params).append (visitHash_notes _ hash)

theorem visitMustache_notes (w : Walk) (m : Mustache) :
    Notes w (w.visitMustache m) m.mentions := by
  rw [visitMustache, Mustache.mentions]
  split
  · exact (visitCallee_notes w m.callee).append (visitArguments_notes _ m.params m.hash)
  · exact visitExpression_notes w m.callee

theorem visitPartial_notes (w : Walk) (call : PartialCall) :
    Notes w (w.visitPartial call)
      (.component call.name :: mentionsOfArguments call.params call.hash) := by
  have hname : Notes w { w with annotations := w.annotations.addPartial call.name }
      [.component call.name] := rfl
  exact hname.append (visitArguments_notes _ call.params call.hash)

theorem announce_notes (w : Walk) (head : BlockHead) :
    Notes w (w.announce head) head.mentions := by
  have hother : head.name ≠ "linkTo" → head.mentions = [] := fun h => if_neg h
  rw [announce.eq_def]
  split
  · next h =>
    rw [hother (by simp [h])]
    exact .of_same rfl
  · split
    · next h =>
      rw [hother (by simp [h])]
      repeat' split
      all_goals exact .of_same rfl
    · split
      · next h =>
        rw [BlockHead.mentions, if_pos h]
        rfl
      · next h =>
        rw [hother h]
        exact .of_same rfl

theorem enter_notes (w : Walk) (id : Nat) : Notes w (w.enter id) [] := by
  rw [enter]
  split <;> exact .of_same rfl

theorem leave_notes (w : Walk) (id : Nat) : Notes w (w.leave id) [] := by
  rw [leave]
  repeat' split
  all_goals exact .of_same rfl

theorem visitName_notes (w : Walk) (name : String) :
    Notes w (w.visitName name)
      (if Text.startsWith Vocabulary.generatorAttribute.toList name.toList then
        [.generator] else []) := by
  rw [visitName]
  split <;> rfl

mutual

theorem visitStatement_notes (w : Walk) (statement : Statement) :
    Notes w (w.visitStatement statement) statement.mentions := by
  match statement with
  | .text _ | .mustacheComment _ | .markupComment _ => exact .of_same rfl
  | .mustache m => exact visitMustache_notes w m
  | .partialCall call => exact visitPartial_notes w call
  | .element tag attributes children selfClosing =>
    exact (visitAttributes_notes w attributes).append (visitStatements_notes _ children)
  | .block head program inverse =>
    have hprogram := ((announce_notes w head).append
      (visitArguments_notes (w.announce head) head.params head.hash)).append
      (visitBody_notes _ program)
    cases inverse with
    | none => exact hprogram.append (.of_same rfl)
    | some body => exact hprogram.append (visitBody_notes _ body)

theorem visitStatements_notes (w : Walk) (statements : List Statement) :
    Notes w (w.visitStatements statements) (Statement.mentionsOfAll statements) := by
  match statements with
  | [] => exact .of_same rfl
  | statement :: statements =>
    exact (visitStatement_notes w statement).append (visitStatements_notes _ statements)

theorem visitBody_notes (w : Walk) (body : Body) :
    Notes w (w.visitBody body) (Statement.mentionsOfBody body) := by
  match body with
  | .mk id statements =>
    have hinner := (enter_notes w id).append (visitStatements_notes (w.enter id) statements)
    have hall := hinner.append (leave_notes _ id)
    rw [List.nil_append, List.append_nil] at hall
    exact hall

theorem visitAttributes_notes (w : Walk) (attributes : List Attribute) :
    Notes w (w.visitAttributes attributes) (Statement.mentionsOfAttributes attributes) := by
  match attributes with
  | [] => exact .of_same rfl
  | .mk name value :: attributes =>
    exact (visitName_notes w name).append
      ((visitValue_notes _ value).append (visitAttributes_notes _ attributes))

theorem visitValue_notes (w : Walk) (value : AttributeValue) :
    Notes w (w.visitValue value) (Statement.mentionsOfValue value) := by
  match value with
  | .text _ => exact .of_same rfl
  | .mustache m => exact visitMustache_notes w m
  | .concat parts => exact visitStatements_notes w parts

end

end Walk

theorem Template.called_of_resolve {template : Template} {options : Options} {notes : Annotations}
    (h : template.resolve options = .ok notes) :
    (notes.partials, notes.helpers) = Mention.noteAll ([], []) template.mentions := by
  have hnotes := Walk.visitStatements_notes { scopes := Scope.initial options } template
  rw [resolve] at h
  split at h
  · cases h
  · cases h
    exact hnotes

end MustacheJsx
