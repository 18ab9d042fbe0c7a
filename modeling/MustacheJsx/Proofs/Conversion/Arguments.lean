import MustacheJsx.Conversion.Program
import MustacheJsx.Proofs.Compilation
import MustacheJsx.Proofs.Jsx.Parts

/-!
# What conversion keeps of arguments

An argument of a call becomes a term or a property, and one of a partial an attribute. It is found
again in the code of the statement that it stands in, and so are the arguments in its value. Only
the named arguments of a mustache that has no others are not read, and those of a block that do not
matter to it.
-/

namespace MustacheJsx

/-! ### Places in code -/

def Jsx.Element.keyed (element : Jsx.Element) : Jsx.Element :=
  element.push (.term Vocabulary.key (.name Vocabulary.loopIndex))

/-- A part lies in another: it is that part or lies in what the part is made of. An element on the
way may have been given the key of a loop. -/
inductive Jsx.Part.LiesIn (part : Jsx.Part) : Jsx.Part → Prop where
  | refl : LiesIn part part
  | step {next whole : Jsx.Part} (h : LiesIn part next) (hnext : next ∈ whole.parts) :
    LiesIn part whole
  | keyed {element : Jsx.Element} (h : LiesIn part (.term (.element element))) :
    LiesIn part (.term (.element element.keyed))

/-- What a statement became occurs in a part: as a term, or amid the children of an element. -/
inductive Converted.OccursIn (converted : Converted) (whole : Jsx.Part) : Prop where
  | alone {term : Jsx.Term} (h : converted.alone = .ok term)
    (hin : Jsx.Part.LiesIn (.term term) whole)
  | amid {name : String} {attributes : List Jsx.Attribute} {before after : List Jsx.Child}
    {selfClosing : Bool}
    (hin : Jsx.Part.LiesIn (.term (.element
      (.mk name attributes (before ++ converted.children ++ after) selfClosing))) whole)

namespace Jsx.Part.LiesIn

variable {part middle whole : Jsx.Part}

theorem trans (h : LiesIn part middle) (h' : LiesIn middle whole) : LiesIn part whole := by
  induction h' with
  | refl => exact h
  | step _ hnext ih => exact .step ih hnext
  | keyed _ ih => exact .keyed ih

theorem of_mem (h : part ∈ whole.parts) : LiesIn part whole := .step .refl h

end Jsx.Part.LiesIn

namespace Converted.OccursIn

variable {converted : Converted} {middle whole : Jsx.Part}

theorem trans (h : converted.OccursIn middle) (h' : middle.LiesIn whole) :
    converted.OccursIn whole := by
  cases h with
  | alone ha hin => exact .alone ha (hin.trans h')
  | amid hin => exact .amid (hin.trans h')

theorem liesIn_of_child {term : Jsx.Term} {name : String} {attributes : List Jsx.Attribute}
    {children : List Jsx.Child} {selfClosing : Bool} (child : Jsx.Child) (hm : child ∈ children)
    (hchild : .term term ∈ Jsx.Part.parts (.child child)) :
    Jsx.Part.LiesIn (.term term) (.term (.element (.mk name attributes children selfClosing))) :=
  (Jsx.Part.LiesIn.of_mem hchild).trans
    (.of_mem (List.mem_append_right _ (List.mem_map_of_mem hm)))

theorem liesIn_of_term {term : Jsx.Term} (h : (Converted.term term).OccursIn whole) :
    Jsx.Part.LiesIn (.term term) whole := by
  cases h with
  | alone ha hin =>
    cases ha
    exact hin
  | amid hin =>
    refine (liesIn_of_child (.term term) ?_ List.mem_cons_self).trans hin
    exact List.mem_append_left _ (List.mem_append_right _ List.mem_cons_self)

theorem liesIn_of_element {element : Jsx.Element}
    (h : (Converted.element element).OccursIn whole) :
    Jsx.Part.LiesIn (.term (.element element)) whole := by
  cases h with
  | alone ha hin =>
    cases ha
    exact hin
  | amid hin =>
    refine (liesIn_of_child (.element element) ?_ List.mem_cons_self).trans hin
    exact List.mem_append_left _ (List.mem_append_right _ List.mem_cons_self)

end Converted.OccursIn

/-! ### Arguments -/

/-- An argument by its role: of a call, positional or named, or of a partial, its context or a
named one. -/
inductive Argument where
  | positional (value : Expression)
  | named (key : String) (value : Expression)
  | context (value : Expression)
  | given (key : String) (value : Expression)

def Argument.value : Argument → Expression
  | .positional value => value
  | .named _ value => value
  | .context value => value
  | .given _ value => value

def Argument.ofHash (hash : Hash) : List Argument := hash.map fun (key, value) => .named key value

def Expression.arguments : Expression → List Argument
  | .path _ => []
  | .literal _ => []
  | .call _ params hash => params.map .positional ++ Argument.ofHash hash

/-- An argument is among some, or in the value of one of them. -/
inductive Argument.Beneath (argument : Argument) : List Argument → Prop where
  | here {arguments : List Argument} (h : argument ∈ arguments) : Beneath argument arguments
  | inside {outer : Argument} {arguments : List Argument}
    (h : Beneath argument outer.value.arguments) (houter : outer ∈ arguments) :
    Beneath argument arguments

theorem Argument.not_beneath_nil {argument : Argument} : ¬ argument.Beneath [] := by
  rintro (hm | ⟨-, hm⟩) <;> cases hm

/-- What an argument becomes: a term, a property, or an attribute. -/
def Argument.toPart (notes : Annotations) : Argument → Except CompileError Jsx.Part
  | .positional value => do
    let term ← value.toTerm notes
    return .term term
  | .named key value => do
    let term ← value.toTerm notes
    return .property (.mk (.ofName key) term)
  | .context value => do
    let term ← value.toTerm notes
    return .attribute (.term Vocabulary.context term)
  | .given key (.literal (.string value)) => .ok (.attribute (.ofText key value))
  | .given key value => do
    let term ← value.toTerm notes
    return .attribute (.term key term)

/-- An argument is converted, and what it becomes lies in a part. -/
def Argument.Found (notes : Annotations) (argument : Argument) (whole : Jsx.Part) : Prop :=
  ∃ part, argument.toPart notes = .ok part ∧ part.LiesIn whole

namespace Argument.Found

variable {notes : Annotations} {argument : Argument} {middle whole : Jsx.Part}

theorem trans (h : argument.Found notes middle) (h' : middle.LiesIn whole) :
    argument.Found notes whole := by
  obtain ⟨part, hpart, hin⟩ := h
  exact ⟨part, hpart, hin.trans h'⟩

end Argument.Found

namespace Expression

variable {notes : Annotations}

theorem exists_of_mem_toTerms {params : List Expression} {terms : List Jsx.Term}
    (h : toTerms notes params = .ok terms) {param : Expression} (hm : param ∈ params) :
    ∃ term ∈ terms, param.toTerm notes = .ok term := by
  induction params generalizing terms with
  | nil => cases hm
  | cons first params ih =>
    obtain ⟨term, ht, h⟩ := bind_eq_ok h
    obtain ⟨others, ho, h⟩ := bind_eq_ok h
    cases h
    rcases List.mem_cons.1 hm with rfl | hm
    · exact ⟨term, List.mem_cons_self, ht⟩
    · obtain ⟨other, hother, heq⟩ := ih ho hm
      exact ⟨other, List.mem_cons_of_mem _ hother, heq⟩

theorem exists_of_mem_toProperties {hash : Hash} {properties : List Jsx.Property}
    (h : toProperties notes hash = .ok properties) {key : String} {value : Expression}
    (hm : (key, value) ∈ hash) :
    ∃ term, value.toTerm notes = .ok term ∧ .mk (.ofName key) term ∈ properties := by
  induction hash generalizing properties with
  | nil => cases hm
  | cons first hash ih =>
    obtain ⟨term, ht, h⟩ := bind_eq_ok h
    obtain ⟨others, ho, h⟩ := bind_eq_ok h
    cases h
    rcases List.mem_cons.1 hm with rfl | hm
    · exact ⟨term, ht, List.mem_cons_self⟩
    · obtain ⟨other, heq, hother⟩ := ih ho hm
      exact ⟨other, heq, List.mem_cons_of_mem _ hother⟩

theorem arguments_found {e : Expression} {term : Jsx.Term} (h : e.toTerm notes = .ok term)
    {argument : Argument} (hm : argument ∈ e.arguments) : argument.Found notes (.term term) := by
  cases e with
  | path | literal => cases hm
  | call callee params hash =>
    rw [toTerm.eq_def] at h
    dsimp only at h
    split at h
    · cases h
    · obtain ⟨terms, ht, h⟩ := bind_eq_ok h
      obtain ⟨properties, hp, h⟩ := bind_eq_ok h
      cases h
      rcases List.mem_append.1 hm with hm | hm
      · obtain ⟨param, hparam, rfl⟩ := List.mem_map.1 hm
        obtain ⟨value, hvalue, heq⟩ := exists_of_mem_toTerms ht hparam
        refine ⟨.term value, by rw [Argument.toPart, heq]; rfl, .of_mem ?_⟩
        exact List.mem_cons_of_mem _ (List.mem_map_of_mem (List.mem_append_left _ hvalue))
      · obtain ⟨⟨key, value⟩, hpair, rfl⟩ := List.mem_map.1 hm
        obtain ⟨term, heq, hproperty⟩ := exists_of_mem_toProperties hp hpair
        refine ⟨.property (.mk (.ofName key) term), by rw [Argument.toPart, heq]; rfl, ?_⟩
        have hsome : hash.isEmpty = false := List.isEmpty_eq_false_iff.2 (List.ne_nil_of_mem hpair)
        rw [hsome]
        have hlast : Jsx.Part.LiesIn (.property (.mk (.ofName key) term))
            (.term (.object properties)) := .of_mem (List.mem_map_of_mem hproperty)
        refine hlast.trans (.of_mem (List.mem_cons_of_mem _ (List.mem_map_of_mem ?_)))
        exact List.mem_append_right _ List.mem_cons_self

end Expression

theorem Argument.value_liesIn {notes : Annotations} {argument : Argument} {part : Jsx.Part}
    (h : argument.toPart notes = .ok part) :
    argument.value.arguments = [] ∨
      ∃ term, argument.value.toTerm notes = .ok term ∧ Jsx.Part.LiesIn (.term term) part := by
  rw [toPart.eq_def] at h
  split at h
  · obtain ⟨term, ht, h⟩ := bind_eq_ok h
    cases h
    exact .inr ⟨term, ht, .refl⟩
  · obtain ⟨term, ht, h⟩ := bind_eq_ok h
    cases h
    exact .inr ⟨term, ht, .of_mem (List.mem_cons_of_mem _ List.mem_cons_self)⟩
  · obtain ⟨term, ht, h⟩ := bind_eq_ok h
    cases h
    exact .inr ⟨term, ht, .of_mem List.mem_cons_self⟩
  · exact .inl rfl
  · obtain ⟨term, ht, h⟩ := bind_eq_ok h
    cases h
    exact .inr ⟨term, ht, .of_mem List.mem_cons_self⟩

theorem Argument.Beneath.found {notes : Annotations} {argument : Argument}
    {arguments lost : List Argument} {whole : Jsx.Part} (h : argument.Beneath arguments)
    (hfound : ∀ a ∈ arguments, a.Found notes whole ∨ a ∈ lost) :
    argument.Found notes whole ∨ argument.Beneath lost := by
  induction h with
  | here hm => exact (hfound _ hm).imp_right .here
  | @inside outer arguments h houter ih =>
    rcases hfound outer houter with ⟨part, hpart, hin⟩ | hlost
    · refine ih fun a ha => .inl ?_
      rcases value_liesIn hpart with hnone | ⟨term, ht, hvalue⟩
      · rw [hnone] at ha
        cases ha
      · exact (Expression.arguments_found ht ha).trans (hvalue.trans hin)
    · exact .inr (.inside h hlost)

/-! ### Arguments of statements -/

/-- The arguments that a block reads; of a link these are its target, its class and, if it has no
body, its label. -/
def BlockHead.read (head : BlockHead) (program : Body) : List Expression :=
  if BlockKind.ofName? head.name = some .link then
    head.params.take 1 ++
      (if program.statements.isEmpty then (head.params.drop 1).take 1 else []) ++
      (head.params.drop 2).take 1
  else head.params.take 1

/-- The arguments of a mustache, those in its callee first. -/
def Mustache.arguments (m : Mustache) : List Argument :=
  m.callee.arguments ++ (m.params.map .positional ++ Argument.ofHash m.hash)

/-- The arguments of a mustache that conversion does not read: named ones if there are no others. -/
def Mustache.lostArguments (m : Mustache) : List Argument :=
  if m.isHelperCall then [] else Argument.ofHash m.hash

def PartialCall.arguments (call : PartialCall) : List Argument :=
  call.params.map .context ++ call.hash.map fun (key, value) => .given key value

/-- The arguments in a statement: of a mustache, of a partial, and of the calls that a block
reads. -/
def Statement.arguments : Statement → List Argument
  | .element _ _ _ _ => []
  | .text _ => []
  | .mustache m => m.arguments
  | .block head program _ => (head.read program).flatMap Expression.arguments
  | .partialCall call => call.arguments
  | .mustacheComment _ => []
  | .markupComment _ => []

/-- The arguments in a statement that conversion does not read. -/
def Statement.lostArguments : Statement → List Argument
  | .mustache m => m.lostArguments
  | _ => []

section

variable {notes : Annotations}

theorem Mustache.arguments_found {m : Mustache} {term : Jsx.Term}
    (h : m.toTerm notes = .ok term) {argument : Argument} (hm : argument ∈ m.arguments) :
    argument.Found notes (.term term) ∨ argument ∈ m.lostArguments := by
  rw [Mustache.toTerm] at h
  rw [lostArguments]
  split at h
  · rcases List.mem_append.1 hm with hm | hm
    -- the callee of a call has a name, so it has no arguments itself
    · rw [Expression.toTerm.eq_def] at h
      dsimp only at h
      split at h
      · cases h
      · next hname =>
        cases hc : m.callee with
        | path p =>
          rw [hc] at hm
          cases hm
        | literal | call =>
          rw [hc] at hname
          cases hname
    · exact .inl (Expression.arguments_found h hm)
  · next hvalue =>
    have hparams : m.params = [] := by simpa [isHelperCall] using hvalue
    rw [if_neg hvalue]
    rcases List.mem_append.1 hm with hm | hm
    · exact .inl (Expression.arguments_found h hm)
    · rw [hparams] at hm
      exact .inr hm

theorem Jsx.Attribute.exists_of_mem_ofHash {hash : Hash} {named : List Jsx.Attribute}
    (h : Jsx.Attribute.ofHash notes hash = .ok named) {key : String} {value : Expression}
    (hm : (key, value) ∈ hash) :
    ∃ a ∈ named, (Argument.given key value).toPart notes = .ok (.attribute a) := by
  induction hash generalizing named with
  | nil => cases hm
  | cons first hash ih =>
    rw [Jsx.Attribute.ofHash.eq_def] at h
    split at h
    · next heq => cases heq
    · next heq =>
      cases heq
      obtain ⟨others, ho, h⟩ := bind_eq_ok h
      cases h
      rcases List.mem_cons.1 hm with heq | hm
      · cases heq
        exact ⟨_, List.mem_cons_self, rfl⟩
      · obtain ⟨a, ha, heq⟩ := ih ho hm
        exact ⟨a, List.mem_cons_of_mem _ ha, heq⟩
    · next hother heq =>
      cases heq
      obtain ⟨term, ht, h⟩ := bind_eq_ok h
      obtain ⟨others, ho, h⟩ := bind_eq_ok h
      cases h
      rcases List.mem_cons.1 hm with heq | hm
      · cases heq
        refine ⟨_, List.mem_cons_self, ?_⟩
        rw [Argument.toPart.eq_5 notes _ _ (by simpa using hother), ht]
        rfl
      · obtain ⟨a, ha, heq⟩ := ih ho hm
        exact ⟨a, List.mem_cons_of_mem _ ha, heq⟩

theorem PartialCall.arguments_found {call : PartialCall} {element : Jsx.Element}
    (h : call.toElement notes = .ok element) {argument : Argument}
    (hm : argument ∈ call.arguments) : argument.Found notes (.term (.element element)) := by
  rw [PartialCall.toElement] at h
  split at h
  · cases h
  · split at h
    · cases h
    · next hone =>
      obtain ⟨context, hc, h⟩ := bind_eq_ok h
      obtain ⟨named, hn, h⟩ := bind_eq_ok h
      cases h
      have hattribute : ∀ a ∈ context ++ named, Jsx.Part.LiesIn (.attribute a)
          (.term (.element (.mk call.name (context ++ named) [] true))) :=
        fun a ha => .of_mem (List.mem_append_left _ (List.mem_map_of_mem ha))
      rcases List.mem_append.1 hm with hm | hm
      · obtain ⟨param, hparam, rfl⟩ := List.mem_map.1 hm
        -- a partial with more than one context is refused
        obtain ⟨first, hparams⟩ : ∃ first, call.params = [first] := by
          refine List.length_eq_one_iff.1 ?_
          have hpos := List.length_pos_of_mem hparam
          omega
        rw [hparams] at hc hparam
        cases List.mem_singleton.1 hparam
        obtain ⟨term, ht, hc⟩ := bind_eq_ok hc
        cases hc
        exact ⟨_, by rw [Argument.toPart, ht]; rfl, hattribute _ List.mem_cons_self⟩
      · obtain ⟨⟨key, value⟩, hpair, rfl⟩ := List.mem_map.1 hm
        obtain ⟨a, ha, heq⟩ := Jsx.Attribute.exists_of_mem_ofHash hn hpair
        exact ⟨_, heq, hattribute a (List.mem_append_right _ ha)⟩

/-! ### Blocks -/

/-- What a block becomes, by its kind and its inverse. -/
inductive BlockHead.Becomes (notes : Annotations) (head : BlockHead) (program : Body) :
    Option Body → Jsx.Term → Prop where
  | condition {negated : Bool} {test consequent : Jsx.Term}
    (hkind : BlockKind.ofName? head.name = some (.condition negated))
    (htest : head.toTest notes negated = .ok test)
    (hprogram : program.toTerm notes = .ok consequent) :
    Becomes notes head program none (.and test consequent)
  | choice {negated : Bool} {test consequent alternate : Jsx.Term} {inverse : Body}
    (hkind : BlockKind.ofName? head.name = some (.condition negated))
    (htest : head.toTest notes negated = .ok test)
    (hprogram : program.toTerm notes = .ok consequent)
    (hinverse : inverse.toTerm notes = .ok alternate) :
    Becomes notes head program (some inverse) (.conditional test consequent alternate)
  | loop {collection body : Jsx.Term} (hkind : BlockKind.ofName? head.name = some .loop)
    (hcollection : head.toCollection notes = .ok collection)
    (hprogram : program.toTerm notes = .ok body) :
    Becomes notes head program none (.loop collection body)
  | loopOr {collection body alternate : Jsx.Term} {inverse : Body}
    (hkind : BlockKind.ofName? head.name = some .loop)
    (hcollection : head.toCollection notes = .ok collection)
    (hprogram : program.toTerm notes = .ok body)
    (hinverse : inverse.toTerm notes = .ok alternate) :
    Becomes notes head program (some inverse)
      (.conditional collection.hasItems (.loop collection body) alternate)
  | label {attributes : List Jsx.Attribute} {children : List Jsx.Child} {inverse : Option Body}
    (hkind : BlockKind.ofName? head.name = some .link)
    (hattributes : head.toLinkAttributes notes = .ok attributes)
    (hempty : program.statements = []) (hlabel : head.toLabel notes = .ok children) :
    Becomes notes head program inverse (.element (.mk Vocabulary.link attributes children false))
  | link {attributes : List Jsx.Attribute} {children : List Jsx.Child} {inverse : Option Body}
    (hkind : BlockKind.ofName? head.name = some .link)
    (hattributes : head.toLinkAttributes notes = .ok attributes)
    (hbody : program.statements ≠ []) (hprogram : program.toChildren notes = .ok children) :
    Becomes notes head program inverse (.element (.mk Vocabulary.link attributes children false))

theorem BlockHead.becomes_of_convert {head : BlockHead} {program : Body} {inverse : Option Body}
    {converted : Converted}
    (h : (Statement.block head program inverse).convert notes = .ok converted) :
    ∃ term, converted = .term term ∧ head.Becomes notes program inverse term := by
  rw [Statement.convert.eq_def] at h
  dsimp only at h
  split at h
  · cases h
  · next hkind =>
    obtain ⟨test, ht, h⟩ := bind_eq_ok h
    obtain ⟨consequent, hc, h⟩ := bind_eq_ok h
    cases inverse with
    | none =>
      cases h
      exact ⟨_, rfl, .condition hkind ht hc⟩
    | some other =>
      obtain ⟨alternate, ha, h⟩ := bind_eq_ok h
      cases h
      exact ⟨_, rfl, .choice hkind ht hc ha⟩
  · next hkind =>
    obtain ⟨collection, hc, h⟩ := bind_eq_ok h
    obtain ⟨body, hb, h⟩ := bind_eq_ok h
    cases inverse with
    | none =>
      cases h
      exact ⟨_, rfl, .loop hkind hc hb⟩
    | some other =>
      obtain ⟨alternate, ha, h⟩ := bind_eq_ok h
      cases h
      exact ⟨_, rfl, .loopOr hkind hc hb ha⟩
  · next hkind =>
    obtain ⟨attributes, ha, h⟩ := bind_eq_ok h
    split at h
    · next hempty =>
      obtain ⟨children, hc, h⟩ := bind_eq_ok h
      cases h
      exact ⟨_, rfl, .label hkind ha (List.isEmpty_iff.1 hempty) hc⟩
    · next hempty =>
      obtain ⟨children, hc, h⟩ := bind_eq_ok h
      cases h
      exact ⟨_, rfl, .link hkind ha (fun hnil => hempty (List.isEmpty_iff.2 hnil)) hc⟩

namespace BlockHead

variable {head : BlockHead} {e : Expression}

theorem eq_of_mem_take_one {expected : Expected} {param : Expression}
    (h : head.subject expected = .ok param) (hm : e ∈ head.params.take 1) : e = param := by
  rw [subject] at h
  split at h
  · next heq =>
    cases h
    rw [heq] at hm
    exact List.mem_singleton.1 hm
  · cases h

theorem toTest_reads {negated : Bool} {test : Jsx.Term}
    (h : head.toTest notes negated = .ok test) (hm : e ∈ head.params.take 1) :
    ∃ term, e.toTerm notes = .ok term ∧ Jsx.Part.LiesIn (.term term) (.term test) := by
  obtain ⟨param, hs, h⟩ := bind_eq_ok h
  obtain ⟨term, ht, h⟩ := bind_eq_ok h
  cases h
  have htruth : Jsx.Part.LiesIn (.term term) (.term term.truth) :=
    .of_mem (List.mem_cons_of_mem _ List.mem_cons_self)
  rw [eq_of_mem_take_one hs hm]
  refine ⟨term, ht, ?_⟩
  split
  · exact htruth.trans (.of_mem List.mem_cons_self)
  · exact htruth

theorem toCollection_reads {collection : Jsx.Term}
    (h : head.toCollection notes = .ok collection) (hm : e ∈ head.params.take 1) :
    e.toTerm notes = .ok collection := by
  obtain ⟨param, hs, h⟩ := bind_eq_ok h
  rw [eq_of_mem_take_one hs hm]
  split at h
  · cases h
  · exact h

theorem toLinkAttributes_reads {attributes : List Jsx.Attribute}
    (h : head.toLinkAttributes notes = .ok attributes)
    (hm : e ∈ head.params.take 1 ∨ e ∈ (head.params.drop 2).take 1) :
    ∃ name term, e.toTerm notes = .ok term ∧ .term name term ∈ attributes := by
  obtain ⟨param, hs, h⟩ := bind_eq_ok h
  obtain ⟨target, ht, h⟩ := bind_eq_ok h
  split at h
  · next hnone =>
    cases h
    rw [hnone] at hm
    rcases hm with hm | hm
    · exact ⟨"href", target, eq_of_mem_take_one hs hm ▸ ht, List.mem_cons_self⟩
    · cases hm
  · next third others hsome =>
    obtain ⟨className, hc, h⟩ := bind_eq_ok h
    cases h
    rw [hsome] at hm
    rcases hm with hm | hm
    · exact ⟨"href", target, eq_of_mem_take_one hs hm ▸ ht, List.mem_cons_self⟩
    · cases List.mem_singleton.1 hm
      exact ⟨"className", className, hc, List.mem_cons_of_mem _ List.mem_cons_self⟩

theorem toLabel_reads {children : List Jsx.Child} (h : head.toLabel notes = .ok children)
    (hm : e ∈ (head.params.drop 1).take 1) :
    e.arguments = [] ∨ ∃ term, e.toTerm notes = .ok term ∧ .term term ∈ children := by
  rw [toLabel] at h
  split at h
  · next hnone =>
    rw [hnone] at hm
    cases hm
  · next hsome =>
    rw [hsome] at hm
    cases List.mem_singleton.1 hm
    exact .inl rfl
  · next hsome =>
    obtain ⟨term, ht, h⟩ := bind_eq_ok h
    cases h
    rw [hsome] at hm
    cases List.mem_singleton.1 hm
    exact .inr ⟨term, ht, List.mem_cons_self⟩

end BlockHead

theorem Jsx.Term.liesIn_loop (collection body : Jsx.Term) :
    Jsx.Part.LiesIn (.term body) (.term (.loop collection body)) := by
  have helement : Jsx.Part.LiesIn (.term body) (.term (.element body.asElement)) := by
    cases body with
    | element e => exact .refl
    | _ =>
      exact Converted.OccursIn.liesIn_of_child _ List.mem_cons_self List.mem_cons_self
  have harrow : Jsx.Part.LiesIn (.term (.element body.asElement.keyed))
      (.term (.arrow [Vocabulary.loopItem, Vocabulary.loopIndex]
        (.element body.asElement.keyed))) := .of_mem List.mem_cons_self
  exact helement.keyed.trans (harrow.trans (.of_mem (List.mem_cons_of_mem _ List.mem_cons_self)))

theorem Jsx.Term.collection_liesIn_loop (collection body : Jsx.Term) :
    Jsx.Part.LiesIn (.term collection) (.term (.loop collection body)) :=
  (Jsx.Part.LiesIn.of_mem List.mem_cons_self).trans (.of_mem List.mem_cons_self)

/-- What a block reads lies in what it becomes, unless it is a label of plain text. -/
theorem BlockHead.Becomes.reads {head : BlockHead} {program : Body} {inverse : Option Body}
    {term : Jsx.Term} (h : head.Becomes notes program inverse term) {e : Expression}
    (hm : e ∈ head.read program) :
    e.arguments = [] ∨
      ∃ value, e.toTerm notes = .ok value ∧ Jsx.Part.LiesIn (.term value) (.term term) := by
  have hfirst : BlockKind.ofName? head.name ≠ some .link → e ∈ head.params.take 1 := by
    intro hkind
    rwa [read, if_neg hkind] at hm
  -- the attributes and the children of the link hold the arguments that it reads
  have hlink : ∀ (attributes : List Jsx.Attribute) (children : List Jsx.Child),
      BlockKind.ofName? head.name = some .link → head.toLinkAttributes notes = .ok attributes →
      (e ∈ (if program.statements.isEmpty then (head.params.drop 1).take 1 else []) →
        e.arguments = [] ∨ ∃ value, e.toTerm notes = .ok value ∧ .term value ∈ children) →
      e.arguments = [] ∨ ∃ value, e.toTerm notes = .ok value ∧ Jsx.Part.LiesIn (.term value)
        (.term (.element (.mk Vocabulary.link attributes children false))) := by
    intro attributes children hkind hattributes hlabel
    have hattribute : e ∈ head.params.take 1 ∨ e ∈ (head.params.drop 2).take 1 →
        ∃ value, e.toTerm notes = .ok value ∧ Jsx.Part.LiesIn (.term value)
          (.term (.element (.mk Vocabulary.link attributes children false))) := by
      intro hm
      obtain ⟨name, value, heq, hin⟩ := toLinkAttributes_reads hattributes hm
      have hvalue : Jsx.Part.LiesIn (.term value) (.attribute (.term name value)) :=
        .of_mem List.mem_cons_self
      exact ⟨value, heq, hvalue.trans
        (.of_mem (List.mem_append_left _ (List.mem_map_of_mem hin)))⟩
    rw [read, if_pos hkind, List.mem_append, List.mem_append] at hm
    rcases hm with (hm | hm) | hm
    · exact .inr (hattribute (.inl hm))
    · rcases hlabel hm with hnone | ⟨value, heq, hin⟩
      · exact .inl hnone
      · exact .inr ⟨value, heq, Converted.OccursIn.liesIn_of_child _ hin List.mem_cons_self⟩
    · exact .inr (hattribute (.inr hm))
  cases h with
  | condition hkind htest =>
    obtain ⟨value, heq, hin⟩ := toTest_reads htest (hfirst (by rw [hkind]; exact nofun))
    exact .inr ⟨value, heq, hin.trans (.of_mem List.mem_cons_self)⟩
  | choice hkind htest =>
    obtain ⟨value, heq, hin⟩ := toTest_reads htest (hfirst (by rw [hkind]; exact nofun))
    exact .inr ⟨value, heq, hin.trans (.of_mem List.mem_cons_self)⟩
  | loop hkind hcollection =>
    have heq := toCollection_reads hcollection (hfirst (by rw [hkind]; exact nofun))
    exact .inr ⟨_, heq, Jsx.Term.collection_liesIn_loop _ _⟩
  | loopOr hkind hcollection =>
    have heq := toCollection_reads hcollection (hfirst (by rw [hkind]; exact nofun))
    exact .inr ⟨_, heq, (Jsx.Term.collection_liesIn_loop _ _).trans
      (.of_mem (List.mem_cons_of_mem _ List.mem_cons_self))⟩
  | label hkind hattributes hempty hlabel =>
    refine hlink _ _ hkind hattributes fun hm => toLabel_reads hlabel ?_
    rwa [hempty] at hm
  | link hkind hattributes hbody =>
    refine hlink _ _ hkind hattributes fun hm => ?_
    rw [if_neg (fun h => hbody (List.isEmpty_iff.1 h))] at hm
    cases hm

end

end MustacheJsx
