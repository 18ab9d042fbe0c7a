import MustacheJsx.Proofs.Conversion.Names
import MustacheJsx.Proofs.Conversion.Plain
import MustacheJsx.Proofs.Conversion.Spellings
import MustacheJsx.Proofs.Extraction.Places
import MustacheJsx.Proofs.Reading.Distinct

/-!
# When attributes are unambiguous

Two routes can lead to one name of an attribute in code: a respelled name and the name that it is
respelled to, two arguments of a partial, an argument named like the context, a key that is written
and the key of a loop. `Statement.Ambiguous` has a case for each, and the code of a template that
was read is unambiguous exactly if it has none: `Template.program_unambiguous_iff`.
-/

namespace MustacheJsx

/-! ### Attributes of code -/

/-- The name of an attribute; a spread has none of its own. -/
def Jsx.Attribute.name? : Jsx.Attribute → Option String
  | .raw name _ => some name
  | .term name _ => some name
  | .spread _ => none

def Jsx.Element.names : Jsx.Element → List String
  | .mk _ attributes _ _ => attributes.filterMap Jsx.Attribute.name?

def Jsx.Element.keys : Jsx.Element → List Jsx.Attribute
  | .mk _ attributes _ _ => attributes.filter fun a => a.name? == some Vocabulary.key

/-- The attributes of an element have different names, and a method that is called is that of a
loop, whose turns are elements with the index for their only key. -/
def Jsx.Part.IsUnambiguous : Jsx.Part → Prop
  | .term (.element e) => e.names.Nodup
  | .term (.call (.member _ method) arguments) =>
    ∃ turn : Jsx.Element, method = "map" ∧
      arguments = [.arrow [Vocabulary.loopItem, Vocabulary.loopIndex] (.element turn)] ∧
      turn.keys = [.term Vocabulary.key (.name Vocabulary.loopIndex)]
  | _ => True

/-- Everything in a part is unambiguous. -/
abbrev Unambiguous (part : Jsx.Part) : Prop := part.All Jsx.Part.IsUnambiguous

abbrev AllUnambiguous (parts : List Jsx.Part) : Prop :=
  Jsx.Part.AllOf Jsx.Part.IsUnambiguous parts

/-! ### Where names collide -/

/-- The first name is respelled to the second, which is no other spelling of it. -/
def AttributeName.Collides (first second : String) : Prop :=
  inElements first = second ∧ smallName first.toList ≠ smallName second.toList

/-- A body is one element or partial that a key is written for. -/
inductive Body.HasKey : Body → Prop where
  | element {id : Nat} {tag : String} {attributes : List Attribute} {children : List Statement}
      {selfClosing : Bool} {a : Attribute} (ha : a ∈ attributes) (hname : a.name = Vocabulary.key) :
    HasKey (.mk id [.element tag attributes children selfClosing])
  | partialCall {id : Nat} {call : PartialCall} (h : Vocabulary.key ∈ call.hash.map Prod.fst) :
    HasKey (.mk id [.partialCall call])

/-- A statement for which two attributes of one name are written. -/
inductive Statement.Ambiguous : Statement → Prop where
  | respelled {tag : String} {attributes : List Attribute} {children : List Statement}
      {selfClosing : Bool} {a b : Attribute} (ha : a ∈ attributes) (hb : b ∈ attributes)
      (h : AttributeName.Collides a.name b.name) :
    Ambiguous (.element tag attributes children selfClosing)
  | repeated {call : PartialCall} (h : ¬ (call.hash.map Prod.fst).Nodup) :
    Ambiguous (.partialCall call)
  | context {call : PartialCall} (hparams : call.params ≠ [])
      (h : Vocabulary.context ∈ call.hash.map Prod.fst) : Ambiguous (.partialCall call)
  | key {head : BlockHead} {program : Body} {inverse : Option Body} (hname : head.name = "each")
      (h : program.HasKey) : Ambiguous (.block head program inverse)

/-! ### Names of attributes -/

namespace AttributeName

def written? (name : String) : Option String :=
  if isGenerator name then none else if isKept name then some (inElements name) else none

theorem inElements_cases (name : String) :
    (∃ other, (smallName name.toList, other) ∈ respelled ∧ inElements name = other) ∨
      inElements name = name := by
  have heq : inElements name = (respelled.lookup (smallName name.toList)).getD name := rfl
  cases h : respelled.lookup (smallName name.toList) with
  | none => exact .inr (by rw [heq, h]; rfl)
  | some other =>
    obtain ⟨before, after, hsplit, -⟩ := List.lookup_eq_some_iff.1 h
    refine .inl ⟨other, ?_, by rw [heq, h]; rfl⟩
    rw [hsplit]
    simp

theorem isGenerator_smallName {name : String} (h : isGenerator name = true) :
    isGenerator (smallName name.toList) = true := by
  have hlead : Vocabulary.generatorAttribute.toList.map Text.lowerAscii =
      Vocabulary.generatorAttribute.toList := by decide
  unfold isGenerator at h ⊢
  rw [smallName, String.toList_ofList, Text.startsWith_iff, ← hlead]
  exact (Text.startsWith_iff.1 h).map _

theorem Collides.written {first second : String} (h : Collides first second) :
    written? first = some second ∧ written? second = some second := by
  obtain ⟨hfirst, hdiffer⟩ := h
  rcases inElements_cases first with ⟨other, hentry, heq⟩ | heq
  · obtain ⟨hwritable, hother, hstable, -, hsmall⟩ := respelled_stable _ hentry
    obtain rfl : other = second := heq.symm.trans hfirst
    have hgenerator : isGenerator first = false := by
      cases hg : isGenerator first with
      | false => rfl
      | true =>
        rw [isGenerator_smallName hg] at hsmall
        cases hsmall
    have hkept : isKept first = true := by simp [isKept, hfirst, hwritable]
    have hkept' : isKept other = true := by simp [isKept, hwritable]
    simp [written?, hgenerator, hother, hkept, hkept', hfirst, hstable]
  · exact absurd (congrArg (fun name => smallName name.toList) (heq.symm.trans hfirst)) hdiffer

theorem collides_of_written {first second name : String}
    (hdiffer : smallName first.toList ≠ smallName second.toList)
    (hfirst : written? first = some name) (hsecond : written? second = some name) :
    Collides first second ∨ Collides second first := by
  have hwritten : ∀ {name name'}, written? name = some name' → inElements name = name' := by
    intro name name' h
    unfold written? at h
    split at h
    · cases h
    · split at h
      · exact Option.some.inj h
      · cases h
  have hsame : inElements first = inElements second :=
    (hwritten hfirst).trans (hwritten hsecond).symm
  rcases inElements_cases first with ⟨other, hentry, heq⟩ | heq
  · rcases inElements_cases second with ⟨other', hentry', heq'⟩ | heq'
    · have hsnd : other = other' := heq.symm.trans (hsame.trans heq')
      have hentries := List.inj_on_of_nodup_map respelled_nodup hentry hentry' hsnd
      exact absurd (congrArg Prod.fst hentries) hdiffer
    · exact .inl ⟨hsame.trans heq', hdiffer⟩
  · exact .inr ⟨hsame.symm.trans heq, hdiffer.symm⟩

theorem written?_eq_key {name : String} :
    written? name = some Vocabulary.key ↔ name = Vocabulary.key := by
  constructor
  · intro h
    unfold written? at h
    split at h
    · cases h
    · split at h
      · have hname := Option.some.inj h
        rcases inElements_cases name with ⟨other, hentry, heq⟩ | heq
        · exact absurd (heq.symm.trans hname) (respelled_stable _ hentry).2.2.2.1
        · exact heq.symm.trans hname
      · cases h
  · rintro rfl
    decide +kernel

end AttributeName

section

variable {notes : Annotations}

/-! ### Names of elements and partials -/

theorem Jsx.Attribute.name?_ofText (name value : String) :
    (Jsx.Attribute.ofText name value).name? = some name := by
  unfold Jsx.Attribute.ofText
  split
  · rfl
  · rfl

theorem Attribute.name?_of_toNamed {name : String} {value : AttributeValue}
    {named : Jsx.Attribute} (h : Attribute.toNamed notes name value = .ok named) :
    named.name? = some (AttributeName.inElements name) := by
  cases value with
  | mustache m =>
    obtain ⟨term, -, h⟩ := bind_eq_ok h
    cases h
    rfl
  | text chars =>
    rw [Attribute.toNamed] at h
    split at h
    · obtain ⟨term, -, h⟩ := bind_eq_ok h
      cases h
      rfl
    · cases h
      exact Jsx.Attribute.name?_ofText _ _
  | concat parts =>
    rw [Attribute.toNamed] at h
    split at h
    · obtain ⟨term, -, h⟩ := bind_eq_ok h
      cases h
      rfl
    · split at h
      · cases h
      · obtain ⟨term, -, h⟩ := bind_eq_ok h
        cases h
        rfl

theorem Attribute.name?_of_toJsx {a : Attribute} {converted : Option Jsx.Attribute}
    (h : a.toJsx notes = .ok converted) :
    converted.bind Jsx.Attribute.name? = AttributeName.written? a.name := by
  obtain ⟨name, value⟩ := a
  rw [Attribute.toJsx] at h
  unfold AttributeName.written?
  show _ = if AttributeName.isGenerator name = true then none else _
  split at h
  · next hgenerator =>
    obtain ⟨spread, hspread, h⟩ := bind_eq_ok h
    cases h
    rw [if_pos hgenerator]
    cases value with
    | text => cases hspread
    | mustache | concat =>
      obtain ⟨term, -, hspread⟩ := bind_eq_ok hspread
      cases hspread
      rfl
  · next hgenerator =>
    rw [if_neg hgenerator]
    split at h
    · next hkept =>
      obtain ⟨named, hnamed, h⟩ := bind_eq_ok h
      cases h
      rw [Attribute.name, if_pos hkept]
      exact name?_of_toNamed hnamed
    · next hkept =>
      cases h
      rw [Attribute.name, if_neg hkept]
      rfl

theorem Attribute.names_of_toJsxAll {attributes : List Attribute} {kept : List Jsx.Attribute}
    (h : Attribute.toJsxAll notes attributes = .ok kept) :
    kept.filterMap Jsx.Attribute.name? =
      attributes.filterMap fun a => AttributeName.written? a.name := by
  obtain ⟨converted, hc, h⟩ := bind_eq_ok h
  cases h
  have hall := forall₂_of_mapM_eq_ok hc
  clear hc h
  induction hall with
  | nil => rfl
  | @cons a found attributes converted ha _ ih =>
    have hname := Attribute.name?_of_toJsx ha
    rw [List.filterMap_cons (l := attributes), ← hname, ← ih]
    cases found with
    | none => rfl
    | some kept => simp [List.filterMap_cons]

/-- The names of an element are different exactly if none collide. -/
theorem Attribute.nodup_names_iff {attributes : List Attribute} {kept : List Jsx.Attribute}
    (hdiffer : Attribute.NamesDiffer attributes)
    (h : Attribute.toJsxAll notes attributes = .ok kept) :
    (kept.filterMap Jsx.Attribute.name?).Nodup ↔
      ∀ a ∈ attributes, ∀ b ∈ attributes, ¬ AttributeName.Collides a.name b.name := by
  have hsmall : ∀ {a b : Attribute}, a ∈ attributes → b ∈ attributes → a ≠ b →
      smallName a.name.toList ≠ smallName b.name.toList :=
    fun ha hb hne heq => hne (List.inj_on_of_nodup_map hdiffer ha hb heq)
  rw [names_of_toJsxAll h, List.Nodup, List.pairwise_filterMap]
  constructor
  · intro hpairwise a ha b hb hcollides
    obtain ⟨hfirst, hsecond⟩ := hcollides.written
    have hne : a ≠ b := fun heq => hcollides.2 (by rw [heq])
    have : Std.Symm fun a b : Attribute => ∀ name,
        AttributeName.written? a.name = some name → ∀ name',
          AttributeName.written? b.name = some name' → name ≠ name' :=
      ⟨fun a b h name ha name' hb => (h name' hb name ha).symm⟩
    exact hpairwise.forall ha hb hne _ hfirst _ hsecond rfl
  · intro hnone
    refine List.Nodup.pairwise_of_forall_ne hdiffer.of_map fun a ha b hb hne name hfirst name'
      hsecond heq => ?_
    subst heq
    rcases AttributeName.collides_of_written (hsmall ha hb hne) hfirst hsecond with h | h
    · exact hnone a ha b hb h
    · exact hnone b hb a ha h

theorem Jsx.Attribute.names_of_ofHash {hash : Hash} {named : List Jsx.Attribute}
    (h : Jsx.Attribute.ofHash notes hash = .ok named) :
    named.filterMap Jsx.Attribute.name? = hash.map Prod.fst := by
  induction hash generalizing named with
  | nil =>
    cases h
    rfl
  | cons pair pairs ih =>
    rw [Jsx.Attribute.ofHash.eq_def] at h
    split at h
    · next heq => cases heq
    · next heq =>
      cases heq
      obtain ⟨others, ho, h⟩ := bind_eq_ok h
      cases h
      rw [List.filterMap_cons, Jsx.Attribute.name?_ofText, ih ho]
      rfl
    · next heq =>
      cases heq
      obtain ⟨term, -, h⟩ := bind_eq_ok h
      obtain ⟨others, ho, h⟩ := bind_eq_ok h
      cases h
      rw [List.filterMap_cons, ih ho]
      rfl

/-- The names of a partial are that of the context, if there is one, and those of the arguments. -/
theorem PartialCall.names_of_toElement {call : PartialCall} {element : Jsx.Element}
    (h : call.toElement notes = .ok element) :
    element.names =
      (if call.params = [] then [] else [Vocabulary.context]) ++ call.hash.map Prod.fst := by
  unfold PartialCall.toElement at h
  split at h
  · cases h
  · split at h
    · cases h
    · obtain ⟨context, hc, h⟩ := bind_eq_ok h
      obtain ⟨named, hn, h⟩ := bind_eq_ok h
      cases h
      rw [Jsx.Element.names, List.filterMap_append, Jsx.Attribute.names_of_ofHash hn]
      congr 1
      cases hparams : call.params with
      | nil =>
        rw [hparams] at hc
        cases hc
        rfl
      | cons param params =>
        rw [hparams] at hc
        obtain ⟨term, -, hc⟩ := bind_eq_ok hc
        cases hc
        rfl

theorem PartialCall.nodup_names_iff {call : PartialCall} {element : Jsx.Element}
    (h : call.toElement notes = .ok element) :
    element.names.Nodup ↔ ¬ (Statement.partialCall call).Ambiguous := by
  have hambiguous : (Statement.partialCall call).Ambiguous ↔ ¬ (call.hash.map Prod.fst).Nodup ∨
      (call.params ≠ [] ∧ Vocabulary.context ∈ call.hash.map Prod.fst) := by
    constructor
    · intro h
      cases h with
      | repeated h => exact .inl h
      | context hparams h => exact .inr ⟨hparams, h⟩
    · rintro (h | ⟨hparams, h⟩)
      · exact .repeated h
      · exact .context hparams h
  rw [names_of_toElement h, hambiguous]
  split
  · next hnil => simp [hnil]
  · next hparams =>
    rw [List.singleton_append, List.nodup_cons]
    simp only [ne_eq, hparams, not_false_eq_true, true_and, not_or, not_not]
    exact and_comm

theorem BlockHead.names_of_toLinkAttributes {head : BlockHead} {kept : List Jsx.Attribute}
    (h : head.toLinkAttributes notes = .ok kept) :
    kept.filterMap Jsx.Attribute.name? = ["href"] ∨
      kept.filterMap Jsx.Attribute.name? = ["href", "className"] := by
  obtain ⟨param, -, h⟩ := bind_eq_ok h
  obtain ⟨target, -, h⟩ := bind_eq_ok h
  split at h
  · cases h
    exact .inl rfl
  · obtain ⟨className, -, h⟩ := bind_eq_ok h
    cases h
    exact .inr rfl

/-! ### Parts of code -/

theorem Plain.unambiguous {part : Jsx.Part} (h : Plain part) : Unambiguous part := by
  intro inner hin
  have hplain := h inner hin
  unfold Jsx.Part.IsUnambiguous
  split
  · exact False.elim hplain
  · exact False.elim hplain
  · trivial

theorem AllPlain.unambiguous {parts : List Jsx.Part} (h : AllPlain parts) :
    AllUnambiguous parts :=
  fun part hm => Plain.unambiguous (h part hm)

theorem Jsx.Element.unambiguous_iff {name : String} {kept : List Jsx.Attribute}
    {children : List Jsx.Child} {selfClosing : Bool} (hkept : AllPlain (kept.map .attribute)) :
    Unambiguous (.term (.element (.mk name kept children selfClosing))) ↔
      (kept.filterMap Jsx.Attribute.name?).Nodup ∧ AllUnambiguous (children.map .child) := by
  rw [Unambiguous, Jsx.Part.all_iff]
  refine and_congr_right fun _ => ?_
  rw [Jsx.Part.parts, Jsx.Part.allOf_append]
  exact and_iff_right hkept.unambiguous

theorem PartialCall.unambiguous_iff {call : PartialCall} {element : Jsx.Element}
    (h : call.toElement notes = .ok element) :
    Unambiguous (.term (.element element)) ↔ element.names.Nodup := by
  unfold PartialCall.toElement at h
  split at h
  · cases h
  · split at h
    · cases h
    · obtain ⟨context, hc, h⟩ := bind_eq_ok h
      obtain ⟨named, hn, h⟩ := bind_eq_ok h
      cases h
      have hplain : AllPlain ((context ++ named).map .attribute) := by
        rw [List.map_append]
        exact .append (Jsx.Attribute.ofContext_plain hc) (Jsx.Attribute.ofHash_plain hn)
      exact (Jsx.Element.unambiguous_iff hplain).trans (and_iff_left .nil)

theorem Jsx.Element.fragment_unambiguous_iff {children : List Jsx.Child} :
    Unambiguous (.term (.element (.fragment children))) ↔
      AllUnambiguous (children.map .child) := by
  refine (Jsx.Element.unambiguous_iff .nil).trans (and_iff_right ?_)
  exact List.nodup_nil

theorem Jsx.Part.child_unambiguous_iff {term : Jsx.Term} :
    Unambiguous (.child (.term term)) ↔ Unambiguous (.term term) := by
  rw [Unambiguous, Jsx.Part.all_iff, Jsx.Part.parts, Jsx.Part.allOf_cons]
  exact ⟨fun h => h.2.1, fun h => ⟨trivial, h, .nil⟩⟩

theorem Jsx.Term.asElement_unambiguous_iff {term : Jsx.Term} :
    Unambiguous (.term (.element term.asElement)) ↔ Unambiguous (.term term) := by
  cases term with
  | element e => exact Iff.rfl
  | _ =>
    rw [Jsx.Term.asElement, Jsx.Element.fragment_unambiguous_iff, AllUnambiguous, List.map_cons,
      Jsx.Part.allOf_cons, ← Unambiguous, Jsx.Part.child_unambiguous_iff]
    · exact and_iff_left .nil
    · nofun

/-! ### Loops -/

theorem Jsx.Element.names_keyed (e : Jsx.Element) :
    e.keyed.names = e.names ++ [Vocabulary.key] := by
  obtain ⟨name, kept, children, selfClosing⟩ := e
  exact List.filterMap_append

/-- The key of a loop is the only one exactly if the element has none of its own. -/
theorem Jsx.Element.keys_keyed (e : Jsx.Element) :
    e.keyed.keys = [.term Vocabulary.key (.name Vocabulary.loopIndex)] ↔
      Vocabulary.key ∉ e.names := by
  obtain ⟨name, kept, children, selfClosing⟩ := e
  have hkeys : (Jsx.Element.mk name kept children selfClosing).keyed.keys =
      (kept.filter fun a => a.name? == some Vocabulary.key) ++
        [.term Vocabulary.key (.name Vocabulary.loopIndex)] := List.filter_append _ _
  rw [hkeys, names, List.mem_filterMap]
  simp

theorem Jsx.Element.keyed_unambiguous_iff {e : Jsx.Element} :
    Unambiguous (.term (.element e.keyed)) ↔
      Unambiguous (.term (.element e)) ∧ Vocabulary.key ∉ e.names := by
  have hnodup : e.keyed.names.Nodup ↔ e.names.Nodup ∧ Vocabulary.key ∉ e.names := by
    rw [names_keyed, List.nodup_append_comm, List.singleton_append, List.nodup_cons, and_comm]
  have hkey : Plain (.attribute (.term Vocabulary.key (.name Vocabulary.loopIndex))) :=
    Jsx.Attribute.term_plain (Jsx.Term.name_plain _)
  have hparts : AllUnambiguous (Jsx.Part.term (.element e.keyed)).parts ↔
      AllUnambiguous (Jsx.Part.term (.element e)).parts := by
    obtain ⟨name, kept, children, selfClosing⟩ := e
    rw [keyed, push, Jsx.Part.parts, Jsx.Part.parts, List.map_append, AllUnambiguous,
      AllUnambiguous, Jsx.Part.allOf_append, Jsx.Part.allOf_append, Jsx.Part.allOf_append]
    exact and_congr_left' (and_iff_left (.single hkey.unambiguous))
  rw [Unambiguous, Jsx.Part.all_iff, Unambiguous, Jsx.Part.all_iff, ← AllUnambiguous,
    ← AllUnambiguous, hparts]
  show e.keyed.names.Nodup ∧ _ ↔ (e.names.Nodup ∧ _) ∧ _
  rw [hnodup]
  tauto

/-- A loop is unambiguous if its body is and has no key of its own. -/
theorem Jsx.Term.loop_unambiguous_iff {collection body : Jsx.Term}
    (hcollection : Plain (.term collection)) :
    Unambiguous (.term (.loop collection body)) ↔
      Unambiguous (.term body) ∧ Vocabulary.key ∉ body.asElement.names := by
  have hturn : Unambiguous (.term (.arrow [Vocabulary.loopItem, Vocabulary.loopIndex]
      (.element body.asElement.keyed))) ↔
        Unambiguous (.term body) ∧ Vocabulary.key ∉ body.asElement.names := by
    rw [Unambiguous, Jsx.Part.all_iff, Jsx.Part.parts, Jsx.Part.allOf_cons, ← Unambiguous,
      Jsx.Element.keyed_unambiguous_iff, Jsx.Term.asElement_unambiguous_iff]
    exact ⟨fun h => h.2.1, fun h => ⟨trivial, h, .nil⟩⟩
  have hcall : Jsx.Part.IsUnambiguous (.term (.loop collection body)) ↔
      Vocabulary.key ∉ body.asElement.names := by
    rw [← Jsx.Element.keys_keyed]
    constructor
    · rintro ⟨turn, -, hturn, hkeys⟩
      cases hturn
      exact hkeys
    · intro hkeys
      exact ⟨_, rfl, rfl, hkeys⟩
  have hmember : Unambiguous (.term (.member collection "map")) :=
    .of_parts trivial (.single hcollection.unambiguous)
  rw [Unambiguous, Jsx.Part.all_iff, hcall, Jsx.Term.loop, Jsx.Part.parts, Jsx.Part.allOf_cons,
    List.map_cons, Jsx.Part.allOf_cons]
  refine ⟨fun h => hturn.1 h.2.2.1, fun h => ⟨h.2, hmember, hturn.2 h, .nil⟩⟩

/-! ### Statements -/

/-- No statement that is shown among some is ambiguous. -/
def Statement.AllClear (statements : List Statement) : Prop :=
  ∀ statement : Statement, statement.ReachedBy shown statements → ¬ statement.Ambiguous

namespace Statement

theorem allClear_nil : AllClear [] := fun _ h => absurd h not_reachedBy_nil

theorem allClear_append {statements others : List Statement} :
    AllClear (statements ++ others) ↔ AllClear statements ∧ AllClear others := by
  constructor
  · intro h
    exact ⟨fun s hs => h s (hs.mono (List.subset_append_left _ _)),
      fun s hs => h s (hs.mono (List.subset_append_right _ _))⟩
  · rintro ⟨h, h'⟩ s hs
    cases hs with
    | here hm =>
      rcases List.mem_append.1 hm with hm | hm
      · exact h s (.here hm)
      · exact h' s (.here hm)
    | inside hs houter =>
      rcases List.mem_append.1 houter with houter | houter
      · exact h s (.inside hs houter)
      · exact h' s (.inside hs houter)

theorem allClear_singleton {statement : Statement} :
    AllClear [statement] ↔ ¬ statement.Ambiguous ∧ AllClear statement.shown := by
  constructor
  · intro h
    exact ⟨h _ (.here List.mem_cons_self), fun s hs => h s (.inside hs List.mem_cons_self)⟩
  · rintro ⟨h, h'⟩ s hs
    rcases hs.of_singleton with rfl | hs
    · exact h
    · exact h' s hs

theorem allClear_of_leaf {statement : Statement} (h : ¬ statement.Ambiguous)
    (hshown : statement.shown = []) : AllClear [statement] :=
  allClear_singleton.2 ⟨h, hshown ▸ allClear_nil⟩

theorem element_ambiguous_iff {tag : String} {attributes : List Attribute}
    {children : List Statement} {selfClosing : Bool} :
    ¬ (Statement.element tag attributes children selfClosing).Ambiguous ↔
      ∀ a ∈ attributes, ∀ b ∈ attributes, ¬ AttributeName.Collides a.name b.name := by
  constructor
  · intro h a ha b hb hcollides
    exact h (.respelled ha hb hcollides)
  · intro h hambiguous
    cases hambiguous with
    | respelled ha hb hcollides => exact h _ ha _ hb hcollides

theorem block_ambiguous_iff {head : BlockHead} {program : Body} {inverse : Option Body} :
    (Statement.block head program inverse).Ambiguous ↔ head.name = "each" ∧ program.HasKey := by
  constructor
  · intro h
    cases h with
    | key hname h => exact ⟨hname, h⟩
  · rintro ⟨hname, h⟩
    exact .key hname h

end Statement

/-- What a statement becomes is unambiguous. -/
def Converted.IsUnambiguous : Converted → Prop
  | .text _ => True
  | .comment _ => True
  | .term value => Unambiguous (.term value)
  | .element e => Unambiguous (.term (.element e))

theorem Converted.children_unambiguous_iff (converted : Converted) :
    AllUnambiguous (converted.children.map .child) ↔ converted.IsUnambiguous := by
  cases converted with
  | text chars => exact iff_of_true (Jsx.Child.ofText_plain chars).unambiguous trivial
  | comment value => exact iff_of_true (.single (.of_parts trivial .nil)) trivial
  | term value =>
    rw [children, List.map_cons, AllUnambiguous, Jsx.Part.allOf_cons, ← Unambiguous,
      Jsx.Part.child_unambiguous_iff]
    exact and_iff_left .nil
  | element e =>
    rw [children, List.map_cons, AllUnambiguous, Jsx.Part.allOf_cons, Jsx.Part.all_iff,
      Jsx.Part.parts, Jsx.Part.allOf_cons]
    exact ⟨fun h => h.1.2.1, fun h => ⟨⟨trivial, h, .nil⟩, .nil⟩⟩

theorem Converted.alone_unambiguous_iff {converted : Converted} {term : Jsx.Term}
    (h : converted.alone = .ok term) : Unambiguous (.term term) ↔ converted.IsUnambiguous := by
  cases converted <;> cases h
  · exact iff_of_true (Jsx.Term.string_plain _).unambiguous trivial
  · exact Iff.rfl
  · exact Iff.rfl

theorem Statement.shown_element (tag : String) (attributes : List Attribute)
    (children : List Statement) (selfClosing : Bool) :
    (Statement.element tag attributes children selfClosing).shown =
      if selfClosing || isSelfClosingName tag then [] else children := rfl

/-- An element of markup becomes an element with the attributes that are kept and what is shown. -/
theorem Statement.exists_of_convert_element {tag : String} {attributes : List Attribute}
    {children : List Statement} {selfClosing : Bool} {converted : Converted}
    (h : (Statement.element tag attributes children selfClosing).convert notes = .ok converted) :
    ∃ kept inner, Attribute.toJsxAll notes attributes = .ok kept ∧
      toChildren notes (Statement.element tag attributes children selfClosing).shown = .ok inner ∧
      converted = .element (.mk tag kept inner (selfClosing || isSelfClosingName tag)) := by
  rw [convert] at h
  obtain ⟨kept, hk, h⟩ := bind_eq_ok h
  dsimp only at h
  rw [shown_element]
  split at h
  · next hclosed =>
    cases h
    rw [if_pos hclosed]
    exact ⟨kept, [], hk, rfl, rfl⟩
  · next hopen =>
    obtain ⟨inner, hi, h⟩ := bind_eq_ok h
    cases h
    rw [if_neg hopen]
    exact ⟨kept, inner, hk, hi, rfl⟩

theorem Body.hasKey_iff {body : Body} {term : Jsx.Term} (h : body.toTerm notes = .ok term) :
    Vocabulary.key ∈ term.asElement.names ↔ body.HasKey := by
  have hfragment : ∀ {term : Jsx.Term}, (∀ e, term ≠ .element e) →
      Vocabulary.key ∉ term.asElement.names := by
    intro term hne
    cases term with
    | element e => exact absurd rfl (hne e)
    | _ => exact List.not_mem_nil
  match body with
  | .mk id [] =>
    cases h
    exact iff_of_false List.not_mem_nil nofun
  | .mk id (first :: second :: rest) =>
    obtain ⟨children, -, h⟩ := bind_eq_ok h
    cases h
    exact iff_of_false List.not_mem_nil nofun
  | .mk id [.text chars] =>
    cases h
    exact iff_of_false (hfragment nofun) nofun
  | .mk id [.mustacheComment value] | .mk id [.markupComment value] => cases h
  | .mk id [.mustache m] =>
    obtain ⟨converted, hc, h⟩ := bind_eq_ok h
    obtain ⟨term, ht, hc⟩ := bind_eq_ok hc
    cases hc
    cases h
    refine iff_of_false (hfragment fun e heq => ?_) nofun
    subst heq
    exact (m.toTerm_plain ht) _ (.refl _)
  | .mk id [.partialCall call] =>
    obtain ⟨converted, hc, h⟩ := bind_eq_ok h
    obtain ⟨element, he, hc⟩ := bind_eq_ok hc
    cases hc
    cases h
    have hnames : Vocabulary.key ∈ element.names ↔ Vocabulary.key ∈ call.hash.map Prod.fst := by
      rw [PartialCall.names_of_toElement he, List.mem_append]
      refine or_iff_right ?_
      split
      · exact List.not_mem_nil
      · decide
    refine hnames.trans ⟨.partialCall, fun h => ?_⟩
    cases h with
    | partialCall h => exact h
  | .mk id [.element tag attributes children selfClosing] =>
    obtain ⟨converted, hc, h⟩ := bind_eq_ok h
    obtain ⟨kept, inner, hk, -, rfl⟩ := Statement.exists_of_convert_element hc
    cases h
    have hnames : Vocabulary.key ∈ kept.filterMap Jsx.Attribute.name? ↔
        ∃ a ∈ attributes, a.name = Vocabulary.key := by
      rw [Attribute.names_of_toJsxAll hk, List.mem_filterMap]
      simp only [AttributeName.written?_eq_key]
    refine hnames.trans ⟨?_, fun h => ?_⟩
    · rintro ⟨a, ha, hname⟩
      exact .element ha hname
    · cases h with
      | element ha hname => exact ⟨_, ha, hname⟩
  | .mk id [.block head program inverse] =>
    obtain ⟨converted, hc, h⟩ := bind_eq_ok h
    obtain ⟨value, rfl, hbecomes⟩ := BlockHead.becomes_of_convert hc
    cases h
    refine iff_of_false ?_ nofun
    have hlink : ∀ {kept : List Jsx.Attribute}, head.toLinkAttributes notes = .ok kept →
        Vocabulary.key ∉ kept.filterMap Jsx.Attribute.name? := by
      intro kept hkept
      rcases BlockHead.names_of_toLinkAttributes hkept with heq | heq
      · rw [heq]
        decide
      · rw [heq]
        decide
    cases hbecomes with
    | condition | choice | loop | loopOr => exact hfragment nofun
    | label _ hattributes | link _ hattributes => exact hlink hattributes

/-- A block is unambiguous if its bodies are, and the body of a loop has no key of its own. -/
theorem BlockHead.Becomes.unambiguous_iff {head : BlockHead} {program : Body}
    {inverse : Option Body} {term : Jsx.Term} (h : head.Becomes notes program inverse term)
    (hprogram : ∀ {term}, program.toTerm notes = .ok term →
      (Unambiguous (.term term) ↔ Statement.AllClear program.statements))
    (hchildren : ∀ {children}, program.toChildren notes = .ok children →
      (AllUnambiguous (children.map .child) ↔ Statement.AllClear program.statements))
    (hinverse : ∀ {other}, inverse = some other → ∀ {term}, other.toTerm notes = .ok term →
      (Unambiguous (.term term) ↔ Statement.AllClear other.statements)) :
    Unambiguous (.term term) ↔ Statement.AllClear [.block head program inverse] := by
  have hclear : Statement.AllClear [.block head program inverse] ↔
      ¬ (head.name = "each" ∧ program.HasKey) ∧
        Statement.AllClear (Statement.block head program inverse).shown := by
    rw [Statement.allClear_singleton, Statement.block_ambiguous_iff]
  have hshown {kind : BlockKind} (hkind : BlockKind.ofName? head.name = some kind)
      (hne : kind ≠ .link) : (Statement.block head program inverse).shown =
        program.statements ++ inverse.elim [] Body.statements := by
    rw [Statement.shown, hkind, if_neg fun heq => hne (Option.some.inj heq)]
  have hlink {kept : List Jsx.Attribute} (hkept : head.toLinkAttributes notes = .ok kept) :
      (kept.filterMap Jsx.Attribute.name?).Nodup := by
    rcases BlockHead.names_of_toLinkAttributes hkept with heq | heq
    · rw [heq]
      decide
    · rw [heq]
      decide
  have hnoLoop {kind : BlockKind} (hkind : BlockKind.ofName? head.name = some kind)
      (hne : kind ≠ .loop) : ¬ (head.name = "each" ∧ program.HasKey) :=
    fun h => BlockKind.name_ne_each hkind hne h.1
  cases h with
  | condition hkind htest hbody =>
    rw [hclear, hshown hkind (by rintro ⟨⟩), Unambiguous, Jsx.Part.all_iff, Jsx.Part.parts,
      Jsx.Part.allOf_cons, Jsx.Part.allOf_cons, ← Unambiguous, ← Unambiguous, hprogram hbody,
      Option.elim_none, List.append_nil]
    exact ⟨fun h => ⟨hnoLoop hkind (by rintro ⟨⟩), h.2.2.1⟩,
      fun h => ⟨trivial, (toTest_plain htest).unambiguous, h.2, .nil⟩⟩
  | choice hkind htest hbody hother =>
    rw [hclear, hshown hkind (by rintro ⟨⟩), Unambiguous, Jsx.Part.all_iff, Jsx.Part.parts,
      Jsx.Part.allOf_cons, Jsx.Part.allOf_cons, Jsx.Part.allOf_cons, ← Unambiguous, ← Unambiguous,
      ← Unambiguous, hprogram hbody, hinverse rfl hother, Option.elim_some,
      Statement.allClear_append]
    exact ⟨fun h => ⟨hnoLoop hkind (by rintro ⟨⟩), h.2.2.1, h.2.2.2.1⟩,
      fun h => ⟨trivial, (toTest_plain htest).unambiguous, h.2.1, h.2.2, .nil⟩⟩
  | loop hkind hcollection hbody =>
    rw [hclear, hshown hkind (by rintro ⟨⟩),
      Jsx.Term.loop_unambiguous_iff (toCollection_plain hcollection),
      Body.hasKey_iff hbody, hprogram hbody, Option.elim_none, List.append_nil]
    simp only [BlockKind.name_of_loop hkind, true_and]
    exact and_comm
  | @loopOr collection _ _ _ hkind hcollection hbody hother =>
    have hlength : Plain (.term (.member collection "length")) :=
      .of_parts trivial (.single (toCollection_plain hcollection))
    have hitems : Unambiguous (.term collection.hasItems) :=
      (Jsx.Term.truth_plain hlength).unambiguous
    rw [hclear, hshown hkind (by rintro ⟨⟩), Unambiguous, Jsx.Part.all_iff, Jsx.Part.parts,
      Jsx.Part.allOf_cons, Jsx.Part.allOf_cons, Jsx.Part.allOf_cons, ← Unambiguous, ← Unambiguous,
      ← Unambiguous, Jsx.Term.loop_unambiguous_iff (toCollection_plain hcollection),
      Body.hasKey_iff hbody, hprogram hbody, hinverse rfl hother, Option.elim_some,
      Statement.allClear_append]
    simp only [BlockKind.name_of_loop hkind, true_and]
    exact ⟨fun h => ⟨h.2.2.1.2, h.2.2.1.1, h.2.2.2.1⟩,
      fun h => ⟨trivial, hitems, ⟨h.2.1, h.1⟩, h.2.2, .nil⟩⟩
  | label hkind hattributes hempty hlabel =>
    rw [hclear, Statement.shown, if_pos hkind, hempty,
      Jsx.Element.unambiguous_iff (toLinkAttributes_plain hattributes)]
    exact ⟨fun _ => ⟨hnoLoop hkind (by rintro ⟨⟩), Statement.allClear_nil⟩,
      fun _ => ⟨hlink hattributes, (toLabel_plain hlabel).unambiguous⟩⟩
  | link hkind hattributes _ hbody =>
    rw [hclear, Statement.shown, if_pos hkind,
      Jsx.Element.unambiguous_iff (toLinkAttributes_plain hattributes), hchildren hbody]
    exact ⟨fun h => ⟨hnoLoop hkind (by rintro ⟨⟩), h.2⟩, fun h => ⟨hlink hattributes, h.2⟩⟩

/-- In every element of some statements the names of attributes differ in more than capitals. -/
def Statement.NamesDiffer (statements : List Statement) : Prop :=
  ∀ {name : String} {attributes : List Attribute}, HasElement name attributes statements →
    Attribute.NamesDiffer attributes

mutual

theorem Statement.unambiguous_iff (statement : Statement) {converted : Converted}
    (hnames : NamesDiffer [statement]) (h : statement.convert notes = .ok converted) :
    converted.IsUnambiguous ↔ AllClear [statement] := by
  match statement with
  | .text chars | .mustacheComment value | .markupComment value =>
    cases h
    exact iff_of_true trivial (allClear_of_leaf nofun rfl)
  | .mustache m =>
    obtain ⟨term, ht, h⟩ := bind_eq_ok h
    cases h
    exact iff_of_true (m.toTerm_plain ht).unambiguous (allClear_of_leaf nofun rfl)
  | .partialCall call =>
    obtain ⟨element, he, h⟩ := bind_eq_ok h
    cases h
    rw [allClear_singleton, ← PartialCall.nodup_names_iff he]
    exact (PartialCall.unambiguous_iff he).trans (and_iff_left allClear_nil).symm
  | .element tag attributes children selfClosing =>
    obtain ⟨kept, inner, hk, hi, rfl⟩ := exists_of_convert_element h
    have hown : Attribute.NamesDiffer attributes := hnames (.here List.mem_cons_self)
    have hinner : AllUnambiguous (inner.map .child) ↔
        AllClear (Statement.element tag attributes children selfClosing).shown := by
      rw [shown_element] at hi ⊢
      split at hi
      · next hclosed =>
        cases hi
        rw [if_pos hclosed]
        exact iff_of_true .nil allClear_nil
      · next hopen =>
        rw [if_neg hopen]
        exact toChildren_unambiguous_iff children
          (fun hin => hnames (.child List.mem_cons_self hin)) hi
    rw [Converted.IsUnambiguous, Jsx.Element.unambiguous_iff (Attribute.toJsxAll_plain hk), hinner,
      Attribute.nodup_names_iff hown hk, allClear_singleton, element_ambiguous_iff]
  | .block head program inverse =>
    obtain ⟨term, rfl, hbecomes⟩ := BlockHead.becomes_of_convert h
    refine hbecomes.unambiguous_iff (fun hp => ?_) (fun hc => ?_) ?_
    · exact body_unambiguous_iff program (by
        obtain ⟨id, statements⟩ := program
        exact fun hin => hnames (.program List.mem_cons_self hin)) hp
    · obtain ⟨id, statements⟩ := program
      exact toChildren_unambiguous_iff statements
        (fun hin => hnames (.program List.mem_cons_self hin)) hc
    · cases inverse with
      | none => nofun
      | some body =>
        rintro other ⟨⟩ term ht
        refine body_unambiguous_iff body ?_ ht
        obtain ⟨id, statements⟩ := body
        exact fun hin => hnames (.inverse List.mem_cons_self hin)

theorem Statement.toChildren_unambiguous_iff (statements : List Statement)
    {children : List Jsx.Child} (hnames : NamesDiffer statements)
    (h : toChildren notes statements = .ok children) :
    AllUnambiguous (children.map .child) ↔ AllClear statements := by
  match statements with
  | [] =>
    cases h
    exact iff_of_true .nil allClear_nil
  | statement :: statements =>
    obtain ⟨first, hf, h⟩ := bind_eq_ok h
    obtain ⟨rest, hr, h⟩ := bind_eq_ok h
    cases h
    have hfirst := unambiguous_iff statement (fun hin => hnames (hin.mono fun s hm =>
      List.mem_singleton.1 hm ▸ List.mem_cons_self)) hf
    have hrest := toChildren_unambiguous_iff statements (fun hin => hnames hin.tail) hr
    rw [List.map_append, AllUnambiguous, Jsx.Part.allOf_append, ← AllUnambiguous,
      ← AllUnambiguous, first.children_unambiguous_iff, hfirst, hrest, ← allClear_append]
    rfl

theorem Statement.body_unambiguous_iff (body : Body) {term : Jsx.Term}
    (hnames : NamesDiffer body.statements) (h : body.toTerm notes = .ok term) :
    Unambiguous (.term term) ↔ AllClear body.statements := by
  match body with
  | .mk id [] =>
    cases h
    exact iff_of_true (Jsx.Element.fragment_unambiguous_iff.2 .nil) allClear_nil
  | .mk id [statement] =>
    obtain ⟨single, hs, h⟩ := bind_eq_ok h
    exact (Converted.alone_unambiguous_iff h).trans (unambiguous_iff statement hnames hs)
  | .mk id (first :: second :: rest) =>
    obtain ⟨children, hc, h⟩ := bind_eq_ok h
    cases h
    exact Jsx.Element.fragment_unambiguous_iff.trans
      (toChildren_unambiguous_iff (first :: second :: rest) hnames hc)

end

end

/-! ### Programs -/

def Jsx.Statement.code? : Jsx.Statement → Option Jsx.Term
  | .defaultImport _ _ => none
  | .constant _ init => some init
  | .expression term => some term
  | .defaultExport term => some term

/-- A part of the code of a module. -/
def Jsx.Program.HasPart (program : Jsx.Program) (part : Jsx.Part) : Prop :=
  ∃ statement ∈ program, ∃ term, statement.code? = some term ∧ part.In (.term term)

theorem Helper.toTerm_plain (helper : Helper) : Plain (.term helper.toTerm) := by
  have htest : Plain (.term helper.test) := by
    unfold Helper.test
    dsimp only
    split
    · exact .of_parts trivial (.single (Jsx.Term.name_plain _))
    · exact Jsx.Term.name_plain _
  have hsum : Plain (.term (.sum (helper.consequent.map HelperPart.toTerm))) := by
    refine Jsx.Term.sum_plain (List.forall_mem_map.2 fun part _ => ?_)
    cases part with
    | text chars => exact Jsx.Term.string_plain chars
    | param name => exact Jsx.Term.name_plain name
  unfold Helper.toTerm
  refine .of_parts trivial (.single (.of_parts trivial (.cons htest (.cons hsum (.single ?_)))))
  split
  · exact Jsx.Term.string_plain _
  · exact Jsx.Term.name_plain _

theorem Options.toRoot_unambiguous_iff (options : Options) (root : Jsx.Term) {term : Jsx.Term}
    (h : (options.toRoot root).code? = some term) :
    Unambiguous (.term term) ↔ Unambiguous (.term root) := by
  have hterm : term = if options.isComponent then .arrow [Vocabulary.rootParam] root else root := by
    unfold Options.toRoot at h
    dsimp only at h
    split at h
    · exact (Option.some.inj h).symm
    · exact (Option.some.inj h).symm
  rw [hterm]
  split
  · rw [Unambiguous, Jsx.Part.all_iff, Jsx.Part.parts, Jsx.Part.allOf_cons]
    exact ⟨fun h => h.2.1, fun h => ⟨trivial, h, .nil⟩⟩
  · exact Iff.rfl

/-- In the code of a template that was read no two attributes of an element have one name, and every
turn of a loop is an element with the index for its only key, exactly if no statement that is shown
is ambiguous: if no element has both a name that is respelled and the name that it is respelled to,
no partial has two arguments of one name or one named like the context that it has, and the body of
no loop is one element or partial that a key is written for. -/
theorem Template.program_unambiguous_iff {source : List Char} {template : Template}
    {options : Options}
    {notes : Annotations} {helpers : List Helper} {program : Jsx.Program}
    (hread : Template.read source = .ok template)
    (hprogram : template.toProgram options notes helpers = .ok program) :
    (∀ part, program.HasPart part → part.IsUnambiguous) ↔
      ∀ statement : Statement, statement.ReachedBy Statement.shown template →
        ¬ statement.Ambiguous := by
  obtain ⟨root, hroot, hprogram⟩ := bind_eq_ok hprogram
  cases hprogram
  have hclear : Unambiguous (.term root) ↔ Statement.AllClear template :=
    Statement.body_unambiguous_iff (.mk 0 template) (Template.namesDiffer_of_read hread) hroot
  obtain ⟨term, hterm⟩ : ∃ term, (options.toRoot root).code? = some term := by
    unfold Options.toRoot
    dsimp only
    split
    · exact ⟨_, rfl⟩
    · exact ⟨_, rfl⟩
  refine Iff.trans ?_ ((options.toRoot_unambiguous_iff root hterm).trans hclear)
  constructor
  · intro h part hin
    exact h part ⟨_, List.mem_append_right _ (List.mem_singleton.2 rfl), term, hterm, hin⟩
  · rintro h part ⟨statement, hmem, code, hcode, hin⟩
    rcases List.mem_append.1 hmem with hmem | hmem
    · rcases List.mem_append.1 hmem with hmem | hmem
      · have himport : ∀ statement ∈ notes.toImports helpers, statement.code? = none := by
          refine List.forall_mem_cons.2 ⟨rfl, List.forall_mem_map.2 fun name _ => rfl⟩
        split at hmem
        · rw [himport _ hmem] at hcode
          cases hcode
        · cases hmem
      · obtain ⟨helper, -, rfl⟩ := List.mem_map.1 hmem
        cases hcode
        exact (helper.toTerm_plain).unambiguous part hin
    · cases List.mem_singleton.1 hmem
      rw [hterm] at hcode
      cases hcode
      exact h part hin

def Template.isClassLoop : Template → Bool
  | [.block head (.mk _ [.element "i" [.mk "class" _] [.mustache _] false]) none] =>
    head.name == "each"
  | _ => false

/-- The class and the key of a turn are told apart. -/
theorem Template.classLoop_unambiguous :
    ∃ template notes program,
      Template.read
        "\x7b\x7b#each l\x7d\x7d<i class='c'>\x7b\x7bx\x7d\x7d</i>\x7b\x7b/each\x7d\x7d".toList =
          .ok template ∧
      template.toProgram {} notes [] = .ok program ∧
      ∀ part, program.HasPart part → part.IsUnambiguous := by
  have hcheck : (Template.read
      "\x7b\x7b#each l\x7d\x7d<i class='c'>\x7b\x7bx\x7d\x7d</i>\x7b\x7b/each\x7d\x7d".toList).toOption.any
      (fun template => template.isClassLoop &&
        (template.resolve {}).toOption.any fun notes =>
          (template.toProgram {} notes []).toOption.any fun _ => true) = true := by
    decide +kernel
  obtain ⟨template, hread, h⟩ := exists_ok_of_check hcheck
  rw [Bool.and_eq_true] at h
  obtain ⟨notes, -, hprogram⟩ := exists_ok_of_check h.2
  obtain ⟨program, hprogram, -⟩ := exists_ok_of_check hprogram
  refine ⟨template, notes, program, hread, hprogram,
    (Template.program_unambiguous_iff hread hprogram).2 ?_⟩
  have hloop := h.1
  unfold isClassLoop at hloop
  split at hloop
  · refine Statement.allClear_singleton.2 ⟨?_, ?_⟩
    · rw [Statement.block_ambiguous_iff]
      rintro ⟨-, hkey⟩
      cases hkey with
      | element ha hname =>
        cases List.mem_singleton.1 ha
        simp [Attribute.name, Vocabulary.key] at hname
    · rw [Statement.shown, if_neg (by rw [beq_iff_eq.1 hloop]; decide)]
      refine Statement.allClear_singleton.2 ⟨?_, ?_⟩
      · rw [Statement.element_ambiguous_iff]
        intro a ha b hb hcollides
        cases List.mem_singleton.1 ha
        cases List.mem_singleton.1 hb
        exact hcollides.2 rfl
      · exact Statement.allClear_of_leaf nofun rfl
  · cases hloop

/-- The names of the attributes in a turn of the loop that a component is. -/
def Jsx.Program.turn? : Jsx.Program → Option Jsx.Element
  | [.expression (.arrow _ (.call _ [.arrow _ (.element turn)]))] => some turn
  | _ => none

/-- A key that is written stands beside the key of the loop. -/
theorem Template.writtenKey_is_doubled :
    ∃ template notes program turn,
      Template.read
        "\x7b\x7b#each l\x7d\x7d<i key=\x7b\x7bid\x7d\x7d>x</i>\x7b\x7b/each\x7d\x7d".toList =
          .ok template ∧
      template.toProgram {} notes [] = .ok program ∧ program.turn? = some turn ∧
      turn.names = [Vocabulary.key, Vocabulary.key] := by
  have hcheck : (Template.read
      "\x7b\x7b#each l\x7d\x7d<i key=\x7b\x7bid\x7d\x7d>x</i>\x7b\x7b/each\x7d\x7d".toList).toOption.any
      (fun template => (template.resolve {}).toOption.any fun notes =>
        (template.toProgram {} notes []).toOption.any fun program =>
          program.turn?.any fun turn => turn.names = [Vocabulary.key, Vocabulary.key]) = true := by
    decide +kernel
  obtain ⟨template, hread, h⟩ := exists_ok_of_check hcheck
  obtain ⟨notes, -, h⟩ := exists_ok_of_check h
  obtain ⟨program, hprogram, h⟩ := exists_ok_of_check h
  obtain ⟨turn, hturn, h⟩ := (Option.any_eq_true _ _).1 h
  exact ⟨template, notes, program, turn, hread, hprogram, hturn, of_decide_eq_true h⟩

end MustacheJsx
