import MustacheJsx.Proofs.Extraction.Inserting
import MustacheJsx.Proofs.Extraction.Naming
import MustacheJsx.Proofs.Jsx.Definition

/-!
# Helpers as definitions

A helper is written into the output as a constant. Its parameters are one or two different
identifiers, it adds up at least one part, and it names no other parameters. What its names come
from is not looked at twice: an attribute whose name begins with a digit gives a helper no name for
code, and some words of modules pass for parameters. `helper_declares` says that nothing else can be
wrong with a helper.
-/

namespace MustacheJsx

/-! ### Names that code can bind -/

def Jsx.isBindingName (name : String) : Bool :=
  isModuleName name && !(["eval", "arguments"].contains name)

/-- The words that code of a module cannot bind and that parameters do not avoid. -/
def unavoidedWords : List String :=
  ["debugger", "static", "implements", "interface", "package", "private", "protected", "public",
   "eval", "arguments"]

theorem mem_reservedNames_or_unavoidedWords :
    ∀ word ∈ Jsx.moduleWords, word ∈ reservedNames ∨ word ∈ unavoidedWords := by
  decide

theorem mem_of_mem_unavoidedWords :
    ∀ word ∈ unavoidedWords, word ∈ Jsx.moduleWords ∨ word ∈ ["eval", "arguments"] := by
  decide

theorem Jsx.isModuleName_iff {name : String} (h : Text.isIdentifier name.toList = true) :
    isModuleName name = true ↔ IsVariable name.toList := by
  obtain ⟨c, cs, hname, hfirst, hmore⟩ := exists_of_isIdentifier h
  have hshape : (Text.isIdentifierStart c && cs.all Text.isIdentifierPart) = true := by
    rw [isIdentifierStart_of_isIdentifier hfirst, List.all_eq_true.2 hmore]
    rfl
  rw [IsVariable, String.ofList_toList, isModuleName, hname]
  dsimp only
  rw [hshape, ← hname]
  simp [h]

/-- A name as parameters have them: an identifier that is no name to avoid. -/
structure IsParam (name : String) : Prop where
  identifier : Text.isIdentifier name.toList = true
  unreserved : name ∉ reservedNames

theorem IsParam.isBindingName_iff {name : String} (h : IsParam name) :
    Jsx.isBindingName name = true ↔ name ∉ unavoidedWords := by
  rw [Jsx.isBindingName, Bool.and_eq_true, Jsx.isModuleName_iff h.identifier, Jsx.IsVariable,
    String.ofList_toList, Bool.not_eq_true', Bool.eq_false_iff]
  constructor
  · rintro ⟨⟨-, hmodule⟩, hglobal⟩ hmem
    rcases mem_of_mem_unavoidedWords name hmem with hmem | hmem
    · exact hmodule hmem
    · exact hglobal (List.contains_iff_mem.2 hmem)
  · intro hmem
    refine ⟨⟨h.identifier, fun hmodule => ?_⟩, fun hglobal => ?_⟩
    · exact (mem_reservedNames_or_unavoidedWords name hmodule).elim h.unreserved hmem
    · have hall : ∀ word ∈ ["eval", "arguments"], word ∈ unavoidedWords := by decide
      exact hmem (hall name (List.contains_iff_mem.1 hglobal))

theorem isParam_paramName (argument : List Char) {fallback : String} (h : IsParam fallback) :
    IsParam (paramName argument fallback) := by
  rw [paramName]
  split
  · dsimp only
    split
    · next hname =>
      rw [Bool.and_eq_true, Bool.not_eq_true', Bool.eq_false_iff] at hname
      refine ⟨?_, fun hmem => hname.2 (List.contains_iff_mem.2 hmem)⟩
      rw [String.toList_ofList]
      exact hname.1
    · exact h
  · exact h

namespace ConditionalAttribute

variable (a : ConditionalAttribute)

theorem isParam_conditionParam : IsParam a.conditionParam :=
  isParam_paramName a.condition ⟨by decide, by decide⟩

theorem isParam_valueParam (path : List Char) : IsParam (a.valueParam path) := by
  have hfallback : IsParam "value" := ⟨by decide, by decide⟩
  have hname := isParam_paramName path hfallback
  rw [valueParam]
  split
  · refine ⟨?_, fun hmem => ?_⟩
    · obtain ⟨c, cs, hparam⟩ : ∃ c cs, (paramName path "value").toList = c :: cs := by
        obtain ⟨c, cs, hparam, -⟩ := Jsx.exists_of_isIdentifier hname.identifier
        exact ⟨c, cs, hparam⟩
      have hidentifier := hname.identifier
      have hvalue : "Value".toList = ['V', 'a', 'l', 'u', 'e'] := by decide
      rw [hparam, Text.isIdentifier] at hidentifier
      rw [String.toList_append, hparam, hvalue, List.cons_append, Text.isIdentifier,
        List.all_append, ← Bool.and_assoc, hidentifier]
      rfl
    -- No name to avoid has a capital.
    · have hcapital : 'V' ∈ (paramName path "value" ++ "Value").toList := by
        rw [String.toList_append]
        exact List.mem_append_right _ (by decide)
      have hall : ∀ word ∈ reservedNames, 'V' ∉ word.toList := by decide
      exact hall _ hmem hcapital
  · exact hname

end ConditionalAttribute

/-! ### What every helper is -/

/-- A helper takes one or two arguments, and adds up parts of which it knows the parameters. -/
structure Helper.IsShaped (helper : Helper) : Prop where
  count : helper.params.length = 1 ∨ helper.params.length = 2
  distinct : helper.params.Nodup
  consequent : helper.consequent ≠ []
  bound : ∀ name, .param name ∈ helper.consequent → name ∈ helper.params

/-- Besides, code of a module can bind all its names. -/
structure Helper.IsDefinable (helper : Helper) : Prop extends helper.IsShaped where
  name : Jsx.isBindingName helper.name = true
  params : ∀ param ∈ helper.params, Jsx.isBindingName param = true

namespace ConditionalAttribute

variable (a : ConditionalAttribute) (name : String)

theorem textPart_eq {cs : List Char} {name : String} : .param name ∉ textPart cs := by
  rw [textPart]
  split <;> simp

theorem isShaped_helper : (a.helper name).1.IsShaped := by
  rw [helper.eq_def]
  dsimp only
  split
  · next before path rest _ =>
    refine ⟨.inr rfl, ?_, ?_, fun param hparam => ?_⟩
    · have hne := (a.valueParam_ne_conditionParam path).symm
      exact List.nodup_cons.2 ⟨fun hmem => hne (List.mem_singleton.1 hmem), List.nodup_singleton _⟩
    · simp
    · rcases List.mem_append.1 hparam with hparam | hparam
      · rcases List.mem_append.1 hparam with hparam | hparam
        · exact absurd hparam textPart_eq
        · cases List.mem_singleton.1 hparam
          exact List.mem_cons_of_mem _ (List.mem_singleton.2 rfl)
      · exact absurd hparam textPart_eq
  · refine ⟨.inl rfl, List.nodup_singleton _, List.cons_ne_nil _ _, fun param hparam => ?_⟩
    cases List.mem_singleton.1 hparam

theorem isParam_of_mem_params : ∀ param ∈ (a.helper name).1.params, IsParam param := by
  intro param hparam
  rw [helper.eq_def] at hparam
  dsimp only at hparam
  split at hparam
  · rcases List.mem_cons.1 hparam with rfl | hparam
    · exact a.isParam_conditionParam
    · cases List.mem_singleton.1 hparam
      exact a.isParam_valueParam _
  · cases List.mem_singleton.1 hparam
    exact a.isParam_conditionParam

end ConditionalAttribute

/-- A name as helpers have them: the capital of its last word is in none of the words of code. -/
structure IsHelperName (name : String) : Prop where
  chars : ∀ c ∈ name.toList, isHelperChar c = true
  capital : 'H' ∈ name.toList

theorem isHelperName_unique (taken : HelperNames) (name : List Char) (negated : Bool) :
    IsHelperName (taken.unique (helperBase name negated)).1 := by
  refine ⟨(unique_chars taken name negated).2, ?_⟩
  have hbase : 'H' ∈ (helperBase name negated).toList := by
    rw [helperBase, String.toList_append]
    exact List.mem_append_right _ (by decide)
  obtain ⟨k, hk⟩ := taken.exists_candidate (helperBase name negated) 0 taken.length
  rw [HelperNames.unique, hk]
  cases k with
  | zero => exact hbase
  | succ k =>
    rw [HelperNames.candidate, String.toList_append]
    exact List.mem_append_left _ hbase

namespace IsHelperName

variable {name : String}

theorem ne (h : IsHelperName name) {words : List String}
    (hwords : ∀ word ∈ words, 'H' ∉ word.toList) : name ∉ words :=
  fun hmem => hwords name hmem h.capital

theorem isVariable (h : IsHelperName name)
    (hdigit : ∀ c ∈ name.toList.head?, Text.isAsciiDigit c = false) :
    Jsx.IsVariable name.toList := by
  refine ⟨?_, ?_⟩
  · have hchars := h.chars
    cases hname : name.toList with
    | nil =>
      have hcapital := h.capital
      rw [hname] at hcapital
      cases hcapital
    | cons c cs =>
      rw [hname] at hchars hdigit
      obtain ⟨hc, hcs⟩ := List.forall_mem_cons.1 hchars
      rw [isHelperChar, Text.isAsciiAlphanumeric, hdigit c rfl, Bool.or_false] at hc
      rw [Text.isIdentifier, hc, Bool.true_or, Bool.true_and, List.all_eq_true]
      intro d hd
      have hpart := hcs d hd
      rw [isHelperChar] at hpart
      rw [hpart, Bool.true_or]
  · rw [String.ofList_toList]
    exact h.ne (by decide)

theorem isBindingName_iff (h : IsHelperName name) :
    Jsx.isBindingName name = true ↔ ∀ c ∈ name.toList.head?, Text.isAsciiDigit c = false := by
  constructor
  · intro hbinding c hc
    rw [Jsx.isBindingName, Bool.and_eq_true, Jsx.isModuleName] at hbinding
    obtain ⟨cs, hname⟩ := List.head?_eq_some_iff.1 hc
    rw [hname] at hbinding
    have hstart := (Bool.and_eq_true_iff.1 (Bool.and_eq_true_iff.1 hbinding.1).1).1
    have hall : ∀ n < 128, Text.isAsciiDigit (Char.ofNat n) = true →
        Text.isIdentifierStart (Char.ofNat n) = false := by decide +kernel
    rw [Bool.eq_false_iff]
    intro hdigit
    have hrange := toNat_of_isAsciiDigit hdigit
    have hc := hall c.toNat (by omega)
    rw [Char.ofNat_toNat] at hc
    exact Bool.eq_false_iff.1 (hc hdigit) hstart
  · intro hdigit
    have hvariable := h.isVariable hdigit
    have hglobal : ["eval", "arguments"].contains name = false := by
      rw [Bool.eq_false_iff]
      exact fun hmem => h.ne (by decide) (List.contains_iff_mem.1 hmem)
    rw [Jsx.isBindingName, (Jsx.isModuleName_iff hvariable.1).2 hvariable, hglobal]
    rfl

end IsHelperName

/-- What extraction makes sure of. -/
structure Helper.IsExtracted (helper : Helper) : Prop extends helper.IsShaped where
  name : IsHelperName helper.name
  params : ∀ param ∈ helper.params, IsParam param

theorem Helper.isExtracted_of_prepare {template : List Char} {prepared : Prepared}
    (h : prepare template = .ok prepared) : ∀ helper ∈ prepared.helpers, helper.IsExtracted := by
  have hinvariant : HelperInvariant fun _ helpers => ∀ helper ∈ helpers, helper.IsExtracted := by
    refine ⟨nofun, fun {a helper text names names' helpers} hall hextract => ?_⟩
    obtain ⟨-, name, hname, rfl, -⟩ := ConditionalAttribute.of_extract hextract
    refine List.forall_mem_append.2 ⟨hall, List.forall_mem_singleton.2
      ⟨a.isShaped_helper name, ?_, a.isParam_of_mem_params name⟩⟩
    rw [a.name_helper]
    have hunique := isHelperName_unique names a.name a.negated
    rwa [hname] at hunique
  obtain ⟨-, hall⟩ := hinvariant.of_prepare h
  exact hall

/-! ### Definitions -/

namespace Helper

variable {helper : Helper}

theorem IsExtracted.isDefinable_iff (h : helper.IsExtracted) :
    helper.IsDefinable ↔ (∀ c ∈ helper.name.toList.head?, Text.isAsciiDigit c = false) ∧
      ∀ word ∈ unavoidedWords, word ∉ helper.params := by
  constructor
  · intro hdefinable
    refine ⟨h.name.isBindingName_iff.1 hdefinable.name, fun word hword hparam => ?_⟩
    exact (h.params word hparam).isBindingName_iff.1 (hdefinable.params word hparam) hword
  · rintro ⟨hname, hparams⟩
    refine ⟨h.toIsShaped, h.name.isBindingName_iff.2 hname, fun param hparam => ?_⟩
    exact (h.params param hparam).isBindingName_iff.2 fun hword => hparams param hword hparam

theorem IsExtracted.isModule (h : helper.IsExtracted) (hdefinable : helper.IsDefinable) :
    Jsx.isModule (Jsx.Program.print [.constant helper.name helper.toTerm]) = true := by
  have hname := h.name.isVariable (h.name.isBindingName_iff.1 hdefinable.name)
  have hparams : ∀ param ∈ helper.params, Jsx.IsVariable param.toList := by
    intro param hparam
    have hbinding := Bool.and_eq_true_iff.1 (hdefinable.params param hparam)
    exact (Jsx.isModuleName_iff (h.params param hparam).identifier).1 hbinding.1
  obtain ⟨condition, hhead⟩ : ∃ condition, helper.params.head? = some condition := by
    rw [← Option.isSome_iff_exists, List.isSome_head?]
    rintro hnil
    rcases h.count with hcount | hcount <;> rw [hnil] at hcount <;> cases hcount
  have htest : helper.test = .tested helper.negate condition := by
    rw [test, hhead]
    rfl
  have hparts : ∀ part ∈ helper.consequent.map HelperPart.toTerm, part.IsPlain := by
    intro part hpart
    obtain ⟨piece, hpiece, rfl⟩ := List.mem_map.1 hpart
    cases piece with
    | text chars => exact .string chars
    | param name => exact .name (hparams name (h.bound name hpiece))
  rw [toTerm, htest]
  refine Jsx.isModule_constant hname hparams (hparams condition (List.mem_of_mem_head? hhead))
    helper.negate hparts ?_
  cases helper.alternate with
  | none => exact .name ⟨by decide, by decide⟩
  | some chars => exact .string chars

end Helper

/-- A helper of a prepared template takes one or two different identifiers, adds up at least one
part, and names its own parameters alone. Code of a module can bind its names unless its own begins
with a digit or one of ten words is a parameter; then its definition is a module. -/
theorem helper_declares {template : List Char} {prepared : Prepared}
    (h : prepare template = .ok prepared) {helper : Helper} (hm : helper ∈ prepared.helpers) :
    helper.IsShaped ∧
      (helper.IsDefinable ↔ (∀ c ∈ helper.name.toList.head?, Text.isAsciiDigit c = false) ∧
        ∀ word ∈ unavoidedWords, word ∉ helper.params) ∧
      (helper.IsDefinable →
        Jsx.isModule (Jsx.Program.print [.constant helper.name helper.toTerm]) = true) := by
  have hextracted := Helper.isExtracted_of_prepare h helper hm
  exact ⟨hextracted.toIsShaped, hextracted.isDefinable_iff, hextracted.isModule⟩

/-- A helper with two parameters is defined. -/
theorem textAndPath_declares :
    let template := ("<a class=\"x \x7b\x7b#if a.b\x7d\x7dy " ++
      "\x7b\x7bc\x7d\x7d\x7b\x7b/if\x7d\x7d\"></a>").toList
    ∃ prepared, prepare template = .ok prepared ∧
      ∃ helper ∈ prepared.helpers, helper.params = ["b", "c"] ∧ helper.IsDefinable ∧
        Jsx.isModule (Jsx.Program.print [.constant helper.name helper.toTerm]) = true := by
  intro template
  have hnames : (prepare template).toOption.any (·.helpers.any fun helper =>
      helper.params = ["b", "c"] ∧ helper.name = "classIfHelper") = true := by
    decide +kernel
  obtain ⟨prepared, hprepared, hcheck⟩ := exists_ok_of_check hnames
  obtain ⟨helper, hmem, hhelper⟩ := List.any_eq_true.1 hcheck
  obtain ⟨hparams, hname⟩ := of_decide_eq_true hhelper
  obtain ⟨-, hiff, hmodule⟩ := helper_declares hprepared hmem
  have hdefinable : helper.IsDefinable := by
    rw [hiff, hparams, hname]
    decide
  exact ⟨prepared, hprepared, helper, hmem, hparams, hdefinable, hmodule hdefinable⟩

/-- A condition that is named like a function of every script gives its helper a parameter that no
module can bind. -/
theorem evalCondition_undefinable :
    let template := "<a class=\"\x7b\x7b#if eval\x7d\x7dc\x7b\x7b/if\x7d\x7d\"></a>".toList
    ∃ prepared, prepare template = .ok prepared ∧
      ∃ helper ∈ prepared.helpers, ¬ helper.IsDefinable := by
  intro template
  have hparams : (prepare template).toOption.any
      (·.helpers.any fun helper => helper.params = ["eval"]) = true := by
    decide +kernel
  obtain ⟨prepared, hprepared, hcheck⟩ := exists_ok_of_check hparams
  obtain ⟨helper, hmem, hhelper⟩ := List.any_eq_true.1 hcheck
  refine ⟨prepared, hprepared, helper, hmem, fun hdefinable => ?_⟩
  have hmember : "eval" ∈ helper.params := by
    rw [of_decide_eq_true hhelper]
    exact List.mem_cons_self
  exact absurd (hdefinable.params "eval" hmember) (by decide)

end MustacheJsx
