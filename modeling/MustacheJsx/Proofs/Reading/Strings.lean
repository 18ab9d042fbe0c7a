import MustacheJsx.Proofs.Reading.Basic

/-!
# The strings of a template

The strings of a template are its tags, the names and texts of its attributes, its texts and its
comments. Each stands in a token that the template was read from: what holds of the strings that the
tokens show holds of all strings of the template, `Lifted.Reads.forall_strings`.
-/

namespace MustacheJsx

open Markup (Token)

mutual

def Statement.strings : Statement → List String
  | .element tag attributes children _ =>
    tag :: (stringsOfAttributes attributes ++ stringsOfAll children)
  | .text chars => [chars]
  | .mustache _ => []
  | .block _ program inverse => stringsOfBody program ++ stringsOfInverse inverse
  | .partialCall _ => []
  | .mustacheComment value => [value]
  | .markupComment value => [value]

def stringsOfAll : List Statement → List String
  | [] => []
  | statement :: statements => statement.strings ++ stringsOfAll statements

def stringsOfBody : Body → List String
  | .mk _ statements => stringsOfAll statements

def stringsOfInverse : Option Body → List String
  | none => []
  | some body => stringsOfBody body

def stringsOfAttributes : List Attribute → List String
  | [] => []
  | .mk name value :: attributes => name :: (value.strings ++ stringsOfAttributes attributes)

def AttributeValue.strings : AttributeValue → List String
  | .text chars => [chars]
  | .mustache _ => []
  | .concat parts => stringsOfAll parts

end

def Template.strings (template : Template) : List String := stringsOfAll template

theorem stringsOfAll_append (xs ys : List Statement) :
    stringsOfAll (xs ++ ys) = stringsOfAll xs ++ stringsOfAll ys := by
  induction xs with
  | nil => rfl
  | cons statement xs ih =>
    rw [List.cons_append, stringsOfAll, stringsOfAll, ih, List.append_assoc]

theorem mem_stringsOfAttributes {string : String} {attributes : List Attribute}
    (h : string ∈ stringsOfAttributes attributes) :
    ∃ entry ∈ attributes, string = entry.name ∨ string ∈ entry.value.strings := by
  induction attributes with
  | nil => cases h
  | cons entry attributes ih =>
    obtain ⟨name, value⟩ := entry
    rw [stringsOfAttributes, List.mem_cons, List.mem_append] at h
    rcases h with h | h | h
    · exact ⟨_, List.mem_cons_self, .inl h⟩
    · exact ⟨_, List.mem_cons_self, .inr h⟩
    · obtain ⟨entry, hmem, hentry⟩ := ih h
      exact ⟨entry, List.mem_cons_of_mem _ hmem, hentry⟩

namespace Lifted

variable {lifted : Lifted} {P : String → Prop}

/-- The strings that a token shows in the template have a property, those of tags that were lifted
out apart. -/
def Shows (lifted : Lifted) (P : String → Prop) : Token → Prop
  | .text chars => ∀ cs, .text cs ∈ Piece.split lifted.marker chars → P (String.ofList cs)
  | .comment value => Piece.whole? lifted.marker value = none → P (String.ofList value)
  | .startTag tag _ => IsElement tag → P (writtenName tag) ∧
      ∀ attributes, lifted.RestoresAttributes tag attributes →
        ∀ string ∈ stringsOfAttributes attributes, P string
  | .endTag _ _ => True

theorem Restores.forall_strings {pieces : List Piece} {restored : List Statement}
    (h : lifted.Restores pieces restored)
    (hpieces : ∀ cs, .text cs ∈ pieces → P (String.ofList cs)) :
    ∀ string ∈ stringsOfAll restored, P string := by
  induction h with
  | nil => nofun
  | text _ ih =>
    have hrest := ih fun cs hmem => hpieces cs (List.mem_cons_of_mem _ hmem)
    intro string hmem
    rcases List.mem_cons.1 hmem with rfl | hmem
    · exact hpieces _ List.mem_cons_self
    · exact hrest string hmem
  | mustache _ _ ih => exact ih fun cs hmem => hpieces cs (List.mem_cons_of_mem _ hmem)
  | partialCall _ _ ih => exact ih fun cs hmem => hpieces cs (List.mem_cons_of_mem _ hmem)

mutual

theorem Reads.forall_strings {tokens : List Token} {statements : List Statement}
    (h : lifted.Reads tokens statements)
    (hcomments : ∀ index value, lifted.Keeps index (.comment value) → P value)
    (htokens : ∀ token ∈ tokens, lifted.Shows P token) :
    ∀ string ∈ stringsOfAll statements, P string := by
  have htail : ∀ {token tokens}, (∀ other ∈ token :: tokens, lifted.Shows P other) →
      ∀ other ∈ tokens, lifted.Shows P other :=
    fun hall other hmem => hall other (List.mem_cons_of_mem _ hmem)
  intro string hmem
  match h with
  | .nil => cases hmem
  | .text hr h =>
    rw [stringsOfAll_append] at hmem
    rcases List.mem_append.1 hmem with hmem | hmem
    · exact hr.forall_strings (htokens _ List.mem_cons_self) string hmem
    · exact h.forall_strings hcomments (htail htokens) string hmem
  | .markupComment hw h =>
    rcases List.mem_cons.1 hmem with rfl | hmem
    · exact htokens _ List.mem_cons_self hw
    · exact h.forall_strings hcomments (htail htokens) string hmem
  | .mustacheComment _ hk h =>
    rcases List.mem_cons.1 hmem with rfl | hmem
    · exact hcomments _ _ hk
    · exact h.forall_strings hcomments (htail htokens) string hmem
  | .leaf he _ ha h =>
    obtain ⟨htag, hattributes⟩ := htokens _ List.mem_cons_self he
    rw [stringsOfAll, Statement.strings, stringsOfAll, List.append_nil] at hmem
    rcases List.mem_cons.1 hmem with rfl | hmem
    · exact htag
    · rcases List.mem_append.1 hmem with hmem | hmem
      · exact hattributes _ ha string hmem
      · exact h.forall_strings hcomments (htail htokens) string hmem
  | .element he _ ha hi h =>
    obtain ⟨htag, hattributes⟩ := htokens _ List.mem_cons_self he
    have hrest := List.forall_mem_append.1 (htail htokens)
    rw [stringsOfAll, Statement.strings] at hmem
    rcases List.mem_cons.1 hmem with rfl | hmem
    · exact htag
    · rcases List.mem_append.1 hmem with hmem | hmem
      · rcases List.mem_append.1 hmem with hmem | hmem
        · exact hattributes _ ha string hmem
        · exact hi.forall_strings hcomments hrest.1 string hmem
      · exact h.forall_strings hcomments (htail hrest.2) string hmem
  | .block _ _ _ hp hi h =>
    obtain ⟨hprogram, hothers⟩ := List.forall_mem_append.1 (htail htokens)
    obtain ⟨hinverse, hafter⟩ := List.forall_mem_append.1 hothers
    rw [stringsOfAll, Statement.strings] at hmem
    rcases List.mem_append.1 hmem with hmem | hmem
    · rcases List.mem_append.1 hmem with hmem | hmem
      · exact hp.forall_strings hcomments hprogram string hmem
      · exact hi.forall_strings hcomments hinverse string hmem
    · exact h.forall_strings hcomments (htail hafter) string hmem

theorem ReadsInverse.forall_strings {tokens : List Token} {inverse : Option Body}
    (h : lifted.ReadsInverse tokens inverse)
    (hcomments : ∀ index value, lifted.Keeps index (.comment value) → P value)
    (htokens : ∀ token ∈ tokens, lifted.Shows P token) :
    ∀ string ∈ stringsOfInverse inverse, P string := by
  intro string hmem
  match h with
  | .none => cases hmem
  | .otherwise _ _ hp =>
    have hbody := fun token h => htokens token (List.mem_cons_of_mem _ h)
    exact hp.forall_strings hcomments hbody string hmem
  | .elseIf _ _ _ hp hi =>
    obtain ⟨hprogram, hinverse⟩ := List.forall_mem_append.1
      fun token h => htokens token (List.mem_cons_of_mem _ h)
    rw [stringsOfInverse, stringsOfBody, stringsOfAll, Statement.strings, stringsOfAll,
      List.append_nil] at hmem
    rcases List.mem_append.1 hmem with hmem | hmem
    · exact hp.forall_strings hcomments hprogram string hmem
    · exact hi.forall_strings hcomments hinverse string hmem

end

end Lifted

end MustacheJsx
