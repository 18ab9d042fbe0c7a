import MustacheJsx.Jsx.Printer
import MustacheJsx.Proofs.Jsx.Denotation
import MustacheJsx.Proofs.Layout

/-!
# What the text of an attribute stands for

A text is an attribute raw between quotes if nothing in it would be read otherwise, and a string
literal in braces if something would. Either way it is read back as it is, also after the element
has gone through the layout of the output: `Element.attributeText_arrange`.
-/

namespace MustacheJsx.Jsx

open Text (inked)

/-! ### Reading an attribute -/

/-- The text of an attribute after its equals sign, and what follows it. A raw text goes up to the
first quote and has character references; braces hold a string literal. Which names have a character
is left open. -/
def attributeText? (named : List Char → Option Char) : List Char → Option (List Char × List Char)
  | '"' :: cs => do
    let (raw, rest) ← Text.cutAt? ['"'] cs
    return (← decode named 0 raw, rest)
  | '{' :: '"' :: cs =>
    match readLiteral 0 cs with
    | some (value, '}' :: rest) => some (value, rest)
    | _ => none
  | _ => none

def writtenText (value : List Char) : List Char :=
  if Text.isRawValue value then '"' :: (value ++ ['"']) else '{' :: (quote value ++ ['}'])

theorem Attribute.print_ofText (name value : String) :
    (Attribute.ofText name value).print = name.toList ++ '=' :: writtenText value.toList := by
  rw [Attribute.ofText, writtenText]
  split
  · simp [Attribute.print]
  · simp [Attribute.print, Term.print]

variable (named : List Char → Option Char)

theorem attributeText?_writtenText (value rest : List Char) :
    attributeText? named (writtenText value ++ rest) = some (value, rest) := by
  rw [writtenText]
  split
  · next hraw =>
    rw [Text.isRawValue, Bool.and_eq_true, Bool.not_eq_true', Bool.not_eq_true'] at hraw
    obtain ⟨hplain, hreference⟩ := hraw
    have hquote : '"' ∉ value := fun hmem => by
      have hall := List.any_eq_false.1 hplain '"' hmem
      exact hall rfl
    have hcut : Text.cutAt? ['"'] (value ++ '"' :: rest) = some (value, rest) := by
      refine (Text.cutAt?_eq_some_iff (List.cons_ne_nil _ _)).2 ⟨by simp, fun hwithin => ?_⟩
      rw [List.dropLast_singleton, List.append_nil] at hwithin
      exact hquote (hwithin.subset (List.mem_singleton_self _))
    rw [List.cons_append, List.append_assoc, List.singleton_append, attributeText?, hcut]
    show (decode named 0 value).bind _ = _
    rw [decode_of_holdsReference (holdsReference_eq_false hreference)]
    rfl
  · have hread := readLiteral_escape value ('}' :: rest)
    have htext : '{' :: (quote value ++ ['}']) ++ rest =
        '{' :: '"' :: (escape value ++ '"' :: '}' :: rest) := by
      simp [quote]
    rw [htext, attributeText?, hread]
    rfl

/-! ### An attribute in the output -/

theorem escapeChar_of_mem_escapedChars {c : Char} (h : c ∈ escapedChars) (next : List Char) :
    escapeChar c next = escapeChar c [] := by
  simp only [escapedChars, List.mem_cons, List.not_mem_nil, or_false] at h
  rcases h with rfl | rfl | rfl | rfl | rfl | rfl | rfl | rfl | rfl | rfl | rfl | rfl <;> rfl

theorem newline_not_mem_escapeChar (c : Char) (next : List Char) : '\n' ∉ escapeChar c next := by
  by_cases hescaped : c ∈ escapedChars
  · have hall : ∀ d ∈ escapedChars, '\n' ∉ escapeChar d [] := by decide
    rw [escapeChar_of_mem_escapedChars hescaped]
    exact hall c hescaped
  · by_cases hnull : c = '\x00'
    · rw [escapeChar, if_pos hnull]
      split <;> decide
    · rcases escapeChar_other hescaped hnull next with ⟨-, -, hescape⟩ | ⟨hescape, hplain⟩
      · rw [hescape]
        decide
      · rw [hescape, List.mem_singleton]
        rintro rfl
        exact hplain (by decide)

theorem newline_not_mem_escape (cs : List Char) : '\n' ∉ escape cs := by
  induction cs with
  | nil => exact List.not_mem_nil
  | cons c cs ih =>
    exact fun hmem => (List.mem_append.1 hmem).elim (newline_not_mem_escapeChar c cs) ih

theorem newline_not_mem_writtenText (value : List Char) : '\n' ∉ writtenText value := by
  rw [writtenText]
  split
  · next hraw =>
    rw [Text.isRawValue, Bool.and_eq_true, Bool.not_eq_true', Bool.not_eq_true'] at hraw
    have hvalue : '\n' ∉ value := fun hmem => List.any_eq_false.1 hraw.1 '\n' hmem rfl
    simp [hvalue]
  · simp [quote, newline_not_mem_escape]

theorem exists_getLast?_writtenText (value : List Char) :
    ∃ c ∈ (writtenText value).getLast?, Text.isBlank c = false := by
  rw [writtenText]
  split
  · exact ⟨'"', by rw [← List.cons_append, List.getLast?_concat]; rfl, by decide⟩
  · exact ⟨'}', by rw [← List.cons_append, List.getLast?_concat]; rfl, by decide⟩

/-- What is written of an element up to one of its attributes. -/
def Element.printBefore (tag : String) (before : List Attribute) : List Char :=
  '<' :: (tag.toList ++ Attribute.printAll before ++ [' '])

def Element.printBehind (tag : String) (after : List Attribute) (children : List Child)
    (selfClosing : Bool) : List Char :=
  Attribute.printAll after ++
    if selfClosing then [' ', '/', '>']
    else '>' :: (Child.printAll children ++ ['<', '/'] ++ tag.toList ++ ['>'])

theorem Attribute.printAll_append (before after : List Attribute) :
    Attribute.printAll (before ++ after) =
      Attribute.printAll before ++ Attribute.printAll after := by
  induction before with
  | nil => rfl
  | cons first before ih => simp [Attribute.printAll, ih]

theorem Element.print_eq (tag : String) (before : List Attribute) (middle : Attribute)
    (after : List Attribute) (children : List Child) (selfClosing : Bool) :
    (Element.mk tag (before ++ middle :: after) children selfClosing).print =
      Element.printBefore tag before ++ middle.print ++
        Element.printBehind tag after children selfClosing := by
  rw [Element.print, Attribute.printAll_append, Attribute.printAll, Element.printBefore,
    Element.printBehind, tagged]
  split <;> simp

/-- Of a name the end without blanks is set apart, which is all of it if it has none. -/
theorem exists_inked_end (name : List Char) :
    ∃ start word, name = start ++ word ∧ (∀ c ∈ word, Text.isBlank c = false) ∧
      ((name.all fun c => !Text.isBlank c) = true → word = name) := by
  by_cases hall : (name.all fun c => !Text.isBlank c) = true
  · have hink : ∀ c ∈ name, Text.isBlank c = false := by simpa using hall
    exact ⟨[], name, rfl, hink, fun _ => rfl⟩
  · exact ⟨name, [], (List.append_nil _).symm, by simp, fun h => absurd h hall⟩

/-- A written text stands in the output as in the code, with a word before it. -/
theorem exists_arrange_writtenText {word : List Char} (hword : ∀ c ∈ word, Text.isBlank c = false)
    (value above below : List Char) :
    ∃ front back,
      Layout.arrange (above ++ (word ++ '=' :: writtenText value) ++ below) =
        front ++ (word ++ '=' :: writtenText value) ++ back ∧
      inked front = inked above ∧ inked back = inked below := by
  have hline : '\n' ∉ word ++ '=' :: writtenText value := by
    have hblank : '\n' ∉ word := fun hmem => absurd (hword _ hmem) (by decide)
    simp [hblank, newline_not_mem_writtenText]
  have hhead : ∃ c ∈ (word ++ '=' :: writtenText value).head?, Text.isBlank c = false := by
    cases word with
    | nil => exact ⟨'=', rfl, by decide⟩
    | cons c word => exact ⟨c, rfl, hword c List.mem_cons_self⟩
  have hlast : ∃ c ∈ (word ++ '=' :: writtenText value).getLast?, Text.isBlank c = false := by
    obtain ⟨c, hc, hink⟩ := exists_getLast?_writtenText value
    refine ⟨c, ?_, hink⟩
    rw [List.getLast?_append, List.getLast?_cons, Option.mem_def.1 hc]
    rfl
  exact Layout.exists_arrange hline hhead hlast above below

/-- Every text that is an attribute of an element is read back from the output: there the attribute
stands behind its name, and all that is not blank stands around it as in the code. -/
theorem Element.attributeText_arrange (tag name value : String) (before after : List Attribute)
    (children : List Child) (selfClosing : Bool) (above below : List Char) :
    ∃ front back rest,
      Layout.arrange (above ++
        (Element.mk tag (before ++ Attribute.ofText name value :: after) children
          selfClosing).print ++
          below) = front ++ '=' :: back ∧
      attributeText? named back = some (value.toList, rest) ∧
      inked front = inked (above ++ Element.printBefore tag before ++ name.toList) ∧
      ((name.toList.all fun c => !Text.isBlank c) = true → name.toList <:+ front) ∧
      inked rest = inked (Element.printBehind tag after children selfClosing ++ below) := by
  obtain ⟨start, word, hname, hword, hwhole⟩ := exists_inked_end name.toList
  obtain ⟨front, back, harrange, hfront, hback⟩ := exists_arrange_writtenText hword value.toList
    (above ++ Element.printBefore tag before ++ start)
    (Element.printBehind tag after children selfClosing ++ below)
  have hcode : above ++
      (Element.mk tag (before ++ Attribute.ofText name value :: after) children
        selfClosing).print ++
        below =
      above ++ Element.printBefore tag before ++ start ++
        (word ++ '=' :: writtenText value.toList) ++
          (Element.printBehind tag after children selfClosing ++ below) := by
    rw [Element.print_eq, Attribute.print_ofText, hname]
    simp
  refine ⟨front ++ word, writtenText value.toList ++ back, back, ?_,
    attributeText?_writtenText named value.toList back, ?_, fun hall => ?_, hback⟩
  · rw [hcode, harrange]
    simp
  · rw [Text.inked_append, hfront, hname, ← Text.inked_append]
    simp
  · rw [hwhole hall]
    exact List.suffix_append front name.toList

end MustacheJsx.Jsx
