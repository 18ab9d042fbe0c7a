import MustacheJsx.Conversion.Attribute
import MustacheJsx.Proofs.Jsx.Words
import Mathlib.Data.List.Nodup

/-!
# The spellings of attributes in elements

The names that respelling leads to are told apart, and respelling them again changes nothing. The
table is looked through once, as lists of characters.
-/

namespace MustacheJsx

namespace AttributeName

def ofChars (entry : List Char × List Char) : String × String :=
  (String.ofList entry.1, String.ofList entry.2)

theorem cons_ofChars {table : List (String × String)} {chars : List (List Char × List Char)}
    (h : table = chars.map ofChars) (first second : List Char) :
    (String.ofList first, String.ofList second) :: table =
      ((first, second) :: chars).map ofChars := by
  rw [h]
  rfl

theorem lookup_ofChars (chars : List (List Char × List Char)) (cs : List Char) :
    (chars.map ofChars).lookup (String.ofList cs) = (chars.lookup cs).map String.ofList := by
  induction chars with
  | nil => rfl
  | cons entry chars ih =>
    obtain ⟨first, second⟩ := entry
    have hsame : (String.ofList cs == String.ofList first) = (cs == first) := by
      rw [Bool.eq_iff_iff, beq_iff_eq, beq_iff_eq, String.ofList_inj]
    rw [List.map_cons, ofChars, List.lookup_cons, List.lookup_cons, hsame]
    cases cs == first with
    | true => rfl
    | false => exact ih

theorem exists_chars : ∃ chars : List (List Char × List Char), respelled = chars.map ofChars ∧
    (chars.map Prod.snd).Nodup ∧ ∀ entry ∈ chars,
      (entry.2 ≠ [] ∧
        (entry.2.all fun c => Text.isAsciiAlphanumeric c || c == '_' || c == '-') = true) ∧
      (∀ c ∈ entry.2.head?, Text.isAsciiLetter c = true) ∧
      Text.startsWith Vocabulary.generatorAttribute.toList entry.2 = false ∧
      (chars.lookup (entry.2.map Text.lowerAscii)).getD entry.2 = entry.2 ∧
      entry.2 ≠ Vocabulary.key.toList ∧
      Text.startsWith Vocabulary.generatorAttribute.toList entry.1 = false := by
  apply Exists.intro
  apply And.intro
  -- The list of characters is read off the table, so that no name has to be decoded.
  case left =>
    dsimp only [respelled]
    repeat apply cons_ofChars
    exact List.map_nil.symm
  case right => decide +kernel

theorem respelled_nodup : (respelled.map Prod.snd).Nodup := by
  obtain ⟨chars, htable, hnodup, -⟩ := exists_chars
  have hsecond : Prod.snd ∘ ofChars = String.ofList ∘ Prod.snd := rfl
  rw [htable, List.map_map, hsecond, ← List.map_map]
  exact hnodup.map fun _ _ => String.ofList_injective

/-- A name that respelling leads to is kept and is not respelled again, nor is it that of a key. No
respelled name begins like that of a generator. -/
theorem respelled_stable : ∀ entry ∈ respelled, isWritable entry.2 = true ∧
    isGenerator entry.2 = false ∧ inElements entry.2 = entry.2 ∧ entry.2 ≠ Vocabulary.key ∧
    isGenerator entry.1 = false := by
  obtain ⟨chars, htable, -, hall⟩ := exists_chars
  intro entry hentry
  rw [htable] at hentry
  obtain ⟨⟨first, second⟩, hm, rfl⟩ := List.mem_map.1 hentry
  obtain ⟨⟨hne, hwritable⟩, -, hsecond, hstable, hkey, hfirst⟩ := hall _ hm
  refine ⟨?_, ?_, ?_, fun heq => hkey ?_, ?_⟩
  · rw [isWritable, ofChars, String.toList_ofList, hwritable, Bool.and_true, Bool.not_eq_true']
    exact String.isEmpty_eq_false_iff.2 (mt String.ofList_eq_empty_iff.1 hne)
  · rw [isGenerator, ofChars, String.toList_ofList, hsecond]
  · rw [inElements, ofChars, String.toList_ofList, htable, lookup_ofChars]
    show ((chars.lookup _).map String.ofList).getD (String.ofList second) = _
    rw [Option.getD_map, hstable]
  · rw [← heq]
    exact String.toList_ofList.symm
  · rw [isGenerator, ofChars, String.toList_ofList, hfirst]

theorem isAttributeName_of_mem : ∀ entry ∈ respelled, Jsx.isAttributeName entry.2 = true := by
  obtain ⟨chars, htable, -, hall⟩ := exists_chars
  intro entry hentry
  rw [htable] at hentry
  obtain ⟨⟨first, second⟩, hm, rfl⟩ := List.mem_map.1 hentry
  obtain ⟨⟨hne, hwritable⟩, hletter, -⟩ := hall _ hm
  obtain ⟨c, cs, rfl⟩ := List.exists_cons_of_ne_nil hne
  have hc : Text.isAsciiLetter c = true := hletter c rfl
  rw [Jsx.isAttributeName, ofChars, String.toList_ofList]
  simp only [hc, Bool.true_or, Bool.true_and, List.all_eq_true]
  intro d hd
  have hd := List.all_eq_true.1 hwritable d (List.mem_cons_of_mem c hd)
  simp only [Bool.or_eq_true] at hd ⊢
  tauto

end AttributeName

end MustacheJsx
