import MustacheJsx.Markup.Lexer
import MustacheJsx.Proofs.Printing.Pieces

/-!
# Tokens without the marker

The characters of tokens are those of the markup, but for small letters, replacement characters and
references. So where nothing can be a reference, the marker is in no token unless it is in the
markup: `Markup.avoids_of_mem_tokens`.
-/

namespace MustacheJsx.Markup

/-- The marker is in no text, comment or attribute value of a token. -/
def Token.Avoids (marker : Char) : Token → Prop
  | .text chars => marker ∉ chars
  | .comment value => marker ∉ value
  | .startTag tag _ => ∀ entry ∈ tag.attributes, marker ∉ entry.2.toList
  | .endTag _ _ => True

namespace Lexer

variable {marker : Char}

/-- The marker is in nothing that is being read. -/
structure Avoids (marker : Char) (m : Machine) : Prop where
  text : marker ∉ m.text
  attributes : ∀ entry ∈ m.attributes, marker ∉ entry.2.toList
  value : marker ∉ m.value
  word : marker ∉ m.word
  comment : marker ∉ m.comment

/-- A step that leaves the marker in nothing. -/
def Outcome.Avoids (marker : Char) (outcome : Outcome) : Prop :=
  Lexer.Avoids marker outcome.1 ∧ ∀ token ∈ outcome.2.1, token.Avoids marker

variable {m : Machine}

theorem visible_ne (hmarker : IsMarker marker) {c : Char} (hc : c ≠ marker) :
    visible c ≠ marker := by
  rw [visible]
  split
  · have hreplacement : '\ufffd' ≠ marker := by
      rintro rfl
      exact absurd hmarker.2 (by decide)
    exact hreplacement
  · exact hc

theorem letter?_ne (hmarker : IsMarker marker) {c small : Char} (h : letter? c = some small) :
    small ≠ marker := by
  rw [letter?] at h
  split at h
  · next hletter =>
    cases h
    have hle : c.toNat ≤ 122 := by
      simp only [Text.isAsciiLetter, Bool.or_eq_true, Bool.and_eq_true, decide_eq_true_eq,
        Char.le_def, UInt32.le_iff_toNat_le] at hletter
      rcases hletter with ⟨-, hle⟩ | ⟨-, hle⟩
      · exact hle
      · exact Nat.le_trans hle (by decide)
    refine Ne.symm (hmarker.ne ?_)
    rw [Text.lowerAscii]
    delta Char.toLower
    split
    · have hsum : (c.val + 32).toNat ≤ c.toNat + 32 := by
        rw [UInt32.toNat_add]
        exact Nat.mod_le _ _
      show (c.val + 32).toNat < 0xE000
      omega
    · exact Nat.lt_of_le_of_lt hle (by decide)
  · cases h

namespace Avoids

theorem goTo (h : Avoids marker m) (state : State) : Avoids marker (m.goTo state) :=
  ⟨h.text, h.attributes, h.value, h.word, h.comment⟩

theorem write (h : Avoids marker m) {cs : List Char} (hcs : marker ∉ cs) :
    Avoids marker (m.write cs) :=
  ⟨by simp [Machine.write, hcs, h.text], h.attributes, h.value, h.word, h.comment⟩

theorem note (h : Avoids marker m) {cs : List Char} (hcs : marker ∉ cs) :
    Avoids marker (m.note cs) :=
  ⟨h.text, h.attributes, h.value, h.word, by simp [Machine.note, hcs, h.comment]⟩

theorem setComment (h : Avoids marker m) : Avoids marker { m with comment := [] } :=
  ⟨h.text, h.attributes, h.value, h.word, List.not_mem_nil⟩

theorem setWord (h : Avoids marker m) {word : List Char} (hword : marker ∉ word) :
    Avoids marker { m with word } :=
  ⟨h.text, h.attributes, h.value, hword, h.comment⟩

theorem setValue (h : Avoids marker m) {value : List Char} (hvalue : marker ∉ value) :
    Avoids marker { m with value } :=
  ⟨h.text, h.attributes, hvalue, h.word, h.comment⟩

theorem beginTag (h : Avoids marker m) (isEndTag : Bool) (c : Char) :
    Avoids marker (m.beginTag isEndTag c) :=
  ⟨h.text, nofun, h.value, h.word, h.comment⟩

theorem endAttribute (h : Avoids marker m) : Avoids marker m.endAttribute := by
  refine ⟨h.text, ?_, List.not_mem_nil, h.word, h.comment⟩
  intro entry hentry
  rw [Machine.endAttribute] at hentry
  dsimp only at hentry
  split at hentry
  · exact h.attributes entry hentry
  · rcases List.mem_cons.1 hentry with rfl | hentry
    · simpa using h.value
    · exact h.attributes entry hentry

theorem beginAttribute (h : Avoids marker m) (c : Char) : Avoids marker (m.beginAttribute c) :=
  ⟨h.text, h.endAttribute.attributes, List.not_mem_nil, h.word, h.comment⟩

theorem pending (h : Avoids marker m) : ∀ token ∈ m.pending, token.Avoids marker := by
  intro token htoken
  rw [Machine.pending] at htoken
  split at htoken
  · cases htoken
  · cases List.mem_singleton.1 htoken
    simpa [Token.Avoids] using h.text

theorem keep (h : Avoids marker m) : (keep m).Avoids marker := ⟨h, nofun⟩

theorem endTag (h : Avoids marker m) : (finish m.endTag).Avoids marker := by
  have hend := h.endAttribute
  have hpending := hend.pending
  rw [Machine.endTag]
  dsimp only
  split
  · refine ⟨⟨List.not_mem_nil, hend.attributes, hend.value, hend.word, hend.comment⟩, ?_⟩
    intro token htoken
    rcases List.mem_append.1 htoken with htoken | htoken
    · exact hpending token htoken
    · cases List.mem_singleton.1 htoken
      trivial
  · refine ⟨⟨List.not_mem_nil, hend.attributes, hend.value, hend.word, hend.comment⟩, ?_⟩
    intro token htoken
    rcases List.mem_append.1 htoken with htoken | htoken
    · exact hpending token htoken
    · cases List.mem_singleton.1 htoken
      simpa [Token.Avoids] using hend.attributes

theorem endComment (h : Avoids marker m) : (finish m.endComment).Avoids marker := by
  refine ⟨⟨List.not_mem_nil, h.attributes, h.value, h.word, List.not_mem_nil⟩, ?_⟩
  intro token htoken
  rcases List.mem_append.1 htoken with htoken | htoken
  · exact h.pending token htoken
  · cases List.mem_singleton.1 htoken
    simpa [Token.Avoids] using h.comment

end Avoids

/-! ### Steps -/

theorem Avoids.stepTagName (h : Avoids marker m) (c : Char) : (stepTagName m c).Avoids marker := by
  rw [Lexer.stepTagName]
  split
  · exact (h.goTo _).keep
  · split
    · exact (h.goTo _).keep
    · split
      · exact h.endTag
      · exact Avoids.keep ⟨h.text, h.attributes, h.value, h.word, h.comment⟩

theorem Avoids.stepBeforeAttribute (h : Avoids marker m) (c : Char) :
    (stepBeforeAttribute m c).Avoids marker := by
  rw [Lexer.stepBeforeAttribute]
  split
  · exact (h.goTo _).keep
  · split
    · exact (h.goTo _).keep
    · split
      · exact h.endTag
      · exact (h.beginAttribute _).keep

theorem Avoids.stepAttributeName (h : Avoids marker m) (c : Char) :
    (stepAttributeName m c).Avoids marker := by
  rw [Lexer.stepAttributeName]
  split
  · exact (h.goTo _).keep
  · split
    · exact (h.goTo _).keep
    · split
      · exact (h.goTo _).keep
      · split
        · exact h.endTag
        · exact Avoids.keep ⟨h.text, h.attributes, h.value, h.word, h.comment⟩

theorem Avoids.stepAfterAttributeName (h : Avoids marker m) (c : Char) :
    (stepAfterAttributeName m c).Avoids marker := by
  rw [Lexer.stepAfterAttributeName]
  split
  · exact h.keep
  · split
    · exact (h.goTo _).keep
    · split
      · exact (h.goTo _).keep
      · split
        · exact h.endTag
        · exact (h.beginAttribute _).keep

theorem Avoids.stepAfterValue (h : Avoids marker m) (c : Char) :
    (stepAfterValue m c).Avoids marker := by
  rw [Lexer.stepAfterValue]
  split
  · exact (h.goTo _).keep
  · exact h.stepBeforeAttribute c

theorem Avoids.stepSelfClosing (h : Avoids marker m) (c : Char) :
    (stepSelfClosing m c).Avoids marker := by
  rw [Lexer.stepSelfClosing]
  split
  · exact Avoids.endTag ⟨h.text, h.attributes, h.value, h.word, h.comment⟩
  · exact h.stepBeforeAttribute c

section

variable {c : Char} (hmarker : IsMarker marker) (hc : c ≠ marker)

include hmarker hc

theorem Avoids.stepBogusComment (h : Avoids marker m) : (stepBogusComment m c).Avoids marker := by
  rw [Lexer.stepBogusComment]
  split
  · exact h.endComment
  · exact ((h.note (by simpa using (visible_ne hmarker hc).symm)).goTo _).keep

theorem Avoids.stepEscapedDash (h : Avoids marker m) (content : Content) (dashes : Nat) :
    (stepEscapedDash content dashes m c).Avoids marker := by
  rw [Lexer.stepEscapedDash]
  split
  · exact ((h.write (by simp [hmarker.ne])).goTo _).keep
  · split
    · dsimp only
      split
      · exact ((h.write (by simp [hmarker.ne])).goTo _).keep
      · exact (h.goTo _).keep
    · split
      · exact ((h.write (by simp [hmarker.ne])).goTo _).keep
      · exact ((h.write (by simpa using (visible_ne hmarker hc).symm)).goTo _).keep

theorem Avoids.stepComment (h : Avoids marker m) {read : List Char} (hread : marker ∉ read) :
    (stepComment read m c).Avoids marker := by
  rw [Lexer.stepComment]
  split
  · exact (h.goTo _).keep
  · exact ((h.note (by simp [hread, (visible_ne hmarker hc).symm])).goTo _).keep

theorem Avoids.stepEndTagOpen (h : Avoids marker m) : (stepEndTagOpen m c).Avoids marker := by
  rw [Lexer.stepEndTagOpen]
  split
  · exact ((h.beginTag _ _).goTo _).keep
  · split
    · exact (h.goTo _).keep
    · exact h.setComment.stepBogusComment hmarker hc

variable (hamp : c ≠ '&')

include hamp

theorem Avoids.stepText (h : Avoids marker m) (content : Content) (rest : List Char) :
    (stepText content m c rest).Avoids marker := by
  have hvisible : marker ∉ [visible c] := by simpa using (visible_ne hmarker hc).symm
  rw [Lexer.stepText.eq_def]
  split
  · exact (h.goTo _).keep
  · exact absurd rfl hamp
  · exact absurd rfl hamp
  · exact ((h.write (by simp [hmarker.ne])).goTo _).keep
  · exact (h.goTo _).keep
  · exact ((h.write (by simp [hmarker.ne])).goTo _).keep
  · exact ((h.write (by simp [hmarker.ne])).goTo _).keep
  · exact (h.write hvisible).keep

theorem Avoids.backToText (h : Avoids marker m) (content : Content) {read : List Char}
    (hread : marker ∉ read) (rest : List Char) :
    (backToText content m read c rest).Avoids marker :=
  ((h.write hread).goTo _).stepText hmarker hc hamp content rest

theorem Avoids.stepTagOpen (h : Avoids marker m) (rest : List Char) :
    (stepTagOpen m c rest).Avoids marker := by
  rw [Lexer.stepTagOpen.eq_def]
  split
  · dsimp only
    split
    · exact ⟨h.setComment.goTo _, nofun⟩
    · split
      · exact ⟨h.setComment.goTo _, nofun⟩
      · exact (h.setComment.goTo _).keep
  · exact (h.goTo _).keep
  · exact h.setComment.stepBogusComment hmarker hc
  · split
    · exact ((h.beginTag _ _).goTo _).keep
    · exact h.backToText hmarker hc hamp _ (by simp [hmarker.ne]) rest

theorem Avoids.stepValue (h : Avoids marker m) (quote : Option Char) (rest : List Char) :
    (stepValue quote m c rest).Avoids marker := by
  have hchar : (stepValueChar (m.goTo (.value quote)) c rest).Avoids marker := by
    rw [stepValueChar, if_neg hamp]
    refine ((h.goTo _).setValue ?_).keep
    simpa [Machine.goTo, (visible_ne hmarker hc).symm] using h.value
  rw [Lexer.stepValue.eq_def]
  split
  · split
    · exact ((h.goTo _).goTo _).keep
    · exact hchar
  · split
    · exact ((h.goTo _).goTo _).keep
    · split
      · exact (h.goTo _).endTag
      · exact hchar

theorem Avoids.stepBeforeValue (h : Avoids marker m) (rest : List Char) :
    (stepBeforeValue m c rest).Avoids marker := by
  rw [Lexer.stepBeforeValue]
  split
  · exact h.keep
  · split
    · exact (h.goTo _).keep
    · split
      · exact h.endTag
      · exact h.stepValue hmarker hc hamp none rest

theorem Avoids.stepRawLessThan (h : Avoids marker m) (content : Content) (rest : List Char) :
    (stepRawLessThan content m c rest).Avoids marker := by
  have hnil : Avoids marker { m with word := [] } := h.setWord List.not_mem_nil
  rw [Lexer.stepRawLessThan.eq_def]
  split
  · split
    · exact ((hnil.write (by simp [hmarker.ne])).goTo _).keep
    · exact h.backToText hmarker hc hamp _ List.not_mem_nil rest
  · split
    · exact (hnil.goTo _).keep
    · split
      · exact ((h.write (by simp [hmarker.ne])).goTo _).keep
      · split
        · next small hletter _ _ =>
          have hword : Avoids marker { m with word := [small] } :=
            h.setWord (by simpa using (letter?_ne hmarker hletter).symm)
          exact ((hword.write (by simp [hmarker.ne, hc.symm])).goTo _).keep
        · exact h.backToText hmarker hc hamp _ (by simp [hmarker.ne]) rest

theorem Avoids.stepRawEndTagOpen (h : Avoids marker m) (content : Content) (rest : List Char) :
    (stepRawEndTagOpen content m c rest).Avoids marker := by
  rw [Lexer.stepRawEndTagOpen]
  split
  · exact (((h.beginTag _ _).setWord (by simp [hc.symm, h.word])).goTo _).keep
  · exact h.backToText hmarker hc hamp _ (by simp [hmarker.ne]) rest

theorem Avoids.stepRawEndTagName (h : Avoids marker m) (content : Content) (rest : List Char) :
    (stepRawEndTagName content m c rest).Avoids marker := by
  have hnil : Avoids marker { m with word := [] } := h.setWord List.not_mem_nil
  rw [Lexer.stepRawEndTagName]
  split
  · exact (hnil.goTo _).keep
  · split
    · exact (hnil.goTo _).keep
    · split
      · exact hnil.endTag
      · split
        · exact Avoids.keep ⟨h.text, h.attributes, h.value, by simp [hc.symm, h.word], h.comment⟩
        · exact h.backToText hmarker hc hamp _ (by simp [hmarker.ne, h.word]) rest

theorem Avoids.stepScriptWord (h : Avoids marker m) (here there : Content) (rest : List Char) :
    (stepScriptWord here there m c rest).Avoids marker := by
  have hwritten : Avoids marker (m.write [c]) := h.write (by simpa using hc.symm)
  rw [Lexer.stepScriptWord]
  split
  · exact (hwritten.goTo _).keep
  · split
    · next hletter =>
      exact (hwritten.setWord (by simp [(letter?_ne hmarker hletter).symm, h.word])).keep
    · exact h.backToText hmarker hc hamp _ List.not_mem_nil rest

theorem Avoids.stepEscapeStart (h : Avoids marker m) (next : State) (rest : List Char) :
    (stepEscapeStart next m c rest).Avoids marker := by
  rw [Lexer.stepEscapeStart]
  split
  · exact ((h.write (by simp [hmarker.ne])).goTo _).keep
  · exact h.backToText hmarker hc hamp _ List.not_mem_nil rest

theorem Avoids.step (h : Avoids marker m) (rest : List Char) : (step m c rest).Avoids marker := by
  have hvisible : marker ∉ [visible c] := by simpa using (visible_ne hmarker hc).symm
  rw [Lexer.step.eq_def]
  split
  · exact h.stepText hmarker hc hamp _ rest
  · exact h.stepTagOpen hmarker hc hamp rest
  · exact h.stepEndTagOpen hmarker hc
  · exact h.stepTagName c
  · exact h.stepBeforeAttribute c
  · exact h.stepAttributeName c
  · exact h.stepAfterAttributeName c
  · exact h.stepBeforeValue hmarker hc hamp rest
  · exact h.stepValue hmarker hc hamp _ rest
  · exact h.stepAfterValue c
  · exact h.stepSelfClosing c
  · exact h.stepRawLessThan hmarker hc hamp _ rest
  · exact h.stepRawEndTagOpen hmarker hc hamp _ rest
  · exact h.stepRawEndTagName hmarker hc hamp _ rest
  · exact h.stepEscapeStart hmarker hc hamp _ rest
  · exact h.stepEscapeStart hmarker hc hamp _ rest
  · exact h.stepEscapedDash hmarker hc _ _
  · exact h.stepEscapedDash hmarker hc _ _
  · exact h.stepScriptWord hmarker hc hamp _ _ rest
  · exact h.stepScriptWord hmarker hc hamp _ _ rest
  · split
    · exact (h.goTo _).keep
    · split
      · exact h.endComment
      · exact ((h.note hvisible).goTo _).keep
  · split
    · exact (h.goTo _).keep
    · split
      · exact h.endComment
      · exact h.stepComment hmarker hc (by simp [hmarker.ne])
  · exact h.stepComment hmarker hc List.not_mem_nil
  · split
    · exact (h.goTo _).keep
    · exact h.stepComment hmarker hc (by simp [hmarker.ne])
  · split
    · exact h.endComment
    · split
      · exact (h.goTo _).keep
      · split
        · exact (h.note (by simp [hmarker.ne])).keep
        · exact h.stepComment hmarker hc (by simp [hmarker.ne])
  · split
    · exact ((h.note (by simp [hmarker.ne])).goTo _).keep
    · split
      · exact h.endComment
      · exact h.stepComment hmarker hc (by simp [hmarker.ne])
  · exact h.stepBogusComment hmarker hc
  · split
    · exact (h.goTo _).keep
    · exact h.keep

end

/-! ### Runs -/

theorem Avoids.countLine (h : Avoids marker m) (c : Char) : Avoids marker (countLine m c) := by
  rw [Lexer.countLine]
  split
  · exact ⟨h.text, h.attributes, h.value, h.word, h.comment⟩
  · exact h

theorem Avoids.atEnd (hmarker : IsMarker marker) (h : Avoids marker m) :
    ∀ token ∈ atEnd m, token.Avoids marker := by
  rw [Lexer.atEnd.eq_def]
  split
  all_goals first
    | exact h.pending
    | exact h.endComment.2
    | exact (h.write (by simp [hmarker.ne, h.word])).pending

theorem Avoids.run (hmarker : IsMarker marker) {cs : List Char} (hcs : marker ∉ cs)
    (hamp : '&' ∉ cs) (skip : Nat) (h : Avoids marker m) :
    ∀ token ∈ run skip m cs, token.Avoids marker := by
  induction cs generalizing skip m with
  | nil => exact h.atEnd hmarker
  | cons c cs ih =>
    have hrest : ∀ n, Avoids marker n → ∀ skip, ∀ token ∈ Lexer.run skip n cs,
        token.Avoids marker := fun n hn skip =>
      ih (fun hmem => hcs (List.mem_cons_of_mem _ hmem))
        (fun hmem => hamp (List.mem_cons_of_mem _ hmem)) skip hn
    cases skip with
    | succ skip => exact hrest m h skip
    | zero =>
      have hc : c ≠ marker := fun heq => hcs (heq ▸ List.mem_cons_self)
      have hne : c ≠ '&' := fun heq => hamp (heq ▸ List.mem_cons_self)
      have hstep := (h.countLine c).step hmarker hc hne cs
      intro token htoken
      rw [Lexer.run] at htoken
      rcases List.mem_append.1 htoken with htoken | htoken
      · exact hstep.2 token htoken
      · exact hrest _ hstep.1 _ token htoken

theorem mem_of_mem_unifyLineEnds {c : Char} {cs : List Char} (h : c ∈ unifyLineEnds cs) :
    c = '\n' ∨ c ∈ cs := by
  fun_induction unifyLineEnds cs with
  | case1 => cases h
  | case2 cs ih =>
    rcases List.mem_cons.1 h with rfl | h
    · exact .inl rfl
    · exact (ih h).imp_right fun h => List.mem_cons_of_mem _ (List.mem_cons_of_mem _ h)
  | case3 cs _ ih =>
    rcases List.mem_cons.1 h with rfl | h
    · exact .inl rfl
    · exact (ih h).imp_right (List.mem_cons_of_mem _)
  | case4 d cs _ _ ih =>
    rcases List.mem_cons.1 h with rfl | h
    · exact .inr List.mem_cons_self
    · exact (ih h).imp_right (List.mem_cons_of_mem _)

theorem withoutMark_subset (cs : List Char) : withoutMark cs ⊆ cs := by
  rw [withoutMark.eq_def]
  split
  · exact List.subset_cons_self _ _
  · exact List.Subset.refl _

end Lexer

theorem avoids_of_mem_tokens {marker : Char} (hmarker : IsMarker marker) {markup : List Char}
    (hfree : marker ∉ markup) (hamp : '&' ∉ markup) :
    ∀ token ∈ tokens markup, token.Avoids marker := by
  have hnone : ∀ c ∉ markup, c ≠ '\n' →
      c ∉ Lexer.unifyLineEnds (Lexer.withoutMark markup) := by
    intro c hc hne hmem
    rcases Lexer.mem_of_mem_unifyLineEnds hmem with rfl | hmem
    · exact hne rfl
    · exact hc (Lexer.withoutMark_subset markup hmem)
  exact Lexer.Avoids.run hmarker (hnone marker hfree (hmarker.ne (by decide)))
    (hnone '&' hamp (by decide)) 0 ⟨by simp, nofun, by simp, by simp, by simp⟩

end MustacheJsx.Markup
