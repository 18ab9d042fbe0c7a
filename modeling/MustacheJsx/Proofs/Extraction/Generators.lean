import MustacheJsx.Extraction.Generator
import MustacheJsx.Proofs.Extraction.Inserting
import MustacheJsx.Proofs.Text.Trimming

/-!
# Calls that are bound to attributes

The words of a call are put one blank apart. That changes no quotes and brings no braces together,
so the call ends at its braces as before, unless a brace stood apart from them.
-/

namespace MustacheJsx

namespace Text

/-! ### Squeezing blanks -/

/-- `cs` with one space for each run of blanks, and none for a run at the end. -/
def squeeze : List Char → List Char
  | [] => []
  | c :: cs =>
    if isBlank c then
      if (squeeze cs).head?.all isBlank then squeeze cs else ' ' :: squeeze cs
    else c :: squeeze cs

theorem squeeze_char {c : Char} (h : isBlank c = false) (cs : List Char) :
    squeeze (c :: cs) = c :: squeeze cs := by
  rw [squeeze, if_neg (Bool.eq_false_iff.1 h)]

/-- Before a blank nothing, a space, or what comes after a new space is left. -/
theorem squeeze_blank {c : Char} (h : isBlank c = true) (cs : List Char) :
    (squeeze cs = [] ∧ squeeze (c :: cs) = []) ∨
      (∃ d rest, isBlank d = false ∧ squeeze cs = ' ' :: d :: rest ∧
        squeeze (c :: cs) = ' ' :: d :: rest) ∨
      ∃ d rest, isBlank d = false ∧ squeeze cs = d :: rest ∧
        squeeze (c :: cs) = ' ' :: d :: rest := by
  induction cs generalizing c with
  | nil => exact .inl ⟨rfl, by rw [squeeze, if_pos h]; rfl⟩
  | cons d cs ih =>
    cases hd : isBlank d with
    | true =>
      rcases ih hd with ⟨-, hnil⟩ | ⟨e, rest, he, -, hspace⟩ | ⟨e, rest, he, -, hspace⟩
      · exact .inl ⟨hnil, by rw [squeeze, if_pos h, hnil]; rfl⟩
      · exact .inr (.inl ⟨e, rest, he, hspace, by rw [squeeze, if_pos h, hspace]; rfl⟩)
      · exact .inr (.inl ⟨e, rest, he, hspace, by rw [squeeze, if_pos h, hspace]; rfl⟩)
    | false =>
      have hchar := squeeze_char hd cs
      refine .inr (.inr ⟨d, squeeze cs, hd, hchar, ?_⟩)
      rw [squeeze, if_pos h, hchar]
      simp [hd]

theorem squeeze_cases (cs : List Char) :
    squeeze cs = [] ∨ ∃ d rest, isBlank d = false ∧
      (squeeze cs = d :: rest ∨ squeeze cs = ' ' :: d :: rest) := by
  cases cs with
  | nil => exact .inl rfl
  | cons c cs =>
    cases hc : isBlank c with
    | false => exact .inr ⟨c, squeeze cs, hc, .inl (squeeze_char hc cs)⟩
    | true =>
      rcases squeeze_blank hc cs with ⟨-, h⟩ | ⟨d, rest, hd, -, h⟩ | ⟨d, rest, hd, -, h⟩
      · exact .inl h
      · exact .inr ⟨d, rest, hd, .inr h⟩
      · exact .inr ⟨d, rest, hd, .inr h⟩

theorem exists_of_squeeze {c : Char} {cs rest : List Char} (h : squeeze cs = c :: rest)
    (hc : isBlank c = false) : ∃ more, cs = c :: more ∧ squeeze more = rest := by
  have hspace : isBlank ' ' = true := by decide
  cases cs with
  | nil => cases h
  | cons d cs =>
    cases hd : isBlank d with
    | false =>
      rw [squeeze_char hd] at h
      obtain ⟨rfl, hrest⟩ := List.cons.inj h
      exact ⟨cs, rfl, hrest⟩
    | true =>
      rcases squeeze_blank hd cs with ⟨-, h'⟩ | ⟨e, more, -, -, h'⟩ | ⟨e, more, -, -, h'⟩
      · rw [h'] at h
        cases h
      · obtain ⟨rfl, -⟩ := List.cons.inj (h'.symm.trans h)
        rw [hspace] at hc
        cases hc
      · obtain ⟨rfl, -⟩ := List.cons.inj (h'.symm.trans h)
        rw [hspace] at hc
        cases hc

theorem isPrefix_of_squeeze {lead cs : List Char} (hlead : ∀ c ∈ lead, isBlank c = false)
    (h : lead <+: squeeze cs) : lead <+: cs := by
  induction lead generalizing cs with
  | nil => exact List.nil_prefix
  | cons c lead ih =>
    obtain ⟨rest, hrest⟩ := h
    obtain ⟨more, rfl, hmore⟩ := exists_of_squeeze hrest.symm (hlead c List.mem_cons_self)
    rw [List.cons_prefix_cons]
    exact ⟨rfl, ih (fun d hd => hlead d (List.mem_cons_of_mem c hd)) ⟨rest, hmore.symm⟩⟩

theorem trimStart_squeeze (cs : List Char) : trimStart (squeeze cs) = squeeze (trimStart cs) := by
  induction cs with
  | nil => rfl
  | cons c cs ih =>
    cases hc : isBlank c with
    | false =>
      have htrim : trimStart (c :: cs) = c :: cs := by simp [trimStart, hc]
      rw [htrim, squeeze_char hc]
      simp [trimStart, hc]
    | true =>
      have htrim : trimStart (c :: cs) = trimStart cs := by simp [trimStart, hc]
      have hspace : isBlank ' ' = true := by decide
      rw [htrim, ← ih]
      rcases squeeze_blank hc cs with ⟨h, h'⟩ | ⟨d, rest, hd, h, h'⟩ | ⟨d, rest, hd, h, h'⟩
      · rw [h, h']
      · rw [h, h']
      · simp [h, h', trimStart, hspace, hd]

theorem wordsAfter_ne_nil {word : List Char} (h : word ≠ []) (cs : List Char) :
    wordsAfter word cs ≠ [] := by
  induction cs generalizing word with
  | nil => simp [wordsAfter, h]
  | cons c cs ih =>
    rw [wordsAfter]
    split
    · simp [h]
    · exact ih (List.cons_ne_nil c word)

theorem wordsAfter_eq_nil_iff (cs : List Char) : wordsAfter [] cs = [] ↔ squeeze cs = [] := by
  induction cs with
  | nil => exact iff_of_true rfl rfl
  | cons c cs ih =>
    cases hc : isBlank c with
    | true =>
      rw [wordsAfter, if_pos hc, if_pos List.isEmpty_nil, ih]
      rcases squeeze_blank hc cs with ⟨h, h'⟩ | ⟨d, rest, -, h, h'⟩ | ⟨d, rest, -, h, h'⟩ <;>
        simp [h, h']
    | false =>
      rw [wordsAfter, if_neg (Bool.eq_false_iff.1 hc), squeeze_char hc]
      exact iff_of_false (wordsAfter_ne_nil (List.cons_ne_nil c []) cs) (List.cons_ne_nil _ _)

theorem joinWith_wordsAfter (word cs : List Char) :
    joinWith ' ' (wordsAfter word cs) =
      if word = [] then trimStart (squeeze cs) else word.reverse ++ squeeze cs := by
  induction cs generalizing word with
  | nil =>
    by_cases hword : word = []
    · simp [hword, wordsAfter, joinWith, squeeze, trimStart]
    · simp [hword, wordsAfter, joinWith, squeeze]
  | cons c cs ih =>
    have hspace : isBlank ' ' = true := by decide
    cases hc : isBlank c with
    | false =>
      have hne : c :: word ≠ [] := List.cons_ne_nil c word
      rw [wordsAfter, if_neg (Bool.eq_false_iff.1 hc), ih, if_neg hne, squeeze_char hc]
      by_cases hword : word = []
      · simp [hword, trimStart, hc]
      · simp [hword]
    | true =>
      have hih := ih []
      rw [if_pos rfl] at hih
      rw [wordsAfter, if_pos hc]
      by_cases hword : word = []
      · rw [if_pos hword, if_pos (by simp [hword]), hih]
        rcases squeeze_blank hc cs with ⟨h, h'⟩ | ⟨d, rest, hd, h, h'⟩ | ⟨d, rest, hd, h, h'⟩
        · rw [h, h']
        · rw [h, h']
        · simp [h, h', trimStart, hspace, hd]
      · rw [if_neg hword, if_neg (by simp [hword])]
        cases hwords : wordsAfter [] cs with
        | nil =>
          have hnil := (wordsAfter_eq_nil_iff cs).1 hwords
          rcases squeeze_blank hc cs with ⟨-, h'⟩ | ⟨d, rest, hd, h, -⟩ | ⟨d, rest, hd, h, -⟩
          · rw [h', List.append_nil]
            rfl
          · rw [hnil] at h
            cases h
          · rw [hnil] at h
            cases h
        | cons first words =>
          show word.reverse ++ ' ' :: joinWith ' ' (first :: words) = _
          rw [← hwords, hih]
          rcases squeeze_blank hc cs with ⟨h, -⟩ | ⟨d, rest, hd, h, h'⟩ | ⟨d, rest, hd, h, h'⟩
          · rw [(wordsAfter_eq_nil_iff cs).2 h] at hwords
            cases hwords
          · simp [h, h', trimStart, hspace, hd]
          · simp [h, h', trimStart, hd]

theorem joinWith_words (cs : List Char) : joinWith ' ' (words cs) = trimStart (squeeze cs) := by
  rw [words, joinWith_wordsAfter, if_pos rfl]

end Text

namespace Span

/-! ### Closing braces after squeezing -/

/-- Where a character can stand that comes after one outside quotes. -/
def Quoting.IsReached : Quoting → Prop
  | .outside => True
  | .inside quote | .escaped quote => quote = '"' ∨ quote = '\''

theorem Quoting.IsReached.after {quoting : Quoting} (h : quoting.IsReached) (c : Char) :
    (quoting.after c).IsReached := by
  cases quoting with
  | outside =>
    rw [Quoting.after]
    split
    · next hquote => exact hquote
    · trivial
  | inside quote =>
    rw [Quoting.after]
    split
    · exact h
    · split
      · trivial
      · exact h
  | escaped quote => exact h

theorem Quoting.after_blank {quoting : Quoting} (h : quoting.IsReached) {c : Char}
    (hc : Text.isBlank c = true) :
    quoting.after c = quoting.after ' ' ∧ (quoting.after c).after ' ' = quoting.after ' ' ∧
      (quoting.after c = .outside → quoting = .outside) := by
  have hne : ∀ {d : Char}, Text.isBlank d = false → c ≠ d := by
    rintro d hd rfl
    rw [hc] at hd
    cases hd
  have hinside : ∀ {quote : Char}, quote = '"' ∨ quote = '\'' →
      ∀ {c : Char}, Text.isBlank c = true → (Quoting.inside quote).after c = .inside quote := by
    rintro quote hquote c hc
    have hbackslash : c ≠ '\\' := by
      rintro rfl
      exact absurd hc (by decide)
    have hsame : c ≠ quote := by
      rintro rfl
      rcases hquote with rfl | rfl <;> exact absurd hc (by decide)
    rw [Quoting.after, if_neg hbackslash, if_neg hsame]
  have hspace : Text.isBlank ' ' = true := by decide
  cases quoting with
  | outside =>
    have hout : ∀ {c : Char}, Text.isBlank c = true → Quoting.outside.after c = .outside := by
      intro c hc
      rw [Quoting.after, if_neg]
      rintro (rfl | rfl) <;> exact absurd hc (by decide)
    rw [hout hc, hout hspace]
    exact ⟨rfl, rfl, fun _ => rfl⟩
  | inside quote =>
    rw [hinside h hc, hinside h hspace]
    exact ⟨rfl, rfl, fun heq => by cases heq⟩
  | escaped quote =>
    show Quoting.inside quote = .inside quote ∧ _ ∧ _
    refine ⟨rfl, hinside h hspace, fun heq => ?_⟩
    cases heq

theorem cutAtClose?_cons {close : List Char} {quoting : Quoting} {c : Char} {cs : List Char}
    (h : quoting = .outside → Text.afterLead? close (c :: cs) = none) :
    cutAtClose? close quoting (c :: cs) =
      (cutAtClose? close (quoting.after c) cs).map fun cut => (c :: cut.1, cut.2) := by
  have hnone : (if quoting = .outside then Text.afterLead? close (c :: cs) else none) = none := by
    split
    · next hout => exact h hout
    · rfl
  rw [cutAtClose?, hnone]

theorem cut_of_cons {quoting : Quoting} {c : Char} {cs rest : List Char}
    (h : cutAtClose? ['}', '}'] quoting (c :: cs ++ '}' :: '}' :: rest) = some (c :: cs, rest)) :
    (quoting = .outside → Text.afterLead? ['}', '}'] (c :: (cs ++ '}' :: '}' :: rest)) = none) ∧
      cutAtClose? ['}', '}'] (quoting.after c) (cs ++ '}' :: '}' :: rest) = some (cs, rest) := by
  rw [List.cons_append, cutAtClose?] at h
  split at h
  · cases h
  · next hnone =>
    obtain ⟨cut, hcut, hpair⟩ := Option.map_eq_some_iff.1 h
    obtain ⟨hcs, hrest⟩ := Prod.mk.inj hpair
    refine ⟨fun hout => ?_, ?_⟩
    · rw [if_pos hout] at hnone
      exact hnone
    · rw [hcut, ← (List.cons.inj hcs).2, ← hrest]

theorem afterLead?_braces_of_ne {c : Char} (h : c ≠ '}') (cs : List Char) :
    Text.afterLead? ['}', '}'] (c :: cs) = none := by
  rw [Text.afterLead?, if_neg (Ne.symm h)]

/-- Where no braces begin none come about when the blanks behind are squeezed, unless a brace comes
to stand before the ones at the end. -/
theorem afterLead?_braces_squeeze {c : Char} {cs rest : List Char}
    (h : Text.afterLead? ['}', '}'] (c :: (cs ++ '}' :: '}' :: rest)) = none)
    (hbrace : ¬ (c = '}' ∧ Text.squeeze cs = [])) (rest' : List Char) :
    Text.afterLead? ['}', '}'] (c :: (Text.squeeze cs ++ '}' :: '}' :: rest')) = none := by
  by_cases hc : c = '}'
  · subst hc
    cases hfirst : Text.squeeze cs with
    | nil => exact absurd ⟨rfl, hfirst⟩ hbrace
    | cons d more =>
      by_cases hd : d = '}'
      · subst hd
        obtain ⟨more', rfl, -⟩ := Text.exists_of_squeeze hfirst (by decide)
        cases h
      · rw [List.cons_append, Text.afterLead?, if_pos rfl, Text.afterLead?, if_neg (Ne.symm hd)]
  · exact afterLead?_braces_of_ne hc _

/-- A text that ends at its braces does so when its blanks are squeezed, or one brace before. -/
theorem exists_cut_squeeze {quoting : Quoting} {cs rest : List Char} (hreached : quoting.IsReached)
    (h : cutAtClose? ['}', '}'] quoting (cs ++ '}' :: '}' :: rest) = some (cs, rest))
    (rest' : List Char) :
    (Text.squeeze cs = [] → quoting = .outside) ∧
      ∃ inner tail, (tail = [] ∨ tail = ['}']) ∧ Text.squeeze cs = inner ++ tail ∧
        cutAtClose? ['}', '}'] quoting (Text.squeeze cs ++ '}' :: '}' :: rest') =
          some (inner, tail ++ rest') := by
  induction cs generalizing quoting with
  | nil =>
    have hout : quoting = .outside := by
      by_contra hinside
      rw [List.nil_append, cutAtClose?, if_neg hinside] at h
      obtain ⟨cut, -, hpair⟩ := Option.map_eq_some_iff.1 h
      cases hpair
    subst hout
    exact ⟨fun _ => rfl, [], [], .inl rfl, rfl, rfl⟩
  | cons c cs ih =>
    obtain ⟨hlead, hcut⟩ := cut_of_cons h
    obtain ⟨hnil, inner, tail, htail, hsqueezed, hcut'⟩ := ih (hreached.after c) hcut
    cases hc : Text.isBlank c with
    | false =>
      rw [Text.squeeze_char hc]
      refine ⟨fun hempty => absurd hempty (List.cons_ne_nil _ _), ?_⟩
      by_cases hbrace : quoting = .outside ∧ c = '}' ∧ Text.squeeze cs = []
      · obtain ⟨rfl, rfl, hempty⟩ := hbrace
        rw [hempty]
        exact ⟨[], ['}'], .inr rfl, rfl, rfl⟩
      · refine ⟨c :: inner, tail, htail, by rw [hsqueezed]; rfl, ?_⟩
        have hlead' : quoting = .outside →
            Text.afterLead? ['}', '}'] (c :: (Text.squeeze cs ++ '}' :: '}' :: rest')) = none :=
          fun hout => afterLead?_braces_squeeze (hlead hout) (fun hlast => hbrace ⟨hout, hlast⟩) _
        rw [List.cons_append, cutAtClose?_cons hlead', hcut']
        rfl
    | true =>
      obtain ⟨hspace, htwice, hout⟩ := Quoting.after_blank hreached hc
      have hstep : ∀ quoting cs, cutAtClose? ['}', '}'] quoting (' ' :: cs) =
          (cutAtClose? ['}', '}'] (quoting.after ' ') cs).map fun cut => (' ' :: cut.1, cut.2) :=
        fun quoting cs => cutAtClose?_cons fun _ => afterLead?_braces_of_ne (by decide) cs
      rcases Text.squeeze_blank hc cs with ⟨h₁, h₂⟩ | ⟨d, more, -, h₁, h₂⟩ | ⟨d, more, -, h₁, h₂⟩
      · obtain rfl := hout (hnil h₁)
        rw [h₂]
        exact ⟨fun _ => rfl, [], [], .inl rfl, rfl, rfl⟩
      · rw [h₂]
        refine ⟨fun hempty => absurd hempty (List.cons_ne_nil _ _), inner, tail, htail,
          h₁.symm.trans hsqueezed, ?_⟩
        rw [h₁, List.cons_append, hstep, htwice] at hcut'
        rw [List.cons_append, hstep, hcut']
      · rw [h₂]
        refine ⟨fun hempty => absurd hempty (List.cons_ne_nil _ _), ' ' :: inner, tail, htail, ?_,
          ?_⟩
        · rw [← h₁, hsqueezed]
          rfl
        · rw [h₁] at hcut'
          rw [List.cons_append, hstep, ← hspace, hcut']
          rfl

/-- The words of a text that ends at its braces, put together, end there or one brace before. -/
theorem exists_cut_words {cs rest : List Char}
    (h : cutAtClose? ['}', '}'] .outside (cs ++ '}' :: '}' :: rest) = some (cs, rest))
    (rest' : List Char) :
    ∃ inner tail, (tail = [] ∨ tail = ['}']) ∧
      Text.joinWith ' ' (Text.words cs) = inner ++ tail ∧
      cutAtClose? ['}', '}'] .outside (Text.joinWith ' ' (Text.words cs) ++ '}' :: '}' :: rest') =
        some (inner, tail ++ rest') := by
  have hreached : Quoting.outside.IsReached := trivial
  obtain ⟨-, inner, tail, htail, hsqueezed, hcut⟩ := exists_cut_squeeze hreached h rest'
  rw [Text.joinWith_words]
  rcases Text.squeeze_cases cs with hnil | ⟨d, more, hd, hchar | hspace⟩
  · rw [hnil] at hsqueezed hcut ⊢
    exact ⟨inner, tail, htail, hsqueezed, hcut⟩
  · have htrim : Text.trimStart (Text.squeeze cs) = Text.squeeze cs := by
      simp [hchar, Text.trimStart, hd]
    rw [htrim]
    exact ⟨inner, tail, htail, hsqueezed, hcut⟩
  · have htrim : Text.trimStart (Text.squeeze cs) = d :: more := by
      simp [hspace, Text.trimStart, hd, (by decide : Text.isBlank ' ' = true)]
    have hne : ' ' ≠ '}' := by decide
    rw [hspace, List.cons_append, cutAtClose?_cons fun _ => afterLead?_braces_of_ne hne _] at hcut
    obtain ⟨⟨inner', after⟩, hcut', hpair⟩ := Option.map_eq_some_iff.1 hcut
    obtain ⟨rfl, rfl⟩ := Prod.mk.inj hpair
    rw [hspace] at hsqueezed
    rw [htrim]
    exact ⟨inner', tail, htail, (List.cons.inj hsqueezed).2, hcut'⟩

end Span

/-! ### The beginning of a call -/

namespace Text

theorem exists_of_dropWhile_reverse {p : Char → Bool} {front : List Char}
    (h : ∀ c ∈ front.getLast?, p c = false) (rest : List Char) :
    ∃ rest', ((front ++ rest).reverse.dropWhile p).reverse = front ++ rest' := by
  rw [List.reverse_append, List.dropWhile_append]
  split
  · refine ⟨[], ?_⟩
    cases hreverse : front.reverse with
    | nil =>
      rw [List.reverse_eq_nil_iff.1 hreverse]
      rfl
    | cons c back =>
      have hlast : front.getLast? = some c := by
        rw [← List.head?_reverse, hreverse]
        rfl
      rw [List.dropWhile_cons_of_neg (Bool.eq_false_iff.1 (h c hlast)), ← hreverse,
        List.reverse_reverse, List.append_nil]
  · exact ⟨_, by rw [List.reverse_append, List.reverse_reverse]⟩

def afterTilde (cs : List Char) : List Char := trimStart (Span.leadingTilde (trimStart cs)).2

theorem afterTilde_squeeze (cs : List Char) :
    afterTilde (squeeze cs) = squeeze (afterTilde cs) := by
  have htilde : (Span.leadingTilde (squeeze (trimStart cs))).2 =
      squeeze (Span.leadingTilde (trimStart cs)).2 := by
    rcases trimStart_cases cs with h | ⟨c, rest, hc, h⟩
    · rw [h]
      rfl
    · rw [h, squeeze_char hc]
      by_cases heq : c = '~'
      · subst heq
        rfl
      · have hne : ∀ {more : List Char}, ∀ d ∈ (c :: more).head?, d ≠ '~' := by
          rintro more d ⟨⟩
          exact heq
        rw [Span.leadingTilde_of_ne hne, Span.leadingTilde_of_ne hne]
        exact (squeeze_char hc rest).symm
  rw [afterTilde, trimStart_squeeze, htilde, trimStart_squeeze]
  rfl

end Text

namespace TagMustache

def blockLeads : List (List Char) := [['#'], ['/'], ['^'], ['e', 'l', 's', 'e']]

/-- How tags begin that are no calls: those of a block, comments, and values in three braces. -/
def otherLeads : List (List Char) := blockLeads ++ [['!'], ['{']]

theorem otherLead_chars : ∀ lead ∈ otherLeads,
    lead ≠ [] ∧ ∀ c ∈ lead, Text.isBlank c = false ∧ (c == '~') = false ∧ c ≠ '}' := by
  decide

theorem exists_of_isBlockTag {m : TagMustache} (h : m.isBlockTag = true) :
    ∃ lead ∈ blockLeads, lead <+: m.front := by
  rcases Bool.or_eq_true_iff.1 h with hmark | helse
  · obtain ⟨c, hc, hmem⟩ := (Option.any_eq_true _ _).1 hmark
    obtain ⟨rest, hrest⟩ := List.head?_eq_some_iff.1 hc
    rw [hrest]
    refine ⟨[c], ?_, ⟨rest, rfl⟩⟩
    simp only [List.contains_eq_mem, List.mem_cons, List.not_mem_nil, or_false,
      decide_eq_true_eq] at hmem
    rcases hmem with rfl | rfl | rfl <;> decide
  · rw [beginsElse] at helse
    split at helse
    · next after hafter =>
      exact ⟨_, by decide, ⟨after, (Text.afterLead?_eq_some_iff.1 hafter).symm⟩⟩
    · cases helse

theorem exists_of_afterTilde (content : List Char) :
    ∃ tilde blanks, (tilde = [] ∨ tilde = ['~']) ∧ (∀ c ∈ blanks, Text.isBlank c = true) ∧
      Text.trimStart content = tilde ++ (blanks ++ Text.afterTilde content) := by
  have hblanks := List.takeWhile_append_dropWhile (p := Text.isBlank)
    (l := (Span.leadingTilde (Text.trimStart content)).2)
  rw [← Text.trimStart, ← Text.afterTilde] at hblanks
  obtain ⟨tilde, htilde, hcontent⟩ : ∃ tilde, (tilde = [] ∨ tilde = ['~']) ∧
      Text.trimStart content = tilde ++ (Span.leadingTilde (Text.trimStart content)).2 := by
    rw [Span.leadingTilde.eq_def]
    split
    · next cs heq => exact ⟨['~'], .inr rfl, heq⟩
    · exact ⟨[], .inl rfl, rfl⟩
  refine ⟨tilde, (Span.leadingTilde (Text.trimStart content)).2.takeWhile Text.isBlank, htilde,
    fun c hc => List.mem_takeWhile_imp hc, ?_⟩
  rw [hblanks]
  exact hcontent

theorem dropWhile_tilde {tilde blanks cs : List Char} {first : Char}
    (htilde : tilde = [] ∨ tilde = ['~']) (hblanks : ∀ c ∈ blanks, Text.isBlank c = true)
    (hfirst : (first == '~') = false) :
    (tilde ++ (blanks ++ first :: cs)).dropWhile (· == '~') = blanks ++ first :: cs := by
  have hstay : (blanks ++ first :: cs).dropWhile (· == '~') = blanks ++ first :: cs := by
    cases blanks with
    | nil => exact List.dropWhile_cons_of_neg (Bool.eq_false_iff.1 hfirst)
    | cons c blanks =>
      refine List.dropWhile_cons_of_neg (Bool.eq_false_iff.1 ?_)
      rw [beq_eq_false_iff_ne]
      rintro rfl
      exact absurd (hblanks '~' List.mem_cons_self) (by decide)
  rcases htilde with rfl | rfl
  · exact hstay
  · exact (List.dropWhile_cons_of_pos rfl).trans hstay

theorem isPrefix_trim {lead content : List Char} (hne : lead ≠ [])
    (hchars : ∀ c ∈ lead, Text.isBlank c = false ∧ (c == '~') = false)
    (h : lead <+: Text.afterTilde content) :
    lead <+: Text.trim (trimTildes (Text.trim content)) := by
  obtain ⟨rest, hrest⟩ := h
  have hlast : ∀ (front : List Char), ∀ c ∈ (front ++ lead).getLast?, c ∈ lead := by
    intro front c hc
    rw [List.getLast?_append_of_ne_nil _ hne] at hc
    exact List.mem_of_getLast? hc
  obtain ⟨first, tail, rfl⟩ := List.exists_cons_of_ne_nil hne
  obtain ⟨hfirst, hfirst'⟩ := hchars first List.mem_cons_self
  obtain ⟨tilde, blanks, htilde, hblanks, hcontent⟩ := exists_of_afterTilde content
  rw [← hrest] at hcontent
  -- What is cut off at the end, thrice, does not reach the beginning of the tag.
  obtain ⟨rest₁, htrim⟩ : ∃ rest₁,
      Text.trim content = tilde ++ (blanks ++ first :: (tail ++ rest₁)) := by
    have hend := @Text.exists_of_dropWhile_reverse Text.isBlank (tilde ++ blanks ++ first :: tail)
      (fun c hc => (hchars c (hlast _ c hc)).1) rest
    rw [Text.trim, Text.trimEnd, hcontent]
    simpa only [List.append_assoc, List.cons_append] using hend
  obtain ⟨rest₂, htildes⟩ := @Text.exists_of_dropWhile_reverse (· == '~')
    (blanks ++ first :: tail) (fun c hc => (hchars c (hlast _ c hc)).2) rest₁
  rw [List.append_assoc, List.cons_append, ← dropWhile_tilde htilde hblanks hfirst', ← htrim,
    ← trimTildes] at htildes
  have hstart : Text.trimStart (blanks ++ first :: tail ++ rest₂) = first :: tail ++ rest₂ := by
    rw [Text.trimStart, List.append_assoc, List.dropWhile_append_of_pos hblanks]
    exact List.dropWhile_cons_of_neg (Bool.eq_false_iff.1 hfirst)
  obtain ⟨rest₃, hcore⟩ := @Text.exists_of_dropWhile_reverse Text.isBlank (first :: tail)
    (fun c hc => (hchars c (hlast [] c hc)).1) rest₂
  rw [Text.trim, htildes, hstart, Text.trimEnd, hcore]
  exact List.prefix_append _ _

theorem isOtherTag_of_isPrefix {lead cs : List Char} (hlead : isOtherTag lead = true)
    (h : lead <+: cs) : isOtherTag cs = true := by
  obtain ⟨rest, rfl⟩ := h
  rw [isOtherTag, Bool.or_eq_true] at hlead ⊢
  rcases hlead with hmark | helse
  · cases lead with
    | nil => cases hmark
    | cons c lead => exact .inl hmark
  · exact .inr (Text.startsWith_iff.2
      ((Text.startsWith_iff.1 helse).trans (List.prefix_append _ _)))

theorem not_isPrefix_of_isGeneratorCall {m : TagMustache} (h : m.isGeneratorCall = true)
    {lead : List Char} (hlead : isOtherTag lead = true)
    (hchars : ∀ c ∈ lead, Text.isBlank c = false ∧ (c == '~') = false) :
    ¬ lead <+: Text.afterTilde m.content := by
  intro hprefix
  have hne : lead ≠ [] := by
    rintro rfl
    cases hlead
  rw [isGeneratorCall, isOtherTag_of_isPrefix hlead (isPrefix_trim hne hchars hprefix)] at h
  cases h

/-- What follows does not matter for how a mustache begins, if no such character follows. -/
theorem isPrefix_exchange {lead inner close : List Char} (hne : lead ≠ [])
    (hclose : ∀ c ∈ close, c ∉ lead ∧ Text.isBlank c = false ∧ c ≠ '~')
    (h : lead <+: Text.trimStart (Span.leadingTilde (inner ++ close)).2) (more : List Char) :
    lead <+: Text.trimStart (Span.leadingTilde (inner ++ more)).2 := by
  have hnot : ¬ lead <+: close := by
    rintro ⟨rest, hrest⟩
    obtain ⟨c, lead, rfl⟩ := List.exists_cons_of_ne_nil hne
    have hc : c ∈ close := by
      rw [← hrest]
      exact List.mem_cons_self
    exact (hclose c hc).1 List.mem_cons_self
  have hstay : Text.trimStart close = close := by
    cases close with
    | nil => rfl
    | cons c close =>
      exact List.dropWhile_cons_of_neg (Bool.eq_false_iff.1 (hclose c List.mem_cons_self).2.1)
  by_cases hinner : inner = []
  · subst hinner
    have htilde : ∀ c ∈ close.head?, c ≠ '~' :=
      fun c hc => (hclose c (List.mem_of_mem_head? hc)).2.2
    rw [List.nil_append, Span.leadingTilde_of_ne htilde] at h
    exact absurd (hstay ▸ h) hnot
  · rw [Span.leadingTilde_append hinner] at h ⊢
    dsimp only at h ⊢
    rw [Text.trimStart, List.dropWhile_append] at h
    rw [Text.trimStart, List.dropWhile_append]
    split at h
    · rw [← Text.trimStart, hstay] at h
      exact absurd h hnot
    · next hempty =>
      rw [if_neg hempty]
      obtain ⟨rest, hrest⟩ := h
      rcases List.append_eq_append_iff.1 hrest with ⟨behind, hbehind, -⟩ |
        ⟨behind, hbehind, hclose'⟩
      · rw [hbehind, List.append_assoc]
        exact List.prefix_append _ _
      · cases behind with
        | nil =>
          rw [hbehind, List.append_nil]
          exact List.prefix_append _ _
        | cons c behind =>
          have hc : c ∈ close := by
            rw [hclose']
            exact List.mem_cons_self
          refine absurd ?_ (hclose c hc).1
          rw [hbehind]
          exact List.mem_append_right _ List.mem_cons_self

theorem content_eq {m : TagMustache} {inner : List Char}
    (htext : m.text = '{' :: '{' :: (inner ++ ['}', '}'])) : m.content = inner := by
  rw [content, htext]
  simp

theorem exists_of_braces {body found : List Char}
    (h : mustacheText? ('{' :: '{' :: body) = some found) :
    ∃ inner rest, found = '{' :: '{' :: (inner ++ ['}', '}']) ∧
      body = inner ++ '}' :: '}' :: rest := by
  obtain ⟨rest, hbody, hlength, ⟨before, rfl⟩, -⟩ := exists_of_mustacheText? h
  rcases before with _ | ⟨c, _ | ⟨d, inner⟩⟩
  · exact absurd hlength (by decide)
  · simp only [List.length_append, List.length_cons, List.length_nil] at hlength
    omega
  · simp only [List.cons_append, List.cons.injEq, List.append_assoc] at hbody
    obtain ⟨rfl, rfl, hbody⟩ := hbody
    exact ⟨inner, rest, rfl, hbody⟩

theorem not_lead_of_isGeneratorCall {m : TagMustache} (h : m.isGeneratorCall = true) :
    m.content ≠ [] ∧ ∀ lead ∈ otherLeads, ¬ lead <+: Text.afterTilde m.content := by
  have hother : ∀ lead ∈ otherLeads, isOtherTag lead = true := by decide
  refine ⟨fun hempty => ?_, fun lead hlead => ?_⟩
  · rw [isGeneratorCall, hempty, Bool.and_eq_true] at h
    exact absurd h.2 (by decide)
  · refine not_isPrefix_of_isGeneratorCall h (hother lead hlead) fun c hc => ?_
    exact ((otherLead_chars lead hlead).2 c hc).imp_right And.left

/-- A call is a plain mustache, so it ends at the first braces outside quotes. -/
theorem exists_cut_of_isGeneratorCall {m : TagMustache} {body : List Char}
    (htext : mustacheText? ('{' :: '{' :: body) = some m.text) (hcall : m.isGeneratorCall = true) :
    m.text = '{' :: '{' :: (m.content ++ ['}', '}']) ∧
      ∃ rest, body = m.content ++ '}' :: '}' :: rest ∧
        Span.cutAtClose? ['}', '}'] .outside body = some (m.content, rest) := by
  obtain ⟨hempty, hlead⟩ := not_lead_of_isGeneratorCall hcall
  obtain ⟨inner, rest, hinner, hbody⟩ := exists_of_braces htext
  have hcontent := content_eq hinner
  rw [hcontent] at hempty hlead ⊢
  refine ⟨hinner, rest, hbody, ?_⟩
  have hhead : ∀ c ∈ body.head?, c ≠ '!' ∧ c ≠ '{' := by
    intro c hc
    rw [hbody, List.head?_append_of_ne_nil _ hempty] at hc
    obtain ⟨tail, rfl⟩ := List.head?_eq_some_iff.1 hc
    refine ⟨?_, ?_⟩
    · rintro rfl
      exact hlead ['!'] (by decide) ⟨tail, rfl⟩
    · rintro rfl
      exact hlead ['{'] (by decide) ⟨tail, rfl⟩
  rw [OpeningTag.mustacheText?_of_head hhead] at htext
  obtain ⟨⟨before, after⟩, hcut, hbefore⟩ := Option.map_eq_some_iff.1 htext
  have heq := hbefore.trans hinner
  obtain rfl : before = inner :=
    List.append_cancel_right (List.cons.inj (List.cons.inj heq).2).2
  have hsource := Span.eq_append_of_cutAtClose? hcut
  rw [hbody, List.append_assoc] at hsource
  obtain rfl : rest = after := by
    simpa using List.append_cancel_left hsource
  exact hcut

theorem generatorName_chars (count : Nat) :
    generatorName count ≠ [] ∧
      ∀ c ∈ generatorName count, WrittenAttribute.isNameChar c = true := by
  have hname : Vocabulary.generatorAttribute.toList ≠ [] ∧
      ∀ c ∈ Vocabulary.generatorAttribute.toList, WrittenAttribute.isNameChar c = true := by
    decide
  rw [generatorName]
  refine ⟨fun hempty => hname.1 (List.append_eq_nil_iff.1 hempty).1, fun c hc => ?_⟩
  rcases List.mem_append.1 hc with hc | hc
  · exact hname.2 c hc
  · split at hc
    · cases hc
    · rcases List.mem_cons.1 hc with rfl | hc
      · decide
      · rw [Nat.repr, String.toList_ofList] at hc
        simp [WrittenAttribute.isNameChar, Text.isWordChar, Text.isDecimal,
          isAsciiDigit_of_mem_toDigits hc]

/-- The attribute of a call stands alone, and has no tag of a block. -/
theorem standsAlone_bind {m : TagMustache} {body : List Char}
    (htext : mustacheText? ('{' :: '{' :: body) = some m.text) (hcall : m.isGeneratorCall = true)
    (start count : Nat) :
    OpeningTag.StandsAlone (m.bind start count).text ∧
      ∀ m' ∈ OpeningTag.mustachesWithin (m.bind start count).text, m'.isBlockTag = false := by
  obtain ⟨-, hlead⟩ := not_lead_of_isGeneratorCall hcall
  obtain ⟨-, rest, hbody, hcut⟩ := exists_cut_of_isGeneratorCall htext hcall
  rw [hbody] at hcut
  obtain ⟨inner', tail, htail, hwords, hcut'⟩ := Span.exists_cut_words hcut ['"']
  have hbegins : ∀ lead ∈ otherLeads,
      ¬ lead <+: Text.trimStart (Span.leadingTilde (inner' ++ tail)).2 := by
    intro lead hmem hprefix
    refine hlead lead hmem (Text.isPrefix_of_squeeze
      (fun c hc => ((otherLead_chars lead hmem).2 c hc).1) ?_)
    rw [← Text.afterTilde_squeeze, Text.afterTilde, ← Text.joinWith_words, hwords]
    exact hprefix
  have htext' : (m.bind start count).text =
      OpeningTag.bound (generatorName count) (Text.joinWith ' ' (Text.words m.content)) := rfl
  obtain ⟨hname, hchars⟩ := generatorName_chars count
  have hhead : ∀ c ∈ (Text.joinWith ' ' (Text.words m.content) ++ ['}', '}', '"']).head?,
      c ≠ '!' ∧ c ≠ '{' := by
    rw [hwords]
    cases hjoined : inner' ++ tail with
    | nil =>
      rintro c ⟨⟩
      decide
    | cons first more =>
      rw [hjoined] at hbegins
      rintro c ⟨⟩
      refine ⟨?_, ?_⟩
      · rintro rfl
        exact hbegins ['!'] (by decide) ⟨more, rfl⟩
      · rintro rfl
        exact hbegins ['{'] (by decide) ⟨more, rfl⟩
  obtain ⟨halone, hmustaches⟩ := OpeningTag.standsAlone_bound hname hchars hhead htail hcut'
  rw [htext']
  refine ⟨halone, fun m' hm => ?_⟩
  rw [Bool.eq_false_iff]
  intro hblock
  obtain ⟨lead, hmem, hprefix⟩ := exists_of_isBlockTag hblock
  have hmem' : lead ∈ otherLeads := List.mem_append_left _ hmem
  obtain ⟨hne, hlast⟩ := otherLead_chars lead hmem'
  rw [front, hmustaches m' hm] at hprefix
  refine hbegins lead hmem' (isPrefix_exchange hne (fun c hc => ?_) hprefix tail)
  have hc : c = '}' := by
    simpa using hc
  subst hc
  exact ⟨fun hbrace => (hlast '}' hbrace).2.2 rfl, by decide, by decide⟩

end TagMustache

end MustacheJsx
