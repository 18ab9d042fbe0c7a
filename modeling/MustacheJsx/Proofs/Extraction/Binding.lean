import MustacheJsx.Proofs.Extraction.Layout
import MustacheJsx.Proofs.Extraction.Preparation
import MustacheJsx.Proofs.Mustache.Closing
import MustacheJsx.Proofs.Mustache.Respacing
import MustacheJsx.Proofs.Opening.Span

/-!
# What a bound call means

A call between attributes becomes the value of an attribute with its words one space apart. The call
can still be read, and it is the same call exactly if the blanks in its strings and brackets are
lone spaces: `exists_call_of_generatorBindings`. Blanks that are text are lost otherwise.
-/

namespace MustacheJsx

namespace Text

/-! ### Blanks at the ends -/

theorem squeeze_of_isBlank {c : Char} (hc : isBlank c = true) (cs : List Char) :
    squeeze (c :: cs) =
      if (squeeze cs).head?.all isBlank then squeeze cs else ' ' :: squeeze cs := by
  rw [squeeze, if_pos hc]

theorem trimEnd_squeeze (cs : List Char) : trimEnd (squeeze cs) = squeeze cs := by
  induction cs with
  | nil => rfl
  | cons c cs ih =>
    cases hc : isBlank c with
    | false => rw [squeeze_char hc, trimEnd_cons, hc, Bool.and_false, if_neg Bool.false_ne_true, ih]
    | true =>
      rcases squeeze_blank hc cs with ⟨-, h⟩ | ⟨d, rest, -, h, h'⟩ | ⟨d, rest, -, h, h'⟩
      · rw [h]
        rfl
      · rw [h', ← h, ih]
      · rw [h', ← h, trimEnd_cons, ih, h, List.isEmpty_cons, Bool.false_and,
          if_neg Bool.false_ne_true]

theorem squeeze_trimEnd (cs : List Char) : squeeze (trimEnd cs) = squeeze cs := by
  induction cs with
  | nil => rfl
  | cons c cs ih =>
    rw [trimEnd_cons]
    split
    · next hdrop =>
      obtain ⟨hempty, hc⟩ := Bool.and_eq_true_iff.1 hdrop
      rw [List.isEmpty_iff.1 hempty] at ih
      rw [squeeze_of_isBlank hc, ← ih]
      rfl
    · rw [squeeze, squeeze, ih]

/-- Before the last character the blanks are squeezed as they are without it, or to a space. -/
theorem exists_squeeze_append_char {d : Char} (hd : isBlank d = false) (cs : List Char) :
    ∃ before, squeeze (cs ++ [d]) = before ++ [d] ∧ trimEnd before = squeeze cs := by
  have hspace : isBlank ' ' = true := by decide
  induction cs with
  | nil => exact ⟨[], squeeze_char hd [], rfl⟩
  | cons c cs ih =>
    obtain ⟨before, hbefore, htrim⟩ := ih
    rw [List.cons_append]
    cases hc : isBlank c with
    | false =>
      refine ⟨c :: before, by rw [squeeze_char hc, hbefore]; rfl, ?_⟩
      rw [squeeze_char hc, trimEnd_cons, hc, Bool.and_false, if_neg Bool.false_ne_true, htrim]
    | true =>
      have hne : squeeze (cs ++ [d]) ≠ [] := by
        rw [hbefore]
        simp
      rcases squeeze_run hc hne with ⟨hrun, hhead⟩ | ⟨ds, hrun, hds, -⟩
      · refine ⟨' ' :: before, by rw [hrun, hbefore]; rfl, ?_⟩
        cases cs with
        | nil =>
          have hnil : trimEnd before = [] := htrim
          rw [trimEnd_cons, hnil, hspace, squeeze_of_isBlank hc]
          rfl
        | cons e cs =>
          have he := hhead e rfl
          rw [trimEnd_cons, htrim, squeeze_of_isBlank hc, squeeze_char he]
          simp [he]
      · refine ⟨before, by rw [hrun, ← hds, hbefore], ?_⟩
        have hstarts : (squeeze cs).head?.all isBlank = true := by
          rw [← htrim]
          cases before with
          | nil =>
            rw [hbefore] at hds
            rw [(List.cons.inj hds).1] at hd
            cases hd
          | cons e before =>
            rw [hbefore] at hds
            rw [(List.cons.inj hds).1, trimEnd_cons]
            split
            · rfl
            · exact hspace
        rw [htrim, squeeze_of_isBlank hc, if_pos hstarts]

theorem getLast?_trimEnd_of_squeeze {d : Char} {cs before : List Char}
    (h : squeeze cs = before ++ [d]) : (trimEnd cs).getLast? = some d := by
  induction cs using List.reverseRecOn with
  | nil => exact absurd h.symm (List.append_ne_nil_of_right_ne_nil before (List.cons_ne_nil d []))
  | append_singleton cs e ih =>
    cases he : isBlank e with
    | false =>
      obtain ⟨before', hsqueeze, -⟩ := exists_squeeze_append_char he cs
      rw [hsqueeze] at h
      obtain ⟨-, hlast⟩ := List.append_inj' h rfl
      rw [trimEnd_append_char he, List.getLast?_concat, (List.cons.inj hlast).1]
    | true =>
      have htrim : trimEnd (cs ++ [e]) = trimEnd cs := by
        rw [trimEnd, List.reverse_append, List.reverse_singleton, List.singleton_append,
          List.dropWhile_cons_of_pos he, ← trimEnd]
      rw [← squeeze_trimEnd, htrim, squeeze_trimEnd] at h
      rw [htrim]
      exact ih h

end Text

namespace Span

/-! ### Tildes -/

/-- What a reader of tags reads between braces: the text without the tildes at the braces and
without blanks at its ends. -/
def core (content : List Char) : List Char :=
  Text.trim (trailingTilde (leadingTilde content).2).2

/-- No blanks stand between a tilde at an end and the braces there. -/
structure TildesTouch (content : List Char) : Prop where
  left : (Text.trimStart content).head? = some '~' → content.head? = some '~'
  right : (Text.trimEnd content).getLast? = some '~' → content.getLast? = some '~'

theorem leadingTilde_cases (content : List Char) :
    content = '~' :: (leadingTilde content).2 ∨
      (leadingTilde content).2 = content ∧ content.head? ≠ some '~' := by
  rw [leadingTilde.eq_def]
  split
  · exact .inl rfl
  · next hne =>
    refine .inr ⟨rfl, fun hhead => ?_⟩
    obtain ⟨rest, rfl⟩ := List.head?_eq_some_iff.1 hhead
    exact hne rest rfl

theorem trailingTilde_append (cs : List Char) : trailingTilde (cs ++ ['~']) = (true, cs) := by
  rw [trailingTilde, List.reverse_append]
  simp

theorem trimStart_leadingTilde {content : List Char} (h : TildesTouch content) :
    Text.trimStart (leadingTilde content).2 = Text.afterTilde content := by
  rcases leadingTilde_cases content with hcontent | ⟨hcontent, hne⟩
  · have htrim : Text.trimStart content = content := by
      rw [hcontent]
      rfl
    rw [Text.afterTilde, htrim]
  · have hne' : ∀ c ∈ (Text.trimStart content).head?, c ≠ '~' := by
      rintro c hc rfl
      exact hne (h.left hc)
    rw [hcontent, Text.afterTilde, leadingTilde_of_ne hne', Text.trimStart, Text.trimStart,
      List.dropWhile_idempotent]

theorem TildesTouch.leadingTilde {content : List Char} (h : TildesTouch content)
    (hlast : (Text.trimEnd (leadingTilde content).2).getLast? = some '~') :
    (Span.leadingTilde content).2.getLast? = some '~' := by
  rcases leadingTilde_cases content with hcontent | ⟨hcontent, -⟩
  · generalize (Span.leadingTilde content).2 = inner at hcontent hlast ⊢
    subst hcontent
    have hright := h.right
    rw [Text.trimEnd_cons, (by decide : Text.isBlank '~' = false), Bool.and_false,
      if_neg Bool.false_ne_true] at hright
    cases htrim : Text.trimEnd inner with
    | nil =>
      rw [htrim] at hlast
      cases hlast
    | cons c cs =>
      rw [htrim] at hlast hright
      rw [List.getLast?_cons_cons] at hright
      cases inner with
      | nil => cases htrim
      | cons d ds =>
        rw [List.getLast?_cons_cons] at hright
        exact hright hlast
  · rw [hcontent] at hlast ⊢
    exact h.right hlast

/-- Squeezing blanks before a tilde at the end is squeezing those of the text without it. -/
theorem trim_trailingTilde_squeeze {cs ds : List Char}
    (htouch : (Text.trimEnd cs).getLast? = some '~' → cs.getLast? = some '~')
    (h : Text.trimStart ds = Text.squeeze (Text.trimStart cs)) :
    Text.trim (trailingTilde ds).2 = Text.squeeze (Text.trim (trailingTilde cs).2) := by
  have htilde : Text.isBlank '~' = false := by decide
  by_cases hlast : cs.getLast? = some '~'
  · obtain ⟨before, rfl⟩ := List.getLast?_eq_some_iff.1 hlast
    obtain ⟨squeezed, hsqueezed, htrim⟩ :=
      Text.exists_squeeze_append_char htilde (Text.trimStart before)
    rw [Text.trimStart_append_char htilde, hsqueezed] at h
    obtain ⟨before', rfl⟩ : ∃ before', ds = before' ++ ['~'] := by
      obtain ⟨front, hfront⟩ := List.dropWhile_suffix Text.isBlank (l := ds)
      refine ⟨front ++ squeezed, ?_⟩
      rw [← hfront, ← Text.trimStart, h, List.append_assoc]
    rw [Text.trimStart_append_char htilde] at h
    rw [trailingTilde_append, trailingTilde_append, Text.trim, List.append_cancel_right h, htrim,
      Text.trim, Text.squeeze_trimEnd]
  · have hlast' : ∀ c ∈ ds.getLast?, c ≠ '~' := by
      rintro c hc rfl
      obtain ⟨before, rfl⟩ := List.getLast?_eq_some_iff.1 hc
      obtain ⟨front, hfront⟩ := List.dropWhile_suffix Text.isBlank (l := Text.squeeze cs)
      rw [← Text.trimStart, Text.trimStart_squeeze, ← h, Text.trimStart_append_char htilde,
        ← List.append_assoc] at hfront
      exact hlast (htouch (Text.getLast?_trimEnd_of_squeeze hfront.symm))
    rw [trailingTilde_of_ne hlast', trailingTilde_of_ne (by rintro c hc rfl; exact hlast hc),
      Text.trim, h, Text.trimEnd_squeeze, Text.trim, Text.squeeze_trimEnd]

theorem core_squeeze {content : List Char} (h : TildesTouch content) :
    core (Text.trimStart (Text.squeeze content)) = Text.squeeze (core content) := by
  refine trim_trailingTilde_squeeze h.leadingTilde ?_
  rw [trimStart_leadingTilde h, ← Text.afterTilde_squeeze]
  rfl

end Span

/-! ### Reading a mustache -/

namespace Tag

/-- What the mustache that a text begins with is read as, and the next number after it. -/
def ofMustache? (cs : List Char) (next : Nat) : Option (Tag × Nat) :=
  match Span.read cs with
  | .error _ => none
  | .ok span =>
    match Tag.read span.content span.trusting 0 next with
    | (.ok tag, last) => some (tag, last)
    | (.error _, _) => none

def leads : List (List Char) := TagMustache.otherLeads ++ [['>'], ['&']]

theorem readTrimmed_of_not_lead {cs : List Char} (h : ∀ lead ∈ leads, ¬ lead <+: cs) (next : Nat) :
    outcome (readTrimmed cs) next = outcome (readMustache false cs) next := by
  have hmark : ∀ c, [c] ∈ leads → ∀ rest, cs ≠ c :: rest := by
    rintro c hc rest rfl
    exact h [c] hc ⟨rest, rfl⟩
  have helse : ∀ rest, cs ≠ "else".toList ++ rest := by
    rintro rest rfl
    exact h "else".toList (by decide) ⟨rest, rfl⟩
  rw [readTrimmed.eq_def]
  split
  · rfl
  · exact absurd rfl (hmark '#' (by decide) _)
  · exact absurd rfl (hmark '/' (by decide) _)
  · exact absurd rfl (hmark '>' (by decide) _)
  · exact absurd rfl (hmark '^' (by decide) _)
  · exact absurd rfl (hmark '&' (by decide) _)
  · rw [if_neg fun heq => helse [] (by rw [heq, List.append_nil])]
    split
    · next rest hlead =>
      exact absurd (Text.afterLead?_eq_some_iff.1 hlead) (helse (' ' :: rest))
    · rfl

end Tag

theorem Span.core_isPrefix {content : List Char} (h : TildesTouch content) :
    core content <+: Text.afterTilde content := by
  rw [← trimStart_leadingTilde h]
  exact (Text.trimEnd_isPrefix _).trans (Text.trimStart_isPrefix (trailingTilde_isPrefix _))

theorem Tag.outcome_of_read {content : List Char} (h : ∀ rest, content ≠ '!' :: rest)
    (next : Nat) :
    (match Tag.read content false 0 next with
      | (.ok tag, last) => some (tag, last)
      | (.error _, _) => none) = outcome (readTrimmed (Text.trim content)) next := by
  cases hread : Tag.read content false 0 next with
  | mk result last =>
    cases result with
    | ok tag => exact ((read_eq_ok_iff h).1 hread).symm
    | error e =>
      refine (Option.eq_none_iff_forall_ne_some.2 ?_).symm
      rintro ⟨tag, last'⟩ hsome
      rw [← @read_eq_ok_iff _ h 0, hread] at hsome
      cases hsome

/-- A mustache that begins like no other tag is read as a value. -/
theorem Tag.ofMustache?_braces {inner rest : List Char} (hne : inner ≠ [])
    (htouch : Span.TildesTouch inner) (hlead : ∀ lead ∈ leads, ¬ lead <+: Text.afterTilde inner)
    (hcut : Span.cutAtClose? ['}', '}'] .outside (inner ++ '}' :: '}' :: rest) =
      some (inner, rest)) (next : Nat) :
    ofMustache? ('{' :: '{' :: (inner ++ '}' :: '}' :: rest)) next =
      outcome (readMustache false (Span.core inner)) next := by
  have hthird : Text.startsWith ['{', '{', '{']
      ('{' :: '{' :: (inner ++ '}' :: '}' :: rest)) = false := by
    rw [Bool.eq_false_iff]
    intro hstarts
    obtain ⟨after, hafter⟩ := Text.startsWith_iff.1 hstarts
    cases inner with
    | nil => exact hne rfl
    | cons c cs =>
      obtain rfl : '{' = c := (List.cons.inj (List.cons.inj (List.cons.inj hafter).2).2).1
      exact hlead ['{'] (by decide) ⟨cs, rfl⟩
  have hbody : ∀ cs, (Span.leadingTilde inner).2 ≠ '!' :: cs := by
    intro cs hcs
    refine hlead ['!'] (by decide) ?_
    rw [← Span.trimStart_leadingTilde htouch, hcs]
    exact ⟨cs, rfl⟩
  have hcomment : ¬ ['!', '-', '-'] <+: (Span.leadingTilde inner).2 := by
    rintro ⟨cs, hcs⟩
    exact hbody _ hcs.symm
  have hcut' : Span.cutAtClose? ['}', '}'] .outside
      ((Span.leadingTilde inner).2 ++ '}' :: '}' :: rest) =
        some ((Span.leadingTilde inner).2, rest) := by
    rcases Span.leadingTilde_cases inner with hinner | ⟨hinner, -⟩
    · rw [hinner] at hcut
      exact (Span.cut_of_cons hcut).2
    · rw [hinner]
      exact hcut
  have hspan : Span.read ('{' :: '{' :: (inner ++ '}' :: '}' :: rest)) =
      .ok { content := (Span.trailingTilde (Span.leadingTilde inner).2).2, trusting := false
            stripLeft := (Span.leadingTilde inner).1
            stripRight := (Span.trailingTilde (Span.leadingTilde inner).2).1
            lead := 2 + if (Span.leadingTilde inner).1 then 1 else 0, rest } := by
    rw [Span.read, hthird]
    simp only [Bool.false_eq_true, if_false, List.drop_succ_cons, List.drop_zero,
      Span.leadingTilde_append hne, Span.afterLead?_comment_eq_none hcomment '}' (by decide)]
    rw [show List.replicate 2 '}' = ['}', '}'] from rfl, hcut']
  rw [ofMustache?, hspan]
  refine (outcome_of_read (fun cs hcs => ?_) next).trans (readTrimmed_of_not_lead ?_ next)
  · obtain ⟨more, hmore⟩ := Span.trailingTilde_isPrefix (Span.leadingTilde inner).2
    have hcs : (Span.trailingTilde (Span.leadingTilde inner).2).2 = '!' :: cs := hcs
    rw [hcs] at hmore
    exact hbody _ hmore.symm
  · exact fun lead hmem hbegins => hlead lead hmem (hbegins.trans (Span.core_isPrefix htouch))

namespace TagMustache

/-- The mustache that a call is bound as: its words one space apart. -/
def bound (m : TagMustache) : List Char :=
  '{' :: '{' :: (Text.joinWith ' ' (Text.words m.content) ++ ['}', '}'])

theorem text_bind (m : TagMustache) (start count : Nat) :
    (m.bind start count).text = generatorName count ++ '=' :: '"' :: (m.bound ++ ['"']) := by
  rw [bind, bound]
  simp

end TagMustache

theorem Span.getLast?_core (before : List Char) :
    (core (before ++ ['}'])).getLast? = some '}' := by
  have hbrace : Text.isBlank '}' = false := by decide
  obtain ⟨body, hbody⟩ : ∃ body, (leadingTilde (before ++ ['}'])).2 = body ++ ['}'] := by
    rcases leadingTilde_cases (before ++ ['}']) with htilde | ⟨hsame, -⟩
    · cases before with
      | nil => cases htilde
      | cons c body => exact ⟨body, (List.cons.inj htilde).2.symm⟩
    · exact ⟨before, hsame⟩
  have hlast : ∀ c ∈ (body ++ ['}']).getLast?, c ≠ '~' := by
    rw [List.getLast?_concat]
    rintro c ⟨⟩
    decide
  rw [core, hbody, trailingTilde_of_ne hlast, Text.trim, Text.trimStart_append_char hbrace,
    Text.trimEnd_append_char hbrace, List.getLast?_concat]

namespace TagMustache

theorem not_lead {m : TagMustache} (h : m.isGeneratorCall = true) :
    ∀ lead ∈ Tag.leads, ¬ lead <+: Text.afterTilde m.content := by
  have hleads : ∀ lead ∈ Tag.leads, isOtherTag lead = true ∧
      ∀ c ∈ lead, Text.isBlank c = false ∧ (c == '~') = false := by
    decide
  exact fun lead hlead =>
    not_isPrefix_of_isGeneratorCall h (hleads lead hlead).1 (hleads lead hlead).2

/-- What is read of a call is read of the call that is bound, with its blanks squeezed. -/
theorem ofMustache?_bound {m : TagMustache} {rest : List Char} (hcall : m.isGeneratorCall = true)
    (htouch : Span.TildesTouch m.content)
    (hcut : Span.cutAtClose? ['}', '}'] .outside (m.content ++ '}' :: '}' :: rest) =
      some (m.content, rest)) {first last : Nat} {callee : Expression} {params : List Expression}
    {hash : Hash}
    (hread : outcome (Expression.readCall (Span.core m.content)) first =
      some ((callee, params, hash), last)) (behind : List Char) :
    ∃ callee' params' hash',
      Tag.ofMustache? (m.bound ++ behind) first = some (.expression
        { callee := callee', params := params', hash := hash', trusting := false }, last) ∧
      (callee' = callee ∧ params' = params ∧ hash' = hash ↔
        Expression.IsSingleSpaced .between (Span.core m.content)) := by
  obtain ⟨callee', params', hash', hread', hiff⟩ := Expression.readCall_squeeze hread
  obtain ⟨inner, tail, htail, hwords, hcut'⟩ := Span.exists_cut_words hcut behind
  rw [← Span.core_squeeze htouch] at hread'
  rw [Text.joinWith_words] at hwords hcut'
  have htrim : Text.trimStart (Text.trimStart (Text.squeeze m.content)) =
      Text.trimStart (Text.squeeze m.content) := by
    rw [Text.trimStart, Text.trimStart, List.dropWhile_idempotent]
  -- The call does not end with a brace, so it ends at its braces as before.
  obtain rfl : tail = [] := by
    rcases htail with htail | rfl
    · exact htail
    · rw [hwords] at hread'
      exact absurd (Span.getLast?_core inner) (Expression.getLast?_of_readCall hread')
  rw [List.append_nil] at hwords
  rw [List.nil_append, ← hwords] at hcut'
  have hne : Text.trimStart (Text.squeeze m.content) ≠ [] := by
    intro hnil
    rw [hnil] at hread'
    cases hread'
  have htouch' : Span.TildesTouch (Text.trimStart (Text.squeeze m.content)) := by
    refine ⟨fun hhead => ?_, fun hlast => ?_⟩
    · rw [htrim] at hhead
      exact hhead
    · rw [Text.trimStart_squeeze, Text.trimEnd_squeeze, ← Text.trimStart_squeeze] at hlast
      exact hlast
  have hlead : ∀ lead ∈ Tag.leads,
      ¬ lead <+: Text.afterTilde (Text.trimStart (Text.squeeze m.content)) := by
    have hchars : ∀ lead ∈ Tag.leads, ∀ c ∈ lead, Text.isBlank c = false := by decide
    intro lead hmem hbegins
    rw [Text.afterTilde, htrim, ← Text.afterTilde, Text.afterTilde_squeeze] at hbegins
    exact not_lead hcall lead hmem (Text.isPrefix_of_squeeze (hchars lead hmem) hbegins)
  refine ⟨callee', params', hash', ?_, hiff.symm⟩
  have htext : m.bound ++ behind =
      '{' :: '{' :: (Text.trimStart (Text.squeeze m.content) ++ '}' :: '}' :: behind) := by
    rw [bound, Text.joinWith_words]
    simp
  rw [htext, Tag.ofMustache?_braces hne htouch' hlead hcut', Tag.outcome_readMustache, hread']
  rfl

/-- A call ends at its braces, whatever follows it. -/
theorem cutAtClose?_content {m : TagMustache} {behind : List Char}
    (hread : mustacheText? (m.text ++ behind) = some m.text)
    (hbraces : ['{', '{'] <+: m.text) (hcall : m.isGeneratorCall = true) (rest : List Char) :
    m.text ++ rest = '{' :: '{' :: (m.content ++ '}' :: '}' :: rest) ∧
      Span.cutAtClose? ['}', '}'] .outside (m.content ++ '}' :: '}' :: rest) =
        some (m.content, rest) := by
  obtain ⟨-, -, -, -, hmore⟩ := exists_of_mustacheText? hread
  obtain ⟨body, hbody⟩ := hbraces
  have htext : m.text ++ rest = '{' :: '{' :: (body ++ rest) := by
    rw [← hbody]
    rfl
  have hread := hmore rest
  rw [htext] at hread ⊢
  obtain ⟨hcontent, rest', hrest, hcut⟩ := exists_cut_of_isGeneratorCall hread hcall
  have hinner : body = m.content ++ ['}', '}'] :=
    (List.cons.inj (List.cons.inj (hbody.trans hcontent)).2).2
  have hsource : body ++ rest = m.content ++ '}' :: '}' :: rest := by
    rw [hinner, List.append_assoc]
    rfl
  obtain rfl : rest = rest' := by
    rw [hsource] at hrest
    simpa using List.append_cancel_left hrest
  rw [hsource] at hcut ⊢
  exact ⟨rfl, hcut⟩

end TagMustache

/-- Binding calls between attributes keeps them calls, and the same ones exactly if the blanks in
their strings and brackets are lone spaces. -/
theorem exists_call_of_generatorBindings {template : List Char} {r : Replacement}
    (hr : r ∈ generatorBindings template) :
    ∃ tag ∈ OpeningTag.all template, ∃ m ∈ tag.mustaches, ∃ count,
      r = m.bind (tag.start + m.start) count ∧
      r.text = generatorName count ++ '=' :: '"' :: (m.bound ++ ['"']) ∧
      ∀ behind behind' next last call, Span.TildesTouch m.content →
        Tag.ofMustache? (m.text ++ behind) next = some (call, last) →
          ∃ call', Tag.ofMustache? (m.bound ++ behind') next = some (call', last) ∧
            (call' = call ↔ Expression.IsSingleSpaced .between (Span.core m.content)) := by
  obtain ⟨tag, htag, hr⟩ := List.mem_flatMap.1 hr
  obtain ⟨m, hm, -, hcall, count, rfl⟩ := exists_of_mem_bindGenerators hr
  obtain ⟨-, after, -, -, -, -, hbraces, hread⟩ := (OpeningTag.isRead_of_mem htag).exists_of_mem hm
  refine ⟨tag, htag, m, hm, count, rfl, m.text_bind _ count, ?_⟩
  intro behind behind' next last call htouch hcallRead
  obtain ⟨htext, hcut⟩ := TagMustache.cutAtClose?_content hread hbraces hcall behind
  obtain ⟨hne, -⟩ := TagMustache.not_lead_of_isGeneratorCall hcall
  rw [htext, Tag.ofMustache?_braces hne htouch (TagMustache.not_lead hcall) hcut,
    Tag.outcome_readMustache] at hcallRead
  obtain ⟨⟨⟨callee, params, hash⟩, last⟩, hcall', hpair⟩ := Option.map_eq_some_iff.1 hcallRead
  cases hpair
  obtain ⟨callee', params', hash', hbound, hiff⟩ :=
    TagMustache.ofMustache?_bound hcall htouch hcut hcall' behind'
  refine ⟨_, hbound, Iff.trans ?_ hiff⟩
  rw [Tag.expression.injEq, Mustache.mk.injEq]
  constructor
  · rintro ⟨hcallee, hparams, hhash, -⟩
    exact ⟨hcallee, hparams, hhash⟩
  · rintro ⟨hcallee, hparams, hhash⟩
    exact ⟨hcallee, hparams, hhash, rfl⟩

/-- A call with blanks between its arguments, one of which is a string with a space. -/
def attrsCall : List Char := "\x7b\x7battrs  \"b c\"   d=(f e)\x7d\x7d".toList

def attrsTag : Tag :=
  .expression
    { callee := .path (.ofName 0 "attrs"), params := [.literal (.string "b c")]
      hash := [("d", .call (.path (.ofName 1 "f")) [.path (.ofName 2 "e")] [])]
      trusting := false }

/-- The attribute that the call becomes in a link. -/
def attrsBinding : Replacement :=
  { start := 3, length := 26
    text := "hbs-attribute-generator=\"\x7b\x7battrs \"b c\" d=(f e)\x7d\x7d\"".toList }

theorem attrsCall_is_bound_as_it_is :
    attrsBinding ∈ generatorBindings ("<a ".toList ++ attrsCall ++ "></a>".toList) ∧
      Tag.ofMustache? attrsCall 0 = some (attrsTag, 3) ∧
      Tag.ofMustache? "\x7b\x7battrs \"b c\" d=(f e)\x7d\x7d\"></a>".toList 0 =
        some (attrsTag, 3) := by
  have htags : OpeningTag.all ("<a ".toList ++ attrsCall ++ "></a>".toList) =
      [{ start := 0, text := "<a ".toList ++ attrsCall ++ ">".toList
         mustaches := [{ start := 3, text := attrsCall, inValue := false }] }] := by
    decide +kernel
  have hmem : attrsBinding ∈ generatorBindings ("<a ".toList ++ attrsCall ++ "></a>".toList) := by
    decide +kernel
  have hread : Tag.ofMustache? attrsCall 0 = some (attrsTag, 3) := rfl
  refine ⟨hmem, hread, ?_⟩
  obtain ⟨tag, htag, m, hm, count, -, -, hkeeps⟩ := exists_call_of_generatorBindings hmem
  rw [htags] at htag
  obtain rfl := List.mem_singleton.1 htag
  obtain rfl := List.mem_singleton.1 hm
  obtain ⟨call, hcall, hsame⟩ :=
    hkeeps [] "\"></a>".toList 0 3 attrsTag ⟨by decide, by decide⟩ hread
  rw [hsame.2 (by decide)] at hcall
  exact hcall

def stringCall (value : String) : Tag :=
  .expression
    { callee := .path (.ofName 0 "f"), params := [.literal (.string value)], hash := []
      trusting := false }

/-- Of two spaces in a string one is lost. -/
theorem twoSpaces_are_not_kept :
    (generatorBindings "<a \x7b\x7bf \"b  c\"\x7d\x7d></a>".toList).map Replacement.text =
        ["hbs-attribute-generator=\"\x7b\x7bf \"b c\"\x7d\x7d\"".toList] ∧
      Tag.ofMustache? "\x7b\x7bf \"b  c\"\x7d\x7d".toList 0 = some (stringCall "b  c", 1) ∧
      Tag.ofMustache? "\x7b\x7bf \"b c\"\x7d\x7d".toList 0 = some (stringCall "b c", 1) ∧
      stringCall "b c" ≠ stringCall "b  c" := by
  refine ⟨by decide +kernel, rfl, rfl, fun hsame => ?_⟩
  simp [stringCall] at hsame

end MustacheJsx
