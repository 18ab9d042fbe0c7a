import MustacheJsx.Proofs.Extraction.Binding
import MustacheJsx.Proofs.Mustache.Alike

/-!
# Calls that are recognized by their text

Whether a mustache between attributes is bound is told by its text: it must begin like no other tag
and have two words. Whether it calls a helper is told by what is read of it: its first argument must
have no name. The two differ for the shapes that `Misjudged` lists, and for no others:
`bound_agrees_iff`.
-/

namespace MustacheJsx

namespace Text

/-! ### Words -/

theorem wordsAfter_ne_nil_of_mem {cs : List Char} (h : ∃ c ∈ cs, isBlank c = false) :
    wordsAfter [] cs ≠ [] := by
  obtain ⟨c, hmem, hc⟩ := h
  intro hnil
  have hsqueeze := mem_squeeze hc hmem
  rw [(wordsAfter_eq_nil_iff cs).1 hnil] at hsqueeze
  cases hsqueeze

theorem one_lt_length_wordsAfter_iff {word cs : List Char} (hne : word.isEmpty = false)
    (hlast : ∀ c ∈ cs.getLast?, isBlank c = false) :
    1 < (wordsAfter word cs).length ↔ ∃ c ∈ cs, isBlank c = true := by
  induction cs generalizing word with
  | nil =>
    rw [wordsAfter, if_neg (Bool.eq_false_iff.1 hne)]
    exact iff_of_false (Nat.lt_irrefl 1) (by simp)
  | cons c cs ih =>
    cases hc : isBlank c with
    | true =>
      obtain ⟨d, hd⟩ : ∃ d, d ∈ cs.getLast? := by
        cases hend : cs.getLast? with
        | none =>
          have hblank := hlast c (by rw [List.getLast?_eq_none_iff.1 hend]; rfl)
          rw [hc] at hblank
          cases hblank
        | some d => exact ⟨d, rfl⟩
      have hink : isBlank d = false := hlast d (List.mem_getLast?_cons hd)
      have hmore := wordsAfter_ne_nil_of_mem ⟨d, List.mem_of_mem_getLast? hd, hink⟩
      rw [wordsAfter, if_pos hc, if_neg (Bool.eq_false_iff.1 hne), List.length_cons]
      exact iff_of_true (Nat.lt_add_of_pos_left (List.length_pos_iff.2 hmore))
        ⟨c, List.mem_cons_self, hc⟩
    | false =>
      have hmore : ∀ d ∈ cs.getLast?, isBlank d = false :=
        fun d hd => hlast d (List.mem_getLast?_cons hd)
      rw [wordsAfter, if_neg (Bool.eq_false_iff.1 hc), ih rfl hmore, List.exists_mem_cons_iff, hc]
      simp

theorem one_lt_length_words_iff {cs : List Char} (hhead : ∀ c ∈ cs.head?, isBlank c = false)
    (hlast : ∀ c ∈ cs.getLast?, isBlank c = false) :
    1 < (words cs).length ↔ ∃ c ∈ cs, isBlank c = true := by
  cases cs with
  | nil => exact iff_of_false (Nat.not_lt_zero 1) (by simp)
  | cons c cs =>
    have hc := hhead c rfl
    have hmore : ∀ d ∈ cs.getLast?, isBlank d = false :=
      fun d hd => hlast d (List.mem_getLast?_cons hd)
    rw [words, wordsAfter, if_neg (Bool.eq_false_iff.1 hc), one_lt_length_wordsAfter_iff rfl hmore,
      List.exists_mem_cons_iff, hc]
    simp

end Text

/-! ### Arguments -/

namespace Expression

def beginsPositional (cs : List Char) : Bool :=
  !(Text.trimStart cs).isEmpty && (takeKey? (Text.trimStart cs)).isNone

theorem params_eq_nil_of_named {fuel first last : Nat} {cs rest : List Char}
    {params : List Expression} {hash : Hash}
    (h : outcome (readArguments fuel true cs) first = some ((params, hash, rest), last)) :
    params = [] := by
  induction fuel generalizing cs first last params hash rest with
  | zero => cases h
  | succ fuel ih =>
    rcases Text.trimStart_cases cs with hcs | ⟨c, ds, hc, hcs⟩
    · rw [outcome_readArguments_nil hcs] at h
      cases h
      rfl
    · by_cases hclose : c = ')'
      · subst hclose
        rw [outcome_readArguments_close hcs] at h
        cases h
        rfl
      · rw [outcome_readArguments_argument hcs hclose, outcomeOfArgument] at h
        split at h
        · cases h
        · split at h
          · obtain ⟨value, -, h⟩ := Option.bind_eq_some_iff.1 h
            obtain ⟨⟨⟨params', hash', rest'⟩, last'⟩, hmore, hpair⟩ := Option.map_eq_some_iff.1 h
            cases hpair
            exact ih hmore
          · cases h

/-- Arguments up to the end of the text have one without a name exactly if the first has none. -/
theorem params_ne_nil_iff {fuel first last : Nat} {cs : List Char} {params : List Expression}
    {hash : Hash}
    (h : outcome (readArguments fuel false cs) first = some ((params, hash, []), last)) :
    params ≠ [] ↔ beginsPositional cs = true := by
  cases fuel with
  | zero => cases h
  | succ fuel =>
    rw [beginsPositional]
    rcases Text.trimStart_cases cs with hcs | ⟨c, ds, hc, hcs⟩
    · rw [outcome_readArguments_nil hcs] at h
      cases h
      rw [hcs]
      exact iff_of_false (fun hne => hne rfl) Bool.false_ne_true
    · by_cases hclose : c = ')'
      · subst hclose
        rw [outcome_readArguments_close hcs] at h
        cases h
      · rw [outcome_readArguments_argument hcs hclose, outcomeOfArgument] at h
        rw [hcs]
        split at h
        · cases h
        · cases hkey : takeKey? (c :: ds) with
          | some found =>
            rw [hkey] at h
            obtain ⟨value, -, h⟩ := Option.bind_eq_some_iff.1 h
            obtain ⟨⟨⟨params', hash', rest'⟩, last'⟩, hmore, hpair⟩ := Option.map_eq_some_iff.1 h
            cases hpair
            exact iff_of_false (fun hne => hne (params_eq_nil_of_named hmore)) Bool.false_ne_true
          | none =>
            rw [hkey] at h
            obtain ⟨param, -, h⟩ := Option.bind_eq_some_iff.1 h
            obtain ⟨⟨⟨params', hash', rest'⟩, last'⟩, hmore, hpair⟩ := Option.map_eq_some_iff.1 h
            cases hpair
            exact iff_of_true (List.cons_ne_nil _ _) rfl

def behindCallee (cs : List Char) (first : Nat) : List Char :=
  match outcome (readWith (fuelFor cs) (Text.trimStart cs)) first with
  | some ((_, rest), _) => rest
  | none => []

/-- A call that is read has arguments without names exactly if the first argument has none. -/
theorem params_ne_nil_iff_of_readCall {cs : List Char} {first last : Nat} {callee : Expression}
    {params : List Expression} {hash : Hash}
    (h : outcome (readCall cs) first = some ((callee, params, hash), last)) :
    params ≠ [] ↔ beginsPositional (behindCallee cs first) = true := by
  obtain ⟨rest, middle, hhead, harguments⟩ := exists_of_readCall h
  rw [behindCallee, hhead]
  exact params_ne_nil_iff harguments

end Expression

/-! ### Values -/

namespace Tag

/-- The call of a value, without the mark of a trusting one. -/
def callText : List Char → List Char
  | '&' :: cs => cs
  | cs => cs

theorem outcome_readCall_of_readTrimmed {cs : List Char} {next last : Nat} {call : Mustache}
    (h : outcome (readTrimmed cs) next = some (.expression call, last)) :
    outcome (Expression.readCall (callText cs)) next =
      some ((call.callee, call.params, call.hash), last) := by
  cases trimmedRead_of_outcome h with
  | trusting hread => exact (outcome_readMustache_iff.1 hread).2
  | value hplain hread =>
    have hsame : callText cs = cs := by
      rw [callText.eq_def]
      split
      · next rest => exact absurd rfl (hplain rest)
      · rfl
    rw [hsame]
    exact (outcome_readMustache_iff.1 hread).2

end Tag

/-! ### Mustaches that are bound -/

open OpeningTag

/-- Whether a mustache at a byte of a template is bound to an attribute. -/
def IsBoundAt (template : List Char) (start : Nat) : Prop :=
  ∃ r ∈ generatorBindings template, r.start = start

theorem TagMustache.eq_of_start_eq {ms : List TagMustache}
    (h : ms.Pairwise fun m m' => m.stop ≤ m'.start) (hlength : ∀ m ∈ ms, m.start < m.stop)
    {m m' : TagMustache} (hm : m ∈ ms) (hm' : m' ∈ ms) (hstart : m.start = m'.start) : m = m' := by
  induction h with
  | nil => cases hm
  | @cons first ms hfirst _ ih =>
    obtain ⟨hpos, hmore⟩ := List.forall_mem_cons.1 hlength
    rcases List.mem_cons.1 hm with rfl | hms
    · rcases List.mem_cons.1 hm' with rfl | hms'
      · rfl
      · have hle := hfirst m' hms'
        omega
    · rcases List.mem_cons.1 hm' with rfl | hms'
      · have hle := hfirst m hms
        omega
      · exact ih hmore hms hms'

theorem OpeningTag.mem_bindGenerators (tag : OpeningTag) {ms : List TagMustache}
    {m : TagMustache} (hm : m ∈ ms) (hvalue : m.inValue = false) (hcall : m.isGeneratorCall = true)
    (count : Nat) : ∃ n, m.bind (tag.start + m.start) n ∈ tag.bindGenerators count ms := by
  induction ms generalizing count with
  | nil => cases hm
  | cons first ms ih =>
    rw [OpeningTag.bindGenerators]
    rcases List.mem_cons.1 hm with rfl | hm
    · rw [if_pos (by rw [hvalue, hcall]; rfl)]
      exact ⟨count + 1, List.mem_cons_self⟩
    · split
      · obtain ⟨n, hn⟩ := ih hm (count + 1)
        exact ⟨n, List.mem_cons_of_mem _ hn⟩
      · exact ih hm count

theorem shift_mem_mustachesFrom {template : List Char} {tag : OpeningTag} {m : TagMustache}
    (htag : tag ∈ OpeningTag.all template) (hm : m ∈ tag.mustaches) :
    m.shift tag.start ∈ mustachesFrom .between 0 0 template := by
  rw [← mustachesOf_all]
  exact List.mem_flatMap.2 ⟨tag, htag, List.mem_map_of_mem hm⟩

theorem start_lt_stop_of_mem {template : List Char} {m : TagMustache}
    (hm : m ∈ mustachesFrom .between 0 0 template) : m.start < m.stop := by
  obtain ⟨before, after, -, -, hmet⟩ := exists_met hm
  obtain ⟨body, htext⟩ := hmet.text
  obtain ⟨rest, -, hlength, -⟩ := exists_of_mustacheText? htext
  have hpos : 0 < Text.utf8Length m.text := utf8Length_pos fun hnil => by
    rw [hnil] at hlength
    exact absurd hlength (by decide)
  exact Nat.lt_add_of_pos_right hpos

theorem isBoundAt_iff {template : List Char} {tag : OpeningTag} {m : TagMustache}
    (htag : tag ∈ OpeningTag.all template) (hm : m ∈ tag.mustaches) (hvalue : m.inValue = false) :
    IsBoundAt template (tag.start + m.start) ↔ m.isGeneratorCall = true := by
  constructor
  · rintro ⟨r, hr, hstart⟩
    obtain ⟨tag', htag', hr⟩ := List.mem_flatMap.1 hr
    obtain ⟨m', hm', -, hcall, n, rfl⟩ := exists_of_mem_bindGenerators hr
    -- What is bound at a byte is the one mustache that begins there.
    have hsame := TagMustache.eq_of_start_eq (pairwise_mustachesFrom .between 0 template)
      (fun _ => start_lt_stop_of_mem) (shift_mem_mustachesFrom htag' hm')
      (shift_mem_mustachesFrom htag hm) hstart
    have htext : (m'.shift tag'.start).text = (m.shift tag.start).text := by rw [hsame]
    have htext : m'.text = m.text := htext
    rw [TagMustache.isGeneratorCall, TagMustache.content, ← htext]
    exact hcall
  · intro hcall
    obtain ⟨n, hn⟩ := tag.mem_bindGenerators hm hvalue hcall 0
    exact ⟨_, List.mem_flatMap.2 ⟨tag, htag, hn⟩, rfl⟩

/-! ### What is judged and what is read -/

namespace Span

theorem head?_trailingTilde {c : Char} (hc : c ≠ '~') (cs : List Char) :
    (trailingTilde (c :: cs)).2.head? = some c := by
  by_cases hlast : (c :: cs).getLast? = some '~'
  · obtain ⟨before, hbefore⟩ := List.getLast?_eq_some_iff.1 hlast
    rw [hbefore, trailingTilde_append]
    cases before with
    | nil => exact absurd (List.cons.inj hbefore).1 hc
    | cons d before => rw [(List.cons.inj hbefore).1, List.head?_cons]
  · rw [trailingTilde_of_ne (by rintro d hd rfl; exact hlast hd)]
    rfl

/-- A mustache with two braces that is no comment is cut at its closing braces. -/
theorem exists_cut_of_read {body : List Char} {span : Span} (hfirst : ∀ c ∈ body.head?, c ≠ '{')
    (h : Span.read ('{' :: '{' :: body) = .ok span)
    (hcomment : ∀ rest, span.content ≠ '!' :: rest) :
    span.trusting = false ∧ (∀ c ∈ body.head?, c ≠ '!') ∧
      ∃ content, cutAtClose? ['}', '}'] .outside (leadingTilde body).2 = some (content, span.rest) ∧
        span.content = (trailingTilde content).2 := by
  have hopens : Text.startsWith ['{', '{', '{'] ('{' :: '{' :: body) = false := by
    rw [Bool.eq_false_iff]
    intro hstarts
    obtain ⟨rest, hrest⟩ := Text.startsWith_iff.1 hstarts
    have hbody : body = '{' :: rest := (List.cons.inj (List.cons.inj hrest).2).2.symm
    exact hfirst '{' (by rw [hbody]; rfl) rfl
  have hclose : List.replicate 2 '}' = ['}', '}'] := rfl
  rw [Span.read, hopens] at h
  simp only [Bool.false_eq_true, if_false, List.drop_succ_cons, List.drop_zero, hclose] at h
  split at h
  · split at h
    · cases h
      exact absurd rfl (hcomment _)
    · cases h
  · split at h
    · next content rest hcut =>
      cases h
      refine ⟨rfl, ?_, content, hcut, rfl⟩
      rintro c hc rfl
      obtain ⟨inner, rfl⟩ := List.head?_eq_some_iff.1 hc
      have hplain : (leadingTilde ('!' :: inner)).2 = '!' :: inner := rfl
      rw [hplain, cutAtClose?] at hcut
      obtain ⟨⟨front, behind⟩, -, hpair⟩ := Option.map_eq_some_iff.1 hcut
      cases hpair
      obtain ⟨more, hmore⟩ :=
        List.head?_eq_some_iff.1 (head?_trailingTilde (c := '!') (by decide) front)
      exact hcomment more hmore
    · cases h

/-- A tilde at the start of a content is cut off before or behind. -/
theorem eq_leadingTilde_of_cut {body inner content rest rest' : List Char}
    (hbody : body = inner ++ ['}', '}'])
    (hinner : cutAtClose? ['}', '}'] .outside body = some (inner, rest))
    (hcut : cutAtClose? ['}', '}'] .outside (leadingTilde body).2 = some (content, rest')) :
    content = (leadingTilde inner).2 := by
  obtain rfl : rest = [] := by
    have hsource := eq_append_of_cutAtClose? hinner
    rw [hbody] at hsource
    simpa using hsource
  cases inner with
  | nil =>
    have hempty : cutAtClose? ['}', '}'] .outside ['}', '}'] = some ([], []) := rfl
    rw [hbody] at hcut
    have hplain : (leadingTilde ([] ++ ['}', '}'])).2 = ['}', '}'] := rfl
    rw [hplain, hempty] at hcut
    exact (Prod.mk.inj (Option.some.inj hcut)).1.symm
  | cons c inner =>
    rw [hbody, leadingTilde_append (List.cons_ne_nil c inner)] at hcut
    dsimp only at hcut
    rcases leadingTilde_cases (c :: inner) with htilde | ⟨hsame, -⟩
    · obtain ⟨rfl, htail⟩ := List.cons.inj htilde
      rw [← htail] at hcut ⊢
      rw [hbody] at hinner
      have hafter : Quoting.outside.after '~' = .outside := rfl
      have hrest := (cut_of_cons hinner).2
      rw [hafter, hcut] at hrest
      exact (Prod.mk.inj (Option.some.inj hrest)).1
    · rw [hsame] at hcut ⊢
      rw [hbody, hcut] at hinner
      exact (Prod.mk.inj (Option.some.inj hinner)).1

end Span

theorem Tag.exists_span_of_ofMustache? {cs : List Char} {next last : Nat} {tag : Tag}
    (h : Tag.ofMustache? cs next = some (tag, last)) :
    ∃ span, Span.read cs = .ok span ∧
      Tag.read span.content span.trusting 0 next = (.ok tag, last) := by
  rw [Tag.ofMustache?] at h
  split at h
  · cases h
  · next span hspan =>
    split at h
    · next found last' hread =>
      cases h
      exact ⟨span, hspan, hread⟩
    · cases h

namespace TagMustache

/-- The text that tells whether a mustache is bound: its content without tildes and blanks at its
ends. -/
def judged (m : TagMustache) : List Char := Text.trim (trimTildes (Text.trim m.content))

theorem isGeneratorCall_iff (m : TagMustache) :
    m.isGeneratorCall = true ↔
      isOtherTag m.judged = false ∧ ∃ c ∈ m.judged, Text.isBlank c = true := by
  rw [isGeneratorCall, Bool.and_eq_true, Bool.not_eq_true', decide_eq_true_eq]
  exact and_congr_right' (Text.one_lt_length_words_iff (Text.head?_trim _) (Text.getLast?_trim _))

/-- A mustache with two braces that is read as a value is read from its content. -/
theorem outcome_of_ofMustache? {m : TagMustache} (hbraces : ['{', '{'] <+: m.text)
    (hthird : ¬ ['{', '{', '{'] <+: m.text) (htext : mustacheText? m.text = some m.text)
    {next last : Nat} {call : Mustache}
    (hread : Tag.ofMustache? m.text next = some (.expression call, last)) :
    outcome (Tag.readTrimmed (Span.core m.content)) next = some (.expression call, last) := by
  obtain ⟨body, hbody⟩ := hbraces
  have hbody : m.text = '{' :: '{' :: body := hbody.symm
  have hfirst : ∀ c ∈ body.head?, c ≠ '{' := by
    rintro c hc rfl
    obtain ⟨rest, rfl⟩ := List.head?_eq_some_iff.1 hc
    exact hthird ⟨rest, hbody.symm⟩
  rw [hbody] at htext hread
  obtain ⟨span, hspan, htag⟩ := Tag.exists_span_of_ofMustache? hread
  have hcomment : ∀ rest, span.content ≠ '!' :: rest := by
    intro rest hrest
    rw [hrest, Tag.read_comment] at htag
    cases htag
  obtain ⟨htrusting, hmark, content, hcut, hcontent⟩ :=
    Span.exists_cut_of_read hfirst hspan hcomment
  -- The reader of opening tags finds the same end.
  rw [mustacheText?_of_head fun c hc => ⟨hmark c hc, hfirst c hc⟩] at htext
  obtain ⟨⟨inner, rest⟩, hinner, htext⟩ := Option.map_eq_some_iff.1 htext
  have hsource := Span.eq_append_of_cutAtClose? hinner
  have hends : body = inner ++ ['}', '}'] := (List.cons.inj (List.cons.inj htext).2).2.symm
  have hsame : m.content = inner := content_eq (by rw [hbody, hends])
  have hcore : content = (Span.leadingTilde inner).2 :=
    Span.eq_leadingTilde_of_cut hends hinner hcut
  rw [htrusting, Tag.read_eq_ok_iff hcomment, hcontent, hcore] at htag
  rw [hsame]
  exact htag

end TagMustache

/-- Texts of mustaches that are bound though they call no helper, or are not bound though they do.
`judged` is the text that tells it, and `arguments` is what follows the callee. -/
inductive Misjudged (judged arguments : List Char) : Prop
  /-- A call that begins like another tag, as `elsewhere x` does. -/
  | other (lead : TagMustache.isOtherTag judged = true)
      (positional : Expression.beginsPositional arguments = true)
  /-- A call without blanks, such as one of a string or of a call in parentheses. -/
  | joined (blank : ∀ c ∈ judged, Text.isBlank c = false)
      (positional : Expression.beginsPositional arguments = true)
  /-- A callee alone with blanks in it, in brackets, in quotes or in parentheses. -/
  | spaced (lead : TagMustache.isOtherTag judged = false)
      (blank : ∃ c ∈ judged, Text.isBlank c = true) (alone : Text.trimStart arguments = [])
  /-- A call with named arguments only. -/
  | named (lead : TagMustache.isOtherTag judged = false)
      (blank : ∃ c ∈ judged, Text.isBlank c = true)
      (key : (Expression.takeKey? (Text.trimStart arguments)).isSome = true)

theorem misjudged_iff {judged arguments : List Char} :
    Misjudged judged arguments ↔
      ¬ ((TagMustache.isOtherTag judged = false ∧ ∃ c ∈ judged, Text.isBlank c = true) ↔
        Expression.beginsPositional arguments = true) := by
  constructor
  · rintro (⟨lead, positional⟩ | ⟨hblank, positional⟩ | ⟨lead, hblank, alone⟩ | ⟨lead, hblank, key⟩)
      hiff
    · have hplain := (hiff.2 positional).1
      rw [lead] at hplain
      cases hplain
    · obtain ⟨c, hc, hc'⟩ := (hiff.2 positional).2
      rw [hblank c hc] at hc'
      cases hc'
    · have positional := hiff.1 ⟨lead, hblank⟩
      rw [Expression.beginsPositional, alone] at positional
      cases positional
    · have positional := hiff.1 ⟨lead, hblank⟩
      rw [Expression.beginsPositional, Bool.and_eq_true, Option.isNone_iff_eq_none] at positional
      rw [positional.2] at key
      cases key
  · intro hiff
    by_cases positional : Expression.beginsPositional arguments = true
    · by_cases lead : TagMustache.isOtherTag judged = true
      · exact .other lead positional
      · refine .joined (fun c hc => Bool.eq_false_iff.2 fun hblank => ?_) positional
        exact hiff (iff_of_true ⟨Bool.eq_false_iff.2 lead, c, hc, hblank⟩ positional)
    · obtain ⟨lead, hblank⟩ : TagMustache.isOtherTag judged = false ∧
          ∃ c ∈ judged, Text.isBlank c = true := by
        by_contra hnot
        exact hiff (iff_of_false hnot positional)
      by_cases alone : Text.trimStart arguments = []
      · exact .spaced lead hblank alone
      · refine .named lead hblank ?_
        rw [Expression.beginsPositional, Bool.and_eq_true, not_and, Bool.not_eq_true',
          List.isEmpty_eq_false_iff] at positional
        rw [Option.isSome_iff_ne_none, ne_eq, ← Option.isNone_iff_eq_none]
        exact positional alone

instance (judged arguments : List Char) : Decidable (Misjudged judged arguments) :=
  decidable_of_iff
    (¬ ((TagMustache.isOtherTag judged = false ∧ judged.any Text.isBlank = true) ↔
      Expression.beginsPositional arguments = true))
    (by rw [misjudged_iff, List.any_eq_true])

/-- A mustache with two braces between attributes that is read as a value is bound exactly if it
calls a helper, unless it is misjudged. -/
theorem bound_agrees_iff {template : List Char} {tag : OpeningTag} {m : TagMustache}
    (htag : tag ∈ OpeningTag.all template) (hm : m ∈ tag.mustaches) (hvalue : m.inValue = false)
    (hbraces : ¬ ['{', '{', '{'] <+: m.text) {next last : Nat} {call : Mustache}
    (hread : Tag.ofMustache? m.text next = some (.expression call, last)) :
    (IsBoundAt template (tag.start + m.start) ↔ call.isHelperCall = true) ↔
      ¬ Misjudged m.judged
        (Expression.behindCallee (Tag.callText (Span.core m.content)) next) := by
  obtain ⟨-, behind, -, -, -, -, hopens, htext⟩ := (OpeningTag.isRead_of_mem htag).exists_of_mem hm
  obtain ⟨-, -, -, -, hmore⟩ := exists_of_mustacheText? htext
  have halone := hmore []
  rw [List.append_nil] at halone
  have hcore := TagMustache.outcome_of_ofMustache? hopens hbraces halone hread
  have hcall := Tag.outcome_readCall_of_readTrimmed hcore
  have hhelper : call.isHelperCall = true ↔
      Expression.beginsPositional
        (Expression.behindCallee (Tag.callText (Span.core m.content)) next) = true := by
    rw [← Expression.params_ne_nil_iff_of_readCall hcall, Mustache.isHelperCall, Bool.not_eq_true',
      List.isEmpty_eq_false_iff]
  rw [isBoundAt_iff htag hm hvalue, m.isGeneratorCall_iff, hhelper, misjudged_iff, not_not]

def callOf (name argument : String) : Mustache :=
  { callee := .path (.ofName 0 name), params := [.path (.ofName 1 argument)], hash := []
    trusting := false }

theorem attrsItem_is_bound :
    Tag.ofMustache? "\x7b\x7battrs item\x7d\x7d".toList 0 =
        some (.expression (callOf "attrs" "item"), 2) ∧
      IsBoundAt "<a \x7b\x7battrs item\x7d\x7d></a>".toList 3 := by
  have hall : OpeningTag.all "<a \x7b\x7battrs item\x7d\x7d></a>".toList =
      [{ start := 0, text := "<a \x7b\x7battrs item\x7d\x7d>".toList
         mustaches := [
          { start := 3, text := "\x7b\x7battrs item\x7d\x7d".toList, inValue := false }] }] := by
    decide +kernel
  have hread : Tag.ofMustache? "\x7b\x7battrs item\x7d\x7d".toList 0 =
      some (.expression (callOf "attrs" "item"), 2) := rfl
  have hagrees := bound_agrees_iff (hall ▸ List.mem_singleton_self _)
    (List.mem_singleton_self _) rfl
    (by decide) hread
  exact ⟨hread, (hagrees.2 (by decide)).2 rfl⟩

/-- A helper whose name begins with `else` is taken for a branch of a block. -/
theorem elsewhere_is_not_bound :
    (OpeningTag.all "<a \x7b\x7belsewhere x\x7d\x7d></a>".toList).map OpeningTag.mustaches =
        [[{ start := 3, text := "\x7b\x7belsewhere x\x7d\x7d".toList, inValue := false }]] ∧
      Tag.ofMustache? "\x7b\x7belsewhere x\x7d\x7d".toList 0 =
        some (.expression (callOf "elsewhere" "x"), 2) ∧
      (callOf "elsewhere" "x").isHelperCall = true ∧
      generatorBindings "<a \x7b\x7belsewhere x\x7d\x7d></a>".toList = [] := by
  exact ⟨by decide +kernel, rfl, rfl, by decide +kernel⟩

end MustacheJsx
