import MustacheJsx.Extraction.Attribute
import MustacheJsx.Proofs.Extraction.Tags

/-!
# Places in a template

The reader of opening tags, taken apart into steps. At each `Place` it reads a few characters and
goes on from another place; `mustachesFrom` are the mustaches of tags that it meets on its way. What
a step reads depends on no later character, so a text that is read as a whole is read in the same
way before any other text.
-/

namespace MustacheJsx

/-! ### Mustaches before any text -/

theorem Text.startsWith_append {lead text : List Char} (h : lead.length ≤ text.length)
    (rest : List Char) : startsWith lead (text ++ rest) = startsWith lead text := by
  rw [startsWith, afterLead?_append rest h, Option.isSome_map]
  rfl

theorem Text.cutAt?_append {mark cs before rest : List Char} (hmark : mark ≠ [])
    (h : cutAt? mark cs = some (before, rest)) (more : List Char) :
    cutAt? mark (before ++ mark ++ more) = some (before, more) := by
  obtain ⟨-, hnone⟩ := (cutAt?_eq_some_iff hmark).1 h
  exact (cutAt?_eq_some_iff hmark).2 ⟨rfl, hnone⟩

theorem Text.length_of_cutAt? {mark lead cs before rest : List Char} {c : Char}
    (hmark : mark.head? = some c) (hlead : lead <+: cs) (hnone : c ∉ lead)
    (h : cutAt? mark cs = some (before, rest)) : lead.length ≤ before.length := by
  by_contra hshort
  rw [Nat.not_le] at hshort
  obtain ⟨after, rfl⟩ := hlead
  obtain ⟨tail, rfl⟩ := List.head?_eq_some_iff.1 hmark
  have hcs := eq_append_of_cutAt? h
  rw [List.append_assoc] at hcs
  have hget := congrArg (fun xs : List Char => xs[before.length]?) hcs
  rw [List.getElem?_append_left hshort, List.getElem?_append_right (Nat.le_refl _),
    Nat.sub_self] at hget
  exact hnone (List.mem_of_getElem? hget)

namespace Span

/-- What follows the closing braces does not matter for where they are found. -/
theorem cutAtClose?_exchange {close content rest : List Char} {quoting : Quoting}
    (hclose : close ≠ [])
    (h : cutAtClose? close quoting (content ++ close ++ rest) = some (content, rest))
    (more : List Char) :
    cutAtClose? close quoting (content ++ close ++ more) = some (content, more) := by
  induction content generalizing quoting with
  | nil =>
    obtain ⟨c, close, rfl⟩ := List.exists_cons_of_ne_nil hclose
    have hlead : ∀ rest, Text.afterLead? (c :: close) (c :: (close ++ rest)) = some rest :=
      fun rest => Text.afterLead?_eq_some_iff.2 rfl
    rw [List.nil_append, List.cons_append, cutAtClose?, hlead] at h
    rw [List.nil_append, List.cons_append, cutAtClose?, hlead]
    by_cases hquoting : quoting = .outside
    · rw [if_pos hquoting]
    · rw [if_neg hquoting] at h
      obtain ⟨cut, -, hcut⟩ := Option.map_eq_some_iff.1 h
      cases hcut
  | cons d content ih =>
    have hlength : close.length ≤ (d :: (content ++ close)).length := by
      simp only [List.length_cons, List.length_append]
      omega
    have hlead : ∀ rest, Text.afterLead? close (d :: (content ++ close ++ rest)) =
        (Text.afterLead? close (d :: (content ++ close))).map (· ++ rest) :=
      fun rest => Text.afterLead?_append rest hlength
    rw [List.cons_append, List.cons_append, cutAtClose?, hlead] at h
    rw [List.cons_append, List.cons_append, cutAtClose?, hlead]
    split at h
    · cases h
    · next hnone =>
      obtain ⟨⟨before, behind⟩, hcut, hpair⟩ := Option.map_eq_some_iff.1 h
      cases hpair
      have hnone' : (if quoting = .outside then
          (Text.afterLead? close (d :: (content ++ close))).map (· ++ more) else none) = none := by
        split at hnone
        · next hquoting =>
          rw [if_pos hquoting, Option.map_eq_none_iff.1 hnone]
          rfl
        · next hquoting => rw [if_neg hquoting]
      rw [hnone', ih hcut]
      rfl

def dashes (strip : Bool) : List Char :=
  if strip then ['-', '-', '~', '}', '}'] else ['-', '-', '}', '}']

theorem eq_append_of_cutAtDashes? {inner before rest : List Char} {strip : Bool}
    (h : cutAtDashes? inner = some (before, strip, rest)) :
    inner = before ++ dashes strip ++ rest := by
  induction inner generalizing before with
  | nil => cases h
  | cons c cs ih =>
    rw [cutAtDashes?] at h
    split at h
    · next hshort =>
      cases h
      exact Text.afterLead?_eq_some_iff.1 hshort
    · next hlong =>
      cases h
      exact Text.afterLead?_eq_some_iff.1 hlong
    · obtain ⟨⟨before', strip', rest'⟩, hcut, hsame⟩ := Option.map_eq_some_iff.1 h
      cases hsame
      rw [ih hcut]
      rfl

/-- What follows the end of a long comment does not matter for where it is found. -/
theorem cutAtDashes?_exchange {before rest : List Char} {strip : Bool}
    (h : cutAtDashes? (before ++ dashes strip ++ rest) = some (before, strip, rest))
    (more : List Char) :
    cutAtDashes? (before ++ dashes strip ++ more) = some (before, strip, more) := by
  induction before with
  | nil => cases strip <;> rfl
  | cons c before ih =>
    have hlength : 5 ≤ (c :: (before ++ dashes strip)).length := by
      cases strip <;> simp [dashes]
    have hlead : ∀ {lead : List Char}, lead.length ≤ 5 → ∀ rest,
        Text.afterLead? lead (c :: (before ++ dashes strip ++ rest)) =
          (Text.afterLead? lead (c :: (before ++ dashes strip))).map (· ++ rest) :=
      fun hlead rest => Text.afterLead?_append rest (Nat.le_trans hlead hlength)
    rw [List.cons_append, List.cons_append, cutAtDashes?, hlead (by decide), hlead (by decide)] at h
    rw [List.cons_append, List.cons_append, cutAtDashes?, hlead (by decide), hlead (by decide)]
    split at h
    · cases h
    · cases h
    · next hshort hlong =>
      obtain ⟨⟨before', strip', rest'⟩, hcut, hsame⟩ := Option.map_eq_some_iff.1 h
      cases hsame
      rw [Option.map_eq_none_iff.1 hshort, Option.map_eq_none_iff.1 hlong, ih hcut]
      rfl

theorem exists_dashes_eq (strip : Bool) : ∃ cs, dashes strip = cs ++ ['}'] := by
  cases strip
  · exact ⟨['-', '-', '}'], rfl⟩
  · exact ⟨['-', '-', '~', '}'], rfl⟩

/-- Reads what follows the opening braces of a mustache and a `~`. -/
def ofBody (braces : Nat) (trusting stripLeft : Bool) (body : List Char) :
    Except SyntaxFault Span :=
  let lead := braces + (if stripLeft then 1 else 0)
  match Text.afterLead? ['!', '-', '-'] body with
  | some inner =>
    match cutAtDashes? inner with
    | some (before, stripRight, rest) =>
      .ok { content := '!' :: '-' :: '-' :: before ++ ['-', '-']
            trusting := false, stripLeft, stripRight, lead, rest }
    | none => .error .unterminatedComment
  | none =>
    match cutAtClose? (List.replicate braces '}') .outside body with
    | some (content, rest) =>
      let (stripRight, content) := trailingTilde content
      .ok { content, trusting, stripLeft, stripRight, lead, rest }
    | none => .error .unterminatedMustache

theorem read_eq_ofBody (cs : List Char) :
    Span.read cs =
      ofBody (bracesOf cs) (Text.startsWith ['{', '{', '{'] cs)
        (leadingTilde (cs.drop (bracesOf cs))).1 (leadingTilde (cs.drop (bracesOf cs))).2 := rfl

/-- What has been read ends with a brace, and what follows it does not matter. -/
theorem ofBody_exchange {braces : Nat} (hbraces : 2 ≤ braces) {trusting stripLeft : Bool}
    {body : List Char} {span : Span} (h : ofBody braces trusting stripLeft body = .ok span) :
    ∃ inside ≠ [], body = inside ++ '}' :: span.rest ∧
      ∀ more, ofBody braces trusting stripLeft (inside ++ '}' :: more) =
        .ok { span with rest := more } := by
  rw [ofBody] at h
  dsimp only at h
  split at h
  · next inner hinner =>
    split at h
    · next before strip rest hcut =>
      cases h
      have hinner' := eq_append_of_cutAtDashes? hcut
      obtain ⟨end_, hend⟩ := exists_dashes_eq strip
      refine ⟨'!' :: '-' :: '-' :: (before ++ end_), List.cons_ne_nil _ _, ?_, fun more => ?_⟩
      · rw [Text.afterLead?_eq_some_iff.1 hinner, hinner', hend]
        simp
      · have hbody : '!' :: '-' :: '-' :: (before ++ end_) ++ '}' :: more =
            ['!', '-', '-'] ++ (before ++ dashes strip ++ more) := by
          rw [hend]
          simp
        rw [hinner'] at hcut
        rw [ofBody, hbody, Text.afterLead?_eq_some_iff.2 rfl]
        dsimp only
        rw [cutAtDashes?_exchange hcut]
    · cases h
  · next hnone =>
    split at h
    · next content rest hcut =>
      cases h
      have hbody := eq_append_of_cutAtClose? hcut
      obtain ⟨n, rfl⟩ : ∃ n, braces = n + 1 + 1 := ⟨braces - 2, by omega⟩
      have hclose : List.replicate (n + 1 + 1) '}' = '}' :: List.replicate n '}' ++ ['}'] := by
        rw [List.replicate_succ']
        rfl
      have hne : List.replicate (n + 1 + 1) '}' ≠ [] := List.cons_ne_nil _ _
      have hmore : ∀ more, content ++ ('}' :: List.replicate n '}') ++ '}' :: more =
          content ++ List.replicate (n + 1 + 1) '}' ++ more := by
        intro more
        rw [hclose]
        simp
      refine ⟨content ++ '}' :: List.replicate n '}', by simp, by rw [hmore, ← hbody],
        fun more => ?_⟩
      rw [hbody] at hcut hnone
      -- The body without what follows it begins no long comment either.
      have hcutShort := cutAtClose?_exchange hne hcut []
      have hnoneShort : Text.afterLead? ['!', '-', '-']
          (content ++ List.replicate (n + 1 + 1) '}' ++ []) = none := by
        rw [List.append_nil]
        refine Option.eq_none_iff_forall_ne_some.2 fun after hafter => ?_
        rw [Text.afterLead?_eq_some_iff] at hafter
        rw [hafter, List.append_assoc, Text.afterLead?_eq_some_iff.2 rfl] at hnone
        cases hnone
      have hnoneMore := afterLead?_comment_append rfl (by simp) hcutShort hnoneShort more
      rw [List.append_nil] at hnoneMore
      rw [hmore, ofBody, hnoneMore]
      dsimp only
      rw [cutAtClose?_exchange hne hcut]
    · cases h

/-- A mustache ends with a brace, and what follows it does not matter for what is read. -/
theorem exists_text {cs : List Char} {span : Span} (h : Span.read cs = .ok span) :
    ∃ text, cs = text ++ '}' :: span.rest ∧
      ∀ more, Span.read (text ++ '}' :: more) = .ok { span with rest := more } := by
  rw [read_eq_ofBody] at h
  have hbraces : 2 ≤ bracesOf cs ∧ bracesOf cs ≤ 3 := by
    rw [bracesOf]
    split <;> decide
  obtain ⟨inside, hne, hbody, hmore⟩ := ofBody_exchange hbraces.1 h
  obtain ⟨tilde, htilde⟩ := leadingTilde_suffix (cs.drop (bracesOf cs))
  rw [hbody] at htilde
  have hinside : 0 < inside.length := List.length_pos_iff.2 hne
  have htake : (cs.take (bracesOf cs)).length = bracesOf cs := by
    have hlength := congrArg List.length htilde
    simp only [List.length_append, List.length_cons, List.length_drop] at hlength
    exact List.length_take_of_le (by omega)
  obtain ⟨text, htext⟩ : ∃ text, text = cs.take (bracesOf cs) ++ (tilde ++ inside) := ⟨_, rfl⟩
  have hcs : cs = text ++ '}' :: span.rest := by
    rw [htext, List.append_assoc, List.append_assoc, htilde, List.take_append_drop]
  have hlength : ['{', '{', '{'].length ≤ text.length := by
    rw [htext, List.length_append, htake, List.length_append]
    exact Nat.add_le_add hbraces.1 (Nat.le_trans hinside (Nat.le_add_left _ _))
  have hstarts : ∀ more, Text.startsWith ['{', '{', '{'] (text ++ '}' :: more) =
      Text.startsWith ['{', '{', '{'] cs := by
    intro more
    rw [Text.startsWith_append hlength, hcs, Text.startsWith_append hlength]
  have hdrop : ∀ more, (text ++ '}' :: more).drop (bracesOf cs) =
      tilde ++ inside ++ '}' :: more := by
    intro more
    rw [htext, List.append_assoc (cs.take _), List.drop_left' htake]
  have hne' : tilde ++ inside ≠ [] := List.append_ne_nil_of_right_ne_nil tilde hne
  have hinner : (leadingTilde (tilde ++ inside)).2 = inside := by
    have happend := leadingTilde_append hne' ('}' :: span.rest)
    rw [List.append_assoc, htilde] at happend
    rw [happend] at hbody
    exact List.append_cancel_right hbody
  refine ⟨text, hcs, fun more => ?_⟩
  have hsame := hmore more
  have happend := leadingTilde_append hne' ('}' :: span.rest)
  rw [List.append_assoc, htilde] at happend
  rw [happend] at hsame
  rw [read_eq_ofBody, bracesOf, hstarts, ← bracesOf, hdrop, leadingTilde_append hne', hinner]
  exact hsame

end Span

/-! ### Mustaches before any text -/

theorem exists_of_cutAtClose? {n : Nat} {close cs rest : List Char}
    (hclose : ['}', '}'] <:+ close)
    (h : (Span.cutAtClose? close .outside (cs.drop n)).map Prod.snd = some rest) :
    ∃ text, cs = text ++ rest ∧ n + 2 ≤ text.length ∧ ['}', '}'] <:+ text ∧
      ∀ more, (Span.cutAtClose? close .outside ((text ++ more).drop n)).map Prod.snd =
        some more := by
  obtain ⟨⟨content, rest⟩, hcut, hpair⟩ := Option.map_eq_some_iff.1 h
  cases hpair
  have hdrop := Span.eq_append_of_cutAtClose? hcut
  have hn : n ≤ cs.length := by
    by_contra hlong
    rw [List.drop_eq_nil_of_le (Nat.le_of_not_le hlong)] at hcut
    cases hcut
  have htake := List.length_take_of_le hn
  have hlength : 2 ≤ close.length := hclose.length_le
  have hne : close ≠ [] := List.ne_nil_of_length_pos (Nat.lt_of_lt_of_le Nat.two_pos hlength)
  refine ⟨cs.take n ++ (content ++ close), ?_, ?_, ?_, fun more => ?_⟩
  · rw [List.append_assoc, ← hdrop, List.take_append_drop]
  · simp only [List.length_append, htake]
    omega
  · rw [← List.append_assoc]
    exact hclose.trans (List.suffix_append _ close)
  · have hmore : (cs.take n ++ (content ++ close) ++ more).drop n = content ++ close ++ more := by
      rw [List.append_assoc, List.drop_left' htake]
    rw [hdrop] at hcut
    rw [hmore, Span.cutAtClose?_exchange hne hcut]
    rfl

theorem startsWith_of_dashes {cs : List Char}
    (h : Text.startsWith ['{', '{', '!', '-', '-'] cs = true) :
    Text.startsWith ['{', '{', '!'] cs = true := by
  rw [Text.startsWith_iff] at h ⊢
  exact List.IsPrefix.trans (by decide) h

theorem exists_of_longComment {cs rest : List Char}
    (hlong : Text.startsWith ['{', '{', '!', '-', '-'] cs = true)
    (h : (Text.cutAt? ['-', '-', '}', '}'] cs).map Prod.snd = some rest) :
    ∃ text, cs = text ++ rest ∧ 4 ≤ text.length ∧ ['}', '}'] <:+ text ∧
      ∀ more, mustacheRest? (text ++ more) = some more := by
  obtain ⟨⟨before, rest⟩, hcut, hpair⟩ := Option.map_eq_some_iff.1 h
  cases hpair
  have hlength := Text.length_of_cutAt? (c := '-') rfl
    (Text.startsWith_iff.1 (startsWith_of_dashes hlong)) (by decide) hcut
  have hcs := Text.eq_append_of_cutAt? hcut
  have htext : ['{', '{', '!', '-', '-'].length ≤ (before ++ ['-', '-', '}', '}']).length := by
    simp only [List.length_append, List.length_cons, List.length_nil] at hlength ⊢
    omega
  refine ⟨before ++ ['-', '-', '}', '}'], hcs, Nat.le_of_succ_le htext,
    ⟨before ++ ['-', '-'], by simp⟩, fun more => ?_⟩
  rw [hcs, Text.startsWith_append htext] at hlong
  rw [mustacheRest?, Text.startsWith_append htext, if_pos hlong,
    Text.cutAt?_append (by simp) hcut]
  rfl

theorem exists_of_shortComment {cs rest : List Char}
    (hlong : ¬ Text.startsWith ['{', '{', '!', '-', '-'] cs = true)
    (hshort : Text.startsWith ['{', '{', '!'] cs = true)
    (h : (Text.cutAt? ['}', '}'] cs).map Prod.snd = some rest) :
    ∃ text, cs = text ++ rest ∧ 4 ≤ text.length ∧ ['}', '}'] <:+ text ∧
      ∀ more, mustacheRest? (text ++ more) = some more := by
  obtain ⟨⟨before, rest⟩, hcut, hpair⟩ := Option.map_eq_some_iff.1 h
  cases hpair
  have hlength := Text.length_of_cutAt? (c := '}') rfl (Text.startsWith_iff.1 hshort) (by decide)
    hcut
  have hcs := Text.eq_append_of_cutAt? hcut
  have htext : ['{', '{', '!', '-', '-'].length ≤ (before ++ ['}', '}']).length := by
    simp only [List.length_append, List.length_cons, List.length_nil] at hlength ⊢
    omega
  have htext' : ['{', '{', '!'].length ≤ (before ++ ['}', '}']).length :=
    Nat.le_trans (by decide) htext
  refine ⟨before ++ ['}', '}'], hcs, Nat.le_of_succ_le htext, List.suffix_append _ _,
    fun more => ?_⟩
  rw [hcs, Text.startsWith_append htext] at hlong
  rw [hcs, Text.startsWith_append htext'] at hshort
  rw [mustacheRest?, Text.startsWith_append htext, if_neg hlong, Text.startsWith_append htext',
    if_pos hshort, Text.cutAt?_append (by simp) hcut]
  rfl

/-- The three characters that tell mustaches other than comments apart belong to the mustache. -/
theorem startsWith_of_text {cs text rest : List Char}
    (hshort : ¬ Text.startsWith ['{', '{', '!'] cs = true) (hcs : cs = text ++ rest)
    (hlength : 4 ≤ text.length) (more : List Char) :
    Text.startsWith ['{', '{', '!', '-', '-'] (text ++ more) = false ∧
      Text.startsWith ['{', '{', '!'] (text ++ more) = false ∧
      Text.startsWith ['{', '{', '{'] (text ++ more) = Text.startsWith ['{', '{', '{'] cs := by
  have hthree : ['{', '{', '!'].length ≤ text.length := Nat.le_of_succ_le hlength
  have hthree' : ['{', '{', '{'].length ≤ text.length := Nat.le_of_succ_le hlength
  rw [hcs, Text.startsWith_append hthree, Bool.not_eq_true] at hshort
  rw [Text.startsWith_append hthree, hcs, Text.startsWith_append hthree',
    Text.startsWith_append hthree']
  refine ⟨?_, hshort, rfl⟩
  rw [Bool.eq_false_iff]
  intro hstarts
  have hbegins := startsWith_of_dashes hstarts
  rw [Text.startsWith_append hthree, hshort] at hbegins
  cases hbegins

theorem exists_of_mustacheRest? {cs rest : List Char} (h : mustacheRest? cs = some rest) :
    ∃ text, cs = text ++ rest ∧ 4 ≤ text.length ∧ ['}', '}'] <:+ text ∧
      ∀ more, mustacheRest? (text ++ more) = some more := by
  rw [mustacheRest?] at h
  split at h
  · next hlong => exact exists_of_longComment hlong h
  · next hlong =>
    split at h
    · next hshort => exact exists_of_shortComment hlong hshort h
    · next hshort =>
      split at h
      · next htriple =>
        obtain ⟨text, hcs, hlength, hclose, hmore⟩ :=
          exists_of_cutAtClose? (List.suffix_cons '}' _) h
        have hfour : 4 ≤ text.length := Nat.le_of_succ_le hlength
        refine ⟨text, hcs, hfour, hclose, fun more => ?_⟩
        obtain ⟨h₁, h₂, h₃⟩ := startsWith_of_text hshort hcs hfour more
        rw [mustacheRest?, h₁, h₂, h₃, htriple]
        exact hmore more
      · next htriple =>
        obtain ⟨text, hcs, hlength, hclose, hmore⟩ := exists_of_cutAtClose? (List.suffix_refl _) h
        refine ⟨text, hcs, hlength, hclose, fun more => ?_⟩
        obtain ⟨h₁, h₂, h₃⟩ := startsWith_of_text hshort hcs hlength more
        rw [Bool.not_eq_true] at htriple
        rw [mustacheRest?, h₁, h₂, h₃, htriple]
        exact hmore more

theorem exists_of_mustacheText? {cs text : List Char} (h : mustacheText? cs = some text) :
    ∃ rest, cs = text ++ rest ∧ 4 ≤ text.length ∧ ['}', '}'] <:+ text ∧
      ∀ more, mustacheText? (text ++ more) = some text := by
  rw [mustacheText?_eq] at h
  obtain ⟨rest, hrest, htext⟩ := Option.map_eq_some_iff.1 h
  obtain ⟨found, hcs, hlength, hclose, hmore⟩ := exists_of_mustacheRest? hrest
  have htake : ∀ more, (found ++ more).take ((found ++ more).length - more.length) = found := by
    intro more
    rw [List.length_append, Nat.add_sub_cancel, List.take_left]
  rw [hcs, htake] at htext
  obtain rfl := htext
  refine ⟨rest, hcs, hlength, hclose, fun more => ?_⟩
  rw [mustacheText?_eq, hmore, Option.map_some, htake]

namespace OpeningTag

/-! ### Places -/

/-- Where the reader of opening tags stands: between tags, or inside one, with the open quote and
the last character that is not blank. -/
inductive Place where
  | between
  | inside (quote : Option Char) (last : Char)
  deriving DecidableEq

namespace Place

/-- What is read before `c :: cs`: how many characters, and the place after them. Nothing is read
where something begins that does not end. -/
def step (c : Char) (cs : List Char) : Place → Option (Nat × Place)
  | between =>
    match landmark 0 c cs with
    | .pass count => some (count, between)
    -- The name of a tag begins at once, so its first letter is read with it.
    | .tag _ => some (2, inside none (cs.headD '<'))
    | .unending => none
  | inside quote last =>
    if Text.startsWith ['{', '{'] (c :: cs) then
      (mustacheText? (c :: cs)).map fun text => (text.length, inside quote '}')
    else if quote = none ∧ c = '>' then some (1, between)
    else some (1, inside (quoteAfter c quote) (if Text.isAsciiBlank c then last else c))

/-- The mustache of a tag before `c :: cs`. -/
def mustache? (offset : Nat) (c : Char) (cs : List Char) : Place → Option TagMustache
  | between => none
  | inside quote last =>
    if Text.startsWith ['{', '{'] (c :: cs) then
      (mustacheText? (c :: cs)).map fun text =>
        { start := offset, text, inValue := quote.isSome || last == '=' }
    else none

def isOutside : Place → Bool
  | inside none last => last != '='
  | _ => false

end Place

/-- The mustaches of opening tags after `skip` more characters, with their positions in the
template. -/
def mustachesFrom (place : Place) (offset skip : Nat) : List Char → List TagMustache
  | [] => []
  | c :: cs =>
    match skip with
    | skip + 1 => mustachesFrom place (offset + c.utf8Size) skip cs
    | 0 =>
      match place.step c cs with
      | none => []
      | some (count, next) =>
        (place.mustache? offset c cs).toList ++
          mustachesFrom next (offset + c.utf8Size) (count - 1) cs

def placeAt (target : Nat) (place : Place) (offset skip : Nat) : List Char → Option Place
  | [] => if skip = 0 ∧ offset = target then some place else none
  | c :: cs =>
    match skip with
    | skip + 1 => placeAt target place (offset + c.utf8Size) skip cs
    | 0 =>
      if offset = target then some place
      else
        match place.step c cs with
        | none => none
        | some (count, next) => placeAt target next (offset + c.utf8Size) (count - 1) cs

variable {place next : Place} {offset count target : Nat} {c : Char} {cs text rest : List Char}

theorem mustachesFrom_append (text rest : List Char) :
    mustachesFrom place offset text.length (text ++ rest) =
      mustachesFrom place (offset + Text.utf8Length text) 0 rest := by
  induction text generalizing offset with
  | nil => rfl
  | cons c cs ih =>
    rw [List.length_cons, List.cons_append, mustachesFrom, ih, Text.utf8Length, Nat.add_assoc]

theorem placeAt_append (text rest : List Char) :
    placeAt target place offset text.length (text ++ rest) =
      placeAt target place (offset + Text.utf8Length text) 0 rest := by
  induction text generalizing offset with
  | nil => rfl
  | cons c cs ih =>
    rw [List.length_cons, List.cons_append, placeAt, ih, Text.utf8Length, Nat.add_assoc]

/-! ### One step -/

theorem at?_cases (start : Nat) (cs : List Char) :
    (∃ tag, at? start cs = some tag ∧ (scan none '<' 1 0 (cs.drop 1)).isSome) ∨
      (at? start cs = none ∧ scan none '<' 1 0 (cs.drop 1) = none) := by
  rw [at?]
  cases scan none '<' 1 0 (cs.drop 1) with
  | none => exact .inr ⟨rfl, rfl⟩
  | some found => exact .inl ⟨_, rfl, rfl⟩

/-- What the reader finds at `c :: cs` between tags. -/
theorem between_cases (start : Nat) (c : Char) (cs : List Char) :
    (∃ text rest, c :: cs = text ++ rest ∧ text ≠ [] ∧ landmark start c cs = .pass text.length ∧
      Place.between.step c cs = some (text.length, .between)) ∨
    (∃ d rest, c = '<' ∧ cs = d :: rest ∧ Text.isAsciiLetter d = true ∧
      (scan none '<' 1 0 cs).isSome ∧ Place.between.step c cs = some (2, .inside none d)) ∨
    (landmark start c cs = .unending ∧ Place.between.step c cs = none) := by
  rw [Place.step, landmark, landmark]
  split
  · split
    · next before after hcut =>
      have hcs := Text.eq_append_of_cutAt? hcut
      exact .inl ⟨before ++ ['-', '-', '>'], after, hcs, by simp, by simp, by simp⟩
    · exact .inr (.inr ⟨rfl, rfl⟩)
  · next hcomment =>
    split
    · split
      · next text htext =>
        obtain ⟨after, hcs, hlength, -⟩ := exists_of_mustacheText? htext
        refine .inl ⟨text, after, hcs, ?_, rfl, rfl⟩
        rintro rfl
        cases hlength
      · exact .inr (.inr ⟨rfl, rfl⟩)
    · split
      · next hopens =>
        rcases at?_cases start (c :: cs) with ⟨tag, htag, hscan⟩ | ⟨htag, hscan⟩
        · rcases at?_cases 0 (c :: cs) with ⟨tag', htag', -⟩ | ⟨-, hscan'⟩
          · rw [htag']
            obtain ⟨d, hd, hletter⟩ := (Option.any_eq_true _ _).1 hopens.2
            obtain ⟨rest, rfl⟩ := List.head?_eq_some_iff.1 hd
            exact .inr (.inl ⟨d, rest, hopens.1, rfl, hletter, hscan, rfl⟩)
          · rw [hscan'] at hscan
            cases hscan
        · rcases at?_cases 0 (c :: cs) with ⟨tag', -, hscan'⟩ | ⟨htag', -⟩
          · rw [hscan] at hscan'
            cases hscan'
          · rw [htag, htag']
            exact .inr (.inr ⟨rfl, rfl⟩)
      · exact .inl ⟨[c], cs, rfl, by simp, rfl, rfl⟩

theorem exists_of_step (h : place.step c cs = some (count, next)) :
    ∃ text rest, c :: cs = text ++ rest ∧ text ≠ [] ∧ count = text.length := by
  cases place with
  | between =>
    rcases between_cases 0 c cs with ⟨text, rest, hcs, hne, -, hstep⟩ |
      ⟨d, rest, -, rfl, -, -, hstep⟩ | ⟨-, hstep⟩
    · rw [hstep] at h
      cases h
      exact ⟨text, rest, hcs, hne, rfl⟩
    · rw [hstep] at h
      cases h
      exact ⟨[c, d], rest, rfl, by simp, rfl⟩
    · rw [hstep] at h
      cases h
  | inside quote last =>
    rw [Place.step] at h
    split at h
    · obtain ⟨text, htext, hpair⟩ := Option.map_eq_some_iff.1 h
      cases hpair
      obtain ⟨rest, hcs, hlength, -⟩ := exists_of_mustacheText? htext
      refine ⟨text, rest, hcs, ?_, rfl⟩
      rintro rfl
      cases hlength
    · split at h
      · cases h
        exact ⟨[c], cs, rfl, by simp, rfl⟩
      · cases h
        exact ⟨[c], cs, rfl, by simp, rfl⟩

theorem mustachesFrom_step (h : place.step c cs = some (text.length, next))
    (hcs : c :: cs = text ++ rest) (hne : text ≠ []) :
    mustachesFrom place offset 0 (c :: cs) =
      (place.mustache? offset c cs).toList ++
        mustachesFrom next (offset + Text.utf8Length text) 0 rest := by
  obtain ⟨d, text, rfl⟩ := List.exists_cons_of_ne_nil hne
  obtain rfl := (List.cons.inj hcs).1
  have hmore : cs = text ++ rest := (List.cons.inj hcs).2
  rw [mustachesFrom, h]
  dsimp only
  rw [List.length_cons, Nat.add_sub_cancel, Text.utf8Length, ← Nat.add_assoc,
    ← mustachesFrom_append, hmore]

theorem placeAt_step (h : place.step c cs = some (text.length, next))
    (hcs : c :: cs = text ++ rest) (hne : text ≠ []) (htarget : offset ≠ target) :
    placeAt target place offset 0 (c :: cs) =
      placeAt target next (offset + Text.utf8Length text) 0 rest := by
  obtain ⟨d, text, rfl⟩ := List.exists_cons_of_ne_nil hne
  obtain rfl := (List.cons.inj hcs).1
  have hmore : cs = text ++ rest := (List.cons.inj hcs).2
  rw [placeAt, if_neg htarget, h]
  dsimp only
  rw [List.length_cons, Nat.add_sub_cancel, Text.utf8Length, ← Nat.add_assoc, ← placeAt_append,
    hmore]

theorem placeAt_self (cs : List Char) : placeAt offset place offset 0 cs = some place := by
  cases cs with
  | nil => simp [placeAt]
  | cons c cs => simp [placeAt]

/-- What holds at the end of a template and where nothing more is read, and is kept, from back to
front, by every step holds everywhere. -/
theorem place_induction {motive : Place → Nat → List Char → Prop}
    (done : ∀ place offset, motive place offset [])
    (stuck : ∀ (place : Place) offset c cs, place.step c cs = none → motive place offset (c :: cs))
    (step : ∀ (place next : Place) offset c cs text rest,
      place.step c cs = some (text.length, next) → c :: cs = text ++ rest → text ≠ [] →
      motive next (offset + Text.utf8Length text) rest → motive place offset (c :: cs))
    (place : Place) (offset : Nat) (cs : List Char) : motive place offset cs := by
  induction hn : cs.length using Nat.strong_induction_on generalizing place offset cs with
  | _ n ih =>
    cases cs with
    | nil => exact done place offset
    | cons c cs =>
      cases hstep : place.step c cs with
      | none => exact stuck place offset c cs hstep
      | some found =>
        obtain ⟨count, next⟩ := found
        obtain ⟨text, rest, hcs, hne, rfl⟩ := exists_of_step hstep
        have hpos := List.length_pos_iff.2 hne
        have hlength := congrArg List.length hcs
        rw [List.length_append, hn] at hlength
        exact step place next offset c cs text rest hstep hcs hne
          (ih rest.length (by omega) next _ rest rfl)

/-! ### Positions -/

theorem Place.start_of_mem {m : TagMustache} (h : m ∈ place.mustache? offset c cs) :
    m.start = offset := by
  cases place with
  | between => cases h
  | inside quote last =>
    rw [Place.mustache?] at h
    split at h
    · obtain ⟨found, -, rfl⟩ := Option.map_eq_some_iff.1 h
      rfl
    · cases h

theorem le_of_mem_mustachesFrom {m : TagMustache} (h : m ∈ mustachesFrom place offset 0 cs) :
    offset ≤ m.start := by
  induction place, offset, cs using place_induction with
  | done place offset => cases h
  | stuck place offset c cs hstep =>
    rw [mustachesFrom, hstep] at h
    cases h
  | step place next offset c cs text rest hstep hcs hne ih =>
    rw [mustachesFrom_step hstep hcs hne, List.mem_append] at h
    rcases h with h | h
    · exact Nat.le_of_eq (Place.start_of_mem (Option.mem_toList.1 h)).symm
    · have := ih h
      omega

end OpeningTag

/-! ### The mustaches of all tags -/

namespace WrittenAttribute

theorem ne_of_isNameChar {c d : Char} (hc : isNameChar c = true) (hd : isNameChar d = false) :
    c ≠ d := by
  rintro rfl
  rw [hc] at hd
  cases hd

theorem isNameChar_of_isAsciiLetter {c : Char} (h : Text.isAsciiLetter c = true) :
    isNameChar c = true := by
  simp [isNameChar, Text.isWordChar, Text.isAlphabetic, h]

end WrittenAttribute

def TagMustache.shift (m : TagMustache) (start : Nat) : TagMustache :=
  { m with start := start + m.start }

namespace OpeningTag

/-- The mustaches of tags, with their positions in the template. -/
def mustachesOf (tags : List OpeningTag) : List TagMustache :=
  tags.flatMap fun tag => tag.mustaches.map fun m => m.shift tag.start

variable {offset : Nat} {c : Char} {cs : List Char}

theorem startsWith_braces (h : Text.startsWith ['{', '{'] (c :: cs) = true) :
    ∃ body, c :: cs = '{' :: '{' :: body := by
  obtain ⟨body, hbody⟩ := Text.startsWith_iff.1 h
  exact ⟨body, hbody.symm⟩

theorem not_braces (h : ¬ Text.startsWith ['{', '{'] (c :: cs) = true) :
    ¬ ['{', '{'] <+: c :: cs :=
  fun hbraces => h (Text.startsWith_iff.2 hbraces)

/-- What the reader does at `c :: cs` inside a tag. -/
theorem inside_cases (quote : Option Char) (last : Char) (c : Char) (cs : List Char) :
    (∃ body, c :: cs = '{' :: '{' :: body ∧
      ((mustacheText? (c :: cs) = none ∧ (Place.inside quote last).step c cs = none) ∨
        ∃ text, mustacheText? (c :: cs) = some text ∧
          (Place.inside quote last).step c cs = some (text.length, .inside quote '}'))) ∨
    (¬ ['{', '{'] <+: c :: cs ∧ quote = none ∧ c = '>' ∧
      (Place.inside quote last).step c cs = some (1, .between)) ∨
    (¬ ['{', '{'] <+: c :: cs ∧ ¬ (quote = none ∧ c = '>') ∧
      (Place.inside quote last).step c cs =
        some (1, .inside (quoteAfter c quote) (if Text.isAsciiBlank c then last else c))) := by
  rw [Place.step]
  split
  · next hbraces =>
    refine .inl ?_
    obtain ⟨body, hbody⟩ := startsWith_braces hbraces
    refine ⟨body, hbody, ?_⟩
    cases mustacheText? (c :: cs) with
    | none => exact .inl ⟨rfl, rfl⟩
    | some text => exact .inr ⟨text, rfl, rfl⟩
  · next hbraces =>
    split
    · next hend => exact .inr (.inl ⟨not_braces hbraces, hend.1, hend.2, rfl⟩)
    · next hend => exact .inr (.inr ⟨not_braces hbraces, hend, rfl⟩)

theorem mustache?_of_not_braces {quote : Option Char} {last : Char}
    (h : ¬ ['{', '{'] <+: c :: cs) : (Place.inside quote last).mustache? offset c cs = none := by
  rw [Place.mustache?, if_neg fun hstarts => h (Text.startsWith_iff.1 hstarts)]

theorem mustache?_of_braces {quote : Option Char} {last : Char} {body found : List Char}
    (hbody : c :: cs = '{' :: '{' :: body) (hfound : mustacheText? (c :: cs) = some found) :
    (Place.inside quote last).mustache? offset c cs =
      some { start := offset, text := found, inValue := quote.isSome || last == '=' } := by
  have hstarts : Text.startsWith ['{', '{'] (c :: cs) = true :=
    Text.startsWith_iff.2 ⟨body, hbody.symm⟩
  rw [Place.mustache?, if_pos hstarts, hfound]
  rfl

theorem after_nameChar (h : WrittenAttribute.isNameChar c = true) :
    ¬ ['{', '{'] <+: c :: cs ∧ c ≠ '>' ∧ quoteAfter c none = none ∧
      Text.isAsciiBlank c = false := by
  have hne : ∀ d, WrittenAttribute.isNameChar d = false → c ≠ d :=
    fun d => WrittenAttribute.ne_of_isNameChar h
  refine ⟨?_, hne '>' (by decide), ?_, ?_⟩
  · rintro ⟨rest, hrest⟩
    exact hne '{' (by decide) (List.cons.inj hrest).1.symm
  · rw [quoteAfter, if_neg]
    rintro (heq | heq)
    · exact hne '"' (by decide) heq
    · exact hne '\'' (by decide) heq
  · simp [Text.isAsciiBlank, hne ' ' (by decide), hne '\t' (by decide), hne '\n' (by decide),
      hne '\x0c' (by decide), hne '\r' (by decide)]

theorem scan_nameChar (last : Char) (offset : Nat) (h : WrittenAttribute.isNameChar c = true)
    (cs : List Char) :
    scan none last offset 0 (c :: cs) = scan none c (offset + c.utf8Size) 0 cs := by
  obtain ⟨hbraces, hend, hquote, hblank⟩ := @after_nameChar c cs h
  rw [scan_plain hbraces fun hboth => hend hboth.2, hquote, hblank]
  rfl

/-- The reader meets the mustaches of the tags that it lists: those of the tags to come and, inside
a tag, those that are still to come in it. -/
structure Meets (place : Place) (offset : Nat) (cs : List Char) : Prop where
  between : place = .between →
    mustachesFrom place offset 0 cs = mustachesOf (allFrom offset 0 cs)
  inside : ∀ quote last, place = .inside quote last → ∀ opened : OpeningTag, opened.stop = offset →
    (scan quote last (Text.utf8Length opened.text) 0 cs).isSome →
    (opened.mustaches.map fun m => m.shift opened.start) ++ mustachesFrom place offset 0 cs =
      mustachesOf (resume quote last opened cs)

namespace Meets

variable {place next : Place} {offset : Nat} {c : Char} {cs text rest : List Char}

theorem stuck (hstep : place.step c cs = none) : Meets place offset (c :: cs) := by
  constructor
  · rintro rfl
    rcases between_cases offset c cs with ⟨text, rest, -, -, -, hread⟩ |
      ⟨d, rest, -, -, -, -, hread⟩ | ⟨hmark, -⟩
    · rw [hread] at hstep
      cases hstep
    · rw [hread] at hstep
      cases hstep
    · rw [mustachesFrom, hstep, allFrom, hmark]
      rfl
  · rintro quote last rfl opened - hscan
    rcases inside_cases quote last c cs with ⟨body, hbody, ⟨htext, -⟩ | ⟨text, -, hread⟩⟩ |
      ⟨-, -, -, hread⟩ | ⟨-, -, hread⟩
    · have hstarts : Text.startsWith ['{', '{'] (c :: cs) = true :=
        Text.startsWith_iff.2 ⟨body, hbody.symm⟩
      rw [scan, if_pos hstarts, htext] at hscan
      cases hscan
    · rw [hread] at hstep
      cases hstep
    · rw [hread] at hstep
      cases hstep
    · rw [hread] at hstep
      cases hstep

theorem step_between (hstep : Place.between.step c cs = some (text.length, next))
    (hcs : c :: cs = text ++ rest) (hne : text ≠ [])
    (ih : Meets next (offset + Text.utf8Length text) rest) :
    mustachesFrom .between offset 0 (c :: cs) = mustachesOf (allFrom offset 0 (c :: cs)) := by
  rw [mustachesFrom_step hstep hcs hne]
  rcases between_cases offset c cs with ⟨found, after, hfound, -, hpass, hread⟩ |
    ⟨d, after, rfl, rfl, hletter, hscan, hread⟩ | ⟨-, hread⟩
  · rw [hread] at hstep
    obtain ⟨hlength, rfl⟩ := Prod.mk.inj (Option.some.inj hstep)
    rw [hlength] at hpass
    rw [allFrom_pass hcs hne hpass, ← ih.between rfl]
    rfl
  · rw [hread] at hstep
    obtain ⟨hlength, rfl⟩ := Prod.mk.inj (Option.some.inj hstep)
    obtain ⟨rfl, rfl⟩ := List.append_inj (show ['<', d] ++ _ = _ from hcs) hlength
    have hcomment : Text.startsWith ['<', '!', '-', '-'] ('<' :: d :: after) = false := by
      have hbang : '!' ≠ d := (WrittenAttribute.ne_of_isNameChar
        (WrittenAttribute.isNameChar_of_isAsciiLetter hletter) (by decide)).symm
      simp [Text.startsWith, Text.afterLead?, hbang]
    have hname := @resume_append none '<' { start := offset, text := ['<'], mustaches := [] } _ _
      [d] after [] ((scan_nameChar '<' _ (WrittenAttribute.isNameChar_of_isAsciiLetter
        hletter) after).trans Option.map_id'.symm)
    rw [scan_nameChar '<' 1 (WrittenAttribute.isNameChar_of_isAsciiLetter hletter)] at hscan
    rw [allFrom_open hcomment hletter, ← List.singleton_append, hname]
    exact ih.inside none d rfl { start := offset, text := ['<', d], mustaches := [] } rfl hscan
  · rw [hread] at hstep
    cases hstep

/-- Inside a tag the reader passes over a mustache, the end of the tag, or another character. -/
theorem step_inside {quote : Option Char} {last : Char} {opened : OpeningTag}
    (hstep : (Place.inside quote last).step c cs = some (text.length, next))
    (hcs : c :: cs = text ++ rest) (hne : text ≠ [])
    (ih : Meets next (opened.stop + Text.utf8Length text) rest)
    (hscan : (scan quote last (Text.utf8Length opened.text) 0 (c :: cs)).isSome) :
    (opened.mustaches.map fun m => m.shift opened.start) ++
        mustachesFrom (.inside quote last) opened.stop 0 (c :: cs) =
      mustachesOf (resume quote last opened (c :: cs)) := by
  rw [mustachesFrom_step hstep hcs hne]
  rcases inside_cases quote last c cs with ⟨body, hbody, ⟨-, hread⟩ | ⟨found, htext, hread⟩⟩ |
    ⟨hbraces, rfl, rfl, hread⟩ | ⟨hbraces, hend, hread⟩
  · rw [hread] at hstep
    cases hstep
  · rw [hread] at hstep
    obtain ⟨hlength, rfl⟩ := Prod.mk.inj (Option.some.inj hstep)
    obtain ⟨after, hfound, -, -⟩ := exists_of_mustacheText? htext
    obtain ⟨rfl, rfl⟩ := List.append_inj (hfound.symm.trans hcs) hlength
    have hread' := @scan_mustache quote last (Text.utf8Length opened.text) body after found
      (hbody ▸ htext) (hcs.symm.trans hbody) hne
    rw [← hbody, hcs, ← Text.utf8Length_append] at hread'
    rw [hcs, hread', Option.isSome_map] at hscan
    rw [mustache?_of_braces hbody htext, hcs, resume_append hread']
    refine Eq.trans ?_ (ih.inside quote '}' rfl _ ?_ hscan)
    · rw [List.map_append, List.append_assoc]
      rfl
    · rw [stop, stop, Text.utf8Length_append, Nat.add_assoc]
  · rw [hread] at hstep
    obtain ⟨hlength, rfl⟩ := Prod.mk.inj (Option.some.inj hstep)
    obtain ⟨d, rfl⟩ := List.length_eq_one_iff.1 hlength.symm
    obtain ⟨rfl, rfl⟩ := List.cons.inj hcs
    have htake : ('>' :: cs).take (('>' :: cs).length - cs.length) = ['>'] := by
      simp
    rw [mustache?_of_not_braces hbraces, resume, scan_end]
    dsimp only
    rw [htake, ih.between rfl, stop, stop, Text.utf8Length_append, ← Nat.add_assoc, List.append_nil]
    rfl
  · rw [hread] at hstep
    obtain ⟨hlength, rfl⟩ := Prod.mk.inj (Option.some.inj hstep)
    obtain ⟨d, rfl⟩ := List.length_eq_one_iff.1 hlength.symm
    obtain ⟨rfl, rfl⟩ := List.cons.inj hcs
    have hread' := @scan_plain quote last (Text.utf8Length opened.text) c cs hbraces hend
    have hlength : Text.utf8Length (opened.text ++ [c]) =
        Text.utf8Length opened.text + c.utf8Size := by
      rw [Text.utf8Length_append, Text.utf8Length, Text.utf8Length, Nat.add_zero]
    rw [← hlength] at hread'
    have hnext : opened.stop + Text.utf8Length [c] =
        opened.start + Text.utf8Length (opened.text ++ [c]) := by
      rw [stop, Text.utf8Length_append, Nat.add_assoc]
    have hfound := @resume_append quote last opened _ _ [c] cs [] (hread'.trans
      Option.map_id'.symm)
    rw [hread'] at hscan
    rw [List.append_nil] at hfound
    rw [mustache?_of_not_braces hbraces, hcs, hfound]
    exact ih.inside _ _ rfl { opened with text := opened.text ++ [c] } hnext.symm hscan

end Meets

theorem meets (place : Place) (offset : Nat) (cs : List Char) : Meets place offset cs := by
  induction place, offset, cs using place_induction with
  | done place offset =>
    refine ⟨fun _ => rfl, fun quote last _ opened _ hscan => ?_⟩
    cases hscan
  | stuck place offset c cs hstep => exact .stuck hstep
  | step place next offset c cs text rest hstep hcs hne ih =>
    constructor
    · rintro rfl
      exact Meets.step_between hstep hcs hne ih
    · rintro quote last rfl opened rfl hscan
      exact Meets.step_inside hstep hcs hne ih hscan

theorem mustachesOf_all (template : List Char) :
    mustachesOf (all template) = mustachesFrom .between 0 0 template :=
  ((meets .between 0 template).between rfl).symm

end OpeningTag

end MustacheJsx
