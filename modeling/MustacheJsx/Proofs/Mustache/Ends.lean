import MustacheJsx.Extraction.OpeningTag
import MustacheJsx.Proofs.Mustache.Quoting
import MustacheJsx.Proofs.Printing.Tag

/-!
# Two readers of the end of a mustache

The reader of spans and the reader of opening tags look for the end of a mustache in their own ways.
They find the same end of every mustache that is no comment. `EndsAlike` says of which comments they
do: `mustacheText_eq_textOf_iff`.
-/

namespace MustacheJsx

open MustacheJsx.Span (Quoting ClosesQuotes cutAtClose? cutAtDashes? leadingTilde)

/-! ### What follows a mustache -/

/-- What the reader of spans finds after the mustache that `cs` begins with. -/
def Span.restOf? (cs : List Char) : Option (List Char) := (Span.read cs).toOption.map Span.rest

/-- The mustache that `cs` begins with, as the reader of spans cuts it out. -/
def Span.textOf? (cs : List Char) : Option (List Char) :=
  (Span.restOf? cs).map fun rest => cs.take (cs.length - rest.length)

/-- What the reader of opening tags finds after the mustache that `cs` begins with. -/
def mustacheRest? (cs : List Char) : Option (List Char) :=
  if Text.startsWith ['{', '{', '!', '-', '-'] cs then
    (Text.cutAt? ['-', '-', '}', '}'] cs).map Prod.snd
  else if Text.startsWith ['{', '{', '!'] cs then (Text.cutAt? ['}', '}'] cs).map Prod.snd
  else if Text.startsWith ['{', '{', '{'] cs then
    (cutAtClose? ['}', '}', '}'] .outside (cs.drop 3)).map Prod.snd
  else (cutAtClose? ['}', '}'] .outside (cs.drop 2)).map Prod.snd

theorem mustacheText?_eq (cs : List Char) :
    mustacheText? cs = (mustacheRest? cs).map fun rest => cs.take (cs.length - rest.length) := rfl

def bracesOf (cs : List Char) : Nat := if Text.startsWith ['{', '{', '{'] cs then 3 else 2

theorem Span.restOf?_eq (cs : List Char) :
    Span.restOf? cs =
      match Text.afterLead? ['!', '-', '-'] (leadingTilde (cs.drop (bracesOf cs))).2 with
      | some inner => (cutAtDashes? inner).map fun cut => cut.2.2
      | none => (cutAtClose? (List.replicate (bracesOf cs) '}') .outside
          (leadingTilde (cs.drop (bracesOf cs))).2).map Prod.snd := by
  rw [Span.restOf?, Span.read]
  dsimp only
  rw [← bracesOf]
  cases Text.afterLead? ['!', '-', '-'] (leadingTilde (cs.drop (bracesOf cs))).2 with
  | some inner =>
    cases hcut : cutAtDashes? inner with
    | none => simp [hcut, Except.toOption]
    | some cut => simp [hcut, Except.toOption]
  | none =>
    dsimp only
    cases cutAtClose? (List.replicate (bracesOf cs) '}') .outside
        (leadingTilde (cs.drop (bracesOf cs))).2 with
    | none => rfl
    | some cut => rfl

/-! ### Comments -/

theorem cutAtClose?_eq_none {close cs : List Char} (h : Text.cutAt? close cs = none)
    (quoting : Quoting) : cutAtClose? close quoting cs = none := by
  induction cs generalizing quoting with
  | nil => rfl
  | cons c cs ih =>
    rw [Text.cutAt?] at h
    split at h
    · cases h
    · next hlead =>
      rw [cutAtClose?, hlead, ite_self, ih (Option.map_eq_none_iff.1 h)]
      rfl

/-- A short comment ends at its first braces, outside quotes or not. The other reader finds them if
the comment closes its quotes. -/
theorem cutAtClose?_comment_iff (inner : List Char) :
    (Text.cutAt? ['}', '}'] inner).map Prod.snd =
        (cutAtClose? ['}', '}'] .outside inner).map Prod.snd ↔
      ∀ cut ∈ Text.cutAt? ['}', '}'] inner, ClosesQuotes cut.1 := by
  cases hcut : Text.cutAt? ['}', '}'] inner with
  | none =>
    rw [cutAtClose?_eq_none hcut]
    exact ⟨fun _ => nofun, fun _ => rfl⟩
  | some cut =>
    obtain ⟨value, rest⟩ := cut
    have hinner : inner = value ++ '}' :: '}' :: rest := by
      rw [Text.eq_append_of_cutAt? hcut]
      simp
    have hcloses := Span.cutAtClose?_braces_iff (Text.contains_braces_of_cutAt? hcut) rest
    rw [← hinner] at hcloses
    constructor
    · rintro hrest cut ⟨⟩
      obtain ⟨⟨value', rest'⟩, hclose, hsame⟩ := Option.map_eq_some_iff.1 hrest.symm
      have hrest' : rest' = rest := hsame
      subst hrest'
      have hagain : value ++ '}' :: '}' :: rest' = value' ++ '}' :: '}' :: rest' := by
        rw [← hinner, Span.eq_append_of_cutAtClose? hclose]
        simp
      have hvalue : value = value' := List.append_cancel_right hagain
      rw [← hvalue] at hclose
      exact hcloses.1 hclose
    · intro hall
      rw [hcloses.2 (hall _ rfl)]

/-- The dashes of a long comment, with or without a tilde, and those without one. -/
theorem cutAtDashes?_iff (inner : List Char) :
    (Text.cutAt? ['-', '-', '}', '}'] inner).map Prod.snd =
        (cutAtDashes? inner).map (fun cut => cut.2.2) ↔
      ∀ cut ∈ cutAtDashes? inner, cut.2.1 = false := by
  induction inner with
  | nil => exact ⟨fun _ => nofun, fun _ => rfl⟩
  | cons c cs ih =>
    rw [Text.cutAt?, cutAtDashes?]
    cases hshort : Text.afterLead? ['-', '-', '}', '}'] (c :: cs) with
    | some rest =>
      refine ⟨?_, fun _ => rfl⟩
      rintro - cut ⟨⟩
      rfl
    | none =>
      cases hlong : Text.afterLead? ['-', '-', '~', '}', '}'] (c :: cs) with
      | some rest =>
        constructor
        · intro hrest
          have hsource := Text.afterLead?_eq_some_iff.1 hlong
          obtain ⟨rfl, rfl⟩ := List.cons.inj hsource
          have hlater : (Text.cutAt? ['-', '-', '}', '}'] rest).map Prod.snd = some rest := by
            simpa [Text.cutAt?, Text.afterLead?, Function.comp_def] using hrest
          obtain ⟨⟨before, after⟩, hcut, rfl⟩ := Option.map_eq_some_iff.1 hlater
          have hlength := congrArg List.length (Text.eq_append_of_cutAt? hcut)
          simp only [List.length_append, List.length_cons] at hlength
          omega
        · intro hall
          cases hall _ rfl
      | none =>
        dsimp only
        rw [Option.map_map, Option.map_map]
        refine Iff.trans ih ?_
        constructor
        · intro hall cut hcut
          obtain ⟨cut', hcut', rfl⟩ := Option.map_eq_some_iff.1 hcut
          exact hall cut' hcut'
        · intro hall cut hcut
          have hmore := hall (c :: cut.1, cut.2.1, cut.2.2)
          exact hmore (Option.map_eq_some_iff.2 ⟨cut, hcut, rfl⟩)

theorem length_of_cutAtDashes {inner : List Char} {cut : List Char × Bool × List Char}
    (h : cutAtDashes? inner = some cut) : cut.2.2.length + 4 ≤ inner.length := by
  induction inner generalizing cut with
  | nil => cases h
  | cons c cs ih =>
    have hlead : ∀ {mark rest : List Char}, Text.afterLead? mark (c :: cs) = some rest →
        mark.length + rest.length = (c :: cs).length := by
      intro mark rest hlead
      rw [Text.afterLead?_eq_some_iff.1 hlead, List.length_append]
    rw [cutAtDashes?] at h
    split at h
    · next hshort =>
      cases h
      have hlength := hlead hshort
      simp only [List.length_cons, List.length_nil] at hlength ⊢
      omega
    · next hlong =>
      cases h
      have hlength := hlead hlong
      simp only [List.length_cons, List.length_nil] at hlength ⊢
      omega
    · obtain ⟨cut', hcut, rfl⟩ := Option.map_eq_some_iff.1 h
      have hlength := ih hcut
      exact Nat.le_succ_of_le hlength

/-- The dashes that begin a long comment may be those of its end to one reader, and not to the
other. -/
theorem cutAt?_comment_iff (inner : List Char) :
    (Text.cutAt? ['-', '-', '}', '}'] ('-' :: '-' :: inner)).map Prod.snd =
        (cutAtDashes? inner).map (fun cut => cut.2.2) ↔
      ¬ ['}', '}'] <+: inner ∧ ¬ ['-', '}', '}'] <+: inner ∧
        ∀ cut ∈ cutAtDashes? inner, cut.2.1 = false := by
  have hlead : ∀ {mark rest : List Char}, Text.afterLead? mark inner = some rest →
      mark.length < 4 → some rest ≠ (cutAtDashes? inner).map (fun cut => cut.2.2) := by
    intro mark rest hmark hlength hrest
    obtain ⟨cut, hcut, rfl⟩ := Option.map_eq_some_iff.1 hrest.symm
    have hcutlength := length_of_cutAtDashes hcut
    have hinner := congrArg List.length (Text.afterLead?_eq_some_iff.1 hmark)
    rw [List.length_append] at hinner
    omega
  have hnotLead : ∀ {mark : List Char}, Text.afterLead? mark inner = none → ¬ mark <+: inner := by
    rintro mark hnone ⟨rest, hrest⟩
    rw [Text.afterLead?_eq_some_iff.2 hrest.symm] at hnone
    cases hnone
  have hfirst : Text.afterLead? ['-', '-', '}', '}'] ('-' :: '-' :: inner) =
      Text.afterLead? ['}', '}'] inner := by
    simp [Text.afterLead?]
  have hsecond : Text.afterLead? ['-', '-', '}', '}'] ('-' :: inner) =
      Text.afterLead? ['-', '}', '}'] inner := by
    simp [Text.afterLead?]
  rw [Text.cutAt?, hfirst]
  cases hbraces : Text.afterLead? ['}', '}'] inner with
  | some rest =>
    refine ⟨fun hrest => absurd hrest (hlead hbraces (by decide)), fun hnot => ?_⟩
    exact absurd ⟨rest, (Text.afterLead?_eq_some_iff.1 hbraces).symm⟩ hnot.1
  | none =>
    dsimp only
    rw [Text.cutAt?, hsecond]
    cases hdash : Text.afterLead? ['-', '}', '}'] inner with
    | some rest =>
      refine ⟨fun hrest => absurd hrest (hlead hdash (by decide)), fun hnot => ?_⟩
      exact absurd ⟨rest, (Text.afterLead?_eq_some_iff.1 hdash).symm⟩ hnot.2.1
    | none =>
      dsimp only
      rw [Option.map_map, Option.map_map]
      refine (cutAtDashes?_iff inner).trans ?_
      exact ⟨fun hall => ⟨hnotLead hbraces, hnotLead hdash, hall⟩, fun hnot => hnot.2.2⟩

/-! ### All mustaches -/

/-- The mustaches whose end both readers find at one place, by what follows their first two braces.
A long comment ends at dashes to one reader; to the other one it is no comment after a tilde or a
third brace, and no tilde stands at its end. -/
def EndsAlike : List Char → Prop
  | '!' :: '-' :: '-' :: inner =>
    ¬ ['}', '}'] <+: inner ∧ ¬ ['-', '}', '}'] <+: inner ∧
      ∀ cut ∈ cutAtDashes? inner, cut.2.1 = false
  | '!' :: inner =>
    ∀ cut ∈ Text.cutAt? ['}', '}'] inner, ClosesQuotes cut.1
  | body =>
    let braces := bracesOf ('{' :: '{' :: body)
    ∀ inner ∈ Text.afterLead? ['!', '-', '-']
        (leadingTilde (('{' :: '{' :: body).drop braces)).2,
      (cutAtDashes? inner).map (fun cut => cut.2.2) =
        (cutAtClose? (List.replicate braces '}') .outside inner).map Prod.snd

instance (body : List Char) : Decidable (EndsAlike body) := by
  unfold EndsAlike
  split <;> infer_instance

theorem rest_of_append {cs : List Char} (h : ∀ c ∈ cs, c ≠ '}' ∧ c ≠ '"' ∧ c ≠ '\'')
    {braces : Nat} (hbraces : braces ≠ 0) (body : List Char) :
    (cutAtClose? (List.replicate braces '}') .outside (cs ++ body)).map Prod.snd =
      (cutAtClose? (List.replicate braces '}') .outside body).map Prod.snd := by
  cases braces with
  | zero => exact absurd rfl hbraces
  | succ n =>
    rw [List.replicate_succ, unclosed_of_forall h, Option.map_map]
    rfl

theorem rest_of_leadingTilde {braces : Nat} (hbraces : braces ≠ 0) (body : List Char) :
    (cutAtClose? (List.replicate braces '}') .outside (leadingTilde body).2).map Prod.snd =
      (cutAtClose? (List.replicate braces '}') .outside body).map Prod.snd := by
  unfold leadingTilde
  split
  · next rest => exact (@rest_of_append ['~'] (by decide) _ hbraces rest).symm
  · rfl

theorem mustacheRest?_eq_of_not_comment {body : List Char} (h : ∀ inner, body ≠ '!' :: inner) :
    mustacheRest? ('{' :: '{' :: body) =
      (cutAtClose? (List.replicate (bracesOf ('{' :: '{' :: body)) '}') .outside
        (('{' :: '{' :: body).drop (bracesOf ('{' :: '{' :: body)))).map Prod.snd := by
  have hnot : ∀ lead, Text.startsWith ('{' :: '{' :: '!' :: lead) ('{' :: '{' :: body) = false := by
    intro lead
    cases body with
    | nil => rfl
    | cons c cs =>
      have hc : '!' ≠ c := fun heq => h cs (heq ▸ rfl)
      simp [Text.startsWith, Text.afterLead?, hc]
  rw [mustacheRest?, hnot, hnot, bracesOf]
  cases Text.startsWith ['{', '{', '{'] ('{' :: '{' :: body) with
  | true => rfl
  | false => rfl

theorem mustacheRest?_longComment (inner : List Char) :
    mustacheRest? ('{' :: '{' :: '!' :: '-' :: '-' :: inner) =
      (Text.cutAt? ['-', '-', '}', '}'] ('-' :: '-' :: inner)).map Prod.snd := by
  have hstarts : Text.startsWith ['{', '{', '!', '-', '-']
      ('{' :: '{' :: '!' :: '-' :: '-' :: inner) = true := rfl
  rw [mustacheRest?, if_pos hstarts]
  iterate 3
    rw [Text.cutAt?, Text.afterLead?, if_neg (by decide)]
    dsimp only
    rw [Option.map_map]
  rfl

theorem mustacheRest?_shortComment {inner : List Char}
    (h : Text.afterLead? ['-', '-'] inner = none) :
    mustacheRest? ('{' :: '{' :: '!' :: inner) = (Text.cutAt? ['}', '}'] inner).map Prod.snd := by
  have hlong : Text.startsWith ['{', '{', '!', '-', '-'] ('{' :: '{' :: '!' :: inner) =
      false := by
    simpa [Text.startsWith, Text.afterLead?] using h
  have hshort : Text.startsWith ['{', '{', '!'] ('{' :: '{' :: '!' :: inner) = true := rfl
  rw [mustacheRest?, hlong, if_neg Bool.false_ne_true, if_pos hshort]
  iterate 3
    rw [Text.cutAt?, Text.afterLead?, if_neg (by decide)]
    dsimp only
    rw [Option.map_map]
  rfl

theorem Span.restOf?_shortComment {inner : List Char}
    (h : Text.afterLead? ['-', '-'] inner = none) :
    Span.restOf? ('{' :: '{' :: '!' :: inner) =
      (cutAtClose? ['}', '}'] .outside inner).map Prod.snd := by
  have hcomment : Text.afterLead? ['!', '-', '-'] ('!' :: inner) = none := by
    rw [Text.afterLead?, if_pos rfl]
    exact h
  have hpast := @rest_of_append ['!'] (by decide) 2 (by decide) inner
  rw [Span.restOf?_eq]
  change (match Text.afterLead? ['!', '-', '-'] ('!' :: inner) with
    | some inner => _
    | none => _) = _
  rw [hcomment]
  exact hpast

/-- What is no comment to the reader of opening tags may be a long one to the reader of spans. -/
theorem mustacheRest?_eq_restOf?_iff_of_not_comment {body : List Char}
    (h : ∀ inner, body ≠ '!' :: inner) :
    mustacheRest? ('{' :: '{' :: body) = Span.restOf? ('{' :: '{' :: body) ↔
      ∀ inner ∈ Text.afterLead? ['!', '-', '-']
          (leadingTilde (('{' :: '{' :: body).drop (bracesOf ('{' :: '{' :: body)))).2,
        (cutAtDashes? inner).map (fun cut => cut.2.2) =
          (cutAtClose? (List.replicate (bracesOf ('{' :: '{' :: body)) '}') .outside
            inner).map Prod.snd := by
  have hbraces : bracesOf ('{' :: '{' :: body) ≠ 0 := by
    rw [bracesOf]
    split <;> decide
  rw [mustacheRest?_eq_of_not_comment h, Span.restOf?_eq, ← rest_of_leadingTilde hbraces]
  cases hcomment : Text.afterLead? ['!', '-', '-'] (leadingTilde
      (('{' :: '{' :: body).drop (bracesOf ('{' :: '{' :: body)))).2 with
  | none => exact ⟨fun _ => nofun, fun _ => rfl⟩
  | some inner =>
    have hpast := @rest_of_append ['!', '-', '-'] (by decide) _ hbraces inner
    rw [Text.afterLead?_eq_some_iff.1 hcomment, hpast]
    constructor
    · rintro hsame inner ⟨⟩
      exact hsame.symm
    · intro hall
      exact (hall inner rfl).symm

theorem mustacheRest?_eq_restOf?_iff (body : List Char) :
    mustacheRest? ('{' :: '{' :: body) = Span.restOf? ('{' :: '{' :: body) ↔ EndsAlike body := by
  rw [EndsAlike.eq_def]
  split
  · next inner =>
    rw [mustacheRest?_longComment, Span.restOf?_eq]
    exact cutAt?_comment_iff inner
  · next inner hdashes =>
    have hnone : Text.afterLead? ['-', '-'] inner = none := by
      rw [Option.eq_none_iff_forall_ne_some]
      intro rest hrest
      exact hdashes rest (Text.afterLead?_eq_some_iff.1 hrest)
    rw [mustacheRest?_shortComment hnone, Span.restOf?_shortComment hnone]
    exact cutAtClose?_comment_iff inner
  · next hlong hshort => exact mustacheRest?_eq_restOf?_iff_of_not_comment hshort

/-! ### The text of a mustache -/

theorem suffix_of_afterLead? {lead cs rest : List Char} (h : Text.afterLead? lead cs = some rest) :
    rest <:+ cs :=
  ⟨lead, (Text.afterLead?_eq_some_iff.1 h).symm⟩

theorem suffix_of_cutAtDashes? {inner : List Char} {cut : List Char × Bool × List Char}
    (h : cutAtDashes? inner = some cut) : cut.2.2 <:+ inner := by
  induction inner generalizing cut with
  | nil => cases h
  | cons c cs ih =>
    rw [cutAtDashes?] at h
    split at h
    · next hshort =>
      cases h
      exact suffix_of_afterLead? hshort
    · next hlong =>
      cases h
      exact suffix_of_afterLead? hlong
    · obtain ⟨cut', hcut, rfl⟩ := Option.map_eq_some_iff.1 h
      have hsuffix := ih hcut
      exact hsuffix.trans (List.suffix_cons c cs)

theorem suffix_of_cutAtClose? {close cs rest : List Char} {quoting : Quoting}
    (h : (cutAtClose? close quoting cs).map Prod.snd = some rest) : rest <:+ cs := by
  obtain ⟨⟨content, rest⟩, hcut, rfl⟩ := Option.map_eq_some_iff.1 h
  exact ⟨content ++ close, (Span.eq_append_of_cutAtClose? hcut).symm⟩

theorem suffix_of_cutAt? {mark cs rest : List Char}
    (h : (Text.cutAt? mark cs).map Prod.snd = some rest) : rest <:+ cs := by
  obtain ⟨⟨before, rest⟩, hcut, rfl⟩ := Option.map_eq_some_iff.1 h
  exact ⟨before ++ mark, (Text.eq_append_of_cutAt? hcut).symm⟩

theorem leadingTilde_suffix (cs : List Char) : (leadingTilde cs).2 <:+ cs := by
  unfold leadingTilde
  split
  · exact List.suffix_cons _ _
  · exact List.suffix_refl _

theorem Span.suffix_of_restOf? {cs rest : List Char} (h : Span.restOf? cs = some rest) :
    rest <:+ cs.drop (bracesOf cs) := by
  have hbody := leadingTilde_suffix (cs.drop (bracesOf cs))
  rw [Span.restOf?_eq] at h
  split at h
  · next inner hinner =>
    obtain ⟨cut, hcut, rfl⟩ := Option.map_eq_some_iff.1 h
    exact ((suffix_of_cutAtDashes? hcut).trans (suffix_of_afterLead? hinner)).trans hbody
  · exact (suffix_of_cutAtClose? h).trans hbody

theorem drop_bracesOf_suffix (body : List Char) :
    ('{' :: '{' :: body).drop (bracesOf ('{' :: '{' :: body)) <:+ body := by
  rw [bracesOf]
  split
  · exact List.drop_suffix 1 body
  · exact List.suffix_refl body

theorem suffix_of_mustacheRest? {cs rest : List Char} (h : mustacheRest? cs = some rest) :
    rest <:+ cs := by
  rw [mustacheRest?] at h
  split at h
  · exact suffix_of_cutAt? h
  · split at h
    · exact suffix_of_cutAt? h
    · split at h
      · exact (suffix_of_cutAtClose? h).trans (List.drop_suffix _ cs)
      · exact (suffix_of_cutAtClose? h).trans (List.drop_suffix _ cs)

theorem eq_of_take_eq {cs rest rest' : List Char} (h : rest <:+ cs) (h' : rest' <:+ cs)
    (heq : cs.take (cs.length - rest.length) = cs.take (cs.length - rest'.length)) :
    rest = rest' := by
  have hlength := congrArg List.length heq
  have hle := h.length_le
  have hle' := h'.length_le
  simp only [List.length_take] at hlength
  have hsame : rest.length = rest'.length := by omega
  exact (List.suffix_of_suffix_length_le h h' (Nat.le_of_eq hsame)).eq_of_length hsame

/-- The reader of spans and the reader of opening tags cut out the same mustache, or neither does,
exactly in the mustaches of `EndsAlike`. -/
theorem mustacheText_eq_textOf_iff (body : List Char) :
    mustacheText? ('{' :: '{' :: body) = Span.textOf? ('{' :: '{' :: body) ↔ EndsAlike body := by
  rw [← mustacheRest?_eq_restOf?_iff, mustacheText?_eq, Span.textOf?]
  constructor
  · intro htext
    cases hfirst : mustacheRest? ('{' :: '{' :: body) with
    | none =>
      rw [hfirst] at htext
      exact (Option.map_eq_none_iff.1 htext.symm).symm
    | some rest =>
      rw [hfirst] at htext
      obtain ⟨rest', hsecond, htake⟩ := Option.map_eq_some_iff.1 htext.symm
      have hsame := eq_of_take_eq (suffix_of_mustacheRest? hfirst)
        ((Span.suffix_of_restOf? hsecond).trans (List.drop_suffix _ _)) htake.symm
      rw [hsecond, hsame]
  · intro hrest
    rw [hrest]

/-- A tilde at the end of a long comment hides the end from the reader of opening tags. -/
theorem tilde_hides_dashes :
    mustacheText? "\x7b\x7b!-- x --~\x7d\x7d".toList = none ∧
      Span.textOf? "\x7b\x7b!-- x --~\x7d\x7d".toList =
        some "\x7b\x7b!-- x --~\x7d\x7d".toList := by
  decide

end MustacheJsx
