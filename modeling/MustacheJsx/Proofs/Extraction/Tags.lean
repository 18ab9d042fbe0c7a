import Mathlib.Data.List.TakeWhile
import MustacheJsx.Proofs.Extraction.Steps
import MustacheJsx.Proofs.Opening.Lifting

/-!
# Two readers of opening tags

Lifting and the reader of opening tags go through a template in ways of their own. Here the reader
of opening tags is followed from one step of lifting to the next. `Lifting.Step.IsPlain` says at
which steps it does not lose track, and `OpeningTag.all_eq_openingTags` that it finds the tags that
lifting goes through where every step is plain.
-/

namespace MustacheJsx

namespace Lifting

/-! ### Plain steps -/

/-- A step of which the reader of opening tags does not lose track. -/
structure Step.IsPlain (s : Step) : Prop where
  /-- A backslash hides no mustache. -/
  escape : Text.startsWith ['\\', '{', '{'] s.source = false
  ends : ∀ body ∈ Text.afterLead? ['{', '{'] s.source, EndsAlike body
  /-- The name of a tag does not look like an attribute. -/
  name : ∀ open_ ∈ s.after.tag,
    '"' ∉ open_.name ∧ '\'' ∉ open_.name ∧ open_.name.getLast? ≠ some '='
  /-- A mustache is not a part of a value without quotes. -/
  mustache : Text.startsWith ['{', '{'] s.source →
    ∀ open_ ∈ s.before.tag, open_.position ≠ .unquoted
  /-- No comment stands before a value. -/
  comment : Text.startsWith ['{', '{'] s.source →
    ∀ open_ ∈ s.after.tag, open_.position ≠ .afterEquals
  /-- Quotes stand around values alone. -/
  quote : ∀ c ∈ s.source.head?, c = '"' ∨ c = '\'' →
    ∀ open_ ∈ s.before.tag, open_.position ≠ .none ∧ open_.position ≠ .unquoted
  blank : ∀ c ∈ s.source.head?, Text.isBlank c →
    ∀ open_ ∈ s.before.tag, open_.position = .afterEquals → Text.isAsciiBlank c

instance (s : Step) : Decidable s.IsPlain :=
  decidable_of_iff
    (Text.startsWith ['\\', '{', '{'] s.source = false ∧
      (∀ body ∈ Text.afterLead? ['{', '{'] s.source, EndsAlike body) ∧
      (∀ open_ ∈ s.after.tag,
        '"' ∉ open_.name ∧ '\'' ∉ open_.name ∧ open_.name.getLast? ≠ some '=') ∧
      (Text.startsWith ['{', '{'] s.source → ∀ open_ ∈ s.before.tag, open_.position ≠ .unquoted) ∧
      (Text.startsWith ['{', '{'] s.source → ∀ open_ ∈ s.after.tag, open_.position ≠ .afterEquals) ∧
      (∀ c ∈ s.source.head?, c = '"' ∨ c = '\'' →
        ∀ open_ ∈ s.before.tag, open_.position ≠ .none ∧ open_.position ≠ .unquoted) ∧
      (∀ c ∈ s.source.head?, Text.isBlank c →
        ∀ open_ ∈ s.before.tag, open_.position = .afterEquals → Text.isAsciiBlank c))
    ⟨fun ⟨h₁, h₂, h₃, h₄, h₅, h₆, h₇⟩ => ⟨h₁, h₂, h₃, h₄, h₅, h₆, h₇⟩,
      fun ⟨h₁, h₂, h₃, h₄, h₅, h₆, h₇⟩ => ⟨h₁, h₂, h₃, h₄, h₅, h₆, h₇⟩⟩

end Lifting

/-! ### Inside a tag -/

namespace OpeningTag

open Lifting (Step BeginsTag stepMustache_cases)

/-- What the reader of opening tags knows where lifting is at a position: the open quote, and the
last character that is not blank. -/
def Matches (quote : Option Char) (last : Char) : ValuePosition → Prop
  | .none | .unquoted => quote = none ∧ last ≠ '='
  | .afterEquals => quote = none ∧ last = '='
  | .quoted q => quote = some q ∧ (q = '"' ∨ q = '\'')

variable {quote : Option Char} {last : Char} {offset : Nat}

def prepend (found : List TagMustache) (read : List TagMustache × List Char) :
    List TagMustache × List Char :=
  (found ++ read.1, read.2)

theorem scan_append (text rest : List Char) :
    scan quote last offset text.length (text ++ rest) =
      scan quote last (offset + Text.utf8Length text) 0 rest := by
  induction text generalizing offset with
  | nil => rfl
  | cons c cs ih =>
    rw [List.length_cons, List.cons_append, scan, ih, Text.utf8Length, Nat.add_assoc]

theorem scan_plain {c : Char} {cs : List Char} (hbraces : ¬ ['{', '{'] <+: c :: cs)
    (hend : ¬ (quote = none ∧ c = '>')) :
    scan quote last offset 0 (c :: cs) =
      scan (quoteAfter c quote) (if Text.isAsciiBlank c then last else c) (offset + c.utf8Size) 0
        cs := by
  have hstarts : ¬ Text.startsWith ['{', '{'] (c :: cs) = true := by
    intro hstarts
    exact hbraces (Text.startsWith_iff.1 hstarts)
  rw [scan, if_neg hstarts, if_neg hend]

theorem scan_end {cs : List Char} : scan none last offset 0 ('>' :: cs) = some ([], cs) := rfl

theorem scan_mustache {body rest : List Char} {text : List Char}
    (htext : mustacheText? ('{' :: '{' :: body) = some text)
    (hrest : text ++ rest = '{' :: '{' :: body) (hne : text ≠ []) :
    scan quote last offset 0 ('{' :: '{' :: body) =
      (scan quote '}' (offset + Text.utf8Length text) 0 rest).map
        (prepend [{ start := offset, text, inValue := quote.isSome || last == '=' }]) := by
  obtain ⟨c, text, rfl⟩ := List.exists_cons_of_ne_nil hne
  obtain rfl := (List.cons.inj hrest).1
  have hmore : text ++ rest = '{' :: body := (List.cons.inj hrest).2
  have hstarts : Text.startsWith ['{', '{'] ('{' :: '{' :: body) = true := rfl
  rw [scan, if_pos hstarts, htext]
  dsimp only
  rw [List.length_cons, Nat.add_sub_cancel, ← hmore, scan_append, Nat.add_assoc]
  rfl

theorem mustacheText?_of_read {body : List Char} {span : Span}
    (hspan : Span.read ('{' :: '{' :: body) = .ok span) (hends : EndsAlike body) :
    mustacheText? ('{' :: '{' :: body) =
      some (('{' :: '{' :: body).take (('{' :: '{' :: body).length - span.rest.length)) := by
  rw [(mustacheText_eq_textOf_iff body).2 hends, Span.textOf?, Span.restOf?, hspan]
  rfl

/-- After a step inside a tag, both readers are inside it still. -/
def Continues (quote : Option Char) (last : Char) (s : Step) : Prop :=
  ∃ next quote' last', s.after.tag = some next ∧ Matches quote' last' next.position ∧
    ∀ start, scan quote last (s.offset - start) 0 s.source =
      (scan quote' last' (s.offset - start + Text.utf8Length s.text) 0 s.rest).map
        (prepend (s.mustache? start).toList)

/-- After a step inside a tag, both readers are at its end. -/
def Closes (quote : Option Char) (last : Char) (s : Step) : Prop :=
  s.after.tag = none ∧ (∀ start, s.mustache? start = none) ∧
    ∀ offset, scan quote last offset 0 s.source = some ([], s.rest)

variable {marker : Char} {s : Step} {open_ : OpenTag}

theorem Matches.inValue {position : ValuePosition} (h : Matches quote last position)
    (hunquoted : position ≠ .unquoted) :
    (quote.isSome || last == '=') = decide (position ≠ .none) := by
  cases position with
  | none => simp [h.1, h.2]
  | afterEquals => simp [h.2]
  | unquoted => exact absurd rfl hunquoted
  | quoted q => simp [h.1]

theorem Matches.after_mustache {before after : ValuePosition} (h : Matches quote last before)
    (hunquoted : before ≠ .unquoted) (hequals : after ≠ .afterEquals)
    (hafter : after = before ∨ before = .afterEquals ∧ after = .none) :
    Matches quote '}' after := by
  rcases hafter with rfl | ⟨rfl, rfl⟩
  · cases after with
    | none => exact ⟨h.1, by decide⟩
    | afterEquals => exact absurd rfl hequals
    | unquoted => exact absurd rfl hunquoted
    | quoted q => exact h
  · exact ⟨h.1, by decide⟩

theorem continues_of_mustache {body : List Char} (hs : s.IsStep marker) (hplain : s.IsPlain)
    (hbefore : s.before.tag = some open_) (hmatches : Matches quote last open_.position)
    (hsource : s.source = '{' :: '{' :: body) : Continues quote last s := by
  obtain ⟨c, cs, hcons, hstep⟩ := hs
  rw [hsource] at hcons
  cases hcons
  have hstarts : Text.startsWith ['{', '{'] s.source = true := by
    rw [hsource]
    rfl
  obtain ⟨span, tag, next, hspan, -, -, hopened⟩ := stepMustache_cases (show
    Lifting.stepMustache marker s.before ('{' :: '{' :: body) s.offset = _ from hstep)
  obtain ⟨hwritten, hcount⟩ := hopened open_ hbefore
  obtain ⟨after, hafter, hposition⟩ := Lifting.position_of_writeInTag
    (show ({ s.before with next } : Lifting).tag = some open_ from hbefore) hwritten
  have hends : EndsAlike body := hplain.ends body (by rw [hsource]; rfl)
  have htext := mustacheText?_of_read hspan hends
  have htake : s.text = ('{' :: '{' :: body).take
      (('{' :: '{' :: body).length - span.rest.length) := by
    rw [← hcount, ← hsource, Step.source, List.take_left]
  rw [← htake] at htext
  have hne : s.text ≠ [] := by
    intro hnil
    have hle := Lifting.length_rest_le hspan
    rw [hnil] at hcount
    simp only [List.length_nil, List.length_cons] at hcount
    omega
  have hunquoted := hplain.mustache hstarts open_ hbefore
  have hequals := hplain.comment hstarts after hafter
  refine ⟨after, quote, '}', hafter, hmatches.after_mustache hunquoted hequals hposition,
    fun start => ?_⟩
  have hvalue : (quote.isSome || last == '=') =
      s.before.tag.any fun open_ => open_.position ≠ .none := by
    rw [hbefore, Option.any_some]
    exact hmatches.inValue hunquoted
  rw [Step.mustache?, if_pos hstarts, hsource, scan_mustache htext hsource hne, hvalue]
  rfl

/-- What a character outside quotes does that neither ends the tag nor begins a mustache. -/
theorem matches_after {c : Char} {position : ValuePosition} (hmatches : Matches none last position)
    (hquote : c = '"' ∨ c = '\'' → position = .afterEquals)
    (hblank : Text.isBlank c → position = .afterEquals → Text.isAsciiBlank c) :
    Matches (quoteAfter c none) (if Text.isAsciiBlank c then last else c)
      (position.after c) := by
  have hlast : ∀ d, last ≠ d → c ≠ d → (if Text.isAsciiBlank c then last else c) ≠ d := by
    intro d hl hc
    split
    · exact hl
    · exact hc
  by_cases hmark : c = '"' ∨ c = '\''
  · rw [quoteAfter, if_pos hmark, hquote hmark, ValuePosition.after, if_pos hmark]
    exact ⟨rfl, hmark⟩
  · rw [quoteAfter, if_neg hmark]
    by_cases hequals : c = '='
    · have hposition : position.after c = .afterEquals := by
        cases position with
        | afterEquals => rw [ValuePosition.after, if_neg hmark, if_pos (.inl hequals)]
        | _ => exact if_pos hequals
      rw [hposition, hequals]
      exact ⟨rfl, rfl⟩
    · cases position with
      | none =>
        have hposition : ValuePosition.none.after c = .none := if_neg hequals
        rw [hposition]
        exact ⟨rfl, hlast '=' hmatches.2 hequals⟩
      | unquoted =>
        rw [ValuePosition.after, if_neg hequals]
        by_cases hb : Text.isBlank c
        · rw [if_pos hb]
          exact ⟨rfl, hlast '=' hmatches.2 hequals⟩
        · rw [if_neg hb]
          exact ⟨rfl, hlast '=' hmatches.2 hequals⟩
      | afterEquals =>
        rw [ValuePosition.after, if_neg hmark]
        by_cases hb : Text.isBlank c
        · have hstays : c = '=' ∨ Text.isBlank c = true := .inr hb
          rw [if_pos hstays, if_pos (hblank hb rfl)]
          exact hmatches
        · rw [if_neg (not_or.2 ⟨hequals, hb⟩), if_neg fun h => hb (Text.isBlank_of_isAsciiBlank h)]
          exact ⟨rfl, hequals⟩
      | quoted q => cases hmatches.1

theorem quote_eq_none {position : ValuePosition} (hmatches : Matches quote last position)
    (h : ∀ q, position ≠ .quoted q) : quote = none := by
  cases position with
  | quoted q => exact absurd rfl (h q)
  | _ => exact hmatches.1

theorem mustache?_eq_none (hbegins : ¬ BeginsTag s.source) (start : Nat) :
    s.mustache? start = none := by
  rw [Step.mustache?, if_neg]
  intro hstarts
  exact hbegins (.inl (Text.startsWith_iff.1 hstarts))

theorem eq_of_length {text rest : List Char} (hsource : s.source = text ++ rest)
    (hlength : s.text.length = text.length) : s.text = text ∧ s.rest = rest :=
  List.append_inj hsource hlength

theorem continues_of_plain {c : Char} {cs : List Char} {next : OpenTag}
    (hbegins : ¬ BeginsTag s.source) (hsource : s.source = c :: cs)
    (hstep : s.after.tag = some next ∧ s.text.length = 1) (hend : ¬ (quote = none ∧ c = '>'))
    (hmatches : Matches (quoteAfter c quote) (if Text.isAsciiBlank c then last else c)
      next.position) : Continues quote last s := by
  obtain ⟨htext, hrest⟩ := @eq_of_length s [c] cs hsource hstep.2
  refine ⟨next, _, _, hstep.1, hmatches, fun start => ?_⟩
  rw [mustache?_eq_none hbegins, hsource,
    scan_plain (fun h => hbegins (.inl (hsource ▸ h))) hend, htext, hrest]
  exact Option.map_id'.symm

theorem continues_of_quoted {c q : Char} {cs : List Char} (hbegins : ¬ BeginsTag s.source)
    (hsource : s.source = c :: cs) (hstep : s.before.stepTag open_ c cs = (s.after, s.text.length))
    (hopen : open_.position = .quoted q) (hmatches : Matches quote last (.quoted q)) :
    Continues quote last s := by
  obtain ⟨rfl, hq⟩ := hmatches
  obtain ⟨hafter, hlength⟩ :=
    Prod.mk.inj ((Lifting.stepTag_quoted s.before c cs hopen).symm.trans hstep)
  refine continues_of_plain hbegins hsource ⟨by rw [← hafter], hlength.symm⟩ nofun ?_
  by_cases hc : c = q
  · subst hc
    have hascii : Text.isAsciiBlank c = false := by rcases hq with rfl | rfl <;> decide
    rw [quoteAfter, if_pos rfl, if_pos rfl, hascii, if_neg Bool.false_ne_true]
    exact ⟨rfl, by rcases hq with rfl | rfl <;> decide⟩
  · rw [quoteAfter, if_neg hc, if_neg hc]
    exact ⟨rfl, hq⟩

/-- Outside quotes a character may end the tag, and may open quotes only before a value. -/
theorem advances_of_outside {c : Char} {cs : List Char} (hbegins : ¬ BeginsTag s.source)
    (hsource : s.source = c :: cs) (hstep : s.before.stepTag open_ c cs = (s.after, s.text.length))
    (hopen : ∀ q, open_.position ≠ .quoted q) (hmatches : Matches quote last open_.position)
    (hquote : c = '"' ∨ c = '\'' → open_.position = .afterEquals)
    (hblank : Text.isBlank c → open_.position = .afterEquals → Text.isAsciiBlank c) :
    Continues quote last s ∨ Closes quote last s := by
  obtain rfl := quote_eq_none hmatches hopen
  by_cases hend : c = '>'
  · subst hend
    obtain ⟨hafter, hlength⟩ :=
      Prod.mk.inj ((Lifting.stepTag_greater s.before cs hopen).symm.trans hstep)
    obtain ⟨-, hrest⟩ := @eq_of_length s ['>'] cs hsource hlength.symm
    refine .inr ⟨by rw [← hafter], mustache?_eq_none hbegins, fun offset => ?_⟩
    rw [hsource, hrest]
    exact scan_end
  · by_cases hslash : c = '/' ∧ cs.head? = some '>'
    · obtain ⟨rfl, hnext⟩ := hslash
      obtain ⟨rest, rfl⟩ := List.head?_eq_some_iff.1 hnext
      obtain ⟨hafter, hlength⟩ :=
        Prod.mk.inj ((Lifting.stepTag_slash s.before rest hopen).symm.trans hstep)
      obtain ⟨-, hrest⟩ := @eq_of_length s ['/', '>'] rest hsource hlength.symm
      refine .inr ⟨by rw [← hafter], mustache?_eq_none hbegins, fun offset => ?_⟩
      rw [hsource, hrest, scan_plain (fun h => hbegins (.inl (hsource ▸ h))) (by simp)]
      exact scan_end
    · have houtside := Lifting.stepTag_outside s.before hopen hend fun hc hhead =>
        hslash ⟨hc, hhead⟩
      obtain ⟨hafter, hlength⟩ := Prod.mk.inj (houtside.symm.trans hstep)
      refine .inl (continues_of_plain hbegins hsource ⟨by rw [← hafter], hlength.symm⟩
        (fun h => hend h.2) ?_)
      rw [Lifting.position_after]
      exact matches_after hmatches hquote hblank

theorem advances (hs : s.IsStep marker) (hplain : s.IsPlain) (hbefore : s.before.tag = some open_)
    (hmatches : Matches quote last open_.position) :
    Continues quote last s ∨ Closes quote last s := by
  by_cases hbegins : BeginsTag s.source
  · rcases hbegins with ⟨body, hbody⟩ | ⟨body, hbody⟩
    · exact .inl (continues_of_mustache hs hplain hbefore hmatches hbody.symm)
    · have hescape := hplain.escape
      rw [← hbody] at hescape
      cases hescape
  · obtain ⟨c, cs, hsource, hstep⟩ := hs
    rw [Lifting.step_of_not_beginsTag (hsource ▸ hbegins), Lifting.stepPlain, hbefore] at hstep
    have hstep : s.before.stepTag open_ c cs = (s.after, s.text.length) := Except.ok.inj hstep
    have hhead : s.source.head? = some c := by rw [hsource]; rfl
    cases hopen : open_.position with
    | quoted q =>
      rw [hopen] at hmatches
      exact .inl (continues_of_quoted hbegins hsource hstep hopen hmatches)
    | afterEquals =>
      refine advances_of_outside hbegins hsource hstep (by simp [hopen]) hmatches
        (fun _ => hopen) fun hblank => hplain.blank c hhead hblank open_ hbefore
    | none =>
      refine advances_of_outside hbegins hsource hstep (by simp [hopen]) hmatches
        (fun hquote => absurd hopen (hplain.quote c hhead hquote open_ hbefore).1) ?_
      rw [hopen]
      intro _ heq
      cases heq
    | unquoted =>
      refine advances_of_outside hbegins hsource hstep (by simp [hopen]) hmatches
        (fun hquote => absurd hopen (hplain.quote c hhead hquote open_ hbefore).2) ?_
      rw [hopen]
      intro _ heq
      cases heq

/-! ### Between tags -/

theorem allFrom_append (text rest : List Char) :
    allFrom offset text.length (text ++ rest) =
      allFrom (offset + Text.utf8Length text) 0 rest := by
  induction text generalizing offset with
  | nil => rfl
  | cons c cs ih =>
    rw [List.length_cons, List.cons_append, allFrom, ih, Text.utf8Length, Nat.add_assoc]

theorem allFrom_pass {c : Char} {cs text rest : List Char} (hsplit : c :: cs = text ++ rest)
    (hne : text ≠ []) (hpass : landmark offset c cs = .pass text.length) :
    allFrom offset 0 (c :: cs) = allFrom (offset + Text.utf8Length text) 0 rest := by
  obtain ⟨d, text, rfl⟩ := List.exists_cons_of_ne_nil hne
  obtain rfl := (List.cons.inj hsplit).1
  have hmore : cs = text ++ rest := (List.cons.inj hsplit).2
  rw [allFrom, hpass]
  dsimp only
  rw [List.length_cons, Nat.add_sub_cancel, hmore, allFrom_append, Text.utf8Length, Nat.add_assoc]

/-- What the reader of opening tags lists from the inside of `opened` on. -/
def resume (quote : Option Char) (last : Char) (opened : OpeningTag) (cs : List Char) :
    List OpeningTag :=
  match scan quote last (Text.utf8Length opened.text) 0 cs with
  | none => []
  | some (mustaches, rest) =>
    let tag : OpeningTag :=
      { opened with
        text := opened.text ++ cs.take (cs.length - rest.length)
        mustaches := opened.mustaches ++ mustaches }
    tag :: allFrom tag.stop 0 rest

theorem suffix_of_scan {cs rest : List Char} {mustaches : List TagMustache} {skip : Nat}
    (h : scan quote last offset skip cs = some (mustaches, rest)) : rest <:+ cs := by
  induction cs generalizing quote last offset skip mustaches with
  | nil => cases h
  | cons c cs ih =>
    cases skip with
    | succ skip => exact (ih h).trans (List.suffix_cons c cs)
    | zero =>
      rw [scan] at h
      split at h
      · split at h
        · cases h
        · obtain ⟨found, hfound, heq⟩ := Option.map_eq_some_iff.1 h
          cases heq
          exact (ih hfound).trans (List.suffix_cons c cs)
      · split at h
        · cases h
          exact List.suffix_cons c _
        · exact (ih h).trans (List.suffix_cons c cs)

variable {opened : OpeningTag}

theorem resume_append {quote' : Option Char} {last' : Char} {text rest : List Char}
    {found : List TagMustache}
    (hscan : scan quote last (Text.utf8Length opened.text) 0 (text ++ rest) =
      (scan quote' last' (Text.utf8Length (opened.text ++ text)) 0 rest).map (prepend found)) :
    resume quote last opened (text ++ rest) =
      resume quote' last'
        { opened with
          text := opened.text ++ text
          mustaches := opened.mustaches ++ found } rest := by
  rw [resume, hscan, resume]
  cases hrest : scan quote' last' (Text.utf8Length (opened.text ++ text)) 0 rest with
  | none => rfl
  | some read =>
    have htake : (text ++ rest).take ((text ++ rest).length - read.2.length) =
        text ++ rest.take (rest.length - read.2.length) := by
      rw [List.length_append, Nat.add_sub_assoc (suffix_of_scan hrest).length_le,
        List.take_length_add_append]
    dsimp only [Option.map_some, prepend]
    rw [htake]
    simp only [List.append_assoc]

theorem resume_of_continues {quote' : Option Char} {last' : Char} (hstop : opened.stop = s.offset)
    (hscan : ∀ start, scan quote last (s.offset - start) 0 s.source =
      (scan quote' last' (s.offset - start + Text.utf8Length s.text) 0 s.rest).map
        (prepend (s.mustache? start).toList)) :
    resume quote last opened s.source = resume quote' last' (s.extend opened) s.rest := by
  have hscan := hscan opened.start
  rw [← hstop, stop, Nat.add_sub_cancel_left, ← Text.utf8Length_append] at hscan
  exact resume_append hscan

theorem resume_of_closes (hmustache : ∀ start, s.mustache? start = none)
    (hscan : ∀ offset, scan quote last offset 0 s.source = some ([], s.rest)) :
    resume quote last opened s.source =
      s.extend opened :: allFrom (s.extend opened).stop 0 s.rest := by
  have htake : s.source.take (s.source.length - s.rest.length) = s.text := by
    rw [Step.source, List.length_append, Nat.add_sub_cancel, List.take_left]
  have hextend : s.extend opened =
      { opened with text := opened.text ++ s.text, mustaches := opened.mustaches ++ [] } := by
    rw [Step.extend, hmustache]
    rfl
  rw [resume, hscan]
  dsimp only
  rw [htake, hextend]

theorem scan_name {name rest : List Char} (hends : ∀ c ∈ name, Lifting.endsTagName c = false)
    (hquotes : ∀ c ∈ name, c ≠ '"' ∧ c ≠ '\'') :
    scan none last offset 0 (name ++ rest) =
      scan none (name.getLast?.getD last) (offset + Text.utf8Length name) 0 rest := by
  induction name generalizing last offset with
  | nil => rfl
  | cons c cs ih =>
    have hc := hends c List.mem_cons_self
    simp only [Lifting.endsTagName, Bool.or_eq_false_iff, beq_eq_false_iff_ne] at hc
    obtain ⟨⟨⟨hblank, -⟩, hgreater⟩, hbrace⟩ := hc
    have hascii : ¬ Text.isAsciiBlank c = true := by
      intro h
      rw [Text.isBlank_of_isAsciiBlank h] at hblank
      cases hblank
    have hquote : quoteAfter c none = none :=
      if_neg (not_or.2 (hquotes c List.mem_cons_self))
    rw [List.cons_append, scan_plain, hquote, if_neg hascii, ih, Text.utf8Length, Nat.add_assoc,
      List.getLast?_cons]
    · rfl
    · exact fun d hd => hends d (List.mem_cons_of_mem c hd)
    · exact fun d hd => hquotes d (List.mem_cons_of_mem c hd)
    · rintro ⟨tail, heq⟩
      exact hbrace (List.cons.inj heq).1.symm
    · exact fun h => hgreater h.2

theorem allFrom_open {cs : List Char}
    (hcomment : Text.startsWith ['<', '!', '-', '-'] ('<' :: cs) = false)
    (hopens : mayOpen cs = true) :
    allFrom offset 0 ('<' :: cs) =
      resume none '<' { start := offset, text := ['<'], mustaches := [] } cs := by
  have hbraces : Text.startsWith ['{', '{'] ('<' :: cs) = false := rfl
  rw [allFrom, landmark, hcomment, hbraces, if_neg Bool.false_ne_true, if_neg Bool.false_ne_true,
    if_pos ⟨rfl, hopens⟩, at?, resume]
  rw [show ('<' :: cs).drop 1 = cs from rfl, show Text.utf8Length ['<'] = 1 from rfl]
  cases hscan : scan none '<' 1 0 cs with
  | none => rfl
  | some found =>
    obtain ⟨mustaches, rest⟩ := found
    obtain ⟨text, rfl⟩ := suffix_of_scan hscan
    have htake : ∀ cs : List Char, (cs ++ rest).take ((cs ++ rest).length - rest.length) = cs := by
      intro cs
      rw [List.length_append, Nat.add_sub_cancel, List.take_left]
    have htag := htake ('<' :: text)
    rw [List.cons_append] at htag
    dsimp only
    rw [htake, htag, List.length_cons, Nat.add_sub_cancel, allFrom_append, stop, Nat.add_assoc]
    rfl

theorem landmark_of_blank {c : Char} (hc : Text.isBlank c = true) (cs : List Char) :
    landmark offset c cs = .pass 1 := by
  have hless : c ≠ '<' := by
    rintro rfl
    cases hc
  have hbrace : c ≠ '{' := by
    rintro rfl
    cases hc
  simp [landmark, Text.startsWith, Text.afterLead?, hless, hless.symm, hbrace.symm]

theorem allFrom_blanks {blanks rest : List Char} (h : ∀ c ∈ blanks, Text.isBlank c = true) :
    allFrom offset 0 (blanks ++ rest) = allFrom (offset + Text.utf8Length blanks) 0 rest := by
  induction blanks generalizing offset with
  | nil => rfl
  | cons c cs ih =>
    have hpass := @allFrom_pass offset c (cs ++ rest) [c] (cs ++ rest) rfl nofun
      (landmark_of_blank (h c List.mem_cons_self) _)
    rw [List.cons_append, hpass, ih fun d hd => h d (List.mem_cons_of_mem c hd),
      Text.utf8Length, Text.utf8Length, Nat.add_assoc]
    rfl

theorem allFrom_mustache {body : List Char} (hs : s.IsStep marker) (hplain : s.IsPlain)
    (hbefore : s.before.tag = none) (hsource : s.source = '{' :: '{' :: body) :
    s.after.tag = none ∧
      allFrom s.offset 0 s.source = allFrom (s.offset + Text.utf8Length s.text) 0 s.rest := by
  obtain ⟨c, cs, hcons, hstep⟩ := hs
  rw [hsource] at hcons
  cases hcons
  obtain ⟨span, tag, next, hspan, -, htext, -⟩ := stepMustache_cases (show
    Lifting.stepMustache marker s.before ('{' :: '{' :: body) s.offset = _ from hstep)
  obtain ⟨hwritten, hcount⟩ := htext hbefore
  have hends : EndsAlike body := hplain.ends body (by rw [hsource]; rfl)
  have htext := mustacheText?_of_read hspan hends
  have hrest : Span.restOf? ('{' :: '{' :: body) = some span.rest := by
    rw [Span.restOf?, hspan]
    rfl
  obtain ⟨text, hbody⟩ := (Span.suffix_of_restOf? hrest).trans (drop_bracesOf_suffix body)
  have hsplit : '{' :: '{' :: body = ('{' :: '{' :: text) ++ span.rest := by
    rw [List.cons_append, List.cons_append, hbody]
  have htake : ('{' :: '{' :: body).take (('{' :: '{' :: body).length - span.rest.length) =
      '{' :: '{' :: text := by
    rw [hsplit, List.length_append, Nat.add_sub_cancel, List.take_left]
  rw [htake] at htext
  have hpass : landmark s.offset '{' ('{' :: body) = .pass ('{' :: '{' :: text).length := by
    have hcomment : Text.startsWith ['<', '!', '-', '-'] ('{' :: '{' :: body) = false := rfl
    have hbraces : Text.startsWith ['{', '{'] ('{' :: '{' :: body) = true := rfl
    rw [landmark, hcomment, hbraces, if_neg Bool.false_ne_true, if_pos rfl, htext]
  refine ⟨(Lifting.tag_of_writeInText hwritten).trans hbefore, ?_⟩
  rw [hsource, allFrom_pass hsplit (List.cons_ne_nil _ _) hpass]
  have hread : ∀ blanks rest, span.rest = blanks ++ rest →
      (∀ c ∈ blanks, Text.isBlank c = true) →
      s.text.length = ('{' :: '{' :: body).length - rest.length →
      allFrom (s.offset + Text.utf8Length ('{' :: '{' :: text)) 0 span.rest =
        allFrom (s.offset + Text.utf8Length s.text) 0 s.rest := by
    intro blanks rest hblanks hall hlength
    have hwhole : s.source = (('{' :: '{' :: text) ++ blanks) ++ rest := by
      rw [hsource, hsplit, hblanks, List.append_assoc]
    have hcounted : s.text.length = (('{' :: '{' :: text) ++ blanks).length := by
      rw [hlength, hsplit, hblanks, ← List.append_assoc, List.length_append, Nat.add_sub_cancel]
    obtain ⟨htext, hrest⟩ := eq_of_length hwhole hcounted
    rw [htext, hrest, hblanks, allFrom_blanks hall, Text.utf8Length_append, Nat.add_assoc]
  cases hstrip : span.stripRight with
  | false =>
    rw [hstrip] at hcount
    exact hread [] span.rest rfl (fun c hc => by cases hc) hcount
  | true =>
    rw [hstrip] at hcount
    exact hread _ (Text.trimStart span.rest) List.takeWhile_append_dropWhile.symm
      (fun c hc => List.mem_takeWhile_imp hc) hcount

theorem stepText_eq (st : Lifting) (c : Char) (cs : List Char) :
    st.stepText c cs =
      if Text.startsWith ['<', '!', '-', '-'] (c :: cs) then
        match Text.cutAt? ['-', '-', '>'] (c :: cs) with
        | some (before, _) => (st.write (before ++ ['-', '-', '>']), before.length + 3)
        | none => (st.write (c :: cs), cs.length + 1)
      else if c = '<' ∧ mayOpen cs then st.openTag cs
      else (st.write [c], 1) := by
  have hmark : "<!--".toList = ['<', '!', '-', '-'] := rfl
  have hend : "-->".toList = ['-', '-', '>'] := rfl
  rw [Lifting.stepText.eq_def, Text.startsWith, hmark, hend]
  cases hlead : Text.afterLead? ['<', '!', '-', '-'] (c :: cs) with
  | some after => rfl
  | none =>
    rw [Option.isSome_none, if_neg Bool.false_ne_true]
    by_cases hless : c = '<'
    · subst hless
      cases cs with
      | nil => rfl
      | cons d ds =>
        show (if Text.isAsciiLetter d then _ else _) = _
        simp only [mayOpen, List.head?_cons, Option.any_some, true_and]
    · rw [if_neg fun h => hless h.1]
      split
      · next heq => cases heq
      · exact absurd rfl hless
      · rfl

/-- A comment is passed over as a whole. One that does not end hides all that follows it. -/
theorem allFrom_comment {c : Char} {cs : List Char} (hsource : s.source = c :: cs)
    (hstarts : Text.startsWith ['<', '!', '-', '-'] (c :: cs) = true)
    (hstep : s.before.stepText c cs = (s.after, s.text.length)) :
    s.after.tag = s.before.tag ∧
      allFrom s.offset 0 s.source = allFrom (s.offset + Text.utf8Length s.text) 0 s.rest := by
  rw [stepText_eq, if_pos hstarts] at hstep
  cases hcut : Text.cutAt? ['-', '-', '>'] (c :: cs) with
  | none =>
    rw [hcut] at hstep
    obtain ⟨hafter, hlength⟩ := Prod.mk.inj hstep
    have hwhole : s.source = (c :: cs) ++ [] := hsource.trans (List.append_nil _).symm
    obtain ⟨-, hrest⟩ := eq_of_length hwhole hlength.symm
    refine ⟨by rw [← hafter]; rfl, ?_⟩
    have hhides : allFrom s.offset 0 (c :: cs) = [] := by
      rw [allFrom, landmark, if_pos hstarts, hcut]
    rw [hsource, hrest, hhides, allFrom]
  | some cut =>
    obtain ⟨before, rest⟩ := cut
    rw [hcut] at hstep
    obtain ⟨hafter, hlength⟩ := Prod.mk.inj hstep
    have hsplit := Text.eq_append_of_cutAt? hcut
    have hcount : (before ++ ['-', '-', '>']).length = before.length + 3 := List.length_append
    obtain ⟨htext, hrest⟩ := eq_of_length (hsource.trans hsplit) (hlength.symm.trans hcount.symm)
    refine ⟨by rw [← hafter]; rfl, ?_⟩
    rw [htext, hrest, hsource]
    refine allFrom_pass hsplit (by simp) ?_
    rw [landmark, if_pos hstarts, hcut, hcount]

theorem resume_of_openTag {cs : List Char} (hsource : s.source = '<' :: cs)
    (hstep : s.before.openTag cs = (s.after, s.text.length)) (hplain : s.IsPlain)
    (hstarts : Text.startsWith ['<', '!', '-', '-'] ('<' :: cs) = false)
    (hopens : mayOpen cs = true) :
    ∃ open_ last, s.after.tag = some open_ ∧ Matches none last open_.position ∧
      allFrom s.offset 0 s.source = resume none last s.begun s.rest := by
  obtain ⟨hafter, hlength⟩ := Prod.mk.inj hstep
  generalize hname : (cs.takeWhile fun c => !Lifting.endsTagName c) = name at hafter hlength
  have hcs : cs = name ++ cs.dropWhile fun c => !Lifting.endsTagName c := by
    rw [← hname, List.takeWhile_append_dropWhile]
  have hwhole : s.source = ('<' :: name) ++ cs.dropWhile fun c => !Lifting.endsTagName c := by
    rw [hsource, List.cons_append, ← hcs]
  obtain ⟨htext, hrest⟩ := eq_of_length hwhole hlength.symm
  have htag : s.after.tag = some { name, position := .none, key := [], cased := [] } := by
    rw [← hafter]
  have hends : ∀ c ∈ name, Lifting.endsTagName c = false := by
    intro c hc
    rw [← hname] at hc
    simpa using List.mem_takeWhile_imp hc
  obtain ⟨hdouble, hsingle, hequals⟩ := hplain.name _ htag
  have hquotes : ∀ c ∈ name, c ≠ '"' ∧ c ≠ '\'' :=
    fun c hc => ⟨fun h => hdouble (h ▸ hc), fun h => hsingle (h ▸ hc)⟩
  have hlast : name.getLast?.getD '<' ≠ '=' := by
    cases hget : name.getLast? with
    | none => decide
    | some c =>
      rintro rfl
      exact hequals hget
  have hscan := @scan_name '<' 1 name s.rest hends hquotes
  refine ⟨_, _, htag, ⟨rfl, hlast⟩, ?_⟩
  rw [hsource, allFrom_open hstarts hopens, hcs, ← hrest, Step.begun, htext]
  refine resume_append ?_
  rw [Text.utf8Length_append, Text.utf8Length, Text.utf8Length]
  exact hscan.trans Option.map_id'.symm

/-- A step between tags passes over what the reader of opening tags passes over, or begins a tag. -/
theorem allFrom_step (hs : s.IsStep marker) (hplain : s.IsPlain) (hbefore : s.before.tag = none) :
    (s.after.tag = none ∧
      allFrom s.offset 0 s.source = allFrom (s.offset + Text.utf8Length s.text) 0 s.rest) ∨
    ∃ open_ last, s.after.tag = some open_ ∧ Matches none last open_.position ∧
      allFrom s.offset 0 s.source = resume none last s.begun s.rest := by
  by_cases hbegins : BeginsTag s.source
  · rcases hbegins with ⟨body, hbody⟩ | ⟨body, hbody⟩
    · exact .inl (allFrom_mustache hs hplain hbefore hbody.symm)
    · have hescape := hplain.escape
      rw [← hbody] at hescape
      cases hescape
  · obtain ⟨c, cs, hsource, hstep⟩ := hs
    rw [Lifting.step_of_not_beginsTag (hsource ▸ hbegins), Lifting.stepPlain, hbefore] at hstep
    have htextual : s.before.stepText c cs = (s.after, s.text.length) := Except.ok.inj hstep
    by_cases hstarts : Text.startsWith ['<', '!', '-', '-'] (c :: cs) = true
    · have hcomment := allFrom_comment hsource hstarts htextual
      rw [hbefore] at hcomment
      exact .inl hcomment
    · rw [stepText_eq, if_neg hstarts] at htextual
      by_cases hopens : c = '<' ∧ mayOpen cs = true
      · rw [if_pos hopens] at htextual
        obtain ⟨rfl, hopens⟩ := hopens
        exact .inr (resume_of_openTag hsource htextual hplain (Bool.eq_false_iff.2 hstarts) hopens)
      · rw [if_neg hopens] at htextual
        obtain ⟨hafter, hlength⟩ := Prod.mk.inj htextual
        obtain ⟨htext, hrest⟩ := @eq_of_length s [c] cs hsource hlength.symm
        refine .inl ⟨by rw [← hafter]; exact hbefore, ?_⟩
        rw [htext, hrest, hsource]
        refine allFrom_pass rfl (List.cons_ne_nil _ _) ?_
        rw [landmark, if_neg hstarts, if_neg, if_neg hopens]
        · rfl
        · intro hbraces
          rw [hsource] at hbegins
          exact hbegins (.inl (Text.startsWith_iff.1 hbraces))

theorem tagsAlong_of_run {cs : List Char} {st final : Lifting}
    (h : Lifting.run marker offset 0 st cs = .ok final)
    (hplain : ∀ s ∈ Lifting.steps marker offset 0 st cs, s.IsPlain) (hst : st.tag = none) :
    allFrom offset 0 cs = Lifting.tagsAlong none (Lifting.steps marker offset 0 st cs) := by
  -- Inside a tag the induction is carried by `Matches`; between tags there is nothing to know.
  refine (Lifting.run_induction (motive := fun offset st cs ss => (∀ s ∈ ss, s.IsPlain) →
    (st.tag = none → allFrom offset 0 cs = Lifting.tagsAlong none ss) ∧
    ∀ open_ quote last opened, st.tag = some open_ → Matches quote last open_.position →
      opened.stop = offset →
      resume quote last opened cs = Lifting.tagsAlong (some opened) ss) ?_ ?_ cs offset st h
      hplain).1 hst
  · intro offset st _
    exact ⟨fun _ => rfl, fun _ _ _ _ _ _ _ => rfl⟩
  · intro s ss hs ih hplain
    obtain ⟨houtside, hinside⟩ := ih fun t ht => hplain t (List.mem_cons_of_mem s ht)
    have hfirst := hplain s List.mem_cons_self
    refine ⟨fun hbefore => ?_, fun open_ quote last opened hbefore hmatches hstop => ?_⟩
    · rw [Lifting.tagsAlong]
      rcases allFrom_step hs hfirst hbefore with
        ⟨hafter, hpass⟩ | ⟨open_, last, hafter, hmatches, hopen⟩
      · rw [hpass, hafter, houtside hafter]
        rfl
      · have hstop : s.begun.stop = s.offset + Text.utf8Length s.text := rfl
        rw [hopen, hafter, hinside open_ none last s.begun hafter hmatches hstop]
        rfl
    · have hstop' : (s.extend opened).stop = s.offset + Text.utf8Length s.text := by
        rw [← hstop, stop, stop, Step.extend, Text.utf8Length_append, Nat.add_assoc]
      rw [Lifting.tagsAlong]
      rcases advances hs hfirst hbefore hmatches with
        ⟨next, quote', last', hafter, hnext, hscan⟩ | ⟨hafter, hmustache, hscan⟩
      · rw [resume_of_continues hstop hscan, hafter,
          hinside next quote' last' (s.extend opened) hafter hnext hstop']
      · rw [resume_of_closes hmustache hscan, hafter, hstop', houtside hafter]

/-- Where every step of lifting is plain, the reader of opening tags finds the tags that lifting
goes through. -/
theorem all_eq_openingTags {source : List Char} {lifted : Lifted × Nat}
    (h : Lifted.ofSource source = .ok lifted)
    (hplain : ∀ s ∈ Lifting.stepsOf source, s.IsPlain) :
    all source = Lifting.openingTags source := by
  unfold Lifted.ofSource at h
  cases hmarker : freeMarker? source with
  | none =>
    rw [hmarker] at h
    cases h
  | some marker =>
    have hsteps : Lifting.stepsOf source = Lifting.steps marker 0 0 {} source := by
      unfold Lifting.stepsOf
      rw [hmarker]
    rw [hmarker] at h
    rw [hsteps] at hplain
    rw [Lifting.openingTags, hsteps]
    dsimp only at h
    cases hrun : Lifting.run marker 0 0 {} source with
    | error e =>
      rw [hrun] at h
      cases h
    | ok final => exact tagsAlong_of_run hrun hplain rfl

theorem all_of_quoted_value :
    all "<a b='>\x7b\x7bc\x7d\x7d'>".toList =
        Lifting.openingTags "<a b='>\x7b\x7bc\x7d\x7d'>".toList ∧
      (all "<a b='>\x7b\x7bc\x7d\x7d'>".toList).map (fun tag => tag.text) =
        ["<a b='>\x7b\x7bc\x7d\x7d'>".toList] := by
  have hread : (Lifted.ofSource "<a b='>\x7b\x7bc\x7d\x7d'>".toList).isOk := by
    decide +kernel
  cases hlifted : Lifted.ofSource "<a b='>\x7b\x7bc\x7d\x7d'>".toList with
  | error e =>
    rw [hlifted] at hread
    cases hread
  | ok lifted => exact ⟨all_eq_openingTags hlifted (by decide +kernel), by decide +kernel⟩

/-- A mustache that is a part of a value without quotes is not known to be one, and an apostrophe in
such a value hides the end of its tag. -/
theorem unquoted_value_is_misread :
    (Lifted.ofSource "<a b=c\x7b\x7bd\x7d\x7d></a>".toList).isOk ∧
      all "<a b=c\x7b\x7bd\x7d\x7d></a>".toList ≠
        Lifting.openingTags "<a b=c\x7b\x7bd\x7d\x7d></a>".toList ∧
      (Lifted.ofSource "<a b=c'd></a>".toList).isOk ∧
      all "<a b=c'd></a>".toList ≠ Lifting.openingTags "<a b=c'd></a>".toList := by
  decide +kernel

end OpeningTag

end MustacheJsx
