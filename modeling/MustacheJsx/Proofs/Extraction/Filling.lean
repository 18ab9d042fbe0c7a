import MustacheJsx.Proofs.Extraction.Helper
import MustacheJsx.Proofs.Mustache.Content
import MustacheJsx.Proofs.Opening.Lifting
import MustacheJsx.Proofs.Text.Trimming

/-!
# Filling in the mustaches of a text

A text means what it is with the value of each mustache in its place. Mustaches are cut out by the
reader of spans, and a backslash before two braces makes them text. Extraction looks for mustaches
with a pattern of its own; `ConditionalAttribute.means_result` says when it finds the same ones.
-/

namespace MustacheJsx

/-! ### Filling -/

/-- `cs` with its mustaches replaced by what `value` gives for their content, after `skip` more
characters. It is nothing if a mustache does not end. -/
def fillAfter (value : List Char → List Char) (skip : Nat) : List Char → Option (List Char)
  | [] => some []
  | c :: cs =>
    match skip with
    | skip + 1 => fillAfter value skip cs
    | 0 =>
      if Text.startsWith ['\\', '{', '{'] (c :: cs) then
        (fillAfter value 2 cs).map (['{', '{'] ++ ·)
      else if Text.startsWith ['{', '{'] (c :: cs) then
        match Span.read (c :: cs) with
        | .ok span =>
          (fillAfter value (cs.length - span.rest.length) cs).map
            (value (Text.trim span.content) ++ ·)
        | .error _ => none
      else (fillAfter value 0 cs).map ([c] ++ ·)

def fill (value : List Char → List Char) (cs : List Char) : Option (List Char) :=
  fillAfter value 0 cs

variable {value : List Char → List Char}

theorem fillAfter_append (text rest : List Char) :
    fillAfter value text.length (text ++ rest) = fill value rest := by
  induction text with
  | nil => rfl
  | cons c cs ih => exact ih

open Lifting (BeginsTag Follows)

theorem fill_cons {c : Char} {cs : List Char} (h : ¬ BeginsTag (c :: cs)) :
    fill value (c :: cs) = (fill value cs).map ([c] ++ ·) := by
  have hescape : ¬ Text.startsWith ['\\', '{', '{'] (c :: cs) = true := by
    intro hstarts
    exact h (.inr (Text.startsWith_iff.1 hstarts))
  have hbraces : ¬ Text.startsWith ['{', '{'] (c :: cs) = true := by
    intro hstarts
    exact h (.inl (Text.startsWith_iff.1 hstarts))
  rw [fill, fillAfter, if_neg hescape, if_neg hbraces]
  rfl

theorem fill_append {chars rest : List Char} (hbraces : Unbraced chars)
    (hfollows : Follows chars rest) :
    fill value (chars ++ rest) = (fill value rest).map (chars ++ ·) := by
  induction chars with
  | nil => exact Option.map_id'.symm
  | cons c cs ih =>
    rw [List.cons_append, fill_cons (Lifting.not_beginsTag hbraces hfollows),
      ih hbraces.tail hfollows.tail, Option.map_map]
    rfl

theorem fill_unbraced {chars : List Char} (h : Unbraced chars) : fill value chars = some chars := by
  have hfilled := @fill_append value chars [] h nofun
  rw [List.append_nil] at hfilled
  rw [hfilled]
  show some (chars ++ []) = _
  rw [List.append_nil]

theorem fill_braced {content : List Char} (hcontent : Span.IsApart content)
    (hcloses : Span.ClosesQuotes content) (rest : List Char) :
    fill value (Span.braced content rest) =
      (fill value rest).map (value (Text.trim content) ++ ·) := by
  have hread := (Span.read_braced_eq_iff hcontent rest).2 hcloses
  have hescape : ¬ Text.startsWith ['\\', '{', '{'] (Span.braced content rest) = true := nofun
  have hstarts : Text.startsWith ['{', '{'] (Span.braced content rest) = true := rfl
  have hsplit : Span.braced content rest =
      '{' :: (('{' :: content ++ ['}', '}']) ++ rest) := by
    rw [Span.braced, List.cons_append, List.cons_append, List.append_assoc]
    rfl
  have hlength : (('{' :: content ++ ['}', '}']) ++ rest).length - rest.length =
      ('{' :: content ++ ['}', '}']).length := by
    rw [List.length_append, Nat.add_sub_cancel]
  rw [hsplit] at hread hescape hstarts ⊢
  rw [fill, fillAfter, if_neg hescape, if_pos hstarts, hread]
  show (fillAfter value (_ - rest.length) _).map (value (Text.trim content) ++ ·) = _
  rw [hlength, fillAfter_append]

/-! ### Plain mustaches -/

def blankCodes : List Nat :=
  [9, 10, 11, 12, 13, 0x20, 0x85, 0xA0, 0x1680, 0x2000, 0x2001, 0x2002, 0x2003, 0x2004, 0x2005,
   0x2006, 0x2007, 0x2008, 0x2009, 0x200A, 0x2028, 0x2029, 0x202F, 0x205F, 0x3000]

theorem mem_blankCodes {c : Char} (h : Text.isBlank c = true) : c.toNat ∈ blankCodes := by
  simp only [Text.isBlank, Bool.or_eq_true, Bool.and_eq_true, decide_eq_true_eq, beq_iff_eq] at h
  simp only [blankCodes, List.mem_cons, List.not_mem_nil, or_false]
  omega

theorem isBlank_of_isPathChar {c : Char} (h : isPathChar c = true) : Text.isBlank c = false := by
  have hall : ∀ n ∈ blankCodes, isPathChar (Char.ofNat n) = false := by decide +kernel
  rw [Bool.eq_false_iff]
  intro hblank
  have hc := hall c.toNat (mem_blankCodes hblank)
  rw [Char.ofNat_toNat, h] at hc
  cases hc

/-- The characters of a plain path. -/
def IsPathText (path : List Char) : Prop :=
  path ≠ [] ∧ ∀ c ∈ path, c = '@' ∨ isPathChar c = true

theorem exists_of_close {cs rest : List Char}
    (h : Text.afterLead? ['}', '}'] (Text.trimStart cs) = some rest) :
    ∃ blanks, cs = blanks ++ '}' :: '}' :: rest ∧ ∀ c ∈ blanks, Text.isBlank c = true := by
  refine ⟨cs.takeWhile Text.isBlank, ?_, fun c hc => List.mem_takeWhile_imp hc⟩
  have hclose : Text.trimStart cs = '}' :: '}' :: rest := Text.afterLead?_eq_some_iff.1 h
  rw [← hclose]
  exact List.takeWhile_append_dropWhile.symm

theorem exists_of_segments {mark inner path rest : List Char} (hmark : ∀ c ∈ mark, c = '@')
    (h : (if (inner.takeWhile isPathChar).isEmpty then none
      else (Text.afterLead? ['}', '}'] (Text.trimStart (inner.dropWhile isPathChar))).bind
        fun after => some (mark ++ inner.takeWhile isPathChar, after)) = some (path, rest)) :
    ∃ after, mark ++ inner = path ++ after ++ '}' :: '}' :: rest ∧
      (∀ c ∈ after, Text.isBlank c = true) ∧ IsPathText path := by
  split at h
  · cases h
  · next hempty =>
    obtain ⟨last, hlast, hpath⟩ := Option.bind_eq_some_iff.1 h
    cases hpath
    obtain ⟨after, hafter, hblanks⟩ := exists_of_close hlast
    refine ⟨after, ?_, hblanks, ?_, fun c hc => ?_⟩
    · rw [List.append_assoc, List.append_assoc, ← hafter, List.takeWhile_append_dropWhile]
    · intro hnil
      rw [(List.append_eq_nil_iff.1 hnil).2] at hempty
      exact hempty rfl
    · rcases List.mem_append.1 hc with hc | hc
      · exact .inl (hmark c hc)
      · exact .inr (List.mem_takeWhile_imp hc)

/-- A plain mustache as it is written: a path between blanks. -/
theorem exists_of_plainMustache? {cs path rest : List Char}
    (h : plainMustache? cs = some (path, rest)) :
    ∃ before after, cs = Span.braced (before ++ path ++ after) rest ∧
      (∀ c ∈ before, Text.isBlank c = true) ∧ (∀ c ∈ after, Text.isBlank c = true) ∧
      IsPathText path := by
  rw [plainMustache?] at h
  obtain ⟨inner, hinner, h⟩ := Option.bind_eq_some_iff.1 h
  have hcs : cs = '{' :: '{' :: inner := Text.afterLead?_eq_some_iff.1 hinner
  have hfound : ∃ after, Text.trimStart inner = path ++ after ++ '}' :: '}' :: rest ∧
      (∀ c ∈ after, Text.isBlank c = true) ∧ IsPathText path := by
    dsimp only at h
    generalize Text.trimStart inner = start at h ⊢
    split at h
    · exact exists_of_segments (by simp) h
    · exact exists_of_segments (by simp) h
  obtain ⟨after, htrim, hafter, hpath⟩ := hfound
  refine ⟨inner.takeWhile Text.isBlank, after, ?_, fun c hc => List.mem_takeWhile_imp hc, hafter,
    hpath⟩
  rw [hcs, Span.braced, List.append_assoc, List.append_assoc, ← List.append_assoc path, ← htrim,
    Text.trimStart, List.takeWhile_append_dropWhile]

theorem isApart_of_path {before path after : List Char}
    (hbefore : ∀ c ∈ before, Text.isBlank c = true) (hafter : ∀ c ∈ after, Text.isBlank c = true)
    (hpath : IsPathText path) :
    Span.IsApart (before ++ path ++ after) ∧ Span.ClosesQuotes (before ++ path ++ after) := by
  have hall : ∀ c ∈ before ++ path ++ after,
      Text.isBlank c = true ∨ c = '@' ∨ isPathChar c = true := by
    intro c hc
    rcases List.mem_append.1 hc with hc | hc
    · rcases List.mem_append.1 hc with hc | hc
      · exact .inl (hbefore c hc)
      · exact .inr (hpath.2 c hc)
    · exact .inl (hafter c hc)
  have hnot : ∀ d ∈ ['{', '}', '~', '!', '"', '\''], ∀ c ∈ before ++ path ++ after, c ≠ d := by
    intro d hd c hc heq
    have hchecked : ∀ d ∈ ['{', '}', '~', '!', '"', '\''],
        ¬ (Text.isBlank d = true ∨ d = '@' ∨ isPathChar d = true) := by decide
    exact hchecked d hd (heq ▸ hall c hc)
  generalize before ++ path ++ after = content at hnot
  have hclosing : '}' ∉ content := fun hmem => hnot '}' (by decide) _ hmem rfl
  refine ⟨⟨?_, fun c hc => ?_, fun c hc => ?_, ?_⟩, ?_⟩
  · rw [Bool.eq_false_iff]
    intro hcontains
    exact hclosing ((Text.contains_iff.1 hcontains).subset List.mem_cons_self)
  · exact ⟨hnot '{' (by decide) c (List.mem_of_mem_head? hc),
      hnot '~' (by decide) c (List.mem_of_mem_head? hc)⟩
  · exact ⟨hnot '~' (by decide) c (List.mem_of_getLast? hc),
      hnot '}' (by decide) c (List.mem_of_getLast? hc)⟩
  · rintro ⟨rest, rfl⟩
    exact hnot '!' (by decide) '!' (by simp) rfl
  · exact Span.closesQuotes_of_forall fun c hc =>
      ⟨hnot '"' (by decide) c hc, hnot '\'' (by decide) c hc⟩

theorem fill_plainMustache {cs path rest : List Char} (h : plainMustache? cs = some (path, rest))
    (trail : List Char) :
    ∃ body, cs ++ trail = '{' :: '{' :: body ∧
      fill value (cs ++ trail) = (fill value (rest ++ trail)).map (value path ++ ·) := by
  obtain ⟨before, after, rfl, hbefore, hafter, hpath⟩ := exists_of_plainMustache? h
  obtain ⟨hapart, hcloses⟩ := isApart_of_path hbefore hafter hpath
  have hblank : ∀ c ∈ path, Text.isBlank c = false := by
    intro c hc
    rcases hpath.2 c hc with rfl | hc
    · decide
    · exact isBlank_of_isPathChar hc
  have htrim := Text.trim_padded hbefore hafter hblank hpath.1
  have happend : Span.braced (before ++ path ++ after) rest ++ trail =
      Span.braced (before ++ path ++ after) (rest ++ trail) := by
    rw [Span.braced, Span.braced, List.cons_append, List.cons_append, List.append_assoc]
    rfl
  refine ⟨_, happend, ?_⟩
  rw [happend, fill_braced hapart hcloses, htrim]

/-! ### What the value of an attribute means -/

theorem Unbraced.append {before rest : List Char} (h : Unbraced before) (hrest : '{' ∉ rest) :
    Unbraced (before ++ rest) := by
  induction before with
  | nil => exact fun hbraces => hrest (hbraces.subset List.mem_cons_self)
  | cons c cs ih =>
    intro hbraces
    rcases List.infix_cons_iff.1 hbraces with ⟨tail, htail⟩ | hbraces
    · cases cs with
      | nil =>
        have hsecond : '{' :: tail = rest := (List.cons.inj htail).2
        exact hrest (hsecond ▸ List.mem_cons_self)
      | cons d cs =>
        cases htail
        exact h ⟨[], cs, rfl⟩
    · exact ih h.tail hbraces

theorem Unbraced.left {before rest : List Char} (h : Unbraced (before ++ rest)) : Unbraced before :=
  fun hbraces => h (hbraces.trans (List.prefix_append before rest).isInfix)

theorem Value.text_between (before rest : List Char) (value : Value) :
    (value.between before rest).text.toList = before ++ (value.text.toList ++ rest) := by
  rw [between]
  split
  · next hempty =>
    simp only [Bool.and_eq_true, List.isEmpty_iff] at hempty
    rw [hempty.1, hempty.2, List.nil_append, List.append_nil]
  · show (String.ofList before ++ value.text ++ String.ofList rest).toList = _
    simp

namespace ConditionalAttribute

variable (a : ConditionalAttribute)

/-- Where the expressions in the value have these values, the attribute means `result`: its value
with or without the body, as the condition says, with all mustaches replaced, or nothing. -/
def Means (value : List Char → Value) (result : Value) : Prop :=
  let filled := fill fun content => (value content).text.toList
  if a.holds (value a.condition) then
    filled (a.lead ++ a.body ++ a.trail) = some result.text.toList
  else if a.keepsRest then
    ∃ chars, filled (a.lead ++ a.trail) = some chars ∧ result = .string (String.ofList chars)
  else result = .undefined

/-- No mustache is left in the texts around the one that the helper takes, and none of their braces
or backslashes touches it. -/
structure IsPlain : Prop where
  before : Unbraced a.texts.1
  rest : Unbraced a.texts.2
  apart : a.cut?.isSome → ∀ c ∈ a.texts.1.getLast?, c ≠ '{' ∧ c ≠ '\\'

variable {a}

theorem IsPlain.unbraced_lead (h : a.IsPlain) : Unbraced a.lead := by
  have hbefore := h.before
  rw [texts] at hbefore
  split at hbefore
  · exact hbefore.left
  · exact hbefore.left.left

theorem means_result (h : a.IsPlain) (htrail : '{' ∉ a.trail) (value : List Char → Value) :
    a.Means value (a.result value) := by
  rw [Means, result]
  split
  · obtain ⟨hbefore, hrest, hapart⟩ := h
    rw [texts] at hbefore hrest hapart ⊢
    cases hcut : a.cut? with
    | none =>
      rw [hcut] at hbefore
      dsimp only at hbefore ⊢
      rw [fill_unbraced hbefore]
      exact congrArg some String.toList_ofList.symm
    | some cut =>
      obtain ⟨before, path, rest⟩ := cut
      rw [hcut] at hbefore hrest hapart
      dsimp only at hbefore hrest hapart ⊢
      obtain ⟨mustache, hbody, hmustache⟩ := Text.exists_of_cutAtFirst? hcut
      obtain ⟨inner, hinner, hfill⟩ := fill_plainMustache hmustache a.trail
      have hwhole : a.lead ++ a.body ++ a.trail = (a.lead ++ before) ++ (mustache ++ a.trail) := by
        rw [hbody]
        simp only [List.append_assoc]
      have hfollows : Follows (a.lead ++ before) (mustache ++ a.trail) := fun _ => hapart rfl
      rw [hwhole, fill_append hbefore hfollows, hfill, fill_unbraced hrest, Value.text_between]
      rfl
  · split
    · exact ⟨_, fill_unbraced (h.unbraced_lead.append htrail), rfl⟩
    · rfl

end ConditionalAttribute

end MustacheJsx
