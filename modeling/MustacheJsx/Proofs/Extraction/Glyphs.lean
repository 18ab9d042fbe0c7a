import MustacheJsx.Proofs.Extraction.Splicing

/-!
# The glyphs of a tag

Inside a tag a mustache is read at once, and so is any other character: they are the glyphs of the
tag. A list of glyphs can be cut and put together again as long as no new mustache comes about where
they meet. The reader of opening tags goes from glyph to glyph: `OpeningTag.scan_induction`.
-/

namespace MustacheJsx

/-- What is read at once inside a tag. -/
inductive Glyph where
  | char (c : Char)
  | mustache (text : List Char)
  deriving DecidableEq

namespace Glyph

def text : Glyph → List Char
  | char c => [c]
  | mustache text => text

def textOf (gs : List Glyph) : List Char := gs.flatMap text

def bytes (gs : List Glyph) : Nat := Text.utf8Length (textOf gs)

/-- The glyphs of a text after `skip` more characters. -/
def readFrom (skip : Nat) : List Char → List Glyph
  | [] => []
  | c :: cs =>
    match skip with
    | skip + 1 => readFrom skip cs
    | 0 =>
      if Text.startsWith ['{', '{'] (c :: cs) then
        match mustacheText? (c :: cs) with
        | some text => mustache text :: readFrom (text.length - 1) cs
        | none => char c :: readFrom 0 cs
      else char c :: readFrom 0 cs

def read (cs : List Char) : List Glyph := readFrom 0 cs

def opens : Glyph → Bool
  | char c => c == '{'
  | mustache _ => true

/-- Glyphs that can be read from their text: each mustache ends where it is meant to end, and no
brace makes a mustache of what follows it. -/
structure Proper (gs : List Glyph) : Prop where
  mustaches : ∀ text, mustache text ∈ gs →
    ['{', '{'] <+: text ∧ mustacheText? text = some text
  apart : gs.IsChain fun g h => g = char '{' → h.opens = false

variable {g : Glyph} {gs hs : List Glyph} {c : Char} {cs rest text : List Char}

@[simp] theorem textOf_nil : textOf [] = [] := rfl

@[simp] theorem textOf_cons (g : Glyph) (gs : List Glyph) :
    textOf (g :: gs) = g.text ++ textOf gs := rfl

@[simp] theorem textOf_append (gs hs : List Glyph) :
    textOf (gs ++ hs) = textOf gs ++ textOf hs := List.flatMap_append

theorem textOf_map_char (cs : List Char) : textOf (cs.map char) = cs := by
  induction cs with
  | nil => rfl
  | cons c cs ih => rw [List.map_cons, textOf_cons, ih, text, List.singleton_append]

@[simp] theorem bytes_append (gs hs : List Glyph) : bytes (gs ++ hs) = bytes gs + bytes hs := by
  rw [bytes, textOf_append, Text.utf8Length_append, bytes, bytes]

/-! ### Proper glyphs -/

theorem Proper.nil : Proper [] := ⟨nofun, .nil⟩

theorem Proper.append_iff : Proper (gs ++ hs) ↔ Proper gs ∧ Proper hs ∧
    ∀ g ∈ gs.getLast?, ∀ h ∈ hs.head?, g = char '{' → h.opens = false := by
  constructor
  · rintro ⟨hmustaches, hapart⟩
    obtain ⟨hgs, hhs, hmeet⟩ := List.isChain_append.1 hapart
    exact ⟨⟨fun text h => hmustaches text (List.mem_append_left _ h), hgs⟩,
      ⟨fun text h => hmustaches text (List.mem_append_right _ h), hhs⟩, hmeet⟩
  · rintro ⟨⟨hmustaches, hgs⟩, ⟨hmustaches', hhs⟩, hmeet⟩
    exact ⟨fun text h => (List.mem_append.1 h).elim (hmustaches text) (hmustaches' text),
      List.isChain_append.2 ⟨hgs, hhs, hmeet⟩⟩

theorem Proper.cons (h : Proper gs)
    (hmustache : ∀ text, g = mustache text →
      ['{', '{'] <+: text ∧ mustacheText? text = some text)
    (hmeet : ∀ next ∈ gs.head?, g = char '{' → next.opens = false) : Proper (g :: gs) := by
  refine ⟨fun text htext => ?_, h.apart.cons hmeet⟩
  rcases List.mem_cons.1 htext with heq | htext
  · exact hmustache text heq.symm
  · exact h.mustaches text htext

theorem Proper.of_cons (h : Proper (g :: gs)) :
    Proper gs ∧ ∀ next ∈ gs.head?, g = char '{' → next.opens = false :=
  ⟨⟨fun text htext => h.mustaches text (List.mem_cons_of_mem g htext),
    (List.isChain_cons.1 h.apart).2⟩, (List.isChain_cons.1 h.apart).1⟩

theorem Proper.mustache_cons (h : Proper gs) (hbraces : ['{', '{'] <+: text)
    (htext : mustacheText? text = some text) : Proper (mustache text :: gs) := by
  refine h.cons ?_ nofun
  rintro text ⟨⟩
  exact ⟨hbraces, htext⟩

theorem Proper.char_cons (h : Proper gs) (hc : c ≠ '{') : Proper (char c :: gs) :=
  h.cons nofun fun _ _ heq => absurd (char.inj heq) hc

theorem Proper.chars (h : '{' ∉ cs) : Proper (cs.map char) := by
  induction cs with
  | nil => exact .nil
  | cons c cs ih =>
    rw [List.mem_cons, not_or] at h
    exact (ih h.2).char_cons (Ne.symm h.1)

theorem Proper.exists_of_mustache (h : Proper (mustache text :: gs)) :
    ∃ body, text = '{' :: '{' :: body ∧ ∀ more, mustacheText? (text ++ more) = some text := by
  obtain ⟨⟨body, hbody⟩, hself⟩ := h.mustaches text List.mem_cons_self
  obtain ⟨-, -, -, -, hmore⟩ := exists_of_mustacheText? hself
  exact ⟨body, hbody.symm, hmore⟩

theorem Proper.head?_textOf (h : Proper (g :: gs)) (rest : List Char) :
    (textOf (g :: gs) ++ rest).head? = some '{' ↔ g.opens = true := by
  cases g with
  | char c =>
    rw [opens, beq_iff_eq]
    exact Option.some_inj
  | mustache text =>
    obtain ⟨body, rfl, -⟩ := h.exists_of_mustache
    exact iff_of_true rfl rfl

theorem Proper.not_braces (h : Proper (char c :: gs)) (rest : List Char)
    (hrest : gs = [] → c = '{' → rest.head? ≠ some '{') :
    ¬ ['{', '{'] <+: c :: (textOf gs ++ rest) := by
  rintro ⟨body, hbody⟩
  obtain ⟨rfl, hbehind⟩ := List.cons.inj hbody
  have hhead : (textOf gs ++ rest).head? = some '{' := by
    rw [← hbehind]
    rfl
  obtain ⟨hproper, hmeet⟩ := h.of_cons
  cases gs with
  | nil => exact hrest rfl rfl hhead
  | cons next gs =>
    rw [hproper.head?_textOf, hmeet next rfl rfl] at hhead
    cases hhead

theorem Proper.bytes_pos (h : Proper (g :: gs)) : 0 < bytes (g :: gs) := by
  refine OpeningTag.utf8Length_pos fun hnil => ?_
  cases g with
  | char c => cases hnil
  | mustache text =>
    obtain ⟨body, rfl, -⟩ := h.exists_of_mustache
    cases hnil

/-- Of two beginnings of the same glyphs, the one with fewer bytes begins the other. -/
theorem Proper.exists_of_append_eq {before behind before' behind' : List Glyph}
    (h : Proper (before ++ behind)) (heq : before ++ behind = before' ++ behind')
    (hle : bytes before ≤ bytes before') :
    ∃ middle, before' = before ++ middle ∧ behind = middle ++ behind' := by
  rcases List.append_eq_append_iff.1 heq with ⟨middle, hmiddle⟩ | ⟨middle, rfl, rfl⟩
  · exact ⟨middle, hmiddle⟩
  · rw [bytes_append] at hle
    cases middle with
    | nil => exact ⟨[], by simp⟩
    | cons g middle =>
      have hpos := (append_iff.1 (append_iff.1 h).1).2.1.bytes_pos
      omega

/-! ### Reading -/

theorem readFrom_append (text rest : List Char) :
    readFrom text.length (text ++ rest) = readFrom 0 rest := by
  induction text with
  | nil => rfl
  | cons c text ih => rw [List.length_cons, List.cons_append, readFrom, ih]

theorem read_char (h : ¬ ['{', '{'] <+: c :: cs) : read (c :: cs) = char c :: read cs := by
  rw [read, readFrom, if_neg fun hstarts => h (Text.startsWith_iff.1 hstarts)]
  rfl

theorem read_mustache {body : List Char} (htext : text = '{' :: '{' :: body)
    (h : mustacheText? (text ++ rest) = some text) :
    read (text ++ rest) = mustache text :: read rest := by
  subst htext
  have hstarts : Text.startsWith ['{', '{'] ('{' :: ('{' :: body ++ rest)) = true := rfl
  have hskip := readFrom_append ('{' :: body) rest
  rw [List.cons_append] at h ⊢
  rw [read, readFrom, if_pos hstarts, h]
  dsimp only
  rw [List.length_cons, Nat.add_sub_cancel, hskip]
  rfl

theorem textOf_readFrom (skip : Nat) (cs : List Char) :
    textOf (readFrom skip cs) = cs.drop skip := by
  induction cs generalizing skip with
  | nil => rw [readFrom, List.drop_nil, textOf_nil]
  | cons c cs ih =>
    cases skip with
    | succ skip => exact ih skip
    | zero =>
      rw [readFrom]
      split
      · split
        · next text htext =>
          obtain ⟨rest, hrest, hlength, -⟩ := exists_of_mustacheText? htext
          obtain ⟨d, text, rfl⟩ :=
            List.exists_cons_of_length_pos (Nat.lt_of_lt_of_le (by decide) hlength)
          have hbehind : cs = text ++ rest := (List.cons.inj hrest).2
          rw [textOf_cons, ih, hrest, hbehind, List.length_cons, Nat.add_sub_cancel, List.drop_left]
          rfl
        · rw [textOf_cons, ih]
          rfl
      · rw [textOf_cons, ih]
        rfl

theorem textOf_read (cs : List Char) : textOf (read cs) = cs := textOf_readFrom 0 cs

theorem Proper.read_textOf (h : Proper gs) : read (textOf gs) = gs := by
  induction gs with
  | nil => rfl
  | cons g gs ih =>
    have hrest := ih h.of_cons.1
    cases g with
    | char c =>
      have hbraces := h.not_braces [] nofun
      rw [List.append_nil] at hbraces
      rw [textOf_cons, text, List.singleton_append, read_char hbraces, hrest]
    | mustache text =>
      obtain ⟨body, hbody, hmore⟩ := h.exists_of_mustache
      rw [textOf_cons, Glyph.text, read_mustache hbody (hmore _), hrest]

/-! ### The end of a tag -/

/-- The open quote behind a glyph, unless the tag ends with it. -/
def after? (quote : Option Char) : Glyph → Option (Option Char)
  | mustache _ => some quote
  | char c => if quote = none ∧ c = '>' then none else some (OpeningTag.quoteAfter c quote)

def ends : Option Char → List Glyph → Bool
  | _, [] => false
  | quote, g :: gs =>
    match after? quote g with
    | none => gs.isEmpty
    | some quote => ends quote gs

variable {quote quote' : Option Char}

theorem ends_append (h : gs.foldlM after? quote = some quote') (hs : List Glyph) :
    ends quote (gs ++ hs) = ends quote' hs := by
  induction gs generalizing quote with
  | nil =>
    cases h
    rfl
  | cons g gs ih =>
    rw [List.foldlM_cons] at h
    obtain ⟨next, hnext, h⟩ := Option.bind_eq_some_iff.1 h
    rw [List.cons_append, ends, hnext]
    exact ih h

end Glyph

namespace OpeningTag

open Glyph

variable {quote : Option Char} {last : Char} {offset : Nat} {mustaches : List TagMustache}
  {gs : List Glyph} {cs rest : List Char}

/-- Induction along a tag, from its end to its beginning. -/
theorem scan_induction {motive : Option Char → Nat → List Char → List TagMustache → Prop}
    (stop : ∀ offset, motive none offset ('>' :: rest) [])
    (char : ∀ quote offset c cs ms, ¬ ['{', '{'] <+: c :: cs → ¬ (quote = none ∧ c = '>') →
      motive (quoteAfter c quote) (offset + c.utf8Size) cs ms → motive quote offset (c :: cs) ms)
    (mustache : ∀ quote offset cs ms (m : TagMustache), m.start = offset →
      ['{', '{'] <+: m.text → mustacheText? (m.text ++ cs) = some m.text →
      motive quote (offset + Text.utf8Length m.text) cs ms →
      motive quote offset (m.text ++ cs) (m :: ms))
    (h : scan quote last offset 0 cs = some (mustaches, rest)) :
    motive quote offset cs mustaches := by
  induction hn : cs.length using Nat.strong_induction_on
    generalizing quote last offset mustaches cs with
  | _ n ih =>
    cases cs with
    | nil => cases h
    | cons c cs =>
      rw [List.length_cons] at hn
      by_cases hbraces : ['{', '{'] <+: c :: cs
      · obtain ⟨body, hbody⟩ := hbraces
        rw [← hbody] at h
        change scan quote last offset 0 ('{' :: '{' :: body) = _ at h
        cases htext : mustacheText? ('{' :: '{' :: body) with
        | none =>
          have hstarts : Text.startsWith ['{', '{'] ('{' :: '{' :: body) = true := rfl
          rw [scan, if_pos hstarts, htext] at h
          cases h
        | some text =>
          obtain ⟨behind, hbehind, hlength, -, hmore⟩ := exists_of_mustacheText? htext
          have hcs : c :: cs = text ++ behind := hbody.symm.trans hbehind
          have hne : text ≠ [] := List.ne_nil_of_length_pos (Nat.lt_of_lt_of_le (by decide) hlength)
          have hopens : ['{', '{'] <+: text := by
            have htwo : ['{', '{'].length ≤ text.length := Nat.le_trans (by decide) hlength
            rw [← Text.startsWith_iff, ← Text.startsWith_append htwo behind, ← hbehind]
            rfl
          rw [scan_mustache htext hbehind.symm hne] at h
          obtain ⟨⟨found, rest'⟩, hscan, heq⟩ := Option.map_eq_some_iff.1 h
          obtain ⟨rfl, rfl⟩ := Prod.mk.inj heq
          have hshort := congrArg List.length hcs
          have hpos := List.length_pos_iff.2 hne
          rw [List.length_append, List.length_cons] at hshort
          rw [hcs]
          exact mustache _ _ _ _
            { start := offset, text, inValue := quote.isSome || last == '=' } rfl
            hopens (hmore behind) (ih behind.length (by omega) hscan rfl)
      · by_cases hend : quote = none ∧ c = '>'
        · obtain ⟨rfl, rfl⟩ := hend
          rw [scan_end] at h
          obtain ⟨rfl, rfl⟩ := Prod.mk.inj (Option.some.inj h)
          exact stop offset
        · rw [scan_plain hbraces hend] at h
          exact char _ _ _ _ _ hbraces hend (ih cs.length (by omega) h rfl)

theorem exists_of_scan (h : scan quote last offset 0 cs = some (mustaches, rest)) :
    ∃ gs, Proper gs ∧ ends quote gs = true ∧ cs = textOf gs ++ rest := by
  refine scan_induction (motive := fun quote _ cs _ =>
    ∃ gs, Proper gs ∧ ends quote gs = true ∧ cs = textOf gs ++ rest) ?_ ?_ ?_ h
  · exact fun _ => ⟨[Glyph.char '>'], Proper.nil.char_cons (by decide), rfl, rfl⟩
  · rintro quote offset c cs ms hbraces hend ⟨gs, hproper, hends, rfl⟩
    refine ⟨Glyph.char c :: gs, hproper.cons (fun text htext => ?_) (fun next hnext heq => ?_), ?_,
      rfl⟩
    · cases htext
    · obtain ⟨gs, rfl⟩ := List.head?_eq_some_iff.1 hnext
      rw [Bool.eq_false_iff]
      intro hopens
      have hhead := (hproper.head?_textOf rest).2 hopens
      obtain ⟨behind, hbehind⟩ := List.head?_eq_some_iff.1 hhead
      rw [char.inj heq, hbehind] at hbraces
      exact hbraces ⟨behind, rfl⟩
    · rw [ends, after?, if_neg hend]
      exact hends
  · rintro quote offset cs ms m - hopens hread ⟨gs, hproper, hends, rfl⟩
    obtain ⟨_, -, -, -, hmore⟩ := exists_of_mustacheText? hread
    have hself := hmore []
    rw [List.append_nil] at hself
    refine ⟨Glyph.mustache m.text :: gs, hproper.mustache_cons hopens hself, hends, ?_⟩
    rw [textOf_cons, Glyph.text, List.append_assoc]

/-- Such glyphs are read as a tag before any text. -/
theorem exists_scan (hproper : Proper gs) (hends : ends quote gs = true) (last : Char)
    (offset : Nat) (rest : List Char) :
    ∃ mustaches, scan quote last offset 0 (textOf gs ++ rest) = some (mustaches, rest) := by
  induction gs generalizing quote last offset with
  | nil => cases hends
  | cons g gs ih =>
    obtain ⟨hbehind, -⟩ := hproper.of_cons
    cases g with
    | char c =>
      rw [ends, after?] at hends
      rw [textOf_cons, List.append_assoc]
      by_cases hend : quote = none ∧ c = '>'
      · rw [if_pos hend] at hends
        obtain ⟨rfl, rfl⟩ := hend
        obtain rfl := List.isEmpty_iff.1 hends
        exact ⟨[], rfl⟩
      · rw [if_neg hend] at hends
        have hbraces := hproper.not_braces rest (by rintro rfl; cases hends)
        obtain ⟨found, hfound⟩ := ih hbehind hends (if Text.isAsciiBlank c then last else c)
          (offset + c.utf8Size)
        exact ⟨found, (scan_plain hbraces hend).trans hfound⟩
    | mustache text =>
      obtain ⟨body, rfl, hmore⟩ := hproper.exists_of_mustache
      rw [textOf_cons, List.append_assoc]
      obtain ⟨found, hfound⟩ := ih hbehind hends '}'
        (offset + Text.utf8Length ('{' :: '{' :: body))
      have hread := @scan_mustache quote last offset (body ++ (textOf gs ++ rest))
        (textOf gs ++ rest) _ (hmore _) rfl (List.cons_ne_nil _ _)
      rw [hfound] at hread
      exact ⟨_, hread⟩

end OpeningTag

end MustacheJsx
