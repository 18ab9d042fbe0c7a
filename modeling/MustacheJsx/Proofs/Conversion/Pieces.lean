import Mathlib.Data.List.Chain
import Mathlib.Data.List.DropRight
import MustacheJsx.Conversion.Style
import MustacheJsx.Proofs.Text.Splitting

/-!
# The characters and mustaches of a style value

The pieces of a style value are read as one sequence of characters and mustaches. Where no text
stands beside another one, cutting at semicolons and colons and trimming do to the pieces what they
do to the sequence.
-/

namespace MustacheJsx.Style

/-! ### Pieces as a sequence -/

/-- A character of a value, or one of its mustaches. -/
inductive Sign where
  | char (c : Char)
  | mustache (m : Mustache)

def Sign.isBlank : Sign → Bool
  | .char c => Text.isBlank c
  | .mustache _ => false

def Piece.signs : Piece → List Sign
  | .text cs => cs.map .char
  | .mustache m => [.mustache m]

def signs (pieces : List Piece) : List Sign := pieces.flatMap Piece.signs

def Piece.isText : Piece → Bool
  | .text _ => true
  | .mustache _ => false

/-- No text stands beside another one. -/
def Apart (pieces : List Piece) : Prop :=
  pieces.IsChain fun p q => (p.isText && q.isText) = false

@[simp] theorem signs_nil : signs [] = [] := rfl

@[simp] theorem signs_cons (p : Piece) (pieces : List Piece) :
    signs (p :: pieces) = p.signs ++ signs pieces := rfl

@[simp] theorem signs_append (ps qs : List Piece) : signs (ps ++ qs) = signs ps ++ signs qs :=
  List.flatMap_append

variable {p q : Piece} {pieces : List Piece} {cs : List Char} {m : Mustache}

theorem apart_mustache_cons : Apart (.mustache m :: pieces) ↔ Apart pieces := by
  rw [Apart, List.isChain_cons]
  exact and_iff_right fun _ _ => rfl

theorem apart_text_cons :
    Apart (.text cs :: pieces) ↔ (∀ p ∈ pieces.head?, p.isText = false) ∧ Apart pieces :=
  List.isChain_cons

theorem eq_nil_or_mustache (h : ∀ p ∈ pieces.head?, p.isText = false) :
    pieces = [] ∨ ∃ m rest, pieces = .mustache m :: rest := by
  match pieces with
  | [] => exact .inl rfl
  | .mustache m :: rest => exact .inr ⟨m, rest, rfl⟩
  | .text cs :: rest => exact nomatch h _ rfl

/-! ### Runs of characters -/

/-- A character before pieces, in their first text if they begin with one. -/
def putChar (c : Char) : List Piece → List Piece
  | .text cs :: rest => .text (c :: cs) :: rest
  | pieces => .text [c] :: pieces

/-- The pieces of a sequence: a text for each run of characters. -/
def runs : List Sign → List Piece
  | [] => []
  | .char c :: rest => putChar c (runs rest)
  | .mustache m :: rest => .mustache m :: runs rest

theorem runs_char_cons (c : Char) (rest : List Sign) :
    runs (.char c :: rest) = putChar c (runs rest) :=
  rfl

theorem putChar_text (c : Char) (cs : List Char) (rest : List Piece) :
    putChar c (.text cs :: rest) = .text (c :: cs) :: rest := rfl

theorem putChar_of_head (c : Char) (h : ∀ p ∈ pieces.head?, p.isText = false) :
    putChar c pieces = .text [c] :: pieces := by
  rcases eq_nil_or_mustache h with rfl | ⟨m, rest, rfl⟩
  · rfl
  · rfl

theorem runs_map_char (hne : cs ≠ []) {rest : List Sign}
    (hrest : ∀ p ∈ (runs rest).head?, p.isText = false) :
    runs (cs.map .char ++ rest) = .text cs :: runs rest := by
  induction cs with
  | nil => exact absurd rfl hne
  | cons c cs ih =>
    rw [List.map_cons, List.cons_append, runs_char_cons]
    by_cases hcs : cs = []
    · subst hcs
      exact putChar_of_head c hrest
    · rw [ih hcs, putChar_text]

theorem runs_signs (h : Apart pieces) :
    runs (signs pieces) = pieces.filter fun piece => !piece.isEmpty := by
  induction pieces with
  | nil => rfl
  | cons p pieces ih =>
    cases p with
    | mustache m =>
      have hrest := ih (apart_mustache_cons.1 h)
      rw [signs_cons, List.filter_cons_of_pos rfl, ← hrest]
      rfl
    | text cs =>
      obtain ⟨hhead, hpieces⟩ := apart_text_cons.1 h
      have hrest := ih hpieces
      rw [signs_cons, Piece.signs]
      by_cases hcs : cs = []
      · subst hcs
        rw [List.filter_cons_of_neg (by simp [Piece.isEmpty]), ← hrest]
        rfl
      · rw [List.filter_cons_of_pos (by simpa [Piece.isEmpty] using hcs), ← hrest]
        refine runs_map_char hcs ?_
        rcases eq_nil_or_mustache hhead with rfl | ⟨m, rest, rfl⟩
        · intro p hp
          cases hp
        · intro p hp
          cases hp
          rfl

/-! ### Trimming -/

def strip (sequence : List Sign) : List Sign :=
  (sequence.dropWhile Sign.isBlank).rdropWhile Sign.isBlank

def mapLast (f : List Char → List Char) (pieces : List Piece) : List Piece :=
  (mapFirst f pieces.reverse).reverse

theorem mapFirst_text (f : List Char → List Char) (cs : List Char) (pieces : List Piece) :
    mapFirst f (.text cs :: pieces) = .text (f cs) :: pieces := rfl

theorem mapFirst_mustache (f : List Char → List Char) (m : Mustache) (pieces : List Piece) :
    mapFirst f (.mustache m :: pieces) = .mustache m :: pieces := rfl

theorem mapLast_text (f : List Char → List Char) (pieces : List Piece) (cs : List Char) :
    mapLast f (pieces ++ [.text cs]) = pieces ++ [.text (f cs)] := by
  rw [mapLast, List.reverse_append, List.reverse_singleton, List.singleton_append, mapFirst_text,
    List.reverse_cons, List.reverse_reverse]

theorem mapLast_mustache (f : List Char → List Char) (pieces : List Piece) (m : Mustache) :
    mapLast f (pieces ++ [.mustache m]) = pieces ++ [.mustache m] := by
  rw [mapLast, List.reverse_append, List.reverse_singleton, List.singleton_append,
    mapFirst_mustache,
    List.reverse_cons, List.reverse_reverse]

theorem Apart.mapFirst (h : Apart pieces) (f : List Char → List Char) :
    Apart (mapFirst f pieces) := by
  match pieces, h with
  | [], h => exact h
  | .mustache m :: rest, h => exact h
  | .text cs :: rest, h => exact apart_text_cons.2 (apart_text_cons.1 h)

theorem apart_reverse : Apart pieces.reverse ↔ Apart pieces := by
  rw [Apart, List.isChain_reverse, Apart]
  simp only [Bool.and_comm]

theorem Apart.mapLast (h : Apart pieces) (f : List Char → List Char) :
    Apart (mapLast f pieces) :=
  apart_reverse.2 ((apart_reverse.2 h).mapFirst f)

theorem isBlank_comp_char : Sign.isBlank ∘ Sign.char = Text.isBlank := rfl

theorem signs_trimStart (h : Apart pieces) :
    signs (mapFirst Text.trimStart pieces) = (signs pieces).dropWhile Sign.isBlank := by
  match pieces, h with
  | [], _ => rfl
  | .mustache m :: rest, _ => rfl
  | .text cs :: rest, h =>
    rw [mapFirst_text, signs_cons, signs_cons, Piece.signs, Piece.signs, List.dropWhile_append,
      List.dropWhile_map, isBlank_comp_char, Text.trimStart]
    split
    -- The text is blank, and what follows is a mustache.
    · next hempty =>
      rw [List.isEmpty_iff.1 hempty]
      rcases eq_nil_or_mustache (apart_text_cons.1 h).1 with rfl | ⟨m, rest, rfl⟩
      · rfl
      · rfl
    · rfl

theorem signs_trimEnd (h : Apart pieces) :
    signs (mapLast Text.trimEnd pieces) = (signs pieces).rdropWhile Sign.isBlank := by
  rcases List.eq_nil_or_concat pieces with rfl | ⟨front, last, rfl⟩
  · rfl
  · rw [List.concat_eq_append] at h ⊢
    cases last with
    | mustache m =>
      rw [mapLast_mustache, signs_append]
      exact (List.rdropWhile_concat_neg _ _ _ Bool.false_ne_true).symm
    | text cs =>
      have hfront : ((signs front).reverse.dropWhile Sign.isBlank).reverse = signs front := by
        rcases List.eq_nil_or_concat front with rfl | ⟨front, before, rfl⟩
        · rfl
        · rw [List.concat_eq_append] at h ⊢
          cases before with
          | mustache m =>
            rw [signs_append]
            exact List.rdropWhile_concat_neg _ _ _ Bool.false_ne_true
          | text ds =>
            have hbeside := (List.isChain_append.1 h).2.2 (.text ds) (by simp) (.text cs) rfl
            cases hbeside
      rw [mapLast_text, signs_append, signs_append, signs_cons, signs_cons, signs_nil, Piece.signs,
        Piece.signs, List.append_nil, List.append_nil, List.rdropWhile, List.reverse_append,
        List.dropWhile_append, ← List.map_reverse, List.dropWhile_map, isBlank_comp_char,
        Text.trimEnd]
      split
      -- The text is blank, and what stands before it is a mustache.
      · next hempty =>
        rw [hfront, List.map_eq_nil_iff.1 (List.isEmpty_iff.1 hempty)]
        exact List.append_nil _
      · rw [List.reverse_append, List.reverse_reverse, ← List.map_reverse]

theorem trim_eq (h : Apart pieces) : trim pieces = runs (strip (signs pieces)) := by
  have hstart := h.mapFirst Text.trimStart
  rw [strip, ← signs_trimStart h, ← signs_trimEnd hstart, runs_signs (hstart.mapLast Text.trimEnd)]
  rfl

/-- Blanks around a sequence that does not begin or end with one are taken away. -/
theorem strip_padded {before middle after : List Sign} (hbefore : ∀ s ∈ before, s.isBlank = true)
    (hafter : ∀ s ∈ after, s.isBlank = true) (hhead : ∀ s ∈ middle.head?, s.isBlank = false)
    (hlast : ∀ s ∈ middle.getLast?, s.isBlank = false) (hne : middle ≠ []) :
    strip (before ++ (middle ++ after)) = middle := by
  have hstart : (middle ++ after).dropWhile Sign.isBlank = middle ++ after := by
    obtain ⟨s, middle, rfl⟩ := List.exists_cons_of_ne_nil hne
    exact List.dropWhile_cons_of_neg (by simp [hhead s rfl])
  have hend : middle.reverse.dropWhile Sign.isBlank = middle.reverse := by
    rcases List.eq_nil_or_concat middle with rfl | ⟨middle, s, rfl⟩
    · rfl
    · rw [List.concat_eq_append] at hlast ⊢
      rw [List.reverse_append]
      exact List.dropWhile_cons_of_neg (by simp [hlast s (by simp)])
  rw [strip, List.dropWhile_append_of_pos hbefore, hstart, List.rdropWhile, List.reverse_append,
    List.dropWhile_append_of_pos fun s hs => hafter s (List.mem_reverse.1 hs), hend,
    List.reverse_reverse]

/-! ### The first colon -/

theorem cutAt?_eq_none {c : Char} (h : Text.cutAt? [c] cs = none) : c ∉ cs := by
  intro hc
  obtain ⟨before, after, hcs⟩ := List.append_of_mem hc
  have hcontains : Text.contains [c] cs = true :=
    Text.contains_iff.2 ⟨before, after, by rw [hcs, List.append_assoc, List.singleton_append]⟩
  rw [Text.contains, h] at hcontains
  cases hcontains

theorem eq_of_cutAt? {c : Char} {before after : List Char}
    (h : Text.cutAt? [c] cs = some (before, after)) : cs = before ++ c :: after ∧ c ∉ before := by
  obtain ⟨hcs, hnone⟩ := (Text.cutAt?_eq_some_iff (List.cons_ne_nil c [])).1 h
  rw [List.append_assoc, List.singleton_append] at hcs
  refine ⟨hcs, fun hc => hnone ?_⟩
  rw [List.dropLast_singleton, List.append_nil, List.infix_iff_prefix_suffix]
  obtain ⟨left, right, rfl⟩ := List.append_of_mem hc
  exact ⟨c :: right, ⟨right, rfl⟩, left, rfl⟩

theorem char_mem_map {c : Char} : Sign.char c ∈ cs.map Sign.char ↔ c ∈ cs := by
  simp

theorem cutAtColon?_mustache (m : Mustache) (rest : List Piece) :
    cutAtColon? (.mustache m :: rest) =
      (cutAtColon? rest).map fun (key, value) => (.mustache m :: key, value) := rfl

theorem cutAtColon?_text_some {before after : List Char}
    (h : Text.cutAt? [':'] cs = some (before, after)) (rest : List Piece) :
    cutAtColon? (.text cs :: rest) = some ([.text before], .text after :: rest) := by
  rw [cutAtColon?, h]

theorem cutAtColon?_text_none (h : Text.cutAt? [':'] cs = none) (rest : List Piece) :
    cutAtColon? (.text cs :: rest) =
      (cutAtColon? rest).map fun (key, value) => (.text cs :: key, value) := by
  rw [cutAtColon?, h]

theorem colon_not_mem_of_cutAtColon? (h : cutAtColon? pieces = none) :
    Sign.char ':' ∉ signs pieces := by
  induction pieces with
  | nil => exact List.not_mem_nil
  | cons p rest ih =>
    rw [signs_cons, List.mem_append, not_or]
    cases p with
    | mustache m =>
      rw [cutAtColon?_mustache, Option.map_eq_none_iff] at h
      exact ⟨by simp [Piece.signs], ih h⟩
    | text cs =>
      cases hcut : Text.cutAt? [':'] cs with
      | some found =>
        rw [cutAtColon?_text_some hcut] at h
        cases h
      | none =>
        rw [cutAtColon?_text_none hcut, Option.map_eq_none_iff] at h
        exact ⟨fun hmem => cutAt?_eq_none hcut (char_mem_map.1 hmem), ih h⟩

/-- A cut is at the first colon, and what it leaves on either side has no texts beside each
other. -/
theorem exists_of_cutAtColon? (hapart : Apart pieces) {key value : List Piece}
    (h : cutAtColon? pieces = some (key, value)) :
    Apart key ∧ Apart value ∧ signs pieces = signs key ++ .char ':' :: signs value ∧
      Sign.char ':' ∉ signs key ∧
      ∀ p ∈ key.head?, ∃ q ∈ pieces.head?, p.isText = q.isText := by
  induction pieces generalizing key with
  | nil => cases h
  | cons p rest ih =>
    cases p with
    | mustache m =>
      rw [cutAtColon?_mustache] at h
      obtain ⟨⟨key, value⟩, hrest, hpair⟩ := Option.map_eq_some_iff.1 h
      cases hpair
      obtain ⟨hkey, hvalue, hsigns, hcolon, -⟩ := ih (apart_mustache_cons.1 hapart) hrest
      refine ⟨apart_mustache_cons.2 hkey, hvalue, ?_, ?_, fun p hp => ⟨_, rfl, ?_⟩⟩
      · rw [signs_cons, hsigns, signs_cons, List.append_assoc]
      · rw [signs_cons, List.mem_append, not_or]
        exact ⟨by simp [Piece.signs], hcolon⟩
      · exact congrArg Piece.isText (Option.some.inj hp).symm
    | text cs =>
      obtain ⟨hhead, hrestApart⟩ := apart_text_cons.1 hapart
      cases hcut : Text.cutAt? [':'] cs with
      | some found =>
        obtain ⟨before, after⟩ := found
        rw [cutAtColon?_text_some hcut] at h
        cases h
        obtain ⟨rfl, hcolon⟩ := eq_of_cutAt? hcut
        refine ⟨List.isChain_singleton _, apart_text_cons.2 ⟨hhead, hrestApart⟩, ?_, ?_,
          fun p hp => ⟨_, rfl, ?_⟩⟩
        · simp [Piece.signs]
        · simpa [Piece.signs] using hcolon
        · cases hp
          rfl
      | none =>
        rw [cutAtColon?_text_none hcut] at h
        obtain ⟨⟨key, value⟩, hrest, hpair⟩ := Option.map_eq_some_iff.1 h
        cases hpair
        obtain ⟨hkey, hvalue, hsigns, hcolon, hkeyHead⟩ := ih hrestApart hrest
        refine ⟨apart_text_cons.2 ⟨fun p hp => ?_, hkey⟩, hvalue, ?_, ?_, fun p hp => ⟨_, rfl, ?_⟩⟩
        · obtain ⟨q, hq, heq⟩ := hkeyHead p hp
          rw [heq]
          exact hhead q hq
        · rw [signs_cons, hsigns, signs_cons, List.append_assoc]
        · rw [signs_cons, List.mem_append, not_or]
          exact ⟨fun hmem => cutAt?_eq_none hcut (char_mem_map.1 hmem), hcolon⟩
        · exact congrArg Piece.isText (Option.some.inj hp).symm

/-! ### Semicolons -/

def markSigns : Option Piece → List Sign
  | none => [.char ';']
  | some p => p.signs

def isTextMark (mark : Option Piece) : Bool := mark.any Piece.isText

/-- No text stands beside another one, unless a semicolon is between them. -/
def MarksApart (marks : List (Option Piece)) : Prop :=
  marks.IsChain fun a b => (isTextMark a && isTextMark b) = false

theorem declarations_none (marks : List (Option Piece)) :
    declarations (none :: marks) = [] :: declarations marks := rfl

theorem declarations_some {marks : List (Option Piece)} {first : List Piece}
    {others : List (List Piece)} (h : declarations marks = first :: others) (p : Piece) :
    declarations (some p :: marks) = (p :: first) :: others := by
  rw [declarations, h]

theorem intercalate_append {α : Type} (sep xs ys : List α) (lists : List (List α)) :
    sep.intercalate ((xs ++ ys) :: lists) = xs ++ sep.intercalate (ys :: lists) := by
  cases lists with
  | nil => simp
  | cons next lists => simp [List.intercalate_cons_cons]

/-- Declarations are what is between the semicolons. -/
theorem exists_declarations {marks : List (Option Piece)} (hapart : MarksApart marks)
    (hsep : ∀ p, some p ∈ marks → Sign.char ';' ∉ p.signs) :
    ∃ first others, declarations marks = first :: others ∧
      (∀ p ∈ first.head?, marks.head? = some (some p)) ∧
      (∀ pieces ∈ first :: others, Apart pieces ∧ Sign.char ';' ∉ signs pieces) ∧
      [Sign.char ';'].intercalate ((first :: others).map signs) = marks.flatMap markSigns := by
  induction marks with
  | nil =>
    refine ⟨[], [], rfl, nofun, fun pieces hpieces => ?_, rfl⟩
    obtain rfl := List.mem_singleton.1 hpieces
    exact ⟨List.isChain_nil, List.not_mem_nil⟩
  | cons mark marks ih =>
    obtain ⟨hbeside, hmarks⟩ := List.isChain_cons.1 hapart
    obtain ⟨first, others, hdeclarations, hhead, hpieces, hsigns⟩ :=
      ih hmarks fun p hp => hsep p (List.mem_cons_of_mem _ hp)
    cases mark with
    | none =>
      refine ⟨[], first :: others, ?_, nofun, fun pieces hmem => ?_, ?_⟩
      · rw [declarations_none, hdeclarations]
      · rcases List.mem_cons.1 hmem with rfl | hmem
        · exact ⟨List.isChain_nil, List.not_mem_nil⟩
        · exact hpieces pieces hmem
      · rw [List.map_cons] at hsigns
        rw [List.map_cons, List.map_cons, List.intercalate_cons_cons, hsigns, signs_nil,
          List.nil_append]
        rfl
    | some p =>
      obtain ⟨hfirst, hothers⟩ := List.forall_mem_cons.1 hpieces
      refine ⟨p :: first, others, declarations_some hdeclarations p, ?_, fun pieces hmem => ?_, ?_⟩
      · rintro q ⟨⟩
        rfl
      · rcases List.mem_cons.1 hmem with rfl | hmem
        · refine ⟨List.isChain_cons.2 ⟨fun q hq => hbeside (some q) (hhead q hq), hfirst.1⟩, ?_⟩
          rw [signs_cons, List.mem_append, not_or]
          exact ⟨hsep p List.mem_cons_self, hfirst.2⟩
        · exact hothers pieces hmem
      · rw [List.map_cons] at hsigns
        rw [List.map_cons, signs_cons, intercalate_append, hsigns]
        rfl

/-! ### The marks of the parts -/

def Piece.toStatement : Piece → Statement
  | .text cs => .text (String.ofList cs)
  | .mustache m => .mustache m

def joinMarks : List (List Char) → List (Option Piece)
  | [] => []
  | first :: rest => piecesOfText first ++ rest.flatMap fun cs => none :: piecesOfText cs

def Piece.marks : Piece → List (Option Piece)
  | .text cs => joinMarks (Text.splitOn ';' cs)
  | .mustache m => [some (.mustache m)]

theorem pieces_toStatement (p : Piece) : Style.pieces p.toStatement = .ok p.marks := by
  cases p with
  | mustache m => rfl
  | text cs =>
    rw [Piece.toStatement, Style.pieces, String.toList_ofList, Piece.marks]
    cases Text.splitOn ';' cs with
    | nil => rfl
    | cons first rest => rfl

theorem joinMarks_cons_cons (first next : List Char) (rest : List (List Char)) :
    joinMarks (first :: next :: rest) =
      piecesOfText first ++ none :: joinMarks (next :: rest) := rfl

theorem piecesOfText_cases (cs : List Char) :
    (cs = [] ∧ piecesOfText cs = []) ∨ piecesOfText cs = [some (.text cs)] := by
  cases cs with
  | nil => exact .inl ⟨rfl, rfl⟩
  | cons c cs => exact .inr rfl

theorem flatMap_piecesOfText (cs : List Char) :
    (piecesOfText cs).flatMap markSigns = cs.map Sign.char := by
  rcases piecesOfText_cases cs with ⟨rfl, hpieces⟩ | hpieces
  · rfl
  · rw [hpieces, List.flatMap_singleton]
    rfl

theorem flatMap_joinMarks (texts : List (List Char)) :
    (joinMarks texts).flatMap markSigns = (Text.joinWith ';' texts).map Sign.char := by
  match texts with
  | [] => rfl
  | [cs] =>
    rw [joinMarks, List.flatMap_nil, List.append_nil, flatMap_piecesOfText]
    rfl
  | first :: next :: rest =>
    rw [joinMarks_cons_cons, List.flatMap_append, List.flatMap_cons, flatMap_piecesOfText,
      flatMap_joinMarks (next :: rest), Text.joinWith_cons_of_ne_nil (List.cons_ne_nil next rest),
      List.map_append, List.map_cons]
    rfl

theorem marksApart_joinMarks (texts : List (List Char)) : MarksApart (joinMarks texts) := by
  have hone : ∀ cs, MarksApart (piecesOfText cs) := fun cs => by
    rcases piecesOfText_cases cs with ⟨-, hpieces⟩ | hpieces
    · rw [hpieces]
      exact List.isChain_nil
    · rw [hpieces]
      exact List.isChain_singleton _
  match texts with
  | [] => exact List.isChain_nil
  | [cs] =>
    rw [joinMarks, List.flatMap_nil, List.append_nil]
    exact hone cs
  | first :: next :: rest =>
    rw [joinMarks_cons_cons]
    refine (hone first).append (List.isChain_cons.2 ⟨fun _ _ => rfl,
      marksApart_joinMarks (next :: rest)⟩) fun a _ b hb => ?_
    cases hb
    exact Bool.and_false _

theorem semicolon_not_mem_of_mem_joinMarks {texts : List (List Char)}
    (h : ∀ cs ∈ texts, ';' ∉ cs) (hp : some p ∈ joinMarks texts) : Sign.char ';' ∉ p.signs := by
  have hone : ∀ cs, ';' ∉ cs → some p ∈ piecesOfText cs → Sign.char ';' ∉ p.signs := by
    intro cs hcs hp
    rcases piecesOfText_cases cs with ⟨-, hpieces⟩ | hpieces
    · rw [hpieces] at hp
      cases hp
    · rw [hpieces, List.mem_singleton] at hp
      cases hp
      exact fun hmem => hcs (char_mem_map.1 hmem)
  match texts, hp with
  | [cs], hp =>
    rw [joinMarks, List.flatMap_nil, List.append_nil] at hp
    exact hone cs (h cs List.mem_cons_self) hp
  | first :: next :: rest, hp =>
    obtain ⟨hfirst, hrest⟩ := List.forall_mem_cons.1 h
    rw [joinMarks_cons_cons, List.mem_append, List.mem_cons] at hp
    rcases hp with hp | hp | hp
    · exact hone first hfirst hp
    · cases hp
    · exact semicolon_not_mem_of_mem_joinMarks hrest hp

theorem Piece.flatMap_marks (p : Piece) : p.marks.flatMap markSigns = p.signs := by
  cases p with
  | mustache m => rfl
  | text cs => rw [Piece.marks, flatMap_joinMarks, Text.joinWith_splitOn, Piece.signs]

theorem Piece.semicolon_not_mem (h : some q ∈ p.marks) : Sign.char ';' ∉ q.signs := by
  cases p with
  | mustache m =>
    cases List.mem_singleton.1 h
    simp [Piece.signs]
  | text cs =>
    exact semicolon_not_mem_of_mem_joinMarks (fun _ => Text.not_mem_of_mem_splitOn) h

theorem marksApart_flatMap (h : Apart pieces) : MarksApart (pieces.flatMap Piece.marks) := by
  induction pieces with
  | nil => exact List.isChain_nil
  | cons p rest ih =>
    rw [List.flatMap_cons]
    cases p with
    | mustache m => exact List.isChain_cons.2 ⟨fun _ _ => rfl, ih (apart_mustache_cons.1 h)⟩
    | text cs =>
      obtain ⟨hhead, hrest⟩ := apart_text_cons.1 h
      refine (marksApart_joinMarks _).append (ih hrest) fun a _ b hb => ?_
      rcases eq_nil_or_mustache hhead with rfl | ⟨m, rest, rfl⟩
      · cases hb
      · cases hb
        exact Bool.and_false _

theorem mapM_pieces (pieces : List Piece) :
    (pieces.map Piece.toStatement).mapM Style.pieces = .ok (pieces.map Piece.marks) := by
  induction pieces with
  | nil => rfl
  | cons p pieces ih =>
    rw [List.map_cons, List.mapM_cons, pieces_toStatement, ih]
    rfl

/-- The parts of a value are cut into declarations at its semicolons. -/
theorem declarations_of_parts (h : Apart pieces) :
    (∀ found ∈ declarations (pieces.flatMap Piece.marks),
      Apart found ∧ Sign.char ';' ∉ signs found) ∧
      declarations (pieces.flatMap Piece.marks) ≠ [] ∧
      [Sign.char ';'].intercalate ((declarations (pieces.flatMap Piece.marks)).map signs) =
        signs pieces := by
  obtain ⟨first, others, hdeclarations, -, hfound, hsigns⟩ :=
    exists_declarations (marksApart_flatMap h) fun p hp => by
      obtain ⟨q, -, hp⟩ := List.mem_flatMap.1 hp
      exact Piece.semicolon_not_mem hp
  rw [hdeclarations]
  refine ⟨hfound, List.cons_ne_nil _ _, hsigns.trans ?_⟩
  rw [List.flatMap_assoc, signs]
  exact List.flatMap_congr fun p _ => p.flatMap_marks

end MustacheJsx.Style
