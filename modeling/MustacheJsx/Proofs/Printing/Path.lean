import MustacheJsx.Mustache.Expression

/-!
# Printed paths

A path is printed as its mark, a `../` for every step up, and its segments between dots. What is
printed of a plain path is one token, no literal, and is read as the path: `ofToken?_printed`.
-/

namespace MustacheJsx

/-! ### Characters of names -/

def isNameChar (c : Char) : Bool := Text.isAsciiAlphanumeric c || c == '_' || c == '$'

theorem ne_of_isNameChar {c d : Char} (hc : isNameChar c = true) (hd : isNameChar d = false) :
    c ≠ d := by
  intro h
  rw [h, hd] at hc
  cases hc

theorem toNat_of_isAsciiLetter {c : Char} (h : Text.isAsciiLetter c = true) :
    65 ≤ c.toNat ∧ c.toNat ≤ 90 ∨ 97 ≤ c.toNat ∧ c.toNat ≤ 122 := by
  simp only [Text.isAsciiLetter, Bool.or_eq_true, Bool.and_eq_true, decide_eq_true_eq,
    Char.le_def, UInt32.le_iff_toNat_le] at h
  change 97 ≤ c.toNat ∧ c.toNat ≤ 122 ∨ 65 ≤ c.toNat ∧ c.toNat ≤ 90 at h
  omega

theorem toNat_of_isAsciiDigit {c : Char} (h : Text.isAsciiDigit c = true) :
    48 ≤ c.toNat ∧ c.toNat ≤ 57 := by
  simp only [Text.isAsciiDigit, Bool.and_eq_true, decide_eq_true_eq, Char.le_def,
    UInt32.le_iff_toNat_le] at h
  change 48 ≤ c.toNat ∧ c.toNat ≤ 57 at h
  exact h

theorem toNat_of_isNameChar {c : Char} (h : isNameChar c = true) :
    33 ≤ c.toNat ∧ c.toNat ≤ 122 := by
  simp only [isNameChar, Text.isAsciiAlphanumeric, Bool.or_eq_true, beq_iff_eq] at h
  rcases h with ((h | h) | rfl) | rfl
  · have := toNat_of_isAsciiLetter h
    omega
  · have := toNat_of_isAsciiDigit h
    omega
  · decide
  · decide

theorem isBlank_eq_false {c : Char} (h : 33 ≤ c.toNat ∧ c.toNat ≤ 126) :
    Text.isBlank c = false := by
  simp only [Text.isBlank, Bool.or_eq_false_iff, Bool.and_eq_false_iff, decide_eq_false_iff_not,
    beq_eq_false_iff_ne]
  omega

/-- A word such as a plain identifier: no digit stands first. -/
structure IsWord (cs : List Char) : Prop where
  ne_nil : cs ≠ []
  chars : ∀ c ∈ cs, isNameChar c = true
  start : ∀ c ∈ cs.head?, Text.isAsciiDigit c = false

theorem isWord_of_isIdentifier {cs : List Char} (h : Text.isIdentifier cs = true) : IsWord cs := by
  cases cs with
  | nil => cases h
  | cons c cs =>
    simp only [Text.isIdentifier, Bool.and_eq_true, List.all_eq_true] at h
    obtain ⟨hstart, hrest⟩ := h
    simp only [Bool.or_eq_true, beq_iff_eq] at hstart
    refine ⟨List.cons_ne_nil _ _, fun d hd => ?_, fun d hd => ?_⟩
    · rcases List.mem_cons.1 hd with rfl | hd
      · simp only [isNameChar, Text.isAsciiAlphanumeric, Bool.or_eq_true, beq_iff_eq]
        rcases hstart with (hstart | hstart) | hstart
        · exact Or.inl (Or.inl (Or.inl hstart))
        · exact Or.inl (Or.inr hstart)
        · exact Or.inr hstart
      · exact hrest d hd
    · cases hd
      rcases hstart with (hstart | rfl) | rfl
      · have hletter := toNat_of_isAsciiLetter hstart
        cases hdigit : Text.isAsciiDigit c with
        | false => rfl
        | true =>
          have := toNat_of_isAsciiDigit hdigit
          omega
      · decide
      · decide

def isTokenChar (c : Char) : Bool := isNameChar c || c == '.' || c == '/' || c == '@'

theorem IsWord.isTokenChar {cs : List Char} (h : IsWord cs) :
    ∀ c ∈ cs, isTokenChar c = true := by
  intro c hc
  simp [MustacheJsx.isTokenChar, h.chars c hc]

theorem ne_of_isTokenChar {c d : Char} (hc : isTokenChar c = true) (hd : isTokenChar d = false) :
    c ≠ d := by
  intro h
  rw [h, hd] at hc
  cases hc

theorem toNat_of_isTokenChar {c : Char} (h : isTokenChar c = true) :
    33 ≤ c.toNat ∧ c.toNat ≤ 126 := by
  simp only [isTokenChar, Bool.or_eq_true, beq_iff_eq] at h
  rcases h with ((h | rfl) | rfl) | rfl
  · have := toNat_of_isNameChar h
    omega
  · decide
  · decide
  · decide

/-- What follows a word does not go on with it. -/
def EndsWord (cs : List Char) : Prop := ∀ c ∈ cs.head?, isNameChar c = false

theorem takeWhile_word {word rest : List Char} (hw : ∀ c ∈ word, isNameChar c = true)
    (hrest : EndsWord rest) : (word ++ rest).takeWhile isNameChar = word := by
  rw [List.takeWhile_append_of_pos hw]
  cases rest with
  | nil => simp
  | cons c cs =>
    have hc := hrest c rfl
    simp [hc]

/-! ### Printing -/

namespace Path

def printed (path : Path) : List Char :=
  (if path.data then ['@'] else []) ++ (List.replicate path.depth ['.', '.', '/']).flatten ++
    Text.joinWith '.' (path.parts.map String.toList)

def lead (path : Path) : List Char :=
  (if path.data then ['@'] else []) ++ (List.replicate path.depth ['.', '.', '/']).flatten

/-- The words that are no path where an expression may stand. -/
def keywords : List String := ["this", "else", "true", "false", "null", "undefined"]

/-- A path of plain identifiers that is written as it is printed. -/
def isPlain (path : Path) : Bool :=
  path.spelling == String.ofList path.printed &&
    path.parts.all (fun part => Text.isIdentifier part.toList) &&
    !path.printed.isEmpty && path.parts.head?.all fun part => !keywords.contains part

/-! ### Segments -/

theorem segmentsAfter_word {word : List Char} (hw : ∀ c ∈ word, isNameChar c = true)
    (current rest : List Char) :
    segmentsAfter current false (word ++ rest) =
      segmentsAfter (word.reverse ++ current) false rest := by
  induction word generalizing current with
  | nil => rfl
  | cons c word ih =>
    have hc : isNameChar c = true := hw c List.mem_cons_self
    have hbracket : c ≠ '[' := ne_of_isNameChar hc (by decide)
    have hdot : c ≠ '.' := ne_of_isNameChar hc (by decide)
    have hslash : c ≠ '/' := ne_of_isNameChar hc (by decide)
    rw [List.cons_append, segmentsAfter]
    simp only [Bool.false_eq_true, if_false, hbracket, hdot, hslash, or_self]
    rw [ih fun d hd => hw d (List.mem_cons_of_mem _ hd)]
    simp

theorem segmentsAfter_joinWith {word : List Char} {words : List (List Char)}
    (hwords : ∀ w ∈ word :: words, IsWord w) :
    segmentsAfter [] false (Text.joinWith '.' (word :: words)) =
      some ((word :: words).map String.ofList) := by
  induction words generalizing word with
  | nil =>
    have hword := hwords word List.mem_cons_self
    have hread := segmentsAfter_word hword.chars [] []
    rw [List.append_nil, List.append_nil] at hread
    rw [Text.joinWith, hread, segmentsAfter]
    simp [hword.ne_nil]
  | cons next words ih =>
    have hword := hwords word List.mem_cons_self
    have hrest := ih fun w hw => hwords w (List.mem_cons_of_mem _ hw)
    have hread := segmentsAfter_word hword.chars [] ('.' :: Text.joinWith '.' (next :: words))
    rw [List.append_nil] at hread
    rw [Text.joinWith, hread, segmentsAfter, hrest]
    · simp [hword.ne_nil]
    · simp

theorem spelling_of_isPlain {path : Path} (h : path.isPlain = true) :
    path.spelling = String.ofList path.printed := by
  simp only [isPlain, Bool.and_eq_true, beq_iff_eq] at h
  exact h.1.1.1

theorem words_of_isPlain {path : Path} (h : path.isPlain = true) :
    ∀ w ∈ path.parts.map String.toList, IsWord w := by
  intro w hw
  obtain ⟨part, hpart, rfl⟩ := List.mem_map.1 hw
  simp only [isPlain, Bool.and_eq_true, List.all_eq_true] at h
  exact isWord_of_isIdentifier (h.1.1.2 part hpart)

theorem exists_joinWith_eq (word : List Char) (words : List (List Char)) :
    ∃ rest, Text.joinWith '.' (word :: words) = word ++ rest ∧ EndsWord rest := by
  cases words with
  | nil => exact ⟨[], by simp [Text.joinWith], by simp [EndsWord]⟩
  | cons next words =>
    refine ⟨'.' :: Text.joinWith '.' (next :: words), rfl, fun c hc => ?_⟩
    cases hc
    decide

/-! ### Head markers -/

theorem parentSteps_replicate (depth : Nat) {cs : List Char} (h : ∀ c ∈ cs.head?, c ≠ '.') :
    parentSteps ((List.replicate depth ['.', '.', '/']).flatten ++ cs) = (depth, cs) := by
  induction depth with
  | zero =>
    show parentSteps cs = (0, cs)
    unfold parentSteps
    split
    · exact absurd rfl (h '.' rfl)
    · exact absurd rfl (h '.' rfl)
    · rfl
  | succ depth ih =>
    rw [List.replicate_succ, List.flatten_cons]
    simp only [List.cons_append, List.nil_append]
    rw [parentSteps, ih]

theorem afterThis_word {word rest : List Char} (hw : IsWord word) (hrest : EndsWord rest)
    (hthis : word ≠ "this".toList) : afterThis (word ++ rest) = word ++ rest := by
  have hword := takeWhile_word hw.chars hrest
  unfold afterThis
  split
  · next h =>
    rw [h] at hword
    exact absurd hword.symm hw.ne_nil
  · next h =>
    rw [h] at hword
    exact absurd hword.symm hthis
  · next h =>
    rw [h] at hword
    exact absurd hword.symm hw.ne_nil
  · next h =>
    rw [h] at hword
    exact absurd hword.symm hthis
  · next h =>
    rw [h] at hword
    exact absurd hword.symm hthis
  · rfl

theorem dataMark_of_ne {cs : List Char} (h : ∀ c ∈ cs.head?, c ≠ '@') :
    dataMark cs = (false, cs) := by
  unfold dataMark
  split
  · exact absurd rfl (h '@' rfl)
  · rfl

theorem ofToken?_lead (path : Path) {cs : List Char} (hmark : ∀ c ∈ cs.head?, c ≠ '@')
    (hstep : ∀ c ∈ cs.head?, c ≠ '.') (id : Nat) :
    ofToken? id (path.lead ++ cs) = (segments? (afterThis cs)).map fun parts =>
      { id, spelling := String.ofList (path.lead ++ cs), parts, data := path.data,
        depth := path.depth } := by
  have hsteps := parentSteps_replicate path.depth hstep
  have hdata : dataMark (path.lead ++ cs) = (path.data,
      (List.replicate path.depth ['.', '.', '/']).flatten ++ cs) := by
    rw [lead, List.append_assoc]
    cases path.data with
    | true => rfl
    | false =>
      refine dataMark_of_ne fun c hc => ?_
      cases hdepth : path.depth with
      | zero =>
        rw [hdepth] at hc
        exact hmark c hc
      | succ depth =>
        rw [hdepth, List.replicate_succ] at hc
        cases hc
        decide
  rw [ofToken?, hdata]
  dsimp only
  rw [hsteps]

/-! ### Reading what is printed -/

def printedParts (path : Path) : List Char := Text.joinWith '.' (path.parts.map String.toList)

theorem printed_eq (path : Path) :
    path.printed = (if path.data then ['@'] else []) ++
      ((List.replicate path.depth ['.', '.', '/']).flatten ++ path.printedParts) := by
  rw [printed, printedParts, List.append_assoc]

theorem printed_eq_lead (path : Path) : path.printed = path.lead ++ path.printedParts := rfl

theorem printedParts_cases {path : Path} (h : path.isPlain = true) :
    path.parts = [] ∨ ∃ word rest, path.printedParts = word ++ rest ∧ IsWord word ∧ EndsWord rest ∧
      ∀ keyword ∈ keywords, word ≠ keyword.toList := by
  have hwords := words_of_isPlain h
  cases hparts : path.parts with
  | nil => exact Or.inl rfl
  | cons part parts =>
    obtain ⟨rest, hjoin, hrest⟩ := exists_joinWith_eq part.toList (parts.map String.toList)
    have hword := hwords part.toList (by simp [hparts])
    refine Or.inr ⟨part.toList, rest, ?_, hword, hrest, fun keyword hk heq => ?_⟩
    · rw [printedParts, hparts, List.map_cons, hjoin]
    · simp only [isPlain, Bool.and_eq_true, hparts, List.head?_cons, Option.all_some] at h
      have hnot := h.2
      rw [String.toList_inj.1 heq] at hnot
      simp [hk] at hnot

theorem head_printedParts_ne {path : Path} (h : path.isPlain = true) {d : Char}
    (hd : isNameChar d = false) : ∀ c ∈ path.printedParts.head?, c ≠ d := by
  intro c hc
  rcases printedParts_cases h with hparts | ⟨word, rest, hword, hw, -⟩
  · rw [printedParts, hparts] at hc
    cases hc
  · cases word with
    | nil => exact absurd rfl hw.ne_nil
    | cons e word =>
      rw [hword] at hc
      cases hc
      exact ne_of_isNameChar (hw.chars c List.mem_cons_self) hd

theorem segments?_printedParts {path : Path} (h : path.isPlain = true) :
    segments? (afterThis path.printedParts) = some path.parts := by
  have hwords := words_of_isPlain h
  have hafter : afterThis path.printedParts = path.printedParts := by
    rcases printedParts_cases h with hparts | ⟨word, rest, hword, hw, hrest, hkeyword⟩
    · rw [printedParts, hparts]
      rfl
    · rw [hword]
      exact afterThis_word hw hrest (hkeyword "this" (by decide))
  rw [hafter]
  cases hparts : path.parts with
  | nil =>
    rw [printedParts, hparts]
    rfl
  | cons part parts =>
    rw [hparts] at hwords
    have hread := segmentsAfter_joinWith hwords
    have hmap : ((part :: parts).map String.toList).map String.ofList = part :: parts := by
      simp
    rw [← List.map_cons, hmap] at hread
    rw [printedParts, hparts]
    obtain ⟨rest, hjoin, -⟩ := exists_joinWith_eq part.toList (parts.map String.toList)
    rw [← List.map_cons] at hjoin
    have hne := (hwords part.toList (by simp)).ne_nil
    cases hchars : part.toList with
    | nil => exact absurd hchars hne
    | cons c cs =>
      rw [hchars, List.cons_append] at hjoin
      rw [hjoin] at hread ⊢
      exact hread

/-- A printed path is read as it is, under the number that is handed out for it. -/
theorem ofToken?_printed {path : Path} (h : path.isPlain = true) (id : Nat) :
    ofToken? id path.printed = some { path with id } := by
  have hread := ofToken?_lead path (head_printedParts_ne h (by decide))
    (head_printedParts_ne h (by decide)) id
  rw [segments?_printedParts h, ← printed_eq_lead, ← spelling_of_isPlain h] at hread
  exact hread

/-! ### A printed path is a token -/

theorem isTokenChar_of_mem_joinWith {words : List (List Char)}
    (hwords : ∀ w ∈ words, ∀ c ∈ w, isNameChar c = true) :
    ∀ c ∈ Text.joinWith '.' words, isTokenChar c = true := by
  have hname : ∀ c, isNameChar c = true → isTokenChar c = true := by
    intro c hc
    simp [isTokenChar, hc]
  induction words with
  | nil =>
    intro c hc
    cases hc
  | cons word words ih =>
    have hword := hwords word List.mem_cons_self
    cases words with
    | nil =>
      intro c hc
      exact hname c (hword c hc)
    | cons next words =>
      intro c hc
      rw [Text.joinWith, List.mem_append, List.mem_cons] at hc
      rcases hc with hc | rfl | hc
      · exact hname c (hword c hc)
      · decide
      · exact ih (fun w hw => hwords w (List.mem_cons_of_mem _ hw)) c hc
      · simp

theorem isTokenChar_of_mem_lead (path : Path) : ∀ c ∈ path.lead, isTokenChar c = true := by
  intro c hc
  rw [lead, List.mem_append] at hc
  rcases hc with hc | hc
  · split at hc
    · cases List.mem_singleton.1 hc
      decide
    · cases hc
  · obtain ⟨step, hstep, hc⟩ := List.mem_flatten.1 hc
    cases List.eq_of_mem_replicate hstep
    simp only [List.mem_cons, List.not_mem_nil, or_false] at hc
    rcases hc with rfl | rfl | rfl
    · decide
    · decide
    · decide

theorem isTokenChar_of_mem_printed {path : Path} (h : path.isPlain = true) :
    ∀ c ∈ path.printed, isTokenChar c = true := by
  intro c hc
  rw [printed_eq_lead, List.mem_append] at hc
  rcases hc with hc | hc
  · exact isTokenChar_of_mem_lead path c hc
  · exact isTokenChar_of_mem_joinWith (fun w hw => (words_of_isPlain h w hw).chars) c hc

theorem printed_ne_nil {path : Path} (h : path.isPlain = true) : path.printed ≠ [] := by
  simp only [isPlain, Bool.and_eq_true, Bool.not_eq_true', List.isEmpty_eq_false_iff] at h
  exact h.1.2

/-- A printed path begins with a mark, a step, or the first of its segments. -/
theorem printed_cases {path : Path} (h : path.isPlain = true) :
    (∃ rest, path.printed = '@' :: rest) ∨ (∃ rest, path.printed = '.' :: rest) ∨
      ∃ word rest, path.printed = word ++ rest ∧ IsWord word ∧ EndsWord rest ∧
        ∀ keyword ∈ keywords, word ≠ keyword.toList := by
  have hprinted := printed_eq path
  cases hdata : path.data with
  | true =>
    rw [hdata] at hprinted
    exact Or.inl ⟨_, hprinted⟩
  | false =>
    cases hdepth : path.depth with
    | succ depth =>
      rw [hdata, hdepth, List.replicate_succ] at hprinted
      exact Or.inr (Or.inl ⟨_, hprinted⟩)
    | zero =>
      rw [hdata, hdepth] at hprinted
      have hparts : path.printed = path.printedParts := hprinted
      rcases printedParts_cases h with hnil | hword
      · rw [printedParts, hnil] at hparts
        exact absurd hparts (printed_ne_nil h)
      · rw [hparts]
        exact Or.inr (Or.inr hword)

theorem printed_ne_keyword {path : Path} (h : path.isPlain = true) {keyword : String}
    (hk : keyword ∈ keywords) : path.printed ≠ keyword.toList := by
  have hidentifier : ∀ keyword ∈ keywords, Text.isIdentifier keyword.toList = true := by decide
  have hkeyword := isWord_of_isIdentifier (hidentifier keyword hk)
  have hhead : ∀ c ∈ keyword.toList.head?, isNameChar c = true :=
    fun c hc => hkeyword.chars c (List.mem_of_mem_head? hc)
  intro heq
  rcases printed_cases h with ⟨rest, hp⟩ | ⟨rest, hp⟩ | ⟨word, rest, hp, hw, hrest, hne⟩
  · have hc := hhead '@' (by rw [← heq, hp]; rfl)
    cases hc
  · have hc := hhead '.' (by rw [← heq, hp]; rfl)
    cases hc
  · have hnothing : EndsWord [] := by simp [EndsWord]
    have hall := takeWhile_word hkeyword.chars hnothing
    rw [List.append_nil, ← heq, hp, takeWhile_word hw.chars hrest] at hall
    exact hne keyword hk (by rw [hall, ← hp, heq])

end Path

end MustacheJsx
