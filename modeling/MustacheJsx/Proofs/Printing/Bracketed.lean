import MustacheJsx.Proofs.Printing.Tag

/-!
# Mustaches with segments between brackets

A segment between brackets may hold any character but `]`. So every path has a printed form in which
each segment stands between brackets, and `this` stands for no segments. A mustache that is printed
so is read back with any text in its paths and strings, and its paths get consecutive numbers:
`Tag.read_bracketed`.
-/

namespace MustacheJsx

/-! ### Printing -/

def bracketedSegment (segment : List Char) : List Char := '[' :: (segment ++ [']'])

namespace Path

/-- The segments of a path between brackets, or the word for none. -/
def bracketedParts (path : Path) : List Char :=
  if path.parts.isEmpty then "this".toList
  else Text.joinWith '.' ((path.parts.map String.toList).map bracketedSegment)

def bracketed (path : Path) : List Char := path.lead ++ path.bracketedParts

/-- Every segment has a character, and none is a closing bracket. -/
def isBracketable (path : Path) : Bool :=
  path.parts.all fun part => !part.isEmpty && !part.toList.contains ']'

/-- A path without its number and its spelling. -/
def unspelled (path : Path) : Path := { path with id := 0, spelling := "" }

end Path

/-! ### Segments -/

/-- What stands between two brackets. -/
structure IsSegment (segment : List Char) : Prop where
  ne_nil : segment ≠ []
  closed : ∀ c ∈ segment, c ≠ ']'

theorem Path.isSegment_of_isBracketable {path : Path} (h : path.isBracketable = true) :
    ∀ part ∈ path.parts, IsSegment part.toList := by
  intro part hpart
  simp only [isBracketable, List.all_eq_true, Bool.and_eq_true, Bool.not_eq_true'] at h
  obtain ⟨hne, hclosed⟩ := h part hpart
  refine ⟨fun hnil => ?_, fun c hc heq => ?_⟩
  · rw [String.toList_eq_nil_iff.1 hnil] at hne
    cases hne
  · rw [heq] at hc
    rw [List.contains_eq_mem, decide_eq_false_iff_not] at hclosed
    exact hclosed hc

namespace Expression

theorem unbroken_bracketedSegment {segment : List Char} (h : ∀ c ∈ segment, c ≠ ']') :
    Unbroken (bracketedSegment segment) := by
  have hinside : ∀ rest, takeToken true (segment ++ ']' :: rest) =
      (segment ++ ']' :: (takeToken false rest).1, (takeToken false rest).2) := by
    intro rest
    induction segment with
    | nil =>
      rw [List.nil_append, takeToken]
      rfl
    | cons c segment ih =>
      have hc := h c List.mem_cons_self
      rw [List.cons_append, takeToken, bne_iff_ne.2 hc,
        ih fun d hd => h d (List.mem_cons_of_mem _ hd)]
      rfl
  intro rest
  rw [bracketedSegment, List.cons_append, List.append_assoc, List.singleton_append, takeToken,
    hinside]
  simp

theorem unbroken_joinWith {words : List (List Char)} (h : ∀ word ∈ words, Unbroken word) :
    Unbroken (Text.joinWith '.' words) := by
  induction words with
  | nil => exact unbroken_nil
  | cons word words ih =>
    have hword := h word List.mem_cons_self
    have hrest := ih fun w hw => h w (List.mem_cons_of_mem _ hw)
    cases words with
    | nil => exact hword
    | cons next words =>
      have hdot : Unbroken ['.'] := unbroken_singleton (by decide) (by decide)
      exact hword.append (hdot.append hrest)

end Expression

namespace Path

theorem segmentsAfter_segment {segment : List Char} (h : ∀ c ∈ segment, c ≠ ']')
    (current rest : List Char) :
    segmentsAfter current false (bracketedSegment segment ++ rest) =
      segmentsAfter (segment.reverse ++ current) false rest := by
  have hinside : ∀ current, segmentsAfter current true (segment ++ ']' :: rest) =
      segmentsAfter (segment.reverse ++ current) false rest := by
    induction segment with
    | nil =>
      intro current
      rw [List.nil_append, segmentsAfter]
      simp
    | cons c segment ih =>
      intro current
      have hc := h c List.mem_cons_self
      rw [List.cons_append, segmentsAfter]
      simp only [if_true, hc, if_false]
      rw [ih (fun d hd => h d (List.mem_cons_of_mem _ hd))]
      simp
  rw [bracketedSegment, List.cons_append, List.append_assoc, List.singleton_append,
    segmentsAfter]
  simp [hinside]

theorem segmentsAfter_bracketed {segment : List Char} {segments : List (List Char)}
    (h : ∀ s ∈ segment :: segments, IsSegment s) :
    segmentsAfter [] false (Text.joinWith '.' ((segment :: segments).map bracketedSegment)) =
      some ((segment :: segments).map String.ofList) := by
  induction segments generalizing segment with
  | nil =>
    have hsegment := h segment List.mem_cons_self
    have hread := segmentsAfter_segment hsegment.closed [] []
    rw [List.append_nil, List.append_nil] at hread
    rw [List.map_cons, List.map_nil, Text.joinWith, hread, segmentsAfter]
    simp [hsegment.ne_nil]
  | cons next segments ih =>
    have hsegment := h segment List.mem_cons_self
    have hrest := ih fun s hs => h s (List.mem_cons_of_mem _ hs)
    have hread := segmentsAfter_segment hsegment.closed []
      ('.' :: Text.joinWith '.' ((next :: segments).map bracketedSegment))
    rw [List.append_nil] at hread
    rw [List.map_cons, List.map_cons, Text.joinWith, ← List.map_cons, hread, segmentsAfter, hrest]
    · simp [hsegment.ne_nil]
    · simp

theorem afterThis_bracket (cs : List Char) : afterThis ('[' :: cs) = '[' :: cs := by
  unfold afterThis
  split
  · next heq => cases heq
  · next heq => cases heq
  · next heq => cases heq
  · next heq => cases heq
  · next heq => cases heq
  · rfl

/-! ### A path between brackets is a token -/

/-- A path between brackets stands for no segments, or begins its segments with a bracket. -/
theorem bracketedParts_cases (path : Path) :
    (path.parts = [] ∧ path.bracketedParts = "this".toList) ∨
      (path.parts ≠ [] ∧ ∃ rest, path.bracketedParts = '[' :: rest ∧
        path.bracketedParts = Text.joinWith '.' ((path.parts.map String.toList).map
          bracketedSegment)) := by
  unfold bracketedParts
  cases path.parts with
  | nil => exact Or.inl ⟨rfl, rfl⟩
  | cons part parts =>
    refine Or.inr ⟨List.cons_ne_nil _ _, ?_⟩
    obtain ⟨rest, hjoin, -⟩ := exists_joinWith_eq (bracketedSegment part.toList)
      ((parts.map String.toList).map bracketedSegment)
    exact ⟨_, hjoin, rfl⟩

theorem head_bracketedParts_ne (path : Path) {d : Char} (hbracket : d ≠ '[') (hword : d ≠ 't') :
    ∀ c ∈ path.bracketedParts.head?, c ≠ d := by
  intro c hc
  rcases bracketedParts_cases path with ⟨-, hparts⟩ | ⟨-, rest, hparts, -⟩
  · rw [hparts] at hc
    cases hc
    exact hword.symm
  · rw [hparts] at hc
    cases hc
    exact hbracket.symm

theorem segments?_bracketedParts {path : Path} (h : path.isBracketable = true) :
    segments? (afterThis path.bracketedParts) = some path.parts := by
  rcases bracketedParts_cases path with ⟨hnil, hparts⟩ | ⟨hne, rest, hrest, hjoin⟩
  · rw [hparts, hnil]
    rfl
  · have hsegments := isSegment_of_isBracketable h
    cases hparts : path.parts with
    | nil => exact absurd hparts hne
    | cons part parts =>
      rw [hparts] at hsegments hjoin
      have hwords : ∀ segment ∈ part.toList :: parts.map String.toList, IsSegment segment := by
        rw [← List.map_cons]
        intro segment hsegment
        obtain ⟨other, hother, rfl⟩ := List.mem_map.1 hsegment
        exact hsegments other hother
      have hread := segmentsAfter_bracketed hwords
      have hmap : ((part :: parts).map String.toList).map String.ofList = part :: parts := by
        simp
      rw [← List.map_cons, ← hjoin, hmap] at hread
      rw [hrest] at hread ⊢
      rw [afterThis_bracket]
      exact hread

theorem ofToken?_bracketed {path : Path} (h : path.isBracketable = true) (id : Nat) :
    ofToken? id path.bracketed =
      some { path with id, spelling := String.ofList path.bracketed } := by
  have hread := ofToken?_lead path (head_bracketedParts_ne path (by decide) (by decide))
    (head_bracketedParts_ne path (by decide) (by decide)) id
  rw [segments?_bracketedParts h] at hread
  exact hread

/-- A path between brackets is the word for the context, or begins with a character that no word
and no number begins with. -/
theorem bracketed_cases (path : Path) :
    path.bracketed = "this".toList ∨
      ∃ c cs, path.bracketed = c :: cs ∧ (c = '@' ∨ c = '.' ∨ c = '[') := by
  have hlead : path.lead = [] ∨ ∃ c cs, path.lead = c :: cs ∧ (c = '@' ∨ c = '.') := by
    unfold lead
    cases path.data with
    | true => exact Or.inr ⟨_, _, rfl, Or.inl rfl⟩
    | false =>
      cases path.depth with
      | zero => exact Or.inl rfl
      | succ depth => exact Or.inr ⟨_, _, rfl, Or.inr rfl⟩
  rw [bracketed]
  rcases hlead with hnil | ⟨c, cs, hcons, hc⟩
  · rw [hnil, List.nil_append]
    rcases bracketedParts_cases path with ⟨-, hparts⟩ | ⟨-, rest, hparts, -⟩
    · exact Or.inl hparts
    · exact Or.inr ⟨_, rest, hparts, Or.inr (Or.inr rfl)⟩
  · rw [hcons]
    refine Or.inr ⟨c, _, rfl, ?_⟩
    rcases hc with hc | hc
    · exact Or.inl hc
    · exact Or.inr (Or.inl hc)

theorem exists_bracketed_eq_cons (path : Path) :
    ∃ c cs, path.bracketed = c :: cs ∧ c ∈ ['@', '.', '[', 't'] := by
  rcases bracketed_cases path with hthis | ⟨c, cs, hcons, hc⟩
  · exact ⟨_, _, hthis, by decide⟩
  · refine ⟨c, cs, hcons, ?_⟩
    rcases hc with rfl | rfl | rfl
    · decide
    · decide
    · decide

end Path

namespace Expression

theorem literal?_eq_none {c : Char} (cs : List Char) (hdigit : Text.isAsciiDigit c = false)
    (hminus : c ≠ '-') (hword : ∀ keyword ∈ Path.keywords, keyword.toList.head? ≠ some c) :
    literal? (c :: cs) = none := by
  have hne : ∀ keyword ∈ Path.keywords, c :: cs ≠ keyword.toList := by
    intro keyword hk heq
    apply hword keyword hk
    rw [← heq]
    rfl
  rw [literal?, if_neg (hne "true" (by decide)), if_neg (hne "false" (by decide)),
    if_neg (hne "null" (by decide)), if_neg (hne "undefined" (by decide)),
    number?_eq_none hdigit hminus]
  rfl

theorem literal?_bracketed (path : Path) : literal? path.bracketed = none := by
  rcases path.bracketed_cases with hthis | ⟨c, cs, hcons, hc⟩
  · rw [hthis]
    decide
  · rw [hcons]
    rcases hc with rfl | rfl | rfl
    · exact literal?_eq_none cs (by decide) (by decide) (by decide)
    · exact literal?_eq_none cs (by decide) (by decide) (by decide)
    · exact literal?_eq_none cs (by decide) (by decide) (by decide)

theorem unbroken_bracketed {path : Path} (h : path.isBracketable = true) :
    Unbroken path.bracketed := by
  refine (unbroken_of_isTokenChar (Path.isTokenChar_of_mem_lead path)).append ?_
  rcases path.bracketedParts_cases with ⟨-, hparts⟩ | ⟨-, rest, -, hjoin⟩
  · rw [hparts]
    exact unbroken_of_isTokenChar (by decide)
  · rw [hjoin]
    refine unbroken_joinWith fun word hword => ?_
    obtain ⟨segment, hsegment, rfl⟩ := List.mem_map.1 hword
    obtain ⟨part, hpart, rfl⟩ := List.mem_map.1 hsegment
    exact unbroken_bracketedSegment (Path.isSegment_of_isBracketable h part hpart).closed

theorem takeKey?_bracketed (path : Path) {rest : List Char} (hrest : Follows rest) :
    takeKey? (path.bracketed ++ rest) = none := by
  have hlead := Path.isTokenChar_of_mem_lead path
  rcases path.bracketedParts_cases with ⟨-, hparts⟩ | ⟨-, more, hparts, -⟩
  · rw [Path.bracketed, hparts]
    refine takeKey?_token (fun c hc => ?_) hrest
    rcases List.mem_append.1 hc with hc | hc
    · exact hlead c hc
    · exact (by decide : ∀ c ∈ "this".toList, isTokenChar c = true) c hc
  · rw [Path.bracketed, hparts, List.append_assoc]
    exact takeKey?_append hlead
      (head?_dropWhile_of_not_key _ (by decide) (by decide) (by decide))

theorem isPathToken_bracketed {path : Path} (h : path.isBracketable = true) :
    IsPathToken path path.bracketed where
  begins := by
    have hbegins : ∀ c ∈ ['@', '.', '[', 't'], beginsToken c = true := by decide
    obtain ⟨c, cs, hcons, hc⟩ := path.exists_bracketed_eq_cons
    exact ⟨c, cs, hcons, hbegins c hc⟩
  taken rest hrest := (unbroken_bracketed h).takeToken_append hrest
  notLiteral := literal?_bracketed path
  read id := Path.ofToken?_bracketed h id
  notKey rest hrest := takeKey?_bracketed path hrest
  notParameters rest hrest := by
    have hne : ∀ c ∈ ['@', '.', '[', 't'], c ≠ 'a' := by decide
    obtain ⟨c, cs, hcons, hc⟩ := path.exists_bracketed_eq_cons
    rw [hcons, List.cons_append]
    exact atBlockParameters_of_ne _ (hne c hc)

def bracketedSpelling : Spelling where
  spell := Path.bracketed
  admits := Path.isBracketable
  isPathToken _ h := isPathToken_bracketed h

theorem endsIn_joinWith {p : Char → Bool} {words : List (List Char)} (hne : words ≠ [])
    (h : ∀ word ∈ words, EndsIn p word) : EndsIn p (Text.joinWith '.' words) := by
  induction words with
  | nil => exact absurd rfl hne
  | cons word words ih =>
    cases words with
    | nil => exact h word List.mem_cons_self
    | cons next words =>
      have hrest := ih (List.cons_ne_nil _ _) fun w hw => h w (List.mem_cons_of_mem _ hw)
      exact (hrest.cons '.').append word

theorem bracketedSpelling_ends : bracketedSpelling.Ends fun c => !Text.isBlank c where
  path path _ := by
    refine EndsIn.append ?_ path.lead
    rcases path.bracketedParts_cases with ⟨-, hparts⟩ | ⟨hne, rest, -, hjoin⟩
    · rw [hparts]
      exact ⟨['t', 'h', 'i'], 's', rfl, by decide⟩
    · rw [hjoin]
      refine endsIn_joinWith (by simpa using hne) fun word hword => ?_
      obtain ⟨segment, -, rfl⟩ := List.mem_map.1 hword
      exact ⟨'[' :: segment, ']', rfl, by decide⟩
  token c hc := by simp [isBlank_eq_false (toNat_of_isTokenChar hc)]
  quote := by decide
  close := by decide

end Expression

/-! ### Mustaches -/

namespace Mustache

/-- What stands between the braces of a mustache that is printed with brackets. -/
def bracketed (m : Mustache) : List Char :=
  Expression.bracketedSpelling.writtenCall m.callee m.params m.hash

/-- A mustache that can be printed with brackets: none of its literals is a number, its segments are
not empty and free of `]`, and its named arguments have names. -/
def isBracketable (m : Mustache) : Bool :=
  Expression.bracketedSpelling.allows m.callee &&
    Expression.bracketedSpelling.allowsParams m.params &&
    Expression.bracketedSpelling.allowsHash m.hash

/-- A mustache without the numbers and the spellings of its paths. -/
def unspelled (m : Mustache) : Mustache where
  callee := m.callee.mapPaths Path.unspelled
  params := Expression.mapPathsOfParams Path.unspelled m.params
  hash := Expression.mapPathsOfHash Path.unspelled m.hash
  trusting := m.trusting

/-- A mustache as it is read: its paths are numbered from `next` on. -/
def renumbered (m : Mustache) (next : Nat) : Mustache where
  callee := Expression.bracketedSpelling.numbered m.callee next
  params := Expression.bracketedSpelling.numberedParams m.params (next + m.callee.paths.length)
  hash := Expression.bracketedSpelling.numberedHash m.hash
    (next + m.callee.paths.length + (Expression.pathsOfParams m.params).length)
  trusting := m.trusting

theorem length_paths (m : Mustache) : m.paths.length = m.callee.paths.length +
    (Expression.pathsOfParams m.params).length + (Expression.pathsOfHash m.hash).length := by
  simp [paths, pathsOfArguments, Nat.add_assoc]

theorem map_id_paths_renumbered (m : Mustache) (next : Nat) :
    (m.renumbered next).paths.map Path.id = List.range' next m.paths.length := by
  rw [length_paths, paths, pathsOfArguments, List.map_append, List.map_append, renumbered,
    Spelling.map_id_paths_numbered, Spelling.map_id_paths_numberedParams,
    Spelling.map_id_paths_numberedHash, List.range'_append_1, List.range'_append_1,
    Nat.add_assoc]

theorem unspelled_renumbered {m : Mustache} (h : m.isBracketable = true) (next : Nat) :
    (m.renumbered next).unspelled = m.unspelled := by
  have hkeeps : ∀ p next, Expression.bracketedSpelling.admits p = true →
      (Expression.bracketedSpelling.numberedPath p next).unspelled = p.unspelled :=
    fun p next hp => rfl
  simp only [isBracketable, Bool.and_eq_true] at h
  rw [unspelled, unspelled, renumbered, Spelling.mapPaths_numbered _ hkeeps _ h.1.1,
    Spelling.mapPathsOfParams_numbered _ hkeeps _ h.1.2,
    Spelling.mapPathsOfHash_numbered _ hkeeps _ h.2]

end Mustache

namespace Tag

theorem readMustache_bracketed {m : Mustache} (h : m.isBracketable = true) (next : Nat) :
    (readMustache m.trusting m.bracketed).run next =
      (.ok (.expression (m.renumbered next)), next + m.paths.length) := by
  simp only [Mustache.isBracketable, Bool.and_eq_true] at h
  have hread := Spelling.readCall_written h.1.1 h.1.2 h.2 next
  rw [Mustache.length_paths, ← Nat.add_assoc, ← Nat.add_assoc, readMustache, Mustache.bracketed,
    run_bind_of_run_eq_ok hread]
  rfl

/-- The characters that a printed mustache can begin with are no marks of a tag. -/
theorem exists_written_eq_cons {e : Expression}
    (h : Expression.bracketedSpelling.allows e = true) :
    ∃ c cs, Expression.bracketedSpelling.written e = c :: cs ∧
      c ∈ ['@', '.', '[', 't', 'f', 'n', 'u', '"', '('] := by
  cases e with
  | path p =>
    have hsub : ∀ c ∈ ['@', '.', '[', 't'], c ∈ ['@', '.', '[', 't', 'f', 'n', 'u', '"', '('] := by
      decide
    obtain ⟨c, cs, hcons, hc⟩ := p.exists_bracketed_eq_cons
    exact ⟨c, cs, hcons, hsub c hc⟩
  | literal value =>
    cases value with
    | boolean b =>
      cases b with
      | true => exact ⟨_, _, rfl, by decide⟩
      | false => exact ⟨_, _, rfl, by decide⟩
    | number value => cases h
    | string value => exact ⟨_, _, rfl, by decide⟩
    | null => exact ⟨_, _, rfl, by decide⟩
    | undefined => exact ⟨_, _, rfl, by decide⟩
  | call callee params hash => exact ⟨_, _, rfl, by decide⟩

theorem takeWhile_ne_of_head {c : Char} (cs : List Char) (h : c ≠ 'e') :
    (c :: cs).takeWhile isNameChar ≠ ['e', 'l', 's', 'e'] := by
  intro heq
  cases hc : isNameChar c with
  | false =>
    rw [List.takeWhile_cons_of_neg (by simp [hc])] at heq
    cases heq
  | true =>
    rw [List.takeWhile_cons_of_pos hc] at heq
    exact h (List.cons.inj heq).1

/-- A mustache that is printed with brackets is read back: its paths are the same up to their
numbers and spellings, and their numbers are consecutive in the order of the source. -/
theorem read_bracketed {m : Mustache} (h : m.isBracketable = true) (offset next : Nat) :
    ∃ found : Mustache,
      read m.bracketed m.trusting offset next =
        (.ok (.expression found), next + m.paths.length) ∧
      found.unspelled = m.unspelled ∧
      found.paths.map Path.id = List.range' next m.paths.length := by
  have hmarks : ∀ c ∈ ['@', '.', '[', 't', 'f', 'n', 'u', '"', '('], c ≠ '!' ∧ c ≠ 'e' ∧
      Text.isBlank c = false ∧ ∀ mark ∈ ['#', '/', '>', '^', '&'], c ≠ mark := by decide
  have hrun := readMustache_bracketed h next
  have hallows := h
  simp only [Mustache.isBracketable, Bool.and_eq_true] at hallows
  obtain ⟨⟨hcallee, hparams⟩, hhash⟩ := hallows
  have hends : Expression.EndsIn (fun c => !Text.isBlank c) m.bracketed :=
    Spelling.endsIn_append_arguments Expression.bracketedSpelling_ends
      (Spelling.endsIn_written Expression.bracketedSpelling_ends hcallee) hparams hhash
  obtain ⟨c, cs, hwritten, hc⟩ := exists_written_eq_cons hcallee
  obtain ⟨hcomment, helse, hblank, hmark⟩ := hmarks c hc
  have hcons : ∃ ds, m.bracketed = c :: ds := by
    rw [Mustache.bracketed, Spelling.writtenCall, hwritten]
    exact ⟨_, rfl⟩
  obtain ⟨ds, hds⟩ := hcons
  refine ⟨m.renumbered next, ?_, m.unspelled_renumbered h next, m.map_id_paths_renumbered next⟩
  rw [hds] at hrun hends ⊢
  refine read_of_trim hcomment (trim_of_endsIn hblank hends) ?_ offset
  cases htrusting : m.trusting with
  | true =>
    rw [htrusting] at hrun
    exact hrun
  | false =>
    rw [htrusting, ← readTrimmed_of_value hmark (takeWhile_ne_of_head ds helse)] at hrun
    exact hrun

/-- A helper call whose paths and strings hold delimiters. -/
def delimiters : Mustache where
  callee := .path
    { id := 0, spelling := "", parts := ["row 1", "(\"|'=\x7d\x7d"], data := true, depth := 2 }
  params :=
    [.literal (.string "say \"\\\"\x7d\x7d"),
      .call (.path { id := 0, spelling := "", parts := [], data := false, depth := 1 })
        [.literal .undefined] [("as", .path
          { id := 0, spelling := "", parts := ["["], data := false, depth := 0 })]]
  hash := [("else", .literal (.boolean false)), ("@data-x", .path
    { id := 0, spelling := "", parts := ["true"], data := false, depth := 0 })]
  trusting := false

theorem delimiters_read_bracketed :
    delimiters.isBracketable = true ∧ delimiters.bracketed =
      ("@../../[row 1].[(\"|'=\x7d\x7d] \"say \\\"\\\\\\\"\x7d\x7d\" " ++
        "(../this undefined as=[[]) else=false @data-x=[true]").toList ∧
    ∃ found : Mustache,
      read delimiters.bracketed false 40 7 = (.ok (.expression found), 11) ∧
      found.unspelled = delimiters.unspelled ∧ found.paths.map Path.id = [7, 8, 9, 10] :=
  ⟨by decide, by decide, read_bracketed (m := delimiters) (by decide) 40 7⟩

end Tag

end MustacheJsx
