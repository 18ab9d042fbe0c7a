import MustacheJsx.Proofs.Printing.Spelling

/-!
# Printed expressions

Arguments are printed with one blank before each of them, positional ones first. A plain expression
is printed as it is written under the spelling of plain paths, so what is printed of it is read as
it is, up to the numbers of its paths: `readArguments_printed` and `readCall_printed`.
-/

namespace MustacheJsx

/-! ### Printing -/

namespace Expression

mutual

def printed : Expression → List Char
  | .path p => p.printed
  | .literal value => value.printed
  | .call callee params hash =>
    '(' :: (callee.printed ++ (printedParams params ++ (printedHash hash ++ [')'])))

def printedParams : List Expression → List Char
  | [] => []
  | param :: params => ' ' :: (param.printed ++ printedParams params)

def printedHash : List (String × Expression) → List Char
  | [] => []
  | (key, value) :: hash => ' ' :: (key.toList ++ '=' :: (value.printed ++ printedHash hash))

end

mutual

/-- An expression of plain paths and of literals that are no numbers. -/
def isPlain : Expression → Bool
  | .path p => p.isPlain
  | .literal (.number _) => false
  | .literal _ => true
  | .call callee params hash => callee.isPlain && paramsArePlain params && hashIsPlain hash

def paramsArePlain : List Expression → Bool
  | [] => true
  | param :: params => param.isPlain && paramsArePlain params

def hashIsPlain : List (String × Expression) → Bool
  | [] => true
  | (key, value) :: hash => isPlainKey key && value.isPlain && hashIsPlain hash

end

mutual

def unnumbered : Expression → Expression
  | .path p => .path { p with id := 0 }
  | .literal value => .literal value
  | .call callee params hash =>
    .call callee.unnumbered (unnumberedParams params) (unnumberedHash hash)

def unnumberedParams : List Expression → List Expression
  | [] => []
  | param :: params => param.unnumbered :: unnumberedParams params

def unnumberedHash : List (String × Expression) → List (String × Expression)
  | [] => []
  | (key, value) :: hash => (key, value.unnumbered) :: unnumberedHash hash

end

/-- What is printed of a literal is a string, or a word that is no `else`. -/
theorem literal_cases {value : Literal} (h : (Expression.literal value).isPlain = true) :
    (∃ chars, value = .string chars) ∨
      (IsWord value.printed ∧ literal? value.printed = some value ∧
        value.printed ≠ ['e', 'l', 's', 'e']) := by
  refine printed_literal_cases ?_
  cases value with
  | number value => cases h
  | _ => rfl

/-! ### Plain paths -/

theorem literal?_printed {path : Path} (h : path.isPlain = true) :
    literal? path.printed = none := by
  have hkeyword : ∀ keyword ∈ Path.keywords, path.printed ≠ keyword.toList :=
    fun keyword hk => Path.printed_ne_keyword h hk
  have hnumber : number? path.printed = none := by
    rcases Path.printed_cases h with ⟨rest, hp⟩ | ⟨rest, hp⟩ | ⟨word, rest, hp, hw, -⟩
    · rw [hp]
      exact number?_eq_none (by decide) (by decide)
    · rw [hp]
      exact number?_eq_none (by decide) (by decide)
    · cases word with
      | nil => exact absurd rfl hw.ne_nil
      | cons c word =>
        rw [hp]
        exact number?_eq_none (hw.start c rfl)
          (ne_of_isNameChar (hw.chars c List.mem_cons_self) (by decide))
  rw [literal?, if_neg (hkeyword "true" (by decide)), if_neg (hkeyword "false" (by decide)),
    if_neg (hkeyword "null" (by decide)), if_neg (hkeyword "undefined" (by decide)), hnumber]
  rfl
/-- What is printed of a plain path is a token that is read as the path. -/
theorem isPathToken_printed {path : Path} (h : path.isPlain = true) :
    IsPathToken path path.printed where
  begins := by
    cases hprinted : path.printed with
    | nil => exact absurd hprinted (Path.printed_ne_nil h)
    | cons c cs =>
      have hc := Path.isTokenChar_of_mem_printed h c (by simp [hprinted])
      exact ⟨c, cs, rfl, beginsToken_of_isTokenChar hc⟩
  taken rest hrest := takeToken_append_of_follows (Path.isTokenChar_of_mem_printed h) hrest
  notLiteral := literal?_printed h
  read id := by
    rw [Path.ofToken?_printed h, ← Path.spelling_of_isPlain h]
  notKey rest hrest := takeKey?_token (Path.isTokenChar_of_mem_printed h) hrest
  notParameters rest hrest := atBlockParameters_of_follows (Path.printed_ne_nil h)
    (fun c hc => isBlank_eq_false (toNat_of_isTokenChar (Path.isTokenChar_of_mem_printed h c hc)))
    hrest

def plainSpelling : Spelling where
  spell := Path.printed
  admits := Path.isPlain
  isPathToken _ h := isPathToken_printed h

mutual

theorem written_plainSpelling (e : Expression) : plainSpelling.written e = e.printed := by
  match e with
  | .path p => rfl
  | .literal value => rfl
  | .call callee params hash =>
    rw [Spelling.written, printed, written_plainSpelling callee,
      writtenParams_plainSpelling params, writtenHash_plainSpelling hash]

theorem writtenParams_plainSpelling (params : List Expression) :
    plainSpelling.writtenParams params = printedParams params := by
  match params with
  | [] => rfl
  | param :: params =>
    rw [Spelling.writtenParams, printedParams, written_plainSpelling param,
      writtenParams_plainSpelling params]

theorem writtenHash_plainSpelling (hash : Hash) :
    plainSpelling.writtenHash hash = printedHash hash := by
  match hash with
  | [] => rfl
  | (key, value) :: hash =>
    rw [Spelling.writtenHash, printedHash, written_plainSpelling value,
      writtenHash_plainSpelling hash]

end

mutual

theorem allows_plainSpelling (e : Expression) : plainSpelling.allows e = e.isPlain := by
  match e with
  | .path p => rfl
  | .literal value =>
    cases value with
    | _ => rfl
  | .call callee params hash =>
    rw [Spelling.allows, isPlain, allows_plainSpelling callee, allowsParams_plainSpelling params,
      allowsHash_plainSpelling hash]

theorem allowsParams_plainSpelling (params : List Expression) :
    plainSpelling.allowsParams params = paramsArePlain params := by
  match params with
  | [] => rfl
  | param :: params =>
    rw [Spelling.allowsParams, paramsArePlain, allows_plainSpelling param,
      allowsParams_plainSpelling params]

theorem allowsHash_plainSpelling (hash : Hash) :
    plainSpelling.allowsHash hash = hashIsPlain hash := by
  match hash with
  | [] => rfl
  | (key, value) :: hash =>
    rw [Spelling.allowsHash, hashIsPlain, allows_plainSpelling value,
      allowsHash_plainSpelling hash]

end

mutual

theorem mapPaths_unnumbered (e : Expression) :
    e.mapPaths (fun p => { p with id := 0 }) = e.unnumbered := by
  match e with
  | .path p => rfl
  | .literal value => rfl
  | .call callee params hash =>
    rw [mapPaths, unnumbered, mapPaths_unnumbered callee, mapPathsOfParams_unnumbered params,
      mapPathsOfHash_unnumbered hash]

theorem mapPathsOfParams_unnumbered (params : List Expression) :
    mapPathsOfParams (fun p => { p with id := 0 }) params = unnumberedParams params := by
  match params with
  | [] => rfl
  | param :: params =>
    rw [mapPathsOfParams, unnumberedParams, mapPaths_unnumbered param,
      mapPathsOfParams_unnumbered params]

theorem mapPathsOfHash_unnumbered (hash : Hash) :
    mapPathsOfHash (fun p => { p with id := 0 }) hash = unnumberedHash hash := by
  match hash with
  | [] => rfl
  | (key, value) :: hash =>
    rw [mapPathsOfHash, unnumberedHash, mapPaths_unnumbered value, mapPathsOfHash_unnumbered hash]

end

/-! ### Before an argument -/

/-- An argument begins with a name, a mark or a step, a quote or a parenthesis. -/
def isArgumentStart (c : Char) : Bool :=
  isNameChar c || c == '@' || c == '.' || c == '"' || c == '('

theorem exists_printed_eq_cons {e : Expression} (h : e.isPlain = true) :
    ∃ c cs, e.printed = c :: cs ∧ isArgumentStart c = true := by
  cases e with
  | path p =>
    rcases Path.printed_cases h with ⟨rest, hp⟩ | ⟨rest, hp⟩ | ⟨word, rest, hp, hw, -⟩
    · exact ⟨_, rest, hp, by decide⟩
    · exact ⟨_, rest, hp, by decide⟩
    · cases word with
      | nil => exact absurd rfl hw.ne_nil
      | cons c word =>
        have hc := hw.chars c List.mem_cons_self
        exact ⟨c, word ++ rest, hp, by simp [isArgumentStart, hc]⟩
  | literal value =>
    rcases literal_cases h with ⟨chars, rfl⟩ | ⟨hword, -, -⟩
    · exact ⟨_, _, rfl, by decide⟩
    · cases hprinted : value.printed with
      | nil => exact absurd hprinted hword.ne_nil
      | cons c cs =>
        have hc := hword.chars c (by simp [hprinted])
        exact ⟨c, cs, hprinted, by simp [isArgumentStart, hc]⟩
  | call callee params hash => exact ⟨_, _, rfl, by decide⟩

theorem isBlank_of_isArgumentStart {c : Char} (h : isArgumentStart c = true) :
    Text.isBlank c = false := by
  simp only [isArgumentStart, Bool.or_eq_true, beq_iff_eq] at h
  rcases h with (((h | rfl) | rfl) | rfl) | rfl
  · have := toNat_of_isNameChar h
    exact isBlank_eq_false (by omega)
  · decide
  · decide
  · decide
  · decide

theorem ne_of_isArgumentStart {c d : Char} (hc : isArgumentStart c = true)
    (hd : isArgumentStart d = false) : c ≠ d := by
  intro h
  rw [h, hd] at hc
  cases hc

theorem follows_printedHash {hash : Hash} (h : hashIsPlain hash = true) {rest : List Char}
    (hrest : Closes rest) : Follows (printedHash hash ++ rest) := by
  rw [← allowsHash_plainSpelling] at h
  rw [← writtenHash_plainSpelling]
  exact Spelling.follows_writtenHash h hrest

theorem follows_printedParams {params : List Expression} (h : paramsArePlain params = true)
    {rest : List Char} (hrest : Follows rest) : Follows (printedParams params ++ rest) := by
  rw [← allowsParams_plainSpelling] at h
  rw [← writtenParams_plainSpelling]
  exact Spelling.follows_writtenParams h hrest

/-! ### Reading what is printed -/


section Plain

variable {params : List Expression} {hash : Hash}

theorem plainSpelling_keeps (p : Path) (next : Nat) (h : plainSpelling.admits p = true) :
    { plainSpelling.numberedPath p next with id := 0 } = { p with id := 0 } := by
  have hspelling : p.spelling = String.ofList (plainSpelling.spell p) := Path.spelling_of_isPlain h
  rw [Spelling.numberedPath, ← hspelling]

theorem unnumbered_numbered {e : Expression} (h : e.isPlain = true) (next : Nat) :
    (plainSpelling.numbered e next).unnumbered = e.unnumbered := by
  rw [← mapPaths_unnumbered, ← mapPaths_unnumbered]
  rw [← allows_plainSpelling] at h
  exact plainSpelling.mapPaths_numbered plainSpelling_keeps e h next

theorem unnumberedParams_numbered (h : paramsArePlain params = true) (next : Nat) :
    unnumberedParams (plainSpelling.numberedParams params next) = unnumberedParams params := by
  rw [← mapPathsOfParams_unnumbered, ← mapPathsOfParams_unnumbered]
  rw [← allowsParams_plainSpelling] at h
  exact plainSpelling.mapPathsOfParams_numbered plainSpelling_keeps params h next

theorem unnumberedHash_numbered (h : hashIsPlain hash = true) (next : Nat) :
    unnumberedHash (plainSpelling.numberedHash hash next) = unnumberedHash hash := by
  rw [← mapPathsOfHash_unnumbered, ← mapPathsOfHash_unnumbered]
  rw [← allowsHash_plainSpelling] at h
  exact plainSpelling.mapPathsOfHash_numbered plainSpelling_keeps hash h next

theorem readArguments_printed (hparams : paramsArePlain params = true)
    (hhash : hashIsPlain hash = true) (fuel : Nat)
    (hfuel : (printedParams params).length + (printedHash hash).length + 1 ≤ fuel) (next : Nat) :
    ∃ params' hash' last,
      (readArguments fuel false (printedParams params ++ printedHash hash)).run next =
        (.ok (params', hash', []), last) ∧
      unnumberedParams params' = unnumberedParams params ∧
      unnumberedHash hash' = unnumberedHash hash := by
  rw [← writtenParams_plainSpelling, ← writtenHash_plainSpelling] at hfuel ⊢
  refine ⟨_, _, _, Spelling.readArguments_written ?_ ?_ fuel hfuel next,
    unnumberedParams_numbered hparams _, unnumberedHash_numbered hhash _⟩
  · rw [allowsParams_plainSpelling, hparams]
  · rw [allowsHash_plainSpelling, hhash]

def printedCall (callee : Expression) (params : List Expression) (hash : Hash) : List Char :=
  callee.printed ++ (printedParams params ++ printedHash hash)

theorem readCall_printed {callee : Expression} (hcallee : callee.isPlain = true)
    (hparams : paramsArePlain params = true) (hhash : hashIsPlain hash = true) (next : Nat) :
    ∃ callee' params' hash' last, (readCall (printedCall callee params hash)).run next =
        (.ok (callee', params', hash'), last) ∧ callee'.unnumbered = callee.unnumbered ∧
      unnumberedParams params' = unnumberedParams params ∧
      unnumberedHash hash' = unnumberedHash hash := by
  have hwritten : printedCall callee params hash =
      plainSpelling.writtenCall callee params hash := by
    rw [printedCall, Spelling.writtenCall, written_plainSpelling, writtenParams_plainSpelling,
      writtenHash_plainSpelling]
  rw [hwritten]
  refine ⟨_, _, _, _, Spelling.readCall_written ?_ ?_ ?_ next, unnumbered_numbered hcallee _,
    unnumberedParams_numbered hparams _, unnumberedHash_numbered hhash _⟩
  · rw [allows_plainSpelling, hcallee]
  · rw [allowsParams_plainSpelling, hparams]
  · rw [allowsHash_plainSpelling, hhash]

end Plain

end Expression

end MustacheJsx
