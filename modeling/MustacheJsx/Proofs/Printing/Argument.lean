import MustacheJsx.Proofs.Outcome
import MustacheJsx.Proofs.Printing.Path
import MustacheJsx.Proofs.Text.Trimming

/-!
# Printed arguments

What one argument of a mustache looks like to the reader: a string between quotes, a bare token, or
the name of a named argument before its value. Nothing here depends on how paths are spelled.
-/

namespace MustacheJsx

/-! ### Literals -/

def escaped : List Char → List Char
  | [] => []
  | c :: cs => if c = '"' ∨ c = '\\' then '\\' :: c :: escaped cs else c :: escaped cs

/-- A literal as it is printed. Numbers have no printed form here: no plain expression holds one. -/
def Literal.printed : Literal → List Char
  | .boolean true => ['t', 'r', 'u', 'e']
  | .boolean false => ['f', 'a', 'l', 's', 'e']
  | .number _ => []
  | .string value => '"' :: (escaped value.toList ++ ['"'])
  | .null => ['n', 'u', 'l', 'l']
  | .undefined => ['u', 'n', 'd', 'e', 'f', 'i', 'n', 'e', 'd']

def Literal.isPrintable : Literal → Bool
  | .number _ => false
  | _ => true

namespace Expression

/-- What is printed of a literal is a string, or a word that is no `else`. -/
theorem printed_literal_cases {value : Literal} (h : value.isPrintable = true) :
    (∃ chars, value = .string chars) ∨
      (IsWord value.printed ∧ literal? value.printed = some value ∧
        value.printed ≠ ['e', 'l', 's', 'e']) := by
  cases value with
  | boolean b =>
    cases b with
    | true => exact Or.inr ⟨isWord_of_isIdentifier (by decide), by decide, by decide⟩
    | false => exact Or.inr ⟨isWord_of_isIdentifier (by decide), by decide, by decide⟩
  | number value => cases h
  | string chars => exact Or.inl ⟨chars, rfl⟩
  | null => exact Or.inr ⟨isWord_of_isIdentifier (by decide), by decide, by decide⟩
  | undefined => exact Or.inr ⟨isWord_of_isIdentifier (by decide), by decide, by decide⟩

/-! ### Strings -/

theorem takeString_escaped (value rest : List Char) :
    takeString '"' (escaped value ++ '"' :: rest) = some (value, rest) := by
  induction value with
  | nil => rfl
  | cons c value ih =>
    rw [escaped]
    split
    · rw [List.cons_append, List.cons_append, takeString, ih]
      rfl
    · next h =>
      simp only [not_or] at h
      rw [List.cons_append, takeString, if_neg h.1, ih]
      · rfl
      · intro hc
        exact absurd hc h.2
      · intro d cs hc
        exact absurd hc h.2

theorem readString_escaped (value : String) (rest : List Char) (next : Nat) :
    (readString '"' (escaped value.toList ++ '"' :: rest)).run next =
      (.ok (value, rest), next) := by
  rw [readString, takeString_escaped]
  have hvalue : String.ofList value.toList = value := String.ofList_toList
  dsimp only
  rw [hvalue]
  rfl

/-! ### Tokens -/

/-- What stands after an argument: nothing, the end of a call, or a blank and another argument. -/
inductive Follows : List Char → Prop
  | nothing : Follows []
  | close (cs : List Char) : Follows (')' :: cs)
  | argument (c : Char) (cs : List Char) (blank : Text.isBlank c = false) (equals : c ≠ '=')
      (bar : c ≠ '|') : Follows (' ' :: c :: cs)

theorem endsToken_eq_false {c : Char} (h : isTokenChar c = true) : endsToken c = false := by
  have hblank := isBlank_eq_false (toNat_of_isTokenChar h)
  have ne : ∀ d, isTokenChar d = false → (c == d) = false := by
    intro d hd
    simp [ne_of_isTokenChar h hd]
  simp only [endsToken, hblank, ne '(' (by decide), ne ')' (by decide), ne '=' (by decide),
    ne '|' (by decide), ne '}' (by decide), Bool.or_self]

/-- Characters that a token holds all of, whatever comes after them. -/
def Unbroken (cs : List Char) : Prop :=
  ∀ rest, takeToken false (cs ++ rest) =
    (cs ++ (takeToken false rest).1, (takeToken false rest).2)

theorem unbroken_nil : Unbroken [] := fun _ => rfl

theorem Unbroken.append {cs ds : List Char} (hcs : Unbroken cs) (hds : Unbroken ds) :
    Unbroken (cs ++ ds) := by
  intro rest
  rw [List.append_assoc, hcs, hds, List.append_assoc]

theorem unbroken_singleton {c : Char} (hbracket : c ≠ '[') (hends : endsToken c = false) :
    Unbroken [c] := by
  intro rest
  rw [List.singleton_append, takeToken]
  simp [hbracket, hends]

theorem unbroken_of_isTokenChar {cs : List Char} (h : ∀ c ∈ cs, isTokenChar c = true) :
    Unbroken cs := by
  induction cs with
  | nil => exact unbroken_nil
  | cons c cs ih =>
    have hc := h c List.mem_cons_self
    have hone := unbroken_singleton (ne_of_isTokenChar hc (by decide)) (endsToken_eq_false hc)
    exact hone.append (ih fun d hd => h d (List.mem_cons_of_mem _ hd))

theorem Unbroken.takeToken_append {token rest : List Char} (h : Unbroken token)
    (hrest : Follows rest) : takeToken false (token ++ rest) = (token, rest) := by
  have hnothing : takeToken false rest = ([], rest) := by
    cases hrest with
    | nothing => rfl
    | close cs => rfl
    | argument c cs => rfl
  rw [h, hnothing, List.append_nil]

theorem takeToken_append_of_follows {token rest : List Char}
    (htoken : ∀ c ∈ token, isTokenChar c = true) (hrest : Follows rest) :
    takeToken false (token ++ rest) = (token, rest) :=
  (unbroken_of_isTokenChar htoken).takeToken_append hrest

theorem number?_eq_none {c : Char} {cs : List Char} (hdigit : Text.isAsciiDigit c = false)
    (hminus : c ≠ '-') : number? (c :: cs) = none := by
  unfold number?
  split
  next negative digits h =>
  split at h
  · next heq =>
    cases heq
    exact absurd rfl hminus
  · cases h
    simp [hdigit]

theorem readBare_literal {token : List Char} {value : Literal} (hne : token ≠ [])
    (htoken : ∀ c ∈ token, isTokenChar c = true) (hvalue : literal? token = some value)
    {rest : List Char} (hrest : Follows rest) (next : Nat) :
    (readBare (token ++ rest)).run next = (.ok (.literal value, rest), next) := by
  rw [readBare, takeToken_append_of_follows htoken hrest]
  dsimp only
  have hempty : token.isEmpty = false := by
    simp [hne]
  rw [hempty, hvalue]
  rfl

/-! ### Before an argument -/

def beginsToken (c : Char) : Bool := !endsToken c && c != '"' && c != '\''

def beginsArgument (c : Char) : Bool := c == '"' || c == '(' || beginsToken c

theorem beginsToken_of_isTokenChar {c : Char} (h : isTokenChar c = true) :
    beginsToken c = true := by
  have hdouble : c ≠ '"' := ne_of_isTokenChar h (by decide)
  have hsingle : c ≠ '\'' := ne_of_isTokenChar h (by decide)
  simp [beginsToken, endsToken_eq_false h, hdouble, hsingle]

theorem beginsArgument_of_beginsToken {c : Char} (h : beginsToken c = true) :
    beginsArgument c = true := by
  simp [beginsArgument, h]

theorem ne_of_beginsArgument {c d : Char} (hc : beginsArgument c = true)
    (hd : beginsArgument d = false) : c ≠ d := by
  intro h
  rw [h, hd] at hc
  cases hc

theorem isBlank_of_beginsArgument {c : Char} (h : beginsArgument c = true) :
    Text.isBlank c = false := by
  simp only [beginsArgument, beginsToken, endsToken, Bool.or_eq_true, Bool.and_eq_true,
    Bool.not_eq_true', Bool.or_eq_false_iff, beq_iff_eq] at h
  rcases h with (rfl | rfl) | h
  · decide
  · decide
  · exact h.1.1.1.1.1.1.1

theorem readWith_token {c : Char} (hc : beginsToken c = true) (fuel : Nat) (cs : List Char) :
    readWith (fuel + 1) (c :: cs) = readBare (c :: cs) := by
  rw [readWith.eq_def]
  dsimp only
  split
  · next h =>
    cases h
    cases hc
  · next h =>
    cases h
    cases hc
  · next h =>
    cases h
    cases hc
  · rfl

/-! ### The last character -/

/-- The last character is one of those that `p` holds of. -/
def EndsIn (p : Char → Bool) (cs : List Char) : Prop := ∃ ds c, cs = ds ++ [c] ∧ p c = true

theorem EndsIn.append {p : Char → Bool} {cs : List Char} (h : EndsIn p cs) (ds : List Char) :
    EndsIn p (ds ++ cs) := by
  obtain ⟨es, c, rfl, hc⟩ := h
  exact ⟨ds ++ es, c, by simp, hc⟩

theorem EndsIn.cons {p : Char → Bool} {cs : List Char} (h : EndsIn p cs) (d : Char) :
    EndsIn p (d :: cs) :=
  h.append [d]

theorem endsIn_of_forall {p : Char → Bool} {cs : List Char} (hne : cs ≠ [])
    (h : ∀ c ∈ cs, p c = true) : EndsIn p cs :=
  ⟨cs.dropLast, cs.getLast hne, (List.dropLast_append_getLast hne).symm,
    h _ (List.getLast_mem hne)⟩

/-! ### Names of arguments -/

theorem isBlank_of_isKeyChar {c : Char} (h : isKeyChar c = true) : Text.isBlank c = false := by
  have hblanks : ∀ n ∈ [9, 10, 11, 12, 13, 0x20, 0x85, 0xA0, 0x1680, 0x2000, 0x2001, 0x2002, 0x2003,
      0x2004, 0x2005, 0x2006, 0x2007, 0x2008, 0x2009, 0x200A, 0x2028, 0x2029, 0x202F, 0x205F,
      0x3000], isKeyChar (Char.ofNat n) = false := by decide +kernel
  cases hc : Text.isBlank c with
  | false => rfl
  | true =>
    have hnot := hblanks c.toNat (by
      simp only [Text.isBlank, Bool.or_eq_true, Bool.and_eq_true, decide_eq_true_eq,
        beq_iff_eq] at hc
      simp only [List.mem_cons, List.not_mem_nil, or_false]
      omega)
    rw [Char.ofNat_toNat, h] at hnot
    cases hnot

theorem takeKey?_key {key : List Char} (hne : key ≠ []) (hkey : ∀ c ∈ key, isKeyChar c = true)
    (value : List Char) :
    takeKey? (key ++ '=' :: value) = some (String.ofList key, Text.trimStart value) := by
  have hequals : isKeyChar '=' = false := by decide
  have htake : (key ++ '=' :: value).takeWhile isKeyChar = key := by
    rw [List.takeWhile_append_of_pos hkey]
    simp [hequals]
  have hdrop : (key ++ '=' :: value).dropWhile isKeyChar = '=' :: value := by
    rw [List.dropWhile_append_of_pos hkey]
    simp [hequals]
  rw [takeKey?, htake, hdrop, Text.trimStart_cons_of_not_blank value (by decide)]
  simp [hne]

theorem takeKey?_eq_none {cs : List Char}
    (h : (Text.trimStart (cs.dropWhile isKeyChar)).head? ≠ some '=') : takeKey? cs = none := by
  rw [takeKey?]
  split
  · next heq =>
    rw [heq] at h
    exact absurd rfl h
  · rfl

theorem takeKey?_append {token rest : List Char} (htoken : ∀ c ∈ token, isTokenChar c = true)
    (hrest : (Text.trimStart (rest.dropWhile isKeyChar)).head? ≠ some '=') :
    takeKey? (token ++ rest) = none := by
  refine takeKey?_eq_none ?_
  induction token with
  | nil => exact hrest
  | cons c token ih =>
    have hc := htoken c List.mem_cons_self
    rw [List.cons_append]
    cases hkey : isKeyChar c with
    | true =>
      rw [List.dropWhile_cons_of_pos hkey]
      exact ih fun d hd => htoken d (List.mem_cons_of_mem _ hd)
    | false =>
      rw [List.dropWhile_cons_of_neg (by simp [hkey]),
        Text.trimStart_cons_of_not_blank _ (isBlank_eq_false (toNat_of_isTokenChar hc))]
      simp [ne_of_isTokenChar hc (by decide : isTokenChar '=' = false)]

theorem head?_dropWhile_of_not_key {c : Char} (cs : List Char) (hkey : isKeyChar c = false)
    (hblank : Text.isBlank c = false) (hequals : c ≠ '=') :
    (Text.trimStart ((c :: cs).dropWhile isKeyChar)).head? ≠ some '=' := by
  rw [List.dropWhile_cons_of_neg (by simp [hkey]), Text.trimStart_cons_of_not_blank _ hblank]
  simp [hequals]

theorem takeKey?_token {token rest : List Char} (htoken : ∀ c ∈ token, isTokenChar c = true)
    (hrest : Follows rest) : takeKey? (token ++ rest) = none := by
  refine takeKey?_append htoken ?_
  cases hrest with
  | nothing => decide
  | close cs => exact head?_dropWhile_of_not_key cs (by decide) (by decide) (by decide)
  | argument c cs blank equals bar =>
    have hspace : isKeyChar ' ' = false := by decide
    rw [List.dropWhile_cons_of_neg (by simp [hspace]), Text.trimStart_space_cons cs blank]
    simp [equals]

theorem takeKey?_of_not_key {c : Char} (cs : List Char) (hkey : isKeyChar c = false)
    (hblank : Text.isBlank c = false) (hequals : c ≠ '=') : takeKey? (c :: cs) = none :=
  takeKey?_eq_none (head?_dropWhile_of_not_key cs hkey hblank hequals)

theorem atBlockParameters_of_ne {c : Char} (cs : List Char) (h : c ≠ 'a') :
    atBlockParameters (c :: cs) = false := by
  unfold atBlockParameters
  split
  · next heq =>
    cases heq
    exact absurd rfl h
  · rfl

theorem atBlockParameters_eq_false {word rest : List Char} (hne : word ≠ [])
    (hword : ∀ c ∈ word, Text.isBlank c = false) (hs : rest.head? ≠ some 's')
    (hbar : ∀ c cs, rest = c :: cs → Text.isBlank c = true →
      (Text.trimStart cs).head? ≠ some '|') : atBlockParameters (word ++ rest) = false := by
  unfold atBlockParameters
  split
  · next c more h =>
    match word, hne with
    | [first], _ =>
      rw [List.singleton_append, List.cons.injEq] at h
      rw [h.2] at hs
      exact absurd rfl hs
    | [first, second], _ =>
      rw [List.cons_append, List.singleton_append, List.cons.injEq, List.cons.injEq] at h
      cases hc : Text.isBlank c with
      | false => rfl
      | true =>
        have hhead := hbar c more h.2.2 hc
        simp [hhead]
    | first :: second :: third :: more, _ =>
      simp only [List.cons_append, List.cons.injEq] at h
      have hthird := hword third (by simp)
      rw [← h.2.2.1, hthird]
      rfl
  · rfl

theorem atBlockParameters_of_follows {word rest : List Char} (hne : word ≠ [])
    (hword : ∀ c ∈ word, Text.isBlank c = false) (hrest : Follows rest) :
    atBlockParameters (word ++ rest) = false := by
  refine atBlockParameters_eq_false hne hword ?_ ?_
  · cases hrest with
    | nothing => decide
    | close cs => simp
    | argument c cs => simp
  · intro c cs h hc
    cases hrest with
    | nothing => cases h
    | close more =>
      cases h
      exact absurd hc (by decide)
    | argument d more blank equals bar =>
      cases h
      rw [Text.trimStart_cons_of_not_blank more blank]
      simp [bar]

theorem atBlockParameters_key {key : List Char} (hne : key ≠ [])
    (hkey : ∀ c ∈ key, isKeyChar c = true) (value : List Char) :
    atBlockParameters (key ++ '=' :: value) = false := by
  refine atBlockParameters_eq_false hne (fun c hc => isBlank_of_isKeyChar (hkey c hc)) ?_ ?_
  · simp
  · intro c cs h hc
    cases h
    exact absurd hc (by decide)

/-! ### Arguments -/

/-- Arguments end at the end of the tag or of a call. -/
def Closes (cs : List Char) : Prop := cs = [] ∨ ∃ rest, cs = ')' :: rest

theorem follows_of_closes {cs : List Char} (h : Closes cs) : Follows cs := by
  rcases h with rfl | ⟨rest, rfl⟩
  · exact .nothing
  · exact .close rest

def isPlainKey (key : String) : Bool := !key.toList.isEmpty && key.toList.all isKeyChar

theorem key_chars {key : String} (h : isPlainKey key = true) :
    key.toList ≠ [] ∧ ∀ c ∈ key.toList, isKeyChar c = true := by
  simp only [isPlainKey, Bool.and_eq_true, Bool.not_eq_true', List.isEmpty_eq_false_iff,
    List.all_eq_true] at h
  exact h

theorem readArguments_closes (fuel : Nat) (named : Bool) {rest : List Char} (h : Closes rest)
    (next : Nat) :
    (readArguments (fuel + 1) named rest).run next = (.ok ([], [], rest), next) := by
  rcases h with rfl | ⟨rest, rfl⟩
  · rw [readArguments.eq_def]
    rfl
  · rw [readArguments.eq_def]
    dsimp only
    rw [Text.trimStart_cons_of_not_blank rest (by decide)]
    rfl
/-! ### Reading literals -/

theorem readWith_literal {value : Literal} (h : value.isPrintable = true) (fuel : Nat)
    {rest : List Char} (hrest : Follows rest) (next : Nat) :
    (readWith (fuel + 1) (value.printed ++ rest)).run next =
      (.ok (.literal value, rest), next) := by
  rcases printed_literal_cases h with ⟨chars, rfl⟩ | ⟨hword, hliteral, -⟩
  · have hread := readString_escaped chars rest next
    rw [Literal.printed, List.cons_append, List.append_assoc, List.singleton_append, readWith,
      run_bind_of_run_eq_ok hread]
    rfl
  · have hread := readBare_literal hword.ne_nil hword.isTokenChar hliteral hrest next
    cases hprinted : value.printed with
    | nil => exact absurd hprinted hword.ne_nil
    | cons c cs =>
      have hc := hword.isTokenChar c (by simp [hprinted])
      rw [hprinted, List.cons_append] at hread
      rw [List.cons_append, readWith_token (beginsToken_of_isTokenChar hc), hread]

end Expression

end MustacheJsx
