import Mathlib.Data.List.TakeWhile
import MustacheJsx.Conversion.Text
import MustacheJsx.Markup.Reference
import MustacheJsx.Proofs.Jsx.Definition

/-!
# What written text stands for

Code writes a text as a string literal with escapes, or raw inside elements and attributes, where
character references are decoded. `readLiteral` and `decode` get the text back. An escaped text is
read back as it is, whatever it holds; a raw text stands for itself exactly if it holds no
reference: `decode_eq_some_self_iff`. Which names have a character is left open.
-/

namespace MustacheJsx.Jsx

/-! ### Numbers of characters -/

def numeral (base : Nat) (digits : List Char) : Nat :=
  digits.foldl (fun n d => base * n + Markup.Reference.digitValue d) 0

def character? (n : Nat) : Option Char := if n.isValidChar then some (Char.ofNat n) else none

/-! ### String literals -/

/-- An escape of `count` hexadecimal digits after its letter: the character, and the number of
characters that the escape takes. -/
def hexEscape? (count : Nat) (cs : List Char) : Option (List Char × Nat) :=
  let digits := cs.take count
  if digits.length = count ∧ digits.all isHexDigit = true then
    (character? (numeral 16 digits)).map fun c => ([c], count + 1)
  else none

def bracedEscape? (cs : List Char) : Option (List Char × Nat) :=
  let digits := cs.takeWhile isHexDigit
  if digits ≠ [] ∧ (cs.drop digits.length).head? = some '}' then
    (character? (numeral 16 digits)).map fun c => ([c], digits.length + 3)
  else none

def controlLetters : List (Char × Char) :=
  [('b', '\x08'), ('t', '\t'), ('n', '\n'), ('v', '\x0b'), ('f', '\x0c'), ('r', '\r')]

/-- What an escape stands for, and how many characters it takes after its backslash. The end of a
line stands for nothing. Numbers of halves of characters are not read. -/
def escape? : List Char → Option (List Char × Nat)
  | [] => none
  | 'x' :: cs => hexEscape? 2 cs
  | 'u' :: '{' :: cs => bracedEscape? cs
  | 'u' :: cs => hexEscape? 4 cs
  | '0' :: cs => if cs.head?.any Text.isAsciiDigit then none else some (['\x00'], 1)
  | '\r' :: '\n' :: _ => some ([], 2)
  | c :: _ =>
    if c ∈ ['\n', '\r', '\u2028', '\u2029'] then some ([], 1)
    else if Text.isAsciiDigit c then none
    else some ([(controlLetters.lookup c).getD c], 1)

/-- Reads a string literal after its opening quote and `skip` more characters of an escape: its
text, and what follows its closing quote. -/
def readLiteral (skip : Nat) : List Char → Option (List Char × List Char)
  | [] => none
  | c :: cs =>
    match skip with
    | skip + 1 => readLiteral skip cs
    | 0 =>
      if c = '"' then some ([], cs)
      else if c = '\n' ∨ c = '\r' then none
      else if c = '\\' then
        match escape? cs with
        | some (value, length) =>
          (readLiteral length cs).map fun read => (value ++ read.1, read.2)
        | none => none
      else (readLiteral 0 cs).map fun read => (c :: read.1, read.2)

theorem readLiteral_plain {c : Char} (h : c ∉ ['\\', '"', '\n', '\r']) (cs : List Char) :
    readLiteral 0 (c :: cs) = (readLiteral 0 cs).map fun read => (c :: read.1, read.2) := by
  simp only [List.mem_cons, List.not_mem_nil, or_false, not_or] at h
  rw [readLiteral, if_neg h.2.1, if_neg (not_or.2 ⟨h.2.2.1, h.2.2.2⟩), if_neg h.1]

/-- The characters with an escape of their own, whatever follows them. -/
def escapedChars : List Char :=
  ['\x07', '\x08', '\x0b', '\x0c', '\n', '\r', '\x1b', '\\', '"', '\u2028', '\u2029', '\xa0']

theorem readLiteral_escapedChar {c : Char} (h : c ∈ escapedChars) (next cs : List Char) :
    readLiteral 0 (escapeChar c next ++ cs) =
      (readLiteral 0 cs).map fun read => (c :: read.1, read.2) := by
  simp only [escapedChars, List.mem_cons, List.not_mem_nil, or_false] at h
  rcases h with rfl | rfl | rfl | rfl | rfl | rfl | rfl | rfl | rfl | rfl | rfl | rfl <;> rfl

theorem head?_escape_of_not_digit {cs : List Char} (h : cs.head?.any Text.isAsciiDigit = false)
    (rest : List Char) :
    (escape cs ++ '"' :: rest).head?.any Text.isAsciiDigit = false := by
  cases cs with
  | nil => rfl
  | cons c cs =>
    rw [escape, List.append_assoc]
    rcases escapeChar_cases c cs with ⟨hidden, more, hescape, -⟩ | ⟨-, -, hescape⟩ | ⟨hescape, -⟩
    · rw [hescape]
      rfl
    · rw [hescape]
      rfl
    · rw [hescape]
      exact h

theorem readLiteral_null (cs rest : List Char) :
    readLiteral 0 (escapeChar '\x00' cs ++ (escape cs ++ '"' :: rest)) =
      (readLiteral 0 (escape cs ++ '"' :: rest)).map fun read => ('\x00' :: read.1, read.2) := by
  rw [escapeChar, if_pos rfl]
  split
  · rfl
  · next hdigit =>
    have hhead := head?_escape_of_not_digit (Bool.eq_false_iff.2 hdigit) rest
    have hescape : escape? ('0' :: (escape cs ++ '"' :: rest)) = some (['\x00'], 1) := by
      rw [escape?, hhead, if_neg Bool.false_ne_true]
    rw [List.cons_append, List.singleton_append, readLiteral, if_neg (by decide),
      if_neg (by decide), if_pos rfl, hescape]
    rfl

theorem escapeChar_other {c : Char} (hescaped : c ∉ escapedChars) (hnull : c ≠ '\x00')
    (next : List Char) :
    (c = '<' ∧ closesScript next = true ∧ escapeChar c next = ['<', '\\']) ∨
      (escapeChar c next = [c] ∧ c ∉ ['\\', '"', '\n', '\r']) := by
  simp only [escapedChars, List.mem_cons, List.not_mem_nil, or_false, not_or] at hescaped
  by_cases hcloses : c = '<' ∧ closesScript next = true
  · refine .inl ⟨hcloses.1, hcloses.2, ?_⟩
    simp [escapeChar, hcloses]
  · refine .inr ⟨by simp [escapeChar, hnull, hescaped, hcloses], ?_⟩
    simp [hescaped]

theorem readLiteral_slash {tail cs rest : List Char}
    (h : readLiteral 0 ('/' :: tail) = some ('/' :: cs, rest)) :
    readLiteral 0 ('<' :: '\\' :: '/' :: tail) = some ('<' :: '/' :: cs, rest) := by
  have hescape : escape? ('/' :: tail) = some (['/'], 1) := rfl
  rw [readLiteral_plain (by decide)] at h
  rw [readLiteral_plain (by decide), readLiteral, if_neg (by decide), if_neg (by decide),
    if_pos rfl, hescape]
  dsimp only
  rw [readLiteral]
  obtain ⟨read, hread, hpair⟩ := Option.map_eq_some_iff.1 h
  cases hpair
  rw [hread]
  rfl

theorem readLiteral_escape (cs rest : List Char) :
    readLiteral 0 (escape cs ++ '"' :: rest) = some (cs, rest) := by
  induction cs with
  | nil => rfl
  | cons c cs ih =>
    rw [escape, List.append_assoc]
    by_cases hescaped : c ∈ escapedChars
    · rw [readLiteral_escapedChar hescaped, ih]
      rfl
    · by_cases hnull : c = '\x00'
      · subst hnull
        rw [readLiteral_null, ih]
        rfl
      · rcases escapeChar_other hescaped hnull cs with ⟨rfl, hcloses, hescape⟩ | ⟨hescape, hplain⟩
        · obtain ⟨tail, rfl⟩ := exists_of_closesScript hcloses
          rw [hescape]
          exact readLiteral_slash ih
        · rw [hescape, List.singleton_append, readLiteral_plain hplain, ih]
          rfl

/-! ### Character references -/

theorem isAsciiAlphanumeric_of_isHexDigit {c : Char}
    (h : Markup.Reference.isHexDigit c = true) :
    Text.isAsciiAlphanumeric c = true := by
  have htrans : ∀ {a b : Char}, c ≤ a → a ≤ b → c ≤ b := fun hca hab => Char.le_trans hca hab
  simp only [Markup.Reference.isHexDigit, Bool.or_eq_true, Bool.and_eq_true, decide_eq_true_eq] at h
  simp only [Text.isAsciiAlphanumeric, Text.isAsciiLetter, Bool.or_eq_true, Bool.and_eq_true,
    decide_eq_true_eq]
  rcases h with (hdigit | ⟨hlow, hhigh⟩) | ⟨hlow, hhigh⟩
  · exact .inr hdigit
  · exact .inl (.inl ⟨hlow, htrans hhigh (by decide)⟩)
  · exact .inl (.inr ⟨hlow, htrans hhigh (by decide)⟩)

section References

variable (named : List Char → Option Char)

def upToSemicolon? (isPart : Char → Bool) (cs : List Char) : Option (List Char) :=
  let run := cs.takeWhile isPart
  if run ≠ [] ∧ (cs.drop run.length).head? = some ';' then some run else none

/-- The reference after an ampersand: what it stands for, if that is a character, and the number of
characters that it takes. A name without a character is no reference. -/
def reference? (cs : List Char) : Option (Option Char × Nat) :=
  match cs with
  | '#' :: 'x' :: digits =>
    (upToSemicolon? Markup.Reference.isHexDigit digits).map fun run =>
      (character? (numeral 16 run), run.length + 3)
  | '#' :: digits =>
    (upToSemicolon? Text.isAsciiDigit digits).map fun run =>
      (character? (numeral 10 run), run.length + 2)
  | _ =>
    (upToSemicolon? Text.isAsciiAlphanumeric cs).bind fun run =>
      (named run).map fun c => (some c, run.length + 1)

/-- The text that raw text stands for after `skip` more characters of a reference. A number without
a character stands for no text. -/
def decode (skip : Nat) : List Char → Option (List Char)
  | [] => some []
  | c :: cs =>
    match skip with
    | skip + 1 => decode skip cs
    | 0 =>
      match if c = '&' then reference? named cs else none with
      | some (value, length) => value.bind fun d => (decode length cs).map (d :: ·)
      | none => (decode 0 cs).map (c :: ·)

def holdsReference : List Char → Bool
  | [] => false
  | c :: cs => (c == '&' && (reference? named cs).isSome) || holdsReference cs

variable {named : List Char → Option Char}

theorem exists_of_upToSemicolon? {isPart : Char → Bool} {cs run : List Char}
    (h : upToSemicolon? isPart cs = some run) :
    run ≠ [] ∧ (∀ c ∈ run, isPart c = true) ∧ ∃ rest, cs = run ++ ';' :: rest := by
  rw [upToSemicolon?] at h
  split at h
  · next hrun =>
    cases h
    obtain ⟨rest, hrest⟩ := List.head?_eq_some_iff.1 hrun.2
    refine ⟨hrun.1, fun c hc => List.mem_takeWhile_imp hc, rest, ?_⟩
    rw [← hrest]
    exact (List.prefix_iff_eq_append.1 (List.takeWhile_prefix isPart)).symm
  · cases h

/-- A reference goes up to a semicolon. -/
theorem exists_of_reference? {cs : List Char} {value : Option Char} {length : Nat}
    (h : reference? named cs = some (value, length)) :
    ∃ inside rest, cs = inside ++ ';' :: rest ∧ length = inside.length + 1 ∧
      ∃ run ≠ [], (∀ c ∈ run, Text.isAsciiAlphanumeric c = true) ∧
        (inside = run ∨ inside = '#' :: run) := by
  rw [reference?.eq_def] at h
  split at h
  · next digits =>
    obtain ⟨run, hrun, hpair⟩ := Option.map_eq_some_iff.1 h
    cases hpair
    obtain ⟨-, hdigits, rest, rfl⟩ := exists_of_upToSemicolon? hrun
    refine ⟨'#' :: 'x' :: run, rest, rfl, rfl, 'x' :: run, List.cons_ne_nil _ _, ?_, .inr rfl⟩
    exact List.forall_mem_cons.2 ⟨rfl, fun c hc => isAsciiAlphanumeric_of_isHexDigit (hdigits c hc)⟩
  · next digits _ =>
    obtain ⟨run, hrun, hpair⟩ := Option.map_eq_some_iff.1 h
    cases hpair
    obtain ⟨hne, hdigits, rest, rfl⟩ := exists_of_upToSemicolon? hrun
    refine ⟨'#' :: run, rest, rfl, rfl, run, hne, fun c hc => ?_, .inr rfl⟩
    rw [Text.isAsciiAlphanumeric, hdigits c hc, Bool.or_true]
  · obtain ⟨run, hrun, h⟩ := Option.bind_eq_some_iff.1 h
    obtain ⟨c, -, hpair⟩ := Option.map_eq_some_iff.1 h
    cases hpair
    obtain ⟨hne, hchars, rest, rfl⟩ := exists_of_upToSemicolon? hrun
    exact ⟨run, rest, rfl, rfl, run, hne, hchars, .inl rfl⟩

theorem continuesReference_of_reference? {cs : List Char}
    (h : (reference? named cs).isSome = true) : Text.continuesReference cs = true := by
  obtain ⟨⟨value, length⟩, hread⟩ := Option.isSome_iff_exists.1 h
  obtain ⟨inside, rest, rfl, -, run, hne, hchars, hinside⟩ := exists_of_reference? hread
  obtain ⟨c, more, rfl⟩ := List.exists_cons_of_ne_nil hne
  obtain ⟨hc, hmore⟩ := List.forall_mem_cons.1 hchars
  have hname : (Text.isAsciiAlphanumeric c &&
      ((more ++ ';' :: rest).dropWhile Text.isAsciiAlphanumeric).head? == some ';') = true := by
    rw [hc, List.dropWhile_append_of_pos hmore]
    rfl
  rcases hinside with rfl | rfl
  · rw [Text.continuesReference.eq_def]
    split
    · next heq =>
      rw [(List.cons.inj heq).1] at hc
      exact absurd hc (by decide)
    · exact hname
  · exact hname

theorem holdsReference_eq_false {cs : List Char} (h : Text.hasReference cs = false) :
    holdsReference named cs = false := by
  induction cs with
  | nil => rfl
  | cons c cs ih =>
    rw [Text.hasReference, Bool.or_eq_false_iff] at h
    rw [holdsReference, ih h.2, Bool.or_false, Bool.and_eq_false_iff]
    rcases Bool.and_eq_false_iff.1 h.1 with hc | hreference
    · exact .inl hc
    · refine .inr (Bool.eq_false_iff.2 fun hsome => ?_)
      rw [continuesReference_of_reference? hsome] at hreference
      cases hreference

theorem decode_cons_of_ne {c : Char} (h : c ≠ '&') (cs : List Char) :
    decode named 0 (c :: cs) = (decode named 0 cs).map (c :: ·) := by
  rw [decode, if_neg h]

theorem decode_of_holdsReference {cs : List Char} (h : holdsReference named cs = false) :
    decode named 0 cs = some cs := by
  induction cs with
  | nil => rfl
  | cons c cs ih =>
    rw [holdsReference, Bool.or_eq_false_iff] at h
    have hnone : (if c = '&' then reference? named cs else none) = none := by
      split
      · next hc =>
        rw [hc, beq_self_eq_true, Bool.true_and] at h
        exact Option.not_isSome_iff_eq_none.1 (Bool.eq_false_iff.1 h.1)
      · rfl
    rw [decode, hnone]
    dsimp only
    rw [ih h.2]
    rfl

theorem length_decode_le {skip : Nat} {cs ds : List Char} (h : decode named skip cs = some ds) :
    ds.length ≤ cs.length - skip := by
  induction cs generalizing skip ds with
  | nil =>
    cases h
    exact Nat.zero_le _
  | cons c cs ih =>
    cases skip with
    | succ skip =>
      have hle := ih h
      rw [List.length_cons]
      omega
    | zero =>
      rw [decode] at h
      split at h
      · next value length hreference =>
        obtain ⟨d, -, h⟩ := Option.bind_eq_some_iff.1 h
        obtain ⟨es, hes, rfl⟩ := Option.map_eq_some_iff.1 h
        have hle := ih hes
        rw [List.length_cons, List.length_cons]
        omega
      · obtain ⟨es, hes, rfl⟩ := Option.map_eq_some_iff.1 h
        have hle := ih hes
        rw [List.length_cons, List.length_cons]
        omega

/-- Raw text stands for itself exactly if it holds no reference, as a reference is longer than what
it stands for. -/
theorem decode_eq_some_self_iff {cs : List Char} :
    decode named 0 cs = some cs ↔ holdsReference named cs = false := by
  refine ⟨fun h => ?_, decode_of_holdsReference⟩
  induction cs with
  | nil => rfl
  | cons c cs ih =>
    rw [decode] at h
    split at h
    · next value length hreference =>
      obtain ⟨d, -, h⟩ := Option.bind_eq_some_iff.1 h
      obtain ⟨es, hes, hcons⟩ := Option.map_eq_some_iff.1 h
      obtain rfl := (List.cons.inj hcons).2
      have hle := length_decode_le hes
      have hc : c = '&' := by
        by_contra hc
        rw [if_neg hc] at hreference
        cases hreference
      rw [if_pos hc] at hreference
      obtain ⟨inside, rest, rfl, rfl, -⟩ := exists_of_reference? hreference
      rw [List.length_append, List.length_cons] at hle
      omega
    · next hnone =>
      obtain ⟨es, hes, hcons⟩ := Option.map_eq_some_iff.1 h
      obtain rfl := (List.cons.inj hcons).2
      rw [holdsReference, ih hes, Bool.or_false, Bool.and_eq_false_iff]
      by_cases hc : c = '&'
      · rw [if_pos hc] at hnone
        exact .inr (by rw [hnone]; rfl)
      · exact .inl (beq_eq_false_iff_ne.2 hc)

end References

end MustacheJsx.Jsx
