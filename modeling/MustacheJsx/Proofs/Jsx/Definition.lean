import MustacheJsx.Jsx.Grammar
import MustacheJsx.Jsx.Printer
import MustacheJsx.Proofs.Jsx.Words
import MustacheJsx.Proofs.Printing.Path

/-!
# Definitions that the grammar accepts

A constant that is a function of a choice between a sum and another operand, where all operands are
names and strings, is a module of its own: `isModule_constant`. The readers of the grammar are
followed from operand to operand.
-/

namespace MustacheJsx.Jsx

/-! ### Strings -/

theorem readQuoted_cons {quote c : Char} (hescape : c ≠ '\\') (cs : List Char) :
    readQuoted quote (c :: cs) =
      if c = quote then some cs else if c = '\n' ∨ c = '\r' then none else readQuoted quote cs := by
  rw [readQuoted]
  rintro d ds rfl
  exact absurd rfl hescape

theorem readQuoted_plain {c : Char} (h : c ∉ ['\\', '"', '\n', '\r']) (cs : List Char) :
    readQuoted '"' (c :: cs) = readQuoted '"' cs := by
  simp only [List.mem_cons, List.not_mem_nil, or_false, not_or] at h
  rw [readQuoted_cons h.1, if_neg h.2.1, if_neg (not_or.2 ⟨h.2.2.1, h.2.2.2⟩)]

theorem readQuoted_escaped {hidden : Char} {more : List Char}
    (h : ∀ c ∈ more, c ∉ ['\\', '"', '\n', '\r']) (cs : List Char) :
    readQuoted '"' ('\\' :: hidden :: (more ++ cs)) = readQuoted '"' cs := by
  rw [readQuoted]
  induction more with
  | nil => rfl
  | cons c more ih =>
    obtain ⟨hc, hmore⟩ := List.forall_mem_cons.1 h
    rw [List.cons_append, readQuoted_plain hc]
    exact ih hmore

theorem exists_of_closesScript {cs : List Char} (h : closesScript cs = true) :
    ∃ rest, cs = '/' :: rest := by
  cases cs with
  | nil => cases h
  | cons c rest =>
    refine ⟨rest, ?_⟩
    have hfirst : c.toLower = '/' := (List.cons.inj (beq_iff_eq.1 h)).1
    delta Char.toLower at hfirst
    split at hfirst
    · next hupper =>
      -- A capital does not become a slash.
      have hcode := congrArg Char.toNat hfirst
      simp only [Char.toNat, UInt32.toNat_add] at hcode
      have hlow := UInt32.le_iff_toNat_le.1 hupper.1
      have hhigh := UInt32.le_iff_toNat_le.1 hupper.2
      simp at hcode hlow hhigh
      omega
    · rw [hfirst]

/-- A character of a literal is escaped, breaks up an end tag or stands for itself. -/
theorem escapeChar_cases (c : Char) (next : List Char) :
    (∃ hidden more, escapeChar c next = '\\' :: hidden :: more ∧
      ∀ d ∈ more, d ∉ ['\\', '"', '\n', '\r']) ∨
    (c = '<' ∧ closesScript next = true ∧ escapeChar c next = ['<', '\\']) ∨
    (escapeChar c next = [c] ∧ c ∉ ['\\', '"', '\n', '\r']) := by
  by_cases hescaped : c ∈ ['\x07', '\x08', '\x0b', '\x0c', '\n', '\r', '\x1b', '\\', '"',
      '\u2028', '\u2029', '\xa0']
  · refine .inl ?_
    simp only [List.mem_cons, List.not_mem_nil, or_false] at hescaped
    rcases hescaped with rfl | rfl | rfl | rfl | rfl | rfl | rfl | rfl | rfl | rfl | rfl | rfl <;>
      exact ⟨_, _, rfl, by decide⟩
  · by_cases hnul : c = '\x00'
    · subst hnul
      rw [escapeChar, if_pos rfl]
      split
      · exact .inl ⟨_, _, rfl, by decide⟩
      · exact .inl ⟨_, _, rfl, by decide⟩
    · simp only [List.mem_cons, List.not_mem_nil, or_false, not_or] at hescaped
      by_cases hbroken : c = '<' ∧ closesScript next = true
      · refine .inr (.inl ⟨hbroken.1, hbroken.2, ?_⟩)
        simp [escapeChar, hbroken]
      · refine .inr (.inr ⟨by simp [escapeChar, hnul, hescaped, hbroken], ?_⟩)
        simp [hescaped]

theorem readQuoted_escape (cs rest : List Char) :
    readQuoted '"' (escape cs ++ '"' :: rest) = some rest := by
  induction cs with
  | nil => rfl
  | cons c cs ih =>
    rw [escape, List.append_assoc]
    rcases escapeChar_cases c cs with ⟨hidden, more, hescape, hmore⟩ |
      ⟨rfl, hcloses, hescape⟩ | ⟨hescape, hplain⟩
    · rw [hescape, List.cons_append, List.cons_append, readQuoted_escaped hmore]
      exact ih
    -- The backslash before the slash of an end tag hides that slash, which is plain.
    · obtain ⟨tail, rfl⟩ := exists_of_closesScript hcloses
      rw [escape, show escapeChar '/' tail = ['/'] from rfl] at ih ⊢
      rw [List.cons_append, List.cons_append, readQuoted_plain (by decide)] at ih
      rw [hescape]
      exact ih
    · rw [hescape, List.singleton_append, readQuoted_plain hplain]
      exact ih

/-! ### Names -/

section Names

variable {c d : Char} {name rest : List Char}

theorem isIdentifier_singleton :
    Text.isIdentifier [c] = (Text.isAsciiLetter c || c == '_' || c == '$') := by
  rw [Text.isIdentifier, List.all_nil, Bool.and_true]

theorem isIdentifierStart_of_isIdentifier (h : Text.isIdentifier [c] = true) :
    Text.isIdentifierStart c = true := by
  simp only [isIdentifier_singleton, Bool.or_eq_true] at h
  simp only [Text.isIdentifierStart, Bool.or_eq_true]
  rcases h with (h | h) | h
  · exact .inl (.inl (.inl h))
  · exact .inl (.inr h)
  · exact .inl (.inl (.inr h))

theorem ne_of_isIdentifier (h : Text.isIdentifier [c] = true)
    (hd : Text.isIdentifier [d] = false) : c ≠ d := by
  rintro rfl
  rw [h] at hd
  cases hd

theorem toNat_of_isIdentifier (h : Text.isIdentifier [c] = true) :
    33 ≤ c.toNat ∧ c.toNat ≤ 126 := by
  simp only [isIdentifier_singleton, Bool.or_eq_true, beq_iff_eq] at h
  rcases h with (h | rfl) | rfl
  · have := toNat_of_isAsciiLetter h
    omega
  · decide
  · decide

theorem isCodeBlank_of_isIdentifier (h : Text.isIdentifier [c] = true) :
    isCodeBlank c = false := by
  have hrange := toNat_of_isIdentifier h
  rw [isCodeBlank, isBlank_eq_false hrange, Bool.false_and, Bool.false_or, beq_eq_false_iff_ne]
  rintro rfl
  exact absurd hrange (by decide)

theorem skip_cons (hslash : c ≠ '/') (hblank : isCodeBlank c = false) (cs : List Char) :
    skip (c :: cs) = c :: cs := by
  rw [skip, skipGap.eq_def]
  split
  case h_4 heq => exact absurd (List.cons.inj heq).1 hslash
  case h_5 heq => exact absurd (List.cons.inj heq).1 hslash
  case h_6 heq =>
    obtain ⟨rfl, rfl⟩ := List.cons.inj heq
    rw [hblank]
    rfl
  -- Outside of comments the gap is blank.
  all_goals contradiction

theorem exists_of_isIdentifier (h : Text.isIdentifier name = true) :
    ∃ first more, name = first :: more ∧ Text.isIdentifier [first] = true ∧
      ∀ d ∈ more, Text.isIdentifierPart d = true := by
  cases name with
  | nil => cases h
  | cons first more =>
    rw [Text.isIdentifier, ← isIdentifier_singleton, Bool.and_eq_true, List.all_eq_true] at h
    refine ⟨first, more, rfl, h.1, fun d hd => ?_⟩
    have hpart := h.2 d hd
    simp only [Text.isAsciiAlphanumeric, Bool.or_eq_true] at hpart
    simp only [Text.isIdentifierPart, Text.isIdentifierStart, Bool.or_eq_true]
    rcases hpart with ((h | h) | h) | h
    · exact .inl (.inl (.inl (.inl (.inl h))))
    · exact .inl (.inr h)
    · exact .inl (.inl (.inl (.inr h)))
    · exact .inl (.inl (.inl (.inl (.inr h))))

/-- What follows a name ends it. -/
def EndsName (rest : List Char) : Prop := ∀ c ∈ rest.head?, Text.isIdentifierPart c = false

theorem takeWord_of_isIdentifier (h : Text.isIdentifier name = true) (hrest : EndsName rest) :
    takeWord (name ++ rest) = (name, rest) := by
  obtain ⟨first, more, rfl, hfirst, hmore⟩ := exists_of_isIdentifier h
  have htake : (more ++ rest).takeWhile Text.isIdentifierPart = more := by
    rw [List.takeWhile_append_of_pos hmore]
    cases rest with
    | nil => simp
    | cons c rest => simp [hrest c rfl]
  have hdrop : (more ++ rest).dropWhile Text.isIdentifierPart = rest := by
    rw [List.dropWhile_append_of_pos hmore]
    cases rest with
    | nil => simp
    | cons c rest => simp [hrest c rfl]
  rw [List.cons_append, takeWord, if_pos (isIdentifierStart_of_isIdentifier hfirst), htake, hdrop]

theorem skip_of_isIdentifier (h : Text.isIdentifier name = true) (rest : List Char) :
    skip (name ++ rest) = name ++ rest := by
  obtain ⟨first, more, rfl, hfirst, -⟩ := exists_of_isIdentifier h
  exact skip_cons (ne_of_isIdentifier hfirst (by decide)) (isCodeBlank_of_isIdentifier hfirst) _

/-- A name that can be bound: an identifier that is no word of modules. -/
def IsVariable (name : List Char) : Prop :=
  Text.isIdentifier name = true ∧ String.ofList name ∉ moduleWords

theorem IsVariable.exists_cons (h : IsVariable name) :
    ∃ first more, name = first :: more ∧ Text.isIdentifier [first] = true ∧
      ∀ d ∈ more, Text.isIdentifierPart d = true :=
  exists_of_isIdentifier h.1

theorem IsVariable.takeWord (h : IsVariable name) (hrest : EndsName rest) :
    takeWord (name ++ rest) = (name, rest) :=
  takeWord_of_isIdentifier h.1 hrest

theorem IsVariable.skip (h : IsVariable name) (rest : List Char) :
    skip (name ++ rest) = name ++ rest :=
  skip_of_isIdentifier h.1 rest

theorem IsVariable.ne (h : IsVariable name) {word : String} (hword : word ∈ moduleWords) :
    String.ofList name ≠ word := by
  rintro rfl
  exact h.2 hword

theorem IsVariable.isName (h : IsVariable name) (awaits : Bool) : isName awaits name = true := by
  have hempty : name.isEmpty = false := by
    obtain ⟨first, more, rfl, -⟩ := h.exists_cons
    rfl
  have hreserved : reservedWords.contains (String.ofList name) = false := by
    rw [Bool.eq_false_iff]
    intro hmem
    exact h.2 (List.mem_append_left _ (List.contains_iff_mem.1 hmem))
  have hawait : (name == ['a', 'w', 'a', 'i', 't']) = false := by
    rw [beq_eq_false_iff_ne]
    rintro rfl
    exact h.2 (by decide)
  rw [Jsx.isName, hempty, hreserved, hawait, Bool.and_false]
  rfl

theorem IsVariable.readName (h : IsVariable name) (awaits : Bool) (hrest : EndsName rest) :
    readName awaits (name ++ rest) = some rest := by
  rw [Jsx.readName, h.skip, h.takeWord hrest]
  exact if_pos (h.isName awaits)

end Names

/-! ### Operands -/

section Operands

/-- What stands behind an operand of a choice: a sign after a space, or the end of the statement. -/
inductive EndsOperand : List Char → Prop where
  | plus (cs : List Char) : EndsOperand (' ' :: '+' :: ' ' :: cs)
  | question (cs : List Char) : EndsOperand (' ' :: '?' :: ' ' :: cs)
  | colon (cs : List Char) : EndsOperand (' ' :: ':' :: ' ' :: cs)
  | semicolon (cs : List Char) : EndsOperand (';' :: cs)

variable {rest : List Char}

theorem EndsOperand.endsName (h : EndsOperand rest) : EndsName rest := by
  cases h <;> rintro c ⟨⟩ <;> decide

theorem EndsOperand.readTails (h : EndsOperand rest) (awaits calls : Bool) (fuel : Nat)
    (operand : Operand) :
    readTails awaits calls (fuel + 1) operand rest = some (operand, rest) := by
  cases h <;> rfl

theorem EndsOperand.operator? (h : EndsOperand rest) {op : String} {more : List Char}
    (hop : operator? (skip rest) = some (op, more)) :
    isAssignment op = false ∧ op ≠ "++" ∧ op ≠ "--" := by
  cases h with
  | plus cs => cases hop; decide
  | question cs => cases hop; decide
  | colon cs => cases hop
  | semicolon cs => cases hop

/-- An operand of a choice: a name or a string. -/
inductive IsOperand : List Char → Prop where
  | name {name : List Char} (h : IsVariable name) : IsOperand name
  | string (cs : List Char) : IsOperand (quote cs)

theorem operator?_eq_none {c : Char} (h : ∀ op ∈ operators, op.toList.head? ≠ some c)
    (hempty : ∀ op ∈ operators, op.toList ≠ []) (cs : List Char) : operator? (c :: cs) = none := by
  rw [Jsx.operator?, List.findSome?_eq_none_iff]
  intro op hop
  obtain ⟨d, ds, hds⟩ := List.exists_cons_of_ne_nil (hempty op hop)
  have hd := h op hop
  rw [hds] at hd ⊢
  rw [Text.afterLead?, if_neg fun heq => hd (by rw [heq]; rfl)]
  rfl

theorem IsOperand.operator? {operand : List Char} (h : IsOperand operand) (rest : List Char) :
    operator? (operand ++ rest) = none := by
  cases h with
  | name h =>
    obtain ⟨first, more, rfl, hfirst, -⟩ := h.exists_cons
    refine operator?_eq_none (fun op hop heq => ?_) (by decide) _
    have hall : ∀ op ∈ operators, ∀ d ∈ op.toList.head?, Text.isIdentifier [d] = false := by
      decide
    exact ne_of_isIdentifier hfirst (hall op hop first heq) rfl
  | string cs => exact operator?_eq_none (by decide) (by decide) _

theorem IsOperand.skip {operand : List Char} (h : IsOperand operand) (rest : List Char) :
    skip (operand ++ rest) = operand ++ rest := by
  cases h with
  | name h => exact h.skip rest
  | string cs => rfl

theorem IsOperand.leading? {operand : List Char} (h : IsOperand operand) (awaits : Bool)
    (hrest : EndsName rest) : leading? awaits (operand ++ rest) = none := by
  rw [Jsx.leading?, h.operator?]
  cases h with
  | name h =>
    have hawait : (operand == ['a', 'w', 'a', 'i', 't']) = false := by
      rw [beq_eq_false_iff_ne]
      rintro rfl
      exact h.2 (by decide)
    have hwords : ["typeof", "void", "delete"].contains (String.ofList operand) = false := by
      simp [h.ne (by decide : "typeof" ∈ moduleWords), h.ne (by decide : "void" ∈ moduleWords),
        h.ne (by decide : "delete" ∈ moduleWords)]
    rw [h.takeWord hrest]
    dsimp only
    rw [hwords, hawait, Bool.and_false]
    rfl
  | string cs => cases awaits <;> rfl

theorem readNumber_of_isIdentifier {c : Char} (h : Text.isIdentifier [c] = true) (cs : List Char) :
    readNumber (c :: cs) = none := by
  have hdigit : Text.isAsciiDigit c = false := by
    rw [Bool.eq_false_iff]
    intro hdigit
    have hrange := toNat_of_isAsciiDigit hdigit
    simp only [isIdentifier_singleton, Bool.or_eq_true, beq_iff_eq] at h
    rcases h with (h | rfl) | rfl
    · have := toNat_of_isAsciiLetter h
      omega
    · exact absurd hrange (by decide)
    · exact absurd hrange (by decide)
  have hnumeral : readNumeral (c :: cs) = none := by
    rw [readNumeral.eq_def]
    split
    · next heq => exact absurd (List.cons.inj heq).1 (ne_of_isIdentifier h (by decide))
    · next heq => exact absurd (List.cons.inj heq).1 (ne_of_isIdentifier h (by decide))
    · next heq => exact absurd (List.cons.inj heq).1 (ne_of_isIdentifier h (by decide))
    · rw [readDigits, hdigit]
      rfl
  rw [readNumber, hnumeral]
  rfl

theorem IsOperand.readPrimary {operand : List Char} (h : IsOperand operand) (awaits : Bool)
    (hrest : EndsName rest) :
    ∃ kind, ∀ fuel, readPrimary awaits (fuel + 1) (operand ++ rest) = some (kind, rest) := by
  cases h with
  | name h =>
    refine ⟨.target, fun fuel => ?_⟩
    obtain ⟨first, more, rfl, hfirst, -⟩ := h.exists_cons
    have hnumber := readNumber_of_isIdentifier hfirst (more ++ rest)
    have hstring : readString (first :: (more ++ rest)) = none := by
      rw [readString.eq_def]
      split
      · next heq => exact absurd (List.cons.inj heq).1 (ne_of_isIdentifier hfirst (by decide))
      · next heq => exact absurd (List.cons.inj heq).1 (ne_of_isIdentifier hfirst (by decide))
      · rfl
    rw [Jsx.readPrimary.eq_def, List.cons_append]
    dsimp only
    split
    · next heq => exact absurd (List.cons.inj heq).1 (ne_of_isIdentifier hfirst (by decide))
    · next heq => exact absurd (List.cons.inj heq).1 (ne_of_isIdentifier hfirst (by decide))
    · next heq => exact absurd (List.cons.inj heq).1 (ne_of_isIdentifier hfirst (by decide))
    · next heq => exact absurd (List.cons.inj heq).1 (ne_of_isIdentifier hfirst (by decide))
    · rw [hstring, hnumber]
      dsimp only
      rw [← List.cons_append, h.takeWord hrest]
      dsimp only
      split
      · next heq => exact absurd heq (h.ne (by decide))
      · next heq => exact absurd heq (h.ne (by decide))
      · next heq => exact absurd heq (h.ne (by decide))
      · next heq => exact absurd heq (h.ne (by decide))
      · next heq => exact absurd heq (h.ne (by decide))
      · next heq => exact absurd heq (h.ne (by decide))
      · next heq => exact absurd heq (h.ne (by decide))
      · exact if_pos (h.isName awaits)
  | string cs =>
    refine ⟨.other, fun fuel => ?_⟩
    have hstring : readString (quote cs ++ rest) = some rest := by
      rw [quote, List.cons_append, List.append_assoc]
      exact readQuoted_escape cs rest
    rw [quote, List.cons_append] at hstring ⊢
    rw [Jsx.readPrimary.eq_def]
    dsimp only
    rw [hstring]
    rfl

theorem IsOperand.readOperand {operand : List Char} (h : IsOperand operand) (awaits : Bool)
    (hrest : EndsOperand rest) :
    ∃ kind, ∀ fuel, readOperand awaits (fuel + 2) (operand ++ rest) = some (kind, rest) := by
  obtain ⟨kind, hprimary⟩ := h.readPrimary awaits hrest.endsName
  refine ⟨kind, fun fuel => ?_⟩
  rw [Jsx.readOperand.eq_def]
  dsimp only
  rw [h.skip, h.leading? awaits hrest.endsName]
  dsimp only
  rw [hprimary fuel, Option.bind_eq_bind, Option.bind_some]
  dsimp only
  rw [hrest.readTails, Option.bind_some]
  dsimp only
  split
  · next op more hop =>
    obtain ⟨-, hplus, hminus⟩ := hrest.operator? hop
    rw [if_neg fun hchanges => hchanges.1.elim hplus hminus]
    rfl
  · rfl

theorem readOperand_space (awaits : Bool) (fuel : Nat) (cs : List Char) :
    readOperand awaits (fuel + 1) (' ' :: cs) = readOperand awaits (fuel + 1) cs := rfl

theorem functionBody?_space (awaits : Bool) (cs : List Char) :
    functionBody? awaits (' ' :: cs) = functionBody? awaits cs := rfl

theorem EndsOperand.readHead (h : EndsOperand rest) (awaits : Bool) :
    readHead awaits rest = none := by
  cases h <;> rfl

theorem EndsOperand.afterLead? (h : EndsOperand rest) :
    Text.afterLead? ['=', '>'] (skip rest) = none := by
  cases h <;> rfl

theorem IsOperand.functionBody? {operand : List Char} (h : IsOperand operand) (awaits : Bool)
    (hrest : EndsOperand rest) : functionBody? awaits (operand ++ rest) = none := by
  cases h with
  | name h =>
    have hasync : (readWord "async" (operand ++ rest)).bind (readHead awaits) = none := by
      rw [readWord, h.skip, h.takeWord hrest.endsName]
      dsimp only
      split
      · exact hrest.readHead awaits
      · rfl
    have hparen : readChar '(' (operand ++ rest) = none := by
      rw [readChar, h.skip]
      obtain ⟨first, more, rfl, hfirst, -⟩ := h.exists_cons
      exact if_neg (ne_of_isIdentifier hfirst (by decide))
    have hhead : Jsx.readHead awaits (operand ++ rest) = none := by
      rw [Jsx.readHead, hparen, h.readName awaits hrest.endsName]
      exact hrest.afterLead?
    rw [Jsx.functionBody?, hasync, hhead]
    rfl
  | string cs => rfl

/-! ### Choices -/

/-- A term that is no function and begins with an operand goes on as a chain. -/
theorem readTerm_eq_readChain {awaits : Bool} {cs : List Char} {kind : Operand}
    (hrest : EndsOperand rest) (hbody : functionBody? awaits cs = none)
    (hoperand : ∀ fuel, readOperand awaits (fuel + 3) cs = some (kind, rest)) (fuel : Nat) :
    readTerm awaits (fuel + 4) cs = readChain awaits (fuel + 3) kind .neither rest := by
  rw [readTerm.eq_def]
  dsimp only
  rw [hbody]
  dsimp only
  rw [hoperand, Option.bind_eq_bind, Option.bind_some]
  dsimp only
  split
  · next op more hop =>
    rw [(hrest.operator? hop).1]
    rfl
  · rfl

def addends (operands : List (List Char)) : List Char :=
  operands.flatMap fun operand => ' ' :: '+' :: ' ' :: operand

/-- The end of a sum: a colon after a space, or the end of the statement. -/
inductive EndsSum : List Char → Prop where
  | colon (cs : List Char) : EndsSum (' ' :: ':' :: ' ' :: cs)
  | semicolon (cs : List Char) : EndsSum (';' :: cs)

theorem EndsSum.addends (h : EndsSum rest) (operands : List (List Char)) :
    EndsOperand (addends operands ++ rest) := by
  cases operands with
  | nil => cases h <;> constructor
  | cons operand operands =>
    rw [Jsx.addends, List.flatMap_cons]
    exact .plus _

theorem readChain_addends (hrest : EndsSum rest) {awaits : Bool} {operands : List (List Char)}
    (hoperands : ∀ operand ∈ operands, IsOperand operand) {fuel : Nat}
    (hfuel : operands.length + 3 ≤ fuel) (kind : Operand) :
    readChain awaits fuel kind .neither (addends operands ++ rest) = some rest := by
  induction operands generalizing fuel kind with
  | nil =>
    obtain ⟨fuel, rfl⟩ := Nat.exists_eq_add_of_lt (Nat.lt_of_succ_le (Nat.le_of_add_left_le hfuel))
    cases hrest <;> rfl
  | cons operand operands ih =>
    obtain ⟨fuel, rfl⟩ : ∃ k, fuel = k + 3 + 1 := ⟨fuel - 4, by
      rw [List.length_cons] at hfuel
      omega⟩
    rw [List.length_cons] at hfuel
    obtain ⟨next, hnext⟩ := (hoperands operand List.mem_cons_self).readOperand awaits
      (hrest.addends operands)
    have hchain : readChain awaits (fuel + 3 + 1) kind .neither
        (addends (operand :: operands) ++ rest) =
          (readOperand awaits (fuel + 3) (' ' :: (operand ++ (addends operands ++ rest)))).bind
            fun read => readChain awaits (fuel + 3) read.1 .neither read.2 := by
      rw [addends, List.flatMap_cons]
      simp only [List.cons_append, List.append_assoc]
      rfl
    rw [hchain, readOperand_space, hnext (fuel + 1), Option.bind_some]
    exact ih (fun other hother => hoperands other (List.mem_cons_of_mem operand hother))
      (by omega) next

theorem readTerm_sum (hrest : EndsSum rest) (awaits : Bool) {operand : List Char}
    {operands : List (List Char)} (hoperands : ∀ other ∈ operand :: operands, IsOperand other)
    {fuel : Nat} (hfuel : operands.length + 4 ≤ fuel) :
    readTerm awaits fuel (' ' :: (operand ++ (addends operands ++ rest))) = some rest := by
  obtain ⟨fuel, rfl⟩ : ∃ k, fuel = k + 4 := ⟨fuel - 4, by omega⟩
  obtain ⟨hoperand, hothers⟩ := List.forall_mem_cons.1 hoperands
  have hends := hrest.addends operands
  obtain ⟨kind, hkind⟩ := hoperand.readOperand awaits hends
  have hbody := (functionBody?_space awaits _).trans (hoperand.functionBody? awaits hends)
  rw [readTerm_eq_readChain hends hbody fun fuel => hkind (fuel + 1)]
  exact readChain_addends hrest hothers (by omega) kind

theorem operator?_not {c : Char} (h : c ≠ '=') (cs : List Char) :
    operator? ('!' :: c :: cs) = some ("!", c :: cs) := by
  simp [operator?, operators, Text.afterLead?, h.symm]

/-- What a choice tests: a name, which may be negated. -/
def tested (negated : Bool) (name : List Char) : List Char := if negated then '!' :: name else name

theorem functionBody?_tested {name : List Char} (h : IsVariable name) (negated awaits : Bool)
    (hrest : EndsOperand rest) : functionBody? awaits (tested negated name ++ rest) = none := by
  cases negated with
  | false => exact (IsOperand.name h).functionBody? awaits hrest
  | true => rfl

theorem readOperand_tested {name : List Char} (h : IsVariable name) (negated awaits : Bool)
    (hrest : EndsOperand rest) :
    ∃ kind, ∀ fuel,
      readOperand awaits (fuel + 3) (tested negated name ++ rest) = some (kind, rest) := by
  obtain ⟨kind, hkind⟩ := (IsOperand.name h).readOperand awaits hrest
  cases negated with
  | false => exact ⟨kind, fun fuel => hkind (fuel + 1)⟩
  | true =>
    refine ⟨.prefixed, fun fuel => ?_⟩
    have hleading : leading? awaits (skip ('!' :: (name ++ rest))) =
        some (false, name ++ rest) := by
      obtain ⟨first, more, rfl, hfirst, -⟩ := h.exists_cons
      have hop := operator?_not (ne_of_isIdentifier hfirst (by decide)) (more ++ rest)
      show leading? awaits ('!' :: first :: (more ++ rest)) = _
      rw [leading?, hop]
      cases awaits <;> rfl
    show readOperand awaits (fuel + 3) ('!' :: (name ++ rest)) = _
    rw [readOperand.eq_def]
    dsimp only
    rw [hleading]
    dsimp only
    rw [hkind fuel, Option.bind_eq_bind, Option.bind_some]
    rfl

/-- A choice between a sum and another operand is read up to the end of the statement. -/
theorem readTerm_choice {name operand other : List Char} {operands : List (List Char)}
    (hname : IsVariable name) (negated awaits : Bool)
    (hoperands : ∀ part ∈ operand :: operands, IsOperand part) (hother : IsOperand other)
    {fuel : Nat} (hfuel : operands.length + 9 ≤ fuel) (rest : List Char) :
    readTerm awaits fuel (' ' :: (tested negated name ++ (' ' :: '?' :: ' ' :: (operand ++
      (addends operands ++ (' ' :: ':' :: ' ' :: (other ++ ';' :: rest))))))) =
        some (';' :: rest) := by
  obtain ⟨fuel, rfl⟩ : ∃ k, fuel = k + 5 := ⟨fuel - 5, by omega⟩
  have hends := EndsOperand.question (operand ++
      (addends operands ++ (' ' :: ':' :: ' ' :: (other ++ ';' :: rest))))
  obtain ⟨kind, hkind⟩ := readOperand_tested hname negated awaits hends
  have hbody := (functionBody?_space awaits _).trans
    (functionBody?_tested hname negated awaits hends)
  rw [readTerm_eq_readChain hends hbody hkind]
  have hsum := readTerm_sum (.colon (other ++ ';' :: rest)) awaits hoperands
    (show operands.length + 4 ≤ fuel + 3 by omega)
  have hlast := readTerm_sum (.semicolon rest) awaits (List.forall_mem_singleton.2 hother)
    (show 0 + 4 ≤ fuel + 3 by omega)
  have hchoice : ∀ cs, readChain awaits (fuel + 4) kind .neither (' ' :: '?' :: ' ' :: cs) =
      (readTerm awaits (fuel + 3) (' ' :: cs)).bind fun rest =>
        (readChar ':' rest).bind fun rest => readTerm awaits (fuel + 3) rest := fun cs => rfl
  rw [hchoice, hsum, Option.bind_some]
  exact hlast

end Operands

/-! ### Functions -/

section Functions

variable {names : List (List Char)} {awaits : Bool}

theorem readParams_separated (awaits : Bool) (hnames : ∀ name ∈ names, IsVariable name)
    {fuel : Nat} (hfuel : names.length < fuel) (rest : List Char) :
    readParams awaits fuel (separated [',', ' '] names ++ ')' :: rest) = some rest := by
  induction names generalizing fuel with
  | nil =>
    obtain ⟨fuel, rfl⟩ := Nat.exists_eq_succ_of_ne_zero (Nat.ne_of_gt hfuel)
    rfl
  | cons name names ih =>
    obtain ⟨fuel, rfl⟩ := Nat.exists_eq_succ_of_ne_zero (Nat.ne_of_gt (Nat.zero_lt_of_lt hfuel))
    obtain ⟨hname, hothers⟩ := List.forall_mem_cons.1 hnames
    have hclose : ∀ cs, readChar ')' (name ++ cs) = none := by
      intro cs
      rw [readChar, hname.skip]
      obtain ⟨first, more, rfl, hfirst, -⟩ := hname.exists_cons
      exact if_neg (ne_of_isIdentifier hfirst (by decide))
    cases names with
    | nil =>
      have hends : EndsName (')' :: rest) := by
        rintro c ⟨⟩
        decide
      rw [separated, readParams, hclose, hname.readName awaits hends]
      rfl
    | cons next names =>
      have hends :
          EndsName (',' :: ' ' :: (separated [',', ' '] (next :: names) ++ ')' :: rest)) := by
        rintro c ⟨⟩
        decide
      have hsplit : separated [',', ' '] (name :: next :: names) ++ ')' :: rest =
          name ++ ',' :: ' ' :: (separated [',', ' '] (next :: names) ++ ')' :: rest) := by
        simp [separated]
      rw [hsplit, readParams, hclose, hname.readName awaits hends]
      -- The space after the comma is skipped.
      obtain ⟨fuel, rfl⟩ := Nat.exists_eq_succ_of_ne_zero
        (Nat.ne_of_gt (Nat.zero_lt_of_lt (Nat.lt_of_succ_lt_succ hfuel)))
      exact ih hothers (Nat.lt_of_succ_lt_succ hfuel)

theorem length_le_separated (hnames : ∀ name ∈ names, IsVariable name) :
    names.length ≤ (separated [',', ' '] names).length := by
  induction names with
  | nil => exact Nat.zero_le _
  | cons name names ih =>
    obtain ⟨hname, hothers⟩ := List.forall_mem_cons.1 hnames
    obtain ⟨first, more, rfl, -⟩ := hname.exists_cons
    have hle := ih hothers
    cases names with
    | nil => simp [separated]
    | cons next names =>
      have hsplit : separated [',', ' '] ((first :: more) :: next :: names) =
          first :: more ++ [',', ' '] ++ separated [',', ' '] (next :: names) := rfl
      rw [hsplit]
      simp only [List.length_append, List.length_cons] at hle ⊢
      omega

theorem functionBody?_arrow (hnames : ∀ name ∈ names, IsVariable name) (body : List Char) :
    functionBody? awaits (' ' :: (parenthesized names ++ (' ' :: '=' :: '>' :: body))) =
      some (false, body) := by
  have hlength : names.length <
      (separated [',', ' '] names ++ ')' :: ' ' :: '=' :: '>' :: body).length + 1 := by
    have hle := length_le_separated hnames
    rw [List.length_append]
    omega
  have hparams := readParams_separated awaits hnames hlength (' ' :: '=' :: '>' :: body)
  have hhead : readHead awaits (' ' :: (parenthesized names ++ (' ' :: '=' :: '>' :: body))) =
      some body := by
    have hparen : readChar '(' (' ' :: (parenthesized names ++ (' ' :: '=' :: '>' :: body))) =
        some (separated [',', ' '] names ++ ')' :: (' ' :: '=' :: '>' :: body)) := by
      rw [parenthesized, List.cons_append, List.append_assoc]
      rfl
    rw [readHead, hparen]
    dsimp only
    rw [hparams]
    rfl
  have hasync : readWord "async" (' ' :: (parenthesized names ++ (' ' :: '=' :: '>' :: body))) =
      none := rfl
  rw [functionBody?, hasync, hhead]
  rfl

end Functions

/-! ### Definitions -/

section Definitions

/-- A part of a sum that is a name or a string. -/
inductive Term.IsPlain : Term → Prop where
  | name {identifier : String} (h : IsVariable identifier.toList) : IsPlain (.name identifier)
  | string (value : String) : IsPlain (.string value)

theorem Term.IsPlain.isOperand {term : Term} (h : term.IsPlain) (least : Strength) :
    IsOperand (term.print least) := by
  cases h with
  | name h => exact .name h
  | string value => exact .string value.toList

theorem Term.print_foldl_add {term : Term} (hterm : term.print .arrow = term.print .add)
    (terms : List Term) :
    (terms.foldl .add term).print .arrow =
      term.print .arrow ++ addends (terms.map (Term.print .unary)) := by
  induction terms generalizing term with
  | nil => simp [addends]
  | cons next terms ih =>
    have hsum : (Term.add term next).print .arrow =
        term.print .add ++ [' ', '+', ' '] ++ next.print .unary := rfl
    rw [List.foldl_cons, ih rfl, hsum, ← hterm]
    simp [addends]

theorem Term.print_sum {terms : List Term} (h : ∀ term ∈ terms, term.IsPlain) :
    ∃ operand operands, (Term.sum terms).print .arrow = operand ++ addends operands ∧
      ∀ part ∈ operand :: operands, IsOperand part := by
  cases terms with
  | nil =>
    refine ⟨quote [], [], (List.append_nil _).symm, List.forall_mem_singleton.2 (.string [])⟩
  | cons term terms =>
    obtain ⟨hterm, hterms⟩ := List.forall_mem_cons.1 h
    have hstrength : term.print .arrow = term.print .add := by
      cases hterm <;> rfl
    refine ⟨term.print .arrow, terms.map (Term.print .unary), print_foldl_add hstrength terms,
      List.forall_mem_cons.2 ⟨hterm.isOperand .arrow, fun part hpart => ?_⟩⟩
    obtain ⟨other, hother, rfl⟩ := List.mem_map.1 hpart
    exact (hterms other hother).isOperand .unary

def choiceText (params : List (List Char)) (negated : Bool) (condition operand : List Char)
    (operands : List (List Char)) (other : List Char) : List Char :=
  ' ' :: (parenthesized params ++ (' ' :: '=' :: '>' :: ' ' :: (tested negated condition ++
    (' ' :: '?' :: ' ' :: (operand ++ (addends operands ++
      (' ' :: ':' :: ' ' :: (other ++ [';', '\n']))))))))

theorem readTerm_choiceText {condition operand other : List Char}
    {params operands : List (List Char)} (hparams : ∀ param ∈ params, IsVariable param)
    (hcondition : IsVariable condition) (negated awaits : Bool)
    (hoperands : ∀ part ∈ operand :: operands, IsOperand part) (hother : IsOperand other)
    {fuel : Nat} (hfuel : operands.length + 9 ≤ fuel) :
    readTerm awaits (fuel + 1) (choiceText params negated condition operand operands other) =
      some [';', '\n'] := by
  have hbrace : ∀ cs, readChar '{' (' ' :: (tested negated condition ++ cs)) = none := by
    intro cs
    obtain ⟨first, more, hcons, hfirst, -⟩ := hcondition.exists_cons
    cases negated with
    | true => rfl
    | false =>
      show readChar '{' (condition ++ cs) = none
      rw [readChar, hcondition.skip, hcons]
      exact if_neg (ne_of_isIdentifier hfirst (by decide))
  rw [readTerm.eq_def, choiceText]
  dsimp only
  rw [functionBody?_arrow hparams]
  dsimp only
  rw [hbrace]
  exact readTerm_choice hcondition negated false hoperands hother hfuel ['\n']

theorem readStatement_choiceText {name condition operand other : List Char}
    {params operands : List (List Char)} (hname : IsVariable name)
    (hparams : ∀ param ∈ params, IsVariable param) (hcondition : IsVariable condition)
    (negated : Bool) (hoperands : ∀ part ∈ operand :: operands, IsOperand part)
    (hother : IsOperand other) {fuel : Nat} (hfuel : operands.length + 9 ≤ fuel) :
    readStatement (fuel + 3) ('c' :: 'o' :: 'n' :: 's' :: 't' :: ' ' :: (name ++ (' ' :: '=' ::
      choiceText params negated condition operand operands other))) = some ['\n'] := by
  let init := choiceText params negated condition operand operands other
  have hends : EndsName (' ' :: '=' :: init) := by
    rintro c ⟨⟩
    decide
  have hdefinitions : readDefinitions true (fuel + 2) (name ++ (' ' :: '=' :: init)) =
      some ['\n'] := by
    rw [readDefinitions, hname.readName true hends, Option.bind_eq_bind, Option.bind_some]
    have hequals : readChar '=' (' ' :: '=' :: init) = some init := rfl
    rw [hequals]
    dsimp only
    rw [readTerm_choiceText hparams hcondition negated true hoperands hother hfuel]
    rfl
  have hconst : ∀ cs, readStatement (fuel + 3) ('c' :: 'o' :: 'n' :: 's' :: 't' :: ' ' :: cs) =
      readDefinitions true (fuel + 2) (' ' :: cs) := fun cs => rfl
  rw [hconst]
  exact hdefinitions

theorem length_le_addends (operands : List (List Char)) :
    operands.length ≤ (addends operands).length := by
  induction operands with
  | nil => exact Nat.le_refl 0
  | cons operand operands ih =>
    rw [addends] at ih
    rw [addends, List.flatMap_cons, List.length_append, List.length_cons, List.length_cons]
    omega

variable {name condition : String} {params : List String} {parts : List Term} {alternate : Term}

def Term.tested (negated : Bool) (condition : String) : Term :=
  if negated then .not (.name condition) else .name condition

/-- The code of a constant that is a function of a choice, by the parts of its sum. -/
theorem print_constant {operand : List Char} {operands : List (List Char)}
    (hsum : (Term.sum parts).print .arrow = operand ++ addends operands) (negated : Bool) :
    Program.print [.constant name (.arrow params
        (.conditional (.tested negated condition) (.sum parts) alternate))] =
      'c' :: 'o' :: 'n' :: 's' :: 't' :: ' ' :: (name.toList ++ (' ' :: '=' ::
        choiceText (params.map String.toList) negated condition.toList operand operands
          (alternate.print .arrow))) := by
  have htest : (Term.tested negated condition).print .and = tested negated condition.toList := by
    cases negated <;> rfl
  have hterm : (Term.arrow params
      (.conditional (.tested negated condition) (.sum parts) alternate)).print .arrow =
        parenthesized (params.map String.toList) ++ [' ', '=', '>', ' '] ++
          ((Term.tested negated condition).print .and ++ [' ', '?', ' '] ++
            (Term.sum parts).print .arrow ++ [' ', ':', ' '] ++ alternate.print .arrow) := rfl
  have hstatement : ∀ init : Term, (Statement.constant name init).print =
      "const ".toList ++ name.toList ++ [' ', '=', ' '] ++ init.print .arrow ++ [';', '\n'] :=
    fun init => rfl
  have hconst : "const ".toList = ['c', 'o', 'n', 's', 't', ' '] := by decide
  rw [Program.print, List.flatMap_cons, List.flatMap_nil, List.append_nil, hstatement, hterm, htest,
    hsum, hconst, choiceText]
  simp only [List.append_assoc, List.cons_append, List.nil_append]

/-- A constant that is a function of a choice is a module. -/
theorem isModule_constant (hname : IsVariable name.toList)
    (hparams : ∀ param ∈ params, IsVariable param.toList)
    (hcondition : IsVariable condition.toList) (negated : Bool)
    (hparts : ∀ part ∈ parts, part.IsPlain) (halternate : alternate.IsPlain) :
    isModule (Program.print [.constant name (.arrow params
      (.conditional (.tested negated condition) (.sum parts) alternate))]) = true := by
  obtain ⟨operand, operands, hsum, hoperands⟩ := Term.print_sum hparts
  have hnames : ∀ param ∈ params.map String.toList, IsVariable param := by
    intro param hparam
    obtain ⟨written, hwritten, rfl⟩ := List.mem_map.1 hparam
    exact hparams written hwritten
  rw [print_constant hsum, isModule]
  -- The fuel is enough for every operand of the sum.
  have hlength : operands.length ≤ ('c' :: 'o' :: 'n' :: 's' :: 't' :: ' ' :: (name.toList ++
      (' ' :: '=' :: choiceText (params.map String.toList) negated condition.toList operand operands
        (alternate.print .arrow)))).length := by
    have hle := length_le_addends operands
    rw [choiceText]
    simp only [List.length_append, List.length_cons]
    omega
  obtain ⟨fuel, hfuel⟩ := Nat.exists_eq_add_of_le' (Nat.le_trans (show 5 ≤ 16 * 4 by decide)
    (Nat.mul_le_mul_left 16 (Nat.le_add_left 4 ('c' :: 'o' :: 'n' :: 's' :: 't' :: ' ' ::
      (name.toList ++ (' ' :: '=' :: choiceText (params.map String.toList) negated condition.toList
        operand operands (alternate.print .arrow)))).length)))
  have hstatement := readStatement_choiceText hname hnames hcondition negated hoperands
    (halternate.isOperand .arrow) (show operands.length + 9 ≤ fuel + 1 by omega)
  have hfirst : ∀ cs, skip ('c' :: cs) = 'c' :: cs := fun cs => rfl
  rw [hfuel, isStatements, hfirst, hstatement]
  rfl

end Definitions

end MustacheJsx.Jsx
