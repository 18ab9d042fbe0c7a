import MustacheJsx.Conversion.Expression
import MustacheJsx.Jsx.Printer
import MustacheJsx.Proofs.Conversion.AttributeTexts
import MustacheJsx.Proofs.Lines

/-!
# Access to properties, read back

A chain is written as a name with accesses behind it, with a point before an identifier and a string
literal in brackets for any other property. A reader of such chains gets the segments back from the
output, so chains of different segments are never written alike: `Jsx.segments_readBack`.
-/

namespace MustacheJsx.Jsx

/-! ### Reading a chain -/

/-- Reads the access to a property: its name after a point, or a string literal in brackets. -/
def readAccess (cs : List Char) : Option (List Char × List Char) :=
  match skip cs with
  | '.' :: rest =>
    let (word, rest) := takeWord (skip rest)
    if word.isEmpty then none else some (word, rest)
  | '[' :: rest =>
    match skip rest with
    | '"' :: literal => do
      let (property, rest) ← readLiteral 0 literal
      return (property, ← readChar ']' rest)
    | _ => none
  | _ => none

def readAccesses : Nat → List Char → List (List Char) × List Char
  | 0, cs => ([], cs)
  | most + 1, cs =>
    match readAccess cs with
    | some (property, rest) =>
      let (properties, rest) := readAccesses most rest
      (property :: properties, rest)
    | none => ([], cs)

/-- Reads the word that a chain begins with, which may stand in parentheses. A statement that begins
with `let` and a bracket is a declaration. -/
def readHeadWord (cs : List Char) : Option (List Char × List Char) :=
  match skip cs with
  | '(' :: rest => do
    let (word, rest) := takeWord (skip rest)
    return (word, ← readChar ')' rest)
  | cs =>
    let (word, rest) := takeWord cs
    if word = ['l', 'e', 't'] ∧ (skip rest).head? = some '[' then none else some (word, rest)

/-- The segments of a statement that is a chain and nothing else: its first word and the properties
in the order of their accesses. -/
def readSegments (code : List Char) : Option (List Char × List (List Char)) := do
  let (word, rest) ← readHeadWord code
  let (properties, rest) := readAccesses rest.length rest
  let rest ← readChar ';' rest
  if skip rest = [] then some (word, properties) else none

def readChain? (code : List Char) : Option (List String) := do
  let (word, properties) ← readSegments code
  if isName false word then some (String.ofList word :: properties.map String.ofList) else none

/-! ### The code of a chain -/

/-- The output that is the chain of segments and nothing else. -/
def chainCode (segments : List String) : Except CompileError (List Char) :=
  (Term.ofSegments segments).map fun term => Layout.arrange (Program.print [.expression term])

def headText (head : String) (properties : List String) : List Char :=
  match properties with
  | [] => head.toList
  | property :: _ => accessed (.name head) property head.toList

theorem accessed_name (head property : String) (cs : List Char) :
    accessed (.name head) property cs =
      if head = "let" ∧ Text.isIdentifier property.toList = false then '(' :: (cs ++ [')'])
      else cs := by
  rw [accessed.eq_def]
  split
  · next heq =>
    obtain rfl := Term.name.inj heq
    cases hproperty : Text.isIdentifier property.toList <;> simp
  · next hnot => rw [if_neg fun hlet => hnot (congrArg Term.name hlet.1)]

theorem exists_foldl_member (object : Term) (property : String) (properties : List String) :
    ∃ whole last, properties.foldl Term.member (.member object property) = .member whole last := by
  induction properties generalizing object property with
  | nil => exact ⟨object, property, rfl⟩
  | cons next properties ih => exact ih (.member object property) next

theorem print_foldl_member (least : Strength) (object : Term) (property : String)
    (properties : List String) :
    (properties.foldl Term.member (.member object property)).print least =
      (Term.member object property).print least ++ properties.flatMap access := by
  induction properties generalizing object property with
  | nil => exact (List.append_nil _).symm
  | cons next properties ih =>
    rw [List.foldl_cons, ih, List.flatMap_cons, ← List.append_assoc]
    rfl

theorem printAlone_chain (head : String) (properties : List String) :
    (properties.foldl Term.member (.name head)).printAlone =
      headText head properties ++ properties.flatMap access := by
  cases properties with
  | nil => exact (List.append_nil head.toList).symm
  | cons property properties =>
    have hprint := print_foldl_member .arrow (.name head) property properties
    obtain ⟨whole, last, hwhole⟩ := exists_foldl_member (.name head) property properties
    rw [hwhole] at hprint
    rw [List.foldl_cons, hwhole, List.flatMap_cons, ← List.append_assoc]
    exact hprint

/-! ### Chains on a line -/

theorem newline_not_mem_of_isIdentifier {name : List Char} (h : Text.isIdentifier name = true) :
    '\n' ∉ name := by
  obtain ⟨first, more, rfl, hfirst, hmore⟩ := exists_of_isIdentifier h
  rw [List.mem_cons]
  rintro (rfl | hmem)
  · exact absurd hfirst (by decide)
  · exact absurd (hmore '\n' hmem) (by decide)

theorem newline_not_mem_access (property : String) : '\n' ∉ access property := by
  rw [access]
  split
  · next hproperty =>
    rw [List.mem_cons]
    rintro (heq | hmem)
    · exact absurd heq (by decide)
    · exact newline_not_mem_of_isIdentifier hproperty hmem
  · simp [quote, newline_not_mem_escape]

theorem headText_cases (head : String) (properties : List String) :
    headText head properties = head.toList ∨
      headText head properties = '(' :: (head.toList ++ [')']) := by
  cases properties with
  | nil => exact .inl rfl
  | cons property properties =>
    rw [headText, accessed_name]
    split
    · exact .inr rfl
    · exact .inl rfl

theorem isLine_chain {head : String} (hhead : Text.isIdentifier head.toList = true)
    (properties : List String) :
    Layout.IsLine (headText head properties ++ properties.flatMap access ++ [';']) where
  ne_nil := by simp
  newline_not_mem := by
    have hname := newline_not_mem_of_isIdentifier hhead
    have hfirst : '\n' ∉ headText head properties := by
      rcases headText_cases head properties with htext | htext <;> simp [htext, hname]
    simp only [List.mem_append, List.mem_flatMap, not_or, not_exists, not_and]
    exact ⟨⟨hfirst, fun property _ => newline_not_mem_access property⟩, by decide⟩
  head_ink := by
    obtain ⟨first, more, hname, hfirst, -⟩ := exists_of_isIdentifier hhead
    rcases headText_cases head properties with htext | htext
    · rw [htext, hname]
      rintro c ⟨⟩
      exact isBlank_eq_false (toNat_of_isIdentifier hfirst)
    · rw [htext]
      rintro c ⟨⟩
      decide
  last_ink := by
    rw [List.getLast?_concat]
    rintro c ⟨⟩
    decide

theorem chainCode_cons {head : String} (hhead : Text.isIdentifier head.toList = true)
    (properties : List String) :
    chainCode (head :: properties) =
      .ok (headText head properties ++ properties.flatMap access ++ [';']) := by
  have hstatement : ∀ term : Term, (Statement.expression term).print =
      term.printAlone ++ [';', '\n'] := fun term => rfl
  have hprogram : Program.print [.expression (properties.foldl Term.member (.name head))] =
      headText head properties ++ properties.flatMap access ++ [';'] ++ ['\n'] := by
    rw [Program.print, List.flatMap_singleton, hstatement, printAlone_chain,
      List.append_assoc _ [';'] ['\n'], List.singleton_append]
  rw [chainCode, Term.ofSegments, Except.map, hprogram,
    Layout.arrange_line (isLine_chain hhead properties)]

example : chainCode ["let", "a b"] = .ok "(let)[\"a b\"];".toList := by decide

/-! ### Segments, read back -/

theorem readAccess_point (cs : List Char) :
    readAccess ('.' :: cs) =
      if (takeWord (skip cs)).1.isEmpty then none else some (takeWord (skip cs)) := rfl

theorem readAccess_bracket (cs : List Char) :
    readAccess ('[' :: '"' :: cs) =
      (readLiteral 0 cs).bind fun read => (readChar ']' read.2).map fun rest => (read.1, rest) := by
  show ((readLiteral 0 cs).bind fun read => (readChar ']' read.2).bind fun rest =>
    some (read.1, rest)) = _
  simp only [Option.map_eq_bind, Function.comp_def]

theorem readAccess_access (property : String) {rest : List Char} (hrest : EndsName rest) :
    readAccess (access property ++ rest) = some (property.toList, rest) := by
  rw [access]
  split
  · next hproperty =>
    have hempty : property.toList.isEmpty = false := by
      obtain ⟨first, more, hname, -⟩ := exists_of_isIdentifier hproperty
      rw [hname]
      rfl
    rw [List.cons_append, readAccess_point, skip_of_isIdentifier hproperty,
      takeWord_of_isIdentifier hproperty hrest, hempty]
    rfl
  · have hcode : '[' :: (quote property.toList ++ [']']) ++ rest =
        '[' :: '"' :: (escape property.toList ++ '"' :: ']' :: rest) := by
      simp [quote]
    rw [hcode, readAccess_bracket, readLiteral_escape]
    rfl

theorem endsName_accesses (properties : List String) :
    EndsName (properties.flatMap access ++ [';']) := by
  cases properties with
  | nil =>
    rintro c ⟨⟩
    decide
  | cons property properties =>
    rw [List.flatMap_cons, access]
    split <;> rintro c ⟨⟩ <;> decide

theorem readAccesses_flatMap {most : Nat} {properties : List String}
    (h : properties.length ≤ most) :
    readAccesses most (properties.flatMap access ++ [';']) =
      (properties.map String.toList, [';']) := by
  induction properties generalizing most with
  | nil => cases most <;> rfl
  | cons property properties ih =>
    obtain ⟨most, rfl⟩ := Nat.exists_eq_succ_of_ne_zero (Nat.ne_of_gt (Nat.zero_lt_of_lt h))
    rw [List.flatMap_cons, List.append_assoc, readAccesses,
      readAccess_access property (endsName_accesses properties)]
    dsimp only
    rw [ih (Nat.le_of_succ_le_succ h)]
    rfl

theorem length_le_accesses (properties : List String) :
    properties.length ≤ (properties.flatMap access).length := by
  induction properties with
  | nil => exact Nat.le_refl 0
  | cons property properties ih =>
    have hpos : 0 < (access property).length := by
      rw [access]
      split <;> exact Nat.succ_pos _
    rw [List.flatMap_cons, List.length_append, List.length_cons]
    omega

theorem readHeadWord_open (cs : List Char) :
    readHeadWord ('(' :: cs) =
      (readChar ')' (takeWord (skip cs)).2).map fun rest => ((takeWord (skip cs)).1, rest) := by
  show ((readChar ')' (takeWord (skip cs)).2).bind fun rest =>
    some ((takeWord (skip cs)).1, rest)) = _
  simp only [Option.map_eq_bind, Function.comp_def]

theorem readHeadWord_word {name rest : List Char} (hname : Text.isIdentifier name = true)
    (hrest : EndsName rest) (hlet : name = ['l', 'e', 't'] → (skip rest).head? ≠ some '[') :
    readHeadWord (name ++ rest) = some (name, rest) := by
  obtain ⟨first, more, hcons, hfirst, -⟩ := exists_of_isIdentifier hname
  rw [readHeadWord, skip_of_isIdentifier hname]
  split
  · next tail heq =>
    rw [hcons] at heq
    exact absurd (List.cons.inj heq).1 (ne_of_isIdentifier hfirst (by decide))
  · rw [takeWord_of_isIdentifier hname hrest]
    exact if_neg fun hdeclares => hlet hdeclares.1 hdeclares.2

theorem readHeadWord_headText {head : String} (hhead : Text.isIdentifier head.toList = true)
    (properties : List String) :
    readHeadWord (headText head properties ++ (properties.flatMap access ++ [';'])) =
      some (head.toList, properties.flatMap access ++ [';']) := by
  have hends := endsName_accesses properties
  cases properties with
  | nil => exact readHeadWord_word hhead hends fun _ => by decide
  | cons property properties =>
    rw [headText, accessed_name]
    split
    · have hparen : EndsName (')' :: ((property :: properties).flatMap access ++ [';'])) := by
        rintro c ⟨⟩
        decide
      rw [List.cons_append, List.append_assoc, readHeadWord_open, skip_of_isIdentifier hhead,
        List.singleton_append, takeWord_of_isIdentifier hhead hparen]
      rfl
    · next hplain =>
      refine readHeadWord_word hhead hends fun hlet => ?_
      have hproperty : Text.isIdentifier property.toList = true := by
        rw [← Bool.not_eq_false]
        exact fun hbracket => hplain ⟨String.toList_inj.1 hlet, hbracket⟩
      rw [List.flatMap_cons, access, if_pos hproperty]
      exact fun hbracket => absurd (Option.some.inj hbracket) (by decide)

theorem readSegments_chain {head : String} (hhead : Text.isIdentifier head.toList = true)
    (properties : List String) :
    readSegments (headText head properties ++ properties.flatMap access ++ [';']) =
      some (head.toList, properties.map String.toList) := by
  have hlength : properties.length ≤ (properties.flatMap access ++ [';']).length := by
    have hle := length_le_accesses properties
    rw [List.length_append]
    omega
  rw [List.append_assoc, readSegments, readHeadWord_headText hhead properties,
    Option.bind_eq_bind, Option.bind_some]
  dsimp only
  rw [readAccesses_flatMap hlength]
  rfl

/-- The code of a chain that begins with a name is read as the access to exactly its segments, in
their order, and no other segments that begin with an identifier have the same code. -/
theorem segments_readBack {head : String} (hhead : Text.isIdentifier head.toList = true)
    (hname : head ∉ reservedWords) (properties : List String) :
    ∃ code, chainCode (head :: properties) = .ok code ∧
      readChain? code = some (head :: properties) ∧
      ∀ (other : String) (others : List String), Text.isIdentifier other.toList = true →
        chainCode (other :: others) = .ok code → other :: others = head :: properties := by
  have hread := readSegments_chain hhead properties
  refine ⟨_, chainCode_cons hhead properties, ?_, fun other others hother hcode => ?_⟩
  · have hisName : isName false head.toList = true := by
      obtain ⟨first, more, hcons, -⟩ := exists_of_isIdentifier hhead
      have hempty : head.toList.isEmpty = false := by
        rw [hcons]
        rfl
      have hreserved : reservedWords.contains head = false := by simpa using hname
      rw [isName, hempty, String.ofList_toList, hreserved]
      rfl
    rw [readChain?, hread, Option.bind_eq_bind, Option.bind_some]
    dsimp only
    rw [if_pos hisName, String.ofList_toList, List.map_map]
    simp [Function.comp_def]
  · rw [chainCode_cons hother] at hcode
    have hsame := readSegments_chain hother others
    rw [Except.ok.inj hcode, hread] at hsame
    obtain ⟨hfirst, hrest⟩ := Prod.mk.inj (Option.some.inj hsame)
    rw [String.toList_inj.1 hfirst,
      List.map_injective_iff.2 (fun _ _ => String.toList_inj.1) hrest]

/-- A keyword stands behind a point, a line end and a bracket are no end of a property, and a
property may have no name at all. -/
theorem segments_readBack_props :
    chainCode ["props", "in", "a\n\"].b", ""] = .ok "props.in[\"a\\n\\\"].b\"][\"\"];".toList ∧
      ∃ code, chainCode ["props", "in", "a\n\"].b", ""] = .ok code ∧
        readChain? code = some ["props", "in", "a\n\"].b", ""] ∧
        ∀ (other : String) (others : List String), Text.isIdentifier other.toList = true →
          chainCode (other :: others) = .ok code →
            other :: others = ["props", "in", "a\n\"].b", ""] :=
  ⟨by decide, segments_readBack (by decide) (by decide) ["in", "a\n\"].b", ""]⟩

end MustacheJsx.Jsx
