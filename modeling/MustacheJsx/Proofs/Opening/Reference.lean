import MustacheJsx.Markup.Lexer

/-!
# References and what follows them

A reference is read up to a character that cannot belong to it, so what a text with references
stands for does not depend on what comes after such a character. `valueText` is what the lexer makes
of the text of an attribute value.
-/

namespace MustacheJsx.Markup

namespace Reference

/-- A character that no reference goes on with. -/
structure IsStop (c : Char) : Prop where
  hexDigit : isHexDigit c = false
  digit : Text.isAsciiDigit c = false
  alphanumeric : Text.isAsciiAlphanumeric c = false
  semicolon : c ≠ ';'
  equals : c ≠ '='
  hash : c ≠ '#'

instance (c : Char) : Decidable (IsStop c) :=
  decidable_of_iff (isHexDigit c = false ∧ Text.isAsciiDigit c = false ∧
      Text.isAsciiAlphanumeric c = false ∧ c ≠ ';' ∧ c ≠ '=' ∧ c ≠ '#')
    ⟨fun ⟨hhex, hdigit, hletter, hsemicolon, hequals, hhash⟩ =>
      ⟨hhex, hdigit, hletter, hsemicolon, hequals, hhash⟩,
    fun h => ⟨h.hexDigit, h.digit, h.alphanumeric, h.semicolon, h.equals, h.hash⟩⟩

/-! ### What follows a reference does not matter -/

section

variable {stop : Char} (hstop : IsStop stop) (rest : List Char)

theorem takeWhile_append_stop {p : Char → Bool} (h : p stop = false) (cs : List Char) :
    (cs ++ stop :: rest).takeWhile p = cs.takeWhile p := by
  rw [List.takeWhile_append, List.takeWhile_cons_of_neg (Bool.eq_false_iff.1 h), List.append_nil]
  split
  · next hall => exact ((List.takeWhile_prefix p).eq_of_length hall).symm
  · rfl

theorem head?_drop_append {cs : List Char} {n : Nat} (hn : n ≤ cs.length) :
    ((cs ++ stop :: rest).drop n).head? = some ((cs.drop n).head?.getD stop) := by
  rw [List.drop_append_of_le_length hn]
  cases cs.drop n <;> rfl

include hstop

theorem numberIn?_append {base : Nat} (skipped : Nat) (cs : List Char) :
    numberIn? base skipped (cs ++ stop :: rest) = numberIn? base skipped cs := by
  have hdigit : (if base = 16 then isHexDigit else Text.isAsciiDigit) stop = false := by
    split
    · exact hstop.hexDigit
    · exact hstop.digit
  rw [numberIn?, numberIn?]
  dsimp only
  rw [takeWhile_append_stop rest hdigit, head?_drop_append rest (List.takeWhile_prefix _).length_le]
  cases (cs.drop _).head? with
  | none => simp [hstop.semicolon]
  | some c => rfl

omit hstop in
theorem startsWith_append {lead : List Char} (hlead : stop ∉ lead) (cs : List Char) :
    Text.startsWith lead (cs ++ stop :: rest) = Text.startsWith lead cs := by
  rw [Text.startsWith, Text.startsWith]
  induction lead generalizing cs with
  | nil => rfl
  | cons l lead ih =>
    have hl : l ≠ stop := fun heq => hlead (heq ▸ List.mem_cons_self)
    cases cs with
    | nil => simp [Text.afterLead?, hl]
    | cons c cs =>
      rw [List.cons_append, Text.afterLead?, Text.afterLead?]
      split
      · exact ih (fun hmem => hlead (List.mem_cons_of_mem l hmem)) cs
      · rfl

theorem stop_not_mem_bareName {name : String} (h : name ∈ Entity.bareNames) :
    stop ∉ name.toList := by
  have hall : ∀ name ∈ Entity.bareNames, name.toList.all Text.isAsciiAlphanumeric = true := by
    decide +kernel
  intro hmem
  have hstopped := List.all_eq_true.1 (hall name h) stop hmem
  rw [hstop.alphanumeric] at hstopped
  cases hstopped

theorem longestLead?_append (cs : List Char) :
    longestLead? (cs ++ stop :: rest) Entity.bareNames = longestLead? cs Entity.bareNames := by
  have hnames := fun name (h : name ∈ Entity.bareNames) => stop_not_mem_bareName hstop h
  rw [longestLead?, longestLead?]
  generalize (none : Option (List Char)) = best
  generalize Entity.bareNames = names at hnames
  induction names generalizing best with
  | nil => rfl
  | cons name names ih =>
    rw [List.foldl_cons, List.foldl_cons]
    dsimp only
    rw [startsWith_append rest (hnames name List.mem_cons_self)]
    exact ih _ fun name h => hnames name (List.mem_cons_of_mem _ h)

omit hstop in
theorem length_longestLead?_le {cs name : List Char} {names : List String}
    (h : longestLead? cs names = some name) : name.length ≤ cs.length := by
  have hstep : ∀ (names : List String) (best : Option (List Char)),
      (∀ chars ∈ best, chars.length ≤ cs.length) →
      ∀ chars ∈ names.foldl (fun best name =>
        let chars := name.toList
        if Text.startsWith chars cs && (best.getD []).length < chars.length then some chars
        else best) best, chars.length ≤ cs.length := by
    intro names
    induction names with
    | nil => exact fun _ h => h
    | cons name names ih =>
      intro best hbest
      refine ih _ ?_
      dsimp only
      split
      · next hstarts =>
        rw [Bool.and_eq_true, Text.startsWith_iff] at hstarts
        intro chars hchars
        obtain rfl := Option.mem_some.1 hchars
        exact hstarts.1.length_le
      · exact hbest
  exact hstep names none nofun name h

theorem bare?_append (inAttribute : Bool) (cs : List Char) :
    bare? inAttribute (cs ++ stop :: rest) = bare? inAttribute cs := by
  rw [bare?, bare?, longestLead?_append hstop]
  cases hlead : longestLead? cs Entity.bareNames with
  | none => rfl
  | some name =>
    dsimp only
    rw [List.drop_append_of_le_length (length_longestLead?_le hlead)]
    cases cs.drop name.length with
    | nil => simp [hstop.equals, hstop.alphanumeric]
    | cons c tail => rfl

theorem named?_append (inAttribute : Bool) (cs : List Char) :
    named? inAttribute (cs ++ stop :: rest) = named? inAttribute cs := by
  rw [named?, named?, takeWhile_append_stop rest hstop.alphanumeric,
    head?_drop_append rest (List.takeWhile_prefix _).length_le, bare?_append hstop]
  cases (cs.drop _).head? with
  | none =>
    rw [Option.getD_none]
    split
    · next heq _ => exact absurd (Option.some.inj heq) hstop.semicolon
    · rfl
  | some c => rfl

omit hstop in
theorem read?_of_ne {inAttribute : Bool} {cs : List Char} (h : ∀ digits, cs ≠ '#' :: digits) :
    read? inAttribute cs = named? inAttribute cs := by
  rw [read?.eq_def]
  split
  · exact absurd rfl (h _)
  · exact absurd rfl (h _)
  · exact absurd rfl (h _)
  · rfl

omit hstop in
theorem read?_decimal {inAttribute : Bool} {cs : List Char}
    (h : ∀ d digits, cs = d :: digits → d ≠ 'x' ∧ d ≠ 'X') :
    read? inAttribute ('#' :: cs) = numberIn? 10 1 cs := by
  rw [read?.eq_def]
  split
  · next heq => exact absurd rfl (h _ _ (List.cons.inj heq).2).1
  · next heq => exact absurd rfl (h _ _ (List.cons.inj heq).2).2
  · next heq => rw [(List.cons.inj heq).2]
  · next hnot => exact (hnot _ rfl).elim

/-- A reference does not depend on what follows a character that it cannot go on with. -/
theorem read?_append (inAttribute : Bool) (cs : List Char) :
    read? inAttribute (cs ++ stop :: rest) = read? inAttribute cs := by
  have hletter : stop ≠ 'x' ∧ stop ≠ 'X' := by
    have hstopped := hstop.alphanumeric
    constructor <;> rintro rfl <;> cases hstopped
  by_cases hhash : ∃ digits, cs = '#' :: digits
  · obtain ⟨cs, rfl⟩ := hhash
    by_cases hx : ∃ digits, cs = 'x' :: digits ∨ cs = 'X' :: digits
    · obtain ⟨digits, rfl | rfl⟩ := hx <;> exact numberIn?_append hstop rest 2 digits
    · have hcs : ∀ d digits, cs = d :: digits → d ≠ 'x' ∧ d ≠ 'X' := by
        rintro d digits rfl
        constructor <;> rintro rfl <;> exact hx ⟨digits, by simp⟩
      rw [List.cons_append, read?_decimal hcs, read?_decimal, numberIn?_append hstop]
      intro d digits heq
      cases cs with
      | nil =>
        cases heq
        exact hletter
      | cons c cs =>
        cases heq
        exact hcs _ _ rfl
  · rw [not_exists] at hhash
    rw [read?_of_ne hhash, read?_of_ne, named?_append hstop]
    intro digits heq
    cases cs with
    | nil => exact hstop.hash (List.cons.inj heq).1
    | cons c cs => exact hhash cs (by rw [(List.cons.inj heq).1])

end

/-! ### What a reference takes and gives -/

theorem characters_ne_nil {name chars : List Char} (h : Entity.characters? name = some chars) :
    chars ≠ [] := by
  have htable : ∀ c, ∀ entry ∈ Entity.table c, entry.2 ≠ [] := by
    intro c
    unfold Entity.table
    split <;> decide +kernel
  rw [Entity.characters?.eq_def] at h
  split at h
  · cases h
  · next c _ =>
    obtain ⟨entry, hfind, rfl⟩ := Option.map_eq_some_iff.1 h
    have hentry := htable c entry (List.mem_of_find?_eq_some hfind)
    simpa using hentry

theorem numberIn?_bounds {base skipped count : Nat} {cs found : List Char}
    (h : numberIn? base skipped cs = some (found, count)) :
    found ≠ [] ∧ count ≤ skipped + cs.length := by
  rw [numberIn?] at h
  dsimp only at h
  generalize (if base = 16 then isHexDigit else Text.isAsciiDigit) = isDigit at h
  have hle := (List.takeWhile_prefix isDigit (l := cs)).length_le
  split at h
  · cases h
  · obtain ⟨rfl, rfl⟩ := Prod.mk.inj (Option.some.inj h)
    refine ⟨List.cons_ne_nil _ _, ?_⟩
    split
    · next hhead =>
      have hlt : (cs.takeWhile isDigit).length < cs.length := by
        refine Nat.lt_of_le_of_ne hle fun heq => ?_
        rw [heq, List.drop_length] at hhead
        cases hhead
      omega
    · omega

theorem named?_bounds {inAttribute : Bool} {count : Nat} {cs found : List Char}
    (h : named? inAttribute cs = some (found, count)) : found ≠ [] ∧ count ≤ cs.length := by
  rw [named?] at h
  split at h
  · next hhead hchars =>
    cases h
    refine ⟨characters_ne_nil hchars, ?_⟩
    have hle := (List.takeWhile_prefix Text.isAsciiAlphanumeric (l := cs)).length_le
    refine Nat.succ_le_of_lt (Nat.lt_of_le_of_ne hle fun heq => ?_)
    rw [heq, List.drop_length] at hhead
    cases hhead
  · rw [bare?] at h
    split at h
    · cases h
    · next name hlead =>
      obtain ⟨-, h⟩ := Option.ite_none_left_eq_some.1 h
      obtain ⟨chars, hchars, hpair⟩ := Option.map_eq_some_iff.1 h
      cases hpair
      exact ⟨characters_ne_nil hchars, length_longestLead?_le hlead⟩

theorem read?_bounds {inAttribute : Bool} {count : Nat} {cs found : List Char}
    (h : read? inAttribute cs = some (found, count)) : found ≠ [] ∧ count ≤ cs.length := by
  rw [read?.eq_def] at h
  split at h
  · obtain ⟨hfound, hcount⟩ := numberIn?_bounds h
    exact ⟨hfound, by simp only [List.length_cons]; omega⟩
  · obtain ⟨hfound, hcount⟩ := numberIn?_bounds h
    exact ⟨hfound, by simp only [List.length_cons]; omega⟩
  · obtain ⟨hfound, hcount⟩ := numberIn?_bounds h
    exact ⟨hfound, by simp only [List.length_cons]; omega⟩
  · exact named?_bounds h

end Reference

/-! ### The text of an attribute value -/

/-- What the characters of an attribute value after the first `skip` stand for. -/
def valueTextAfter (skip : Nat) : List Char → List Char
  | [] => []
  | c :: cs =>
    match skip with
    | skip + 1 => valueTextAfter skip cs
    | 0 =>
      if c = '&' then
        match Reference.read? true cs with
        | some (found, count) => found ++ valueTextAfter count cs
        | none => '&' :: valueTextAfter 0 cs
      else Lexer.visible c :: valueTextAfter 0 cs

/-- What the text of an attribute value stands for: references are replaced, line ends are unified,
and NUL is no character. -/
def valueText (cs : List Char) : List Char := valueTextAfter 0 (Lexer.unifyLineEnds cs)

theorem valueText_ne_nil {cs : List Char} (h : cs ≠ []) : valueText cs ≠ [] := by
  have hunified : Lexer.unifyLineEnds cs ≠ [] := by
    rw [Lexer.unifyLineEnds.eq_def]
    split
    · exact absurd rfl h
    · exact List.cons_ne_nil _ _
    · exact List.cons_ne_nil _ _
    · exact List.cons_ne_nil _ _
  rw [valueText]
  cases hcs : Lexer.unifyLineEnds cs with
  | nil => exact absurd hcs hunified
  | cons c cs =>
    rw [valueTextAfter]
    split
    · split
      · next hread => exact List.append_ne_nil_of_left_ne_nil (Reference.read?_bounds hread).1 _
      · exact List.cons_ne_nil _ _
    · exact List.cons_ne_nil _ _

end MustacheJsx.Markup
