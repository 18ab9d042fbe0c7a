/-!
# Blank characters and the cutting of text

Text is scanned as a list of characters. This module fixes which characters are blank, and how text
is trimmed, cut into words and split at a separator. The lemmas say that cutting loses nothing and
that a cut piece is never longer than what it was cut from.

Models what the stages use of trimming, cutting and splitting of strings.
-/

namespace MustacheJsx.Text

/-! ### Blank characters -/

/-- The characters of the Unicode property `White_Space`. -/
def isBlank (c : Char) : Bool :=
  let n := c.toNat
  (9 ≤ n && n ≤ 13) || n == 0x20 || n == 0x85 || n == 0xA0 || n == 0x1680 ||
  (0x2000 ≤ n && n ≤ 0x200A) || n == 0x2028 || n == 0x2029 || n == 0x202F || n == 0x205F ||
  n == 0x3000

/-- The blank characters of ASCII: tab, line feed, form feed, carriage return and space. -/
def isAsciiBlank (c : Char) : Bool :=
  c == ' ' || c == '\t' || c == '\n' || c == '\x0c' || c == '\r'

theorem isBlank_of_isAsciiBlank {c : Char} (h : isAsciiBlank c = true) : isBlank c = true := by
  simp only [isAsciiBlank, Bool.or_eq_true, beq_iff_eq, or_assoc] at h
  rcases h with rfl | rfl | rfl | rfl | rfl <;> decide

/-- Markup knows four blank characters once carriage returns are gone. -/
def isMarkupBlank (c : Char) : Bool :=
  c == ' ' || c == '\t' || c == '\n' || c == '\x0c'

/-! ### Lengths -/

def utf8Length : List Char → Nat
  | [] => 0
  | c :: cs => c.utf8Size + utf8Length cs

theorem utf8Length_append (xs ys : List Char) :
    utf8Length (xs ++ ys) = utf8Length xs + utf8Length ys := by
  induction xs with
  | nil => simp [utf8Length]
  | cons c cs ih => simp [utf8Length, ih, Nat.add_assoc]

theorem length_dropWhile_le {α : Type} (p : α → Bool) (xs : List α) :
    (xs.dropWhile p).length ≤ xs.length :=
  (List.dropWhile_suffix p).length_le

/-! ### Trimming -/

def trimStart (cs : List Char) : List Char := cs.dropWhile isBlank

def trimEnd (cs : List Char) : List Char := (cs.reverse.dropWhile isBlank).reverse

/-- `cs` without the blanks at either end. -/
def trim (cs : List Char) : List Char := trimEnd (trimStart cs)

theorem length_trimStart_le (cs : List Char) : (trimStart cs).length ≤ cs.length :=
  length_dropWhile_le isBlank cs

/-! ### Fixed text inside text -/

def afterLead? : List Char → List Char → Option (List Char)
  | [], cs => some cs
  | _ :: _, [] => none
  | l :: lead, c :: cs => if l = c then afterLead? lead cs else none

theorem afterLead?_eq_some_iff {lead cs rest : List Char} :
    afterLead? lead cs = some rest ↔ cs = lead ++ rest := by
  induction lead generalizing cs with
  | nil => simp [afterLead?]
  | cons l lead ih =>
    cases cs with
    | nil => simp [afterLead?]
    | cons c cs =>
      by_cases h : l = c
      · simp [afterLead?, h, ih]
      · simp [afterLead?, h, Ne.symm h]

def startsWith (lead cs : List Char) : Bool := (afterLead? lead cs).isSome

theorem startsWith_iff {lead cs : List Char} : startsWith lead cs = true ↔ lead <+: cs := by
  rw [startsWith, Option.isSome_iff_exists]
  constructor
  · rintro ⟨rest, hrest⟩
    exact ⟨rest, (afterLead?_eq_some_iff.1 hrest).symm⟩
  · rintro ⟨rest, hrest⟩
    exact ⟨rest, afterLead?_eq_some_iff.2 hrest.symm⟩

/-- Cuts `cs` at the first place where `mark` stands: what is before it and what is after it. -/
def cutAt? (mark : List Char) : List Char → Option (List Char × List Char)
  | [] => (afterLead? mark []).map ([], ·)
  | c :: cs =>
    match afterLead? mark (c :: cs) with
    | some rest => some ([], rest)
    | none => (cutAt? mark cs).map fun (before, rest) => (c :: before, rest)

theorem eq_append_of_cutAt? {mark cs before rest : List Char}
    (h : cutAt? mark cs = some (before, rest)) : cs = before ++ mark ++ rest := by
  induction cs generalizing before with
  | nil =>
    simp only [cutAt?, Option.map_eq_some_iff, Prod.mk.injEq] at h
    obtain ⟨r, hr, rfl, rfl⟩ := h
    simpa using afterLead?_eq_some_iff.1 hr
  | cons c cs ih =>
    rw [cutAt?] at h
    split at h
    · next r hr =>
      simp only [Option.some.injEq, Prod.mk.injEq] at h
      obtain ⟨rfl, rfl⟩ := h
      simpa using afterLead?_eq_some_iff.1 hr
    · simp only [Option.map_eq_some_iff, Prod.mk.injEq, Prod.exists] at h
      obtain ⟨b, r, hb, rfl, rfl⟩ := h
      simp [ih hb]

theorem append_dropLast_isPrefix (before mark rest : List Char) :
    before ++ mark.dropLast <+: before ++ mark ++ rest := by
  rw [List.append_assoc]
  exact (List.prefix_append_right_inj before).2
    ((List.dropLast_prefix mark).trans (List.prefix_append mark rest))

theorem cutAt?_eq_some_iff {mark cs before rest : List Char} (hmark : mark ≠ []) :
    cutAt? mark cs = some (before, rest) ↔
      cs = before ++ mark ++ rest ∧ ¬ mark <:+: before ++ mark.dropLast := by
  have hshort : mark.dropLast.length < mark.length := by
    have := List.length_pos_iff.2 hmark
    rw [List.length_dropLast]
    omega
  constructor
  · intro h
    refine ⟨eq_append_of_cutAt? h, ?_⟩
    induction cs generalizing before with
    | nil =>
      have hcs := (List.append_eq_nil_iff.1 (eq_append_of_cutAt? h).symm).1
      exact absurd (List.append_eq_nil_iff.1 hcs).2 hmark
    | cons c cs ih =>
      have hcs := eq_append_of_cutAt? h
      rw [cutAt?] at h
      split at h
      · cases h
        exact fun hwithin => absurd hwithin.length_le (Nat.not_le_of_lt hshort)
      · next hlead =>
        obtain ⟨⟨before, rest⟩, hcut, hpair⟩ := Option.map_eq_some_iff.1 h
        cases hpair
        intro hwithin
        rcases List.infix_cons_iff.1 hwithin with hbegin | hinside
        · have hwhole := append_dropLast_isPrefix (c :: before) mark rest
          rw [← hcs] at hwhole
          obtain ⟨after, hafter⟩ := hbegin.trans hwhole
          rw [afterLead?_eq_some_iff.2 hafter.symm] at hlead
          cases hlead
        · exact ih hcut hinside
  · rintro ⟨rfl, hnone⟩
    induction before with
    | nil =>
      obtain ⟨c, cs, rfl⟩ := List.exists_cons_of_ne_nil hmark
      have hlead : afterLead? (c :: cs) (c :: (cs ++ rest)) = some rest :=
        afterLead?_eq_some_iff.2 rfl
      simp only [List.nil_append, List.cons_append, cutAt?, hlead]
    | cons c before ih =>
      have hlead : afterLead? mark (c :: (before ++ mark ++ rest)) = none := by
        refine Option.eq_none_iff_forall_not_mem.2 fun after hafter => hnone ?_
        have hbegin : mark <+: c :: before ++ mark ++ rest :=
          ⟨after, (afterLead?_eq_some_iff.1 hafter).symm⟩
        refine (List.prefix_of_prefix_length_le hbegin
          (append_dropLast_isPrefix (c :: before) mark rest) ?_).isInfix
        simp
        omega
      have hrest := ih fun hwithin => hnone (List.infix_cons hwithin)
      simp only [List.cons_append, cutAt?, hlead, hrest, Option.map_some]

def contains (mark cs : List Char) : Bool := (cutAt? mark cs).isSome

theorem contains_of_cons {mark cs : List Char} {c : Char} (h : contains mark (c :: cs) = false) :
    afterLead? mark (c :: cs) = none ∧ contains mark cs = false := by
  rw [contains, cutAt?] at h
  split at h
  · cases h
  · next hlead =>
    refine ⟨hlead, ?_⟩
    rw [Option.isSome_map] at h
    exact h

theorem contains_iff {mark cs : List Char} : contains mark cs = true ↔ mark <:+: cs := by
  induction cs with
  | nil =>
    rw [contains, cutAt?, Option.isSome_map, Option.isSome_iff_exists, List.infix_nil]
    constructor
    · rintro ⟨rest, hrest⟩
      exact (List.append_eq_nil_iff.1 (afterLead?_eq_some_iff.1 hrest).symm).1
    · rintro rfl
      exact ⟨[], rfl⟩
  | cons c cs ih =>
    rw [contains, cutAt?, List.infix_cons_iff]
    cases hlead : afterLead? mark (c :: cs) with
    | some rest =>
      exact ⟨fun _ => .inl ⟨rest, (afterLead?_eq_some_iff.1 hlead).symm⟩, fun _ => rfl⟩
    | none =>
      dsimp only
      rw [Option.isSome_map]
      refine ⟨fun h => .inr (ih.1 h), fun h => ih.2 (h.resolve_left ?_)⟩
      rintro ⟨rest, hrest⟩
      rw [afterLead?_eq_some_iff.2 hrest.symm] at hlead
      cases hlead

/-! ### Splitting -/

/-- The pieces of `cs` between the places where `sep` stands; there is always at least one. -/
def splitOn (sep : Char) : List Char → List (List Char)
  | [] => [[]]
  | c :: cs =>
    match splitOn sep cs with
    | [] => [[]]
    | piece :: pieces => if c = sep then [] :: piece :: pieces else (c :: piece) :: pieces

theorem splitOn_ne_nil (sep : Char) (cs : List Char) : splitOn sep cs ≠ [] := by
  cases cs with
  | nil => simp [splitOn]
  | cons c cs =>
    rw [splitOn]
    split
    · simp
    · split <;> simp

def joinWith (sep : Char) : List (List Char) → List Char
  | [] => []
  | [piece] => piece
  | piece :: pieces => piece ++ sep :: joinWith sep pieces

theorem joinWith_splitOn (sep : Char) (cs : List Char) : joinWith sep (splitOn sep cs) = cs := by
  induction cs with
  | nil => simp [splitOn, joinWith]
  | cons c cs ih =>
    rw [splitOn]
    split
    · next h => exact absurd h (splitOn_ne_nil sep cs)
    · next piece pieces h =>
      rw [h] at ih
      split
      · next hc => simp [joinWith, ih, hc]
      · cases pieces with
        | nil => simpa [joinWith] using ih
        | cons p ps => simpa [joinWith] using ih

def wordsAfter (word : List Char) : List Char → List (List Char)
  | [] => if word.isEmpty then [] else [word.reverse]
  | c :: cs =>
    if isBlank c then
      if word.isEmpty then wordsAfter [] cs else word.reverse :: wordsAfter [] cs
    else wordsAfter (c :: word) cs

/-- The runs of characters of `cs` between blanks. -/
def words (cs : List Char) : List (List Char) := wordsAfter [] cs

end MustacheJsx.Text
