import MustacheJsx.Text.Blank

/-!
# Cutting at a pattern

A pattern is a function that reads the start of a text and answers with what it found there.
`cutAtFirst?` looks for the first place where a pattern answers. Positions are counted in bytes, and
`splitAtByte` turns a position into a cut.

Models the search of patterns in text, and the byte positions of `splice`.
-/

namespace MustacheJsx.Text

/-- Cuts at the first place where `pattern` answers: what is before it, and the answer. -/
def cutAtFirst? {α : Type} (pattern : List Char → Option α) : List Char → Option (List Char × α)
  | [] => (pattern []).map ([], ·)
  | c :: cs =>
    match pattern (c :: cs) with
    | some a => some ([], a)
    | none => (cutAtFirst? pattern cs).map fun (before, a) => (c :: before, a)

theorem exists_of_cutAtFirst? {α : Type} {pattern : List Char → Option α} {cs before : List Char}
    {a : α} (h : cutAtFirst? pattern cs = some (before, a)) :
    ∃ rest, cs = before ++ rest ∧ pattern rest = some a := by
  induction cs generalizing before with
  | nil =>
    simp only [cutAtFirst?, Option.map_eq_some_iff, Prod.mk.injEq] at h
    obtain ⟨b, hb, rfl, rfl⟩ := h
    exact ⟨[], rfl, hb⟩
  | cons c cs ih =>
    rw [cutAtFirst?] at h
    split at h
    · next b hb =>
      simp only [Option.some.injEq, Prod.mk.injEq] at h
      obtain ⟨rfl, rfl⟩ := h
      exact ⟨c :: cs, rfl, hb⟩
    · simp only [Option.map_eq_some_iff, Prod.mk.injEq, Prod.exists] at h
      obtain ⟨b, d, hbd, rfl, rfl⟩ := h
      obtain ⟨rest, rfl, hrest⟩ := ih hbd
      exact ⟨rest, rfl, hrest⟩

/-- Cuts after `n` bytes; a character is never cut apart. -/
def splitAtByte : Nat → List Char → List Char × List Char
  | 0, cs => ([], cs)
  | _ + 1, [] => ([], [])
  | n + 1, c :: cs =>
    let (before, rest) := splitAtByte (n + 1 - c.utf8Size) cs
    (c :: before, rest)

end MustacheJsx.Text
