import MustacheJsx.Layout
import MustacheJsx.Proofs.Text.Splitting
import MustacheJsx.Proofs.Text.Trimming

/-!
# What the layout of the output keeps

Lines are trimmed and put one after the other, so only blanks around line ends change. A piece of
code within one line, with no blanks at its ends, is found again in the output, in the same place
among the characters that are not blank: `Layout.exists_arrange`.
-/

namespace MustacheJsx

namespace Text

/-! ### Characters that are not blank -/

def inked (cs : List Char) : List Char := cs.filter fun c => !isBlank c

@[simp] theorem inked_append (cs ds : List Char) : inked (cs ++ ds) = inked cs ++ inked ds :=
  List.filter_append cs ds

theorem mem_inked_iff {c : Char} (hc : isBlank c = false) {cs : List Char} :
    c ∈ inked cs ↔ c ∈ cs := by
  simp [inked, hc]

theorem inked_cons_blank {c : Char} (h : isBlank c = true) (cs : List Char) :
    inked (c :: cs) = inked cs := by
  rw [inked, List.filter_cons_of_neg (by simp [h]), inked]

theorem inked_trimStart (cs : List Char) : inked (trimStart cs) = inked cs := by
  induction cs with
  | nil => rfl
  | cons c cs ih =>
    cases hc : isBlank c with
    | true =>
      rw [inked_cons_blank hc, ← ih, trimStart, List.dropWhile_cons_of_pos hc]
      rfl
    | false => rw [trimStart, List.dropWhile_cons_of_neg (by simp [hc])]

theorem inked_trimEnd (cs : List Char) : inked (trimEnd cs) = inked cs := by
  have hreverse := inked_trimStart cs.reverse
  rw [inked, inked, List.filter_reverse] at hreverse
  rw [trimEnd, inked, List.filter_reverse, ← trimStart, hreverse, List.reverse_reverse, inked]

theorem inked_trim (cs : List Char) : inked (trim cs) = inked cs := by
  rw [trim, inked_trimEnd, inked_trimStart]

theorem inked_joinWith {sep : Char} (hsep : isBlank sep = true) (pieces : List (List Char)) :
    inked (joinWith sep pieces) = pieces.flatMap inked := by
  match pieces with
  | [] => rfl
  | [piece] => exact (List.append_nil _).symm
  | piece :: next :: pieces =>
    rw [joinWith_cons_of_ne_nil (List.cons_ne_nil next pieces), inked_append, inked_cons_blank hsep,
      inked_joinWith hsep (next :: pieces)]
    rfl

/-! ### A piece among others -/

theorem exists_joinWith {sep : Char} (hsep : isBlank sep = true) (front : List (List Char))
    (piece : List Char) (back : List (List Char)) :
    ∃ above below, joinWith sep (front ++ piece :: back) = above ++ piece ++ below ∧
      inked above = front.flatMap inked ∧ inked below = back.flatMap inked := by
  induction front with
  | nil =>
    cases back with
    | nil => exact ⟨[], [], by simp [joinWith], rfl, rfl⟩
    | cons next back =>
      refine ⟨[], sep :: joinWith sep (next :: back), rfl, rfl, ?_⟩
      rw [inked_cons_blank hsep, inked_joinWith hsep]
  | cons first front ih =>
    obtain ⟨above, below, hjoin, habove, hbelow⟩ := ih
    obtain ⟨next, rest, hnext⟩ :=
      List.exists_cons_of_ne_nil
        (List.append_ne_nil_of_right_ne_nil front (List.cons_ne_nil piece back))
    refine ⟨first ++ sep :: above, below, ?_, ?_, hbelow⟩
    · rw [hnext] at hjoin
      rw [List.cons_append, hnext]
      show first ++ sep :: joinWith sep (next :: rest) = _
      rw [hjoin]
      simp
    · rw [inked_append, inked_cons_blank hsep, habove]
      rfl

end Text

namespace Layout

open Text (inked)

theorem flatMap_inked_trimmed (lines : List (List Char)) :
    (((lines.map Text.trim).filter fun line => !line.isEmpty).flatMap inked) =
      lines.flatMap inked := by
  induction lines with
  | nil => rfl
  | cons line lines ih =>
    have hline := Text.inked_trim line
    rw [List.map_cons, List.flatMap_cons, ← hline, ← ih]
    cases htrim : Text.trim line with
    | nil => rfl
    | cons c cs => rfl

theorem while_append_cons {front : List (List Char)} {line : List Char}
    (h : ¬ ∀ l ∈ front ++ [line], isImport l = true) (back : List (List Char)) :
    (front ++ line :: back).takeWhile isImport = front.takeWhile isImport ∧
      (front ++ line :: back).dropWhile isImport = front.dropWhile isImport ++ line :: back := by
  induction front with
  | nil =>
    have hline : ¬isImport line = true := by simpa using h
    exact ⟨List.takeWhile_cons_of_neg hline, List.dropWhile_cons_of_neg hline⟩
  | cons first front ih =>
    by_cases hfirst : isImport first = true
    · obtain ⟨htake, hdrop⟩ := ih fun hall =>
        h fun l hl => (List.mem_cons.1 hl).elim (fun heq => heq ▸ hfirst) (hall l)
      rw [List.cons_append, List.takeWhile_cons_of_pos hfirst, List.takeWhile_cons_of_pos hfirst,
        List.dropWhile_cons_of_pos hfirst, List.dropWhile_cons_of_pos hfirst, htake, hdrop]
      exact ⟨rfl, rfl⟩
    · rw [List.cons_append, List.takeWhile_cons_of_neg hfirst, List.takeWhile_cons_of_neg hfirst,
        List.dropWhile_cons_of_neg hfirst, List.dropWhile_cons_of_neg hfirst]
      exact ⟨rfl, rfl⟩

theorem exists_arrange_of_lines {code line : List Char} {front back : List (List Char)}
    (h : trimmedLines code = front ++ line :: back) :
    ∃ above below, arrange code = above ++ line ++ below ∧
      inked above = front.flatMap inked ∧ inked below = back.flatMap inked := by
  have hnewline : Text.isBlank '\n' = true := by decide
  have hspace : Text.isBlank ' ' = true := by decide
  rw [arrange, h]
  by_cases himports : ∀ l ∈ front ++ [line], isImport l = true
  -- The line is an import: what follows are imports and other code.
  · have hline : front ++ line :: back = (front ++ [line]) ++ back := by simp
    rw [hline, List.takeWhile_append_of_pos himports, List.dropWhile_append_of_pos himports,
      List.append_assoc, List.singleton_append]
    obtain ⟨above, below, hjoin, habove, hbelow⟩ :=
      Text.exists_joinWith hnewline front line (back.takeWhile isImport)
    have hback := List.takeWhile_append_dropWhile (p := isImport) (l := back)
    rw [hjoin]
    split
    · next hempty =>
      rw [List.isEmpty_iff.1 hempty, List.append_nil] at hback
      rw [hback] at hbelow
      exact ⟨above, below, rfl, habove, hbelow⟩
    · rw [if_neg (by simp)]
      refine ⟨above, below ++ '\n' :: Text.joinWith ' ' (back.dropWhile isImport), by simp, habove,
        ?_⟩
      rw [Text.inked_append, Text.inked_cons_blank hnewline, Text.inked_joinWith hspace, hbelow,
        ← List.flatMap_append, hback]
  -- The line stands behind the imports, with all else.
  · obtain ⟨htake, hdrop⟩ := while_append_cons himports back
    rw [htake, hdrop]
    obtain ⟨above, below, hjoin, habove, hbelow⟩ :=
      Text.exists_joinWith hspace (front.dropWhile isImport) line back
    have hfront := List.takeWhile_append_dropWhile (p := isImport) (l := front)
    rw [hjoin, if_neg (by simp)]
    split
    · next hempty =>
      rw [List.isEmpty_iff.1 hempty, List.nil_append] at hfront
      rw [hfront] at habove
      exact ⟨above, below, rfl, habove, hbelow⟩
    · refine ⟨Text.joinWith '\n' (front.takeWhile isImport) ++ '\n' :: above, below, by simp, ?_,
        hbelow⟩
      rw [Text.inked_append, Text.inked_cons_blank hnewline, Text.inked_joinWith hnewline, habove,
        ← List.flatMap_append, hfront]

theorem flatMap_inked_splitOn (code : List Char) :
    (Text.splitOn '\n' code).flatMap inked = inked code := by
  have hnewline : Text.isBlank '\n' = true := by decide
  rw [← Text.inked_joinWith hnewline, Text.joinWith_splitOn]

/-- A piece within one line, with no blanks at its ends, stands in the output as in the code. -/
theorem exists_arrange {piece : List Char} (hline : '\n' ∉ piece)
    (hhead : ∃ c ∈ piece.head?, Text.isBlank c = false)
    (hlast : ∃ c ∈ piece.getLast?, Text.isBlank c = false) (above below : List Char) :
    ∃ front back, arrange (above ++ piece ++ below) = front ++ piece ++ back ∧
      inked front = inked above ∧ inked back = inked below := by
  -- The line of the piece begins in the text above and ends in the text below.
  obtain ⟨front, left, first, back, habove, hfirst, hcode⟩ :=
    Text.exists_splitOn_append '\n' above (piece ++ below)
  obtain ⟨front', last, right, back', hpiece, hbelow, hrest⟩ :=
    Text.exists_splitOn_append '\n' piece below
  rw [Text.splitOn_of_not_mem hline, ← List.nil_append [piece]] at hpiece
  obtain ⟨rfl, hlastEq⟩ := List.append_inj' hpiece rfl
  obtain rfl : piece = last := (List.cons.inj hlastEq).1
  obtain ⟨rfl, rfl⟩ := List.cons.inj (hfirst.symm.trans hrest)
  have hne : piece ≠ [] := by
    rintro rfl
    obtain ⟨c, hc, -⟩ := hhead
    exact absurd hc (Option.not_mem_none c)
  have hlines : trimmedLines (above ++ piece ++ below) =
      ((front.map Text.trim).filter fun line => !line.isEmpty) ++
        (Text.trimStart left ++ piece ++ Text.trimEnd right) ::
          (back.map Text.trim).filter fun line => !line.isEmpty := by
    rw [trimmedLines, List.append_assoc, hcode, List.map_append, List.map_cons, List.filter_append,
      Text.trim_around hhead hlast, List.filter_cons_of_pos (by simp [hne])]
  obtain ⟨before, behind, harrange, hbefore, hbehind⟩ := exists_arrange_of_lines hlines
  refine ⟨before ++ Text.trimStart left, Text.trimEnd right ++ behind, harrange.trans (by simp), ?_,
    ?_⟩
  · rw [Text.inked_append, hbefore, flatMap_inked_trimmed, Text.inked_trimStart,
      ← flatMap_inked_splitOn above, habove, List.flatMap_append, List.flatMap_singleton]
  · rw [Text.inked_append, hbehind, flatMap_inked_trimmed, Text.inked_trimEnd,
      ← flatMap_inked_splitOn below, hbelow, List.flatMap_cons]

end Layout

end MustacheJsx
