import MustacheJsx.Proofs.Lines

/-!
# Where the layout joins lines

Lines are joined by a blank, so no two characters come to stand side by side that did not do so
before: a word of the output is a word of the code, in the same place among the characters that are
not blank. `Layout.stands_of_arrange` is the converse of `Layout.exists_arrange`.
-/

namespace MustacheJsx

namespace Text

/-- A piece stands in a text, with what is given before and behind it but for blanks. -/
def Stands (piece before after text : List Char) : Prop :=
  ∃ left right, text = left ++ piece ++ right ∧ inked left = before ∧ inked right = after

variable {piece before after text : List Char} {sep : Char}

/-! ### Cuts -/

theorem exists_of_inked_le {p q x y : List Char} (h : p ++ q = x ++ y)
    (hlast : ∃ c ∈ p.getLast?, isBlank c = false) (hle : (inked p).length ≤ (inked x).length) :
    ∃ between, x = p ++ between ∧ q = between ++ y := by
  rcases List.append_eq_append_iff.1 h with ⟨between, hx, hq⟩ | ⟨between, hp, -⟩
  · exact ⟨between, hx, hq⟩
  · by_cases hnil : between = []
    · subst hnil
      refine ⟨[], by simpa using hp.symm, ?_⟩
      rw [hp, List.append_nil] at h
      exact List.append_cancel_left h
    · obtain ⟨c, hc, hink⟩ := hlast
      rw [hp, List.getLast?_append_of_ne_nil _ hnil] at hc
      have hmem : c ∈ inked between :=
        List.mem_filter.2 ⟨List.mem_of_getLast? hc, by rw [hink]; rfl⟩
      have hpos := List.length_pos_of_mem hmem
      rw [hp, inked_append, List.length_append] at hle
      omega

theorem exists_of_inked_le' {p q x y : List Char} (h : p ++ q = x ++ y)
    (hhead : ∃ c ∈ q.head?, isBlank c = false) (hle : (inked q).length ≤ (inked y).length) :
    ∃ between, y = between ++ q ∧ p = x ++ between := by
  have hreverse : q.reverse ++ p.reverse = y.reverse ++ x.reverse := by
    rw [← List.reverse_append, h, List.reverse_append]
  rw [← List.getLast?_reverse] at hhead
  have hlength : ∀ cs : List Char, (inked cs.reverse).length = (inked cs).length := fun cs => by
    rw [inked, List.filter_reverse, List.length_reverse, inked]
  obtain ⟨between, hy, hp⟩ :=
    exists_of_inked_le hreverse hhead (by rwa [hlength, hlength])
  exact ⟨between.reverse, by rw [← List.reverse_inj, hy]; simp,
    by rw [← List.reverse_inj, hp]; simp⟩

/-! ### Words and lines -/

theorem Stands.around (h : Stands piece before after text) (left right : List Char) :
    Stands piece (inked left ++ before) (after ++ inked right) (left ++ text ++ right) := by
  obtain ⟨l, r, rfl, rfl, rfl⟩ := h
  exact ⟨left ++ l, r ++ right, by simp, inked_append left l, inked_append r right⟩

/-- A word of joined lines is a word of one of them. -/
theorem Stands.of_joinWith (hsep : isBlank sep = true) (hne : piece ≠ [])
    (hword : ∀ c ∈ piece, isBlank c = false) {lines : List (List Char)}
    (h : Stands piece before after (joinWith sep lines)) :
    ∃ front line back before' after', lines = front ++ line :: back ∧
      Stands piece before' after' line ∧ before = front.flatMap inked ++ before' ∧
      after = after' ++ back.flatMap inked := by
  have hnot : sep ∉ piece := fun hmem => by
    rw [hword sep hmem] at hsep
    cases hsep
  induction lines generalizing before with
  | nil =>
    obtain ⟨left, right, htext, -⟩ := h
    obtain ⟨hleft, -⟩ := List.append_eq_nil_iff.1 htext.symm
    exact absurd (List.append_eq_nil_iff.1 hleft).2 hne
  | cons line lines ih =>
    by_cases hlines : lines = []
    · subst hlines
      exact ⟨[], line, [], before, after, rfl, h, rfl, (List.append_nil after).symm⟩
    · obtain ⟨left, right, htext, rfl, rfl⟩ := h
      rw [joinWith_cons_of_ne_nil hlines, List.append_assoc] at htext
      rcases List.append_eq_append_iff.1 htext with ⟨more, rfl, hrest⟩ | ⟨more, rfl, hrest⟩
      -- The word stands behind the separator.
      · cases more with
        | nil =>
          obtain ⟨c, cs, rfl⟩ := List.exists_cons_of_ne_nil hne
          obtain ⟨rfl, -⟩ := List.cons.inj hrest
          exact absurd List.mem_cons_self hnot
        | cons d more =>
          obtain ⟨rfl, htail⟩ := List.cons.inj hrest
          have hmore : joinWith sep lines = more ++ piece ++ right :=
            htail.trans (List.append_assoc more piece right).symm
          obtain ⟨front, found, back, before', after', rfl, hfound, hbefore, hafter⟩ :=
            ih ⟨more, right, hmore, rfl, rfl⟩
          refine ⟨line :: front, found, back, before', after', rfl, hfound, ?_, hafter⟩
          rw [inked_append, inked_cons_blank hsep, hbefore, List.flatMap_cons, List.append_assoc]
      -- It stands before the separator, as it does not hold one.
      · rcases List.append_eq_append_iff.1 hrest with ⟨right', rfl, hright⟩ | ⟨tail, rfl, htail⟩
        · refine ⟨[], left ++ (piece ++ right'), lines, inked left, inked right', rfl,
            ⟨left, right', by simp, rfl, rfl⟩, rfl, ?_⟩
          rw [hright, inked_append, inked_cons_blank hsep, inked_joinWith hsep]
        · cases tail with
          | nil =>
            rw [List.nil_append] at htail
            refine ⟨[], left ++ more, lines, inked left, [], rfl, ⟨left, [], by simp, rfl, rfl⟩,
              rfl, ?_⟩
            rw [← htail, inked_cons_blank hsep, inked_joinWith hsep]
            rfl
          | cons d tail =>
            obtain ⟨rfl, -⟩ := List.cons.inj htail
            exact absurd (List.mem_append_right more List.mem_cons_self) hnot

theorem Stands.joinWith (hsep : isBlank sep = true) {line : List Char}
    (h : Stands piece before after line) (front back : List (List Char)) :
    Stands piece (front.flatMap inked ++ before) (after ++ back.flatMap inked)
      (Text.joinWith sep (front ++ line :: back)) := by
  obtain ⟨above, below, hjoin, habove, hbelow⟩ := exists_joinWith hsep front line back
  rw [hjoin, ← habove, ← hbelow]
  exact h.around above below

theorem Stands.of_trim (h : Stands piece before after (trim text)) :
    Stands piece before after text := by
  obtain ⟨left, hleft⟩ := List.dropWhile_suffix isBlank (l := text)
  obtain ⟨right, hright⟩ := trimEnd_isPrefix (trimStart text)
  have htext : left ++ trim text ++ right = text := by
    rw [List.append_assoc, trim, hright]
    exact hleft
  have hinked : inked left ++ inked (trim text) ++ inked right = inked (trim text) := by
    rw [← inked_append, ← inked_append, htext, inked_trim]
  have hlength := congrArg List.length hinked
  simp only [List.length_append] at hlength
  have hleftNil : inked left = [] := List.length_eq_zero_iff.1 (by omega)
  have hrightNil : inked right = [] := List.length_eq_zero_iff.1 (by omega)
  have haround := h.around left right
  rwa [htext, hleftNil, hrightNil, List.nil_append, List.append_nil] at haround

end Text

namespace Layout

open Text (inked Stands)

variable {piece before after code : List Char}

/-- A trimmed line is a line of the code, and so are the lines around it. -/
theorem exists_of_trimmedLines {front back : List (List Char)} {line : List Char}
    (h : trimmedLines code = front ++ line :: back) :
    ∃ front' line' back', Text.splitOn '\n' code = front' ++ line' :: back' ∧
      line = Text.trim line' ∧ front.flatMap inked = front'.flatMap inked ∧
      back.flatMap inked = back'.flatMap inked := by
  rw [trimmedLines] at h
  obtain ⟨above, rest, hlines, habove, hrest⟩ := List.filter_eq_append_iff.1 h
  obtain ⟨blanks, below, hrestEq, hblanks, -, hbelow⟩ := List.filter_eq_cons_iff.1 hrest
  rw [hrestEq, ← List.append_assoc] at hlines
  obtain ⟨front', rest', hsplit, hfront, hcons⟩ := List.map_eq_append_iff.1 hlines
  obtain ⟨line', back', rfl, hline, hback⟩ := List.map_eq_cons_iff.1 hcons
  refine ⟨front', line', back', hsplit, hline.symm, ?_, ?_⟩
  · have hnone : blanks.filter (fun line => !line.isEmpty) = [] :=
      List.filter_eq_nil_iff.2 hblanks
    rw [← flatMap_inked_trimmed front', hfront, List.filter_append, habove, hnone, List.append_nil]
  · rw [← flatMap_inked_trimmed back', hback, hbelow]

/-- A word of the lines of the output is a word of the lines that they are made of. -/
theorem exists_of_arrangedLines (hne : piece ≠ []) (hword : ∀ c ∈ piece, Text.isBlank c = false)
    {lines front back : List (List Char)} {line : List Char}
    (h : arrangedLines lines = front ++ line :: back) (hline : Stands piece before after line) :
    ∃ front' line' back' before' after', lines = front' ++ line' :: back' ∧
      Stands piece before' after' line' ∧
      front.flatMap inked ++ before = front'.flatMap inked ++ before' ∧
      after ++ back.flatMap inked = after' ++ back'.flatMap inked := by
  have hspace : Text.isBlank ' ' = true := by decide
  have hall := List.takeWhile_append_dropWhile (p := isImport) (l := lines)
  rw [arrangedLines, body?] at h
  generalize lines.takeWhile isImport = imports at hall h
  generalize lines.dropWhile isImport = rest at hall h
  split at h
  · next hrest =>
    rw [Option.toList_none, List.append_nil] at h
    rw [hrest, h, List.append_nil] at hall
    exact ⟨front, line, back, before, after, hall.symm, hline, rfl, rfl⟩
  · rw [Option.toList_some] at h
    rcases List.eq_nil_or_concat back with rfl | ⟨back, last, rfl⟩
    -- The last line holds all that is no import.
    · obtain ⟨rfl, hbody⟩ := List.append_inj' h rfl
      obtain rfl := (List.cons.inj hbody).1
      obtain ⟨front', line', back', before', after', rfl, hline', rfl, rfl⟩ :=
        hline.of_joinWith hspace hne hword
      refine ⟨imports ++ front', line', back', before', after', ?_, hline', ?_, ?_⟩
      · rw [← hall, List.append_assoc]
      · rw [List.flatMap_append, List.append_assoc]
      · rw [List.flatMap_nil, List.append_nil]
    · rw [List.concat_eq_append, ← List.cons_append, ← List.append_assoc] at h
      obtain ⟨rfl, hbody⟩ := List.append_inj' h rfl
      obtain rfl := (List.cons.inj hbody).1
      refine ⟨front, line, back ++ rest, before, after, ?_, hline, rfl, ?_⟩
      · rw [← hall, List.append_assoc, List.cons_append]
      · rw [List.concat_eq_append, List.flatMap_append, List.flatMap_append,
          List.flatMap_singleton, Text.inked_joinWith hspace]

theorem stands_of_arrange (hne : piece ≠ []) (hword : ∀ c ∈ piece, Text.isBlank c = false)
    (h : Stands piece before after (arrange code)) : Stands piece before after code := by
  have hnewline : Text.isBlank '\n' = true := by decide
  rw [arrange_eq] at h
  obtain ⟨front, line, back, before', after', hlines, hline, rfl, rfl⟩ :=
    h.of_joinWith hnewline hne hword
  obtain ⟨front', line', back', before'', after'', htrimmed, hline', hfront, hback⟩ :=
    exists_of_arrangedLines hne hword hlines hline
  obtain ⟨above, whole, below, hsplit, rfl, habove, hbelow⟩ := exists_of_trimmedLines htrimmed
  have hcode := hline'.of_trim.joinWith hnewline above below
  rwa [← hsplit, Text.joinWith_splitOn, ← habove, ← hbelow, ← hfront, ← hback] at hcode

/-- Two pieces within lines stand in the output as in the code, one behind the other, with the same
characters between them. -/
theorem exists_arrange_between {opening closing : List Char} (hopening : '\n' ∉ opening)
    (hopeningHead : ∃ c ∈ opening.head?, Text.isBlank c = false)
    (hopeningLast : ∃ c ∈ opening.getLast?, Text.isBlank c = false) (hclosing : '\n' ∉ closing)
    (hclosingHead : ∃ c ∈ closing.head?, Text.isBlank c = false)
    (hclosingLast : ∃ c ∈ closing.getLast?, Text.isBlank c = false)
    (above middle below : List Char) :
    ∃ front inside back,
      arrange (above ++ opening ++ (middle ++ (closing ++ below))) =
        front ++ opening ++ (inside ++ (closing ++ back)) ∧
      inked front = inked above ∧ inked inside = inked middle ∧ inked back = inked below := by
  obtain ⟨front, tail, hopen, hfront, -⟩ :=
    exists_arrange hopening hopeningHead hopeningLast above (middle ++ (closing ++ below))
  obtain ⟨start, back, hclose, hstart, hback⟩ :=
    exists_arrange hclosing hclosingHead hclosingLast (above ++ opening ++ middle) below
  have hcode : above ++ opening ++ middle ++ closing ++ below =
      above ++ opening ++ (middle ++ (closing ++ below)) := by
    simp only [List.append_assoc]
  rw [hcode, hopen, List.append_assoc start] at hclose
  have hlast : ∃ c ∈ (front ++ opening).getLast?, Text.isBlank c = false := by
    obtain ⟨c, hc, hink⟩ := hopeningLast
    exact ⟨c, by rw [List.getLast?_append, hc]; rfl, hink⟩
  obtain ⟨inside, rfl, rfl⟩ := Text.exists_of_inked_le hclose hlast (by
    rw [hstart, Text.inked_append, Text.inked_append, Text.inked_append, hfront]
    exact (List.prefix_append _ _).length_le)
  refine ⟨front, inside, back, hopen, hfront, ?_, hback⟩
  rw [Text.inked_append, Text.inked_append, Text.inked_append, Text.inked_append, hfront] at hstart
  exact List.append_cancel_left hstart

/-- A word that stands between two characters in the output does so in the code. -/
theorem isInfix_of_arrange (hne : piece ≠ []) (hword : ∀ c ∈ piece, Text.isBlank c = false)
    {above middle below front inside back : List Char}
    (hlast : ∃ c ∈ above.getLast?, Text.isBlank c = false)
    (hhead : ∃ c ∈ below.head?, Text.isBlank c = false)
    (h : arrange (above ++ (middle ++ below)) = front ++ (inside ++ back))
    (hfront : inked front = inked above) (hback : inked back = inked below)
    (hinside : piece <:+: inside) : piece <:+: middle := by
  obtain ⟨left, right, rfl⟩ := hinside
  have hstands : Stands piece (inked (front ++ left)) (inked (right ++ back))
      (arrange (above ++ (middle ++ below))) :=
    ⟨_, _, by rw [h]; simp only [List.append_assoc], rfl, rfl⟩
  obtain ⟨left', right', hfound, hleft, hright⟩ := stands_of_arrange hne hword hstands
  rw [Text.inked_append, hfront] at hleft
  rw [Text.inked_append, hback] at hright
  rw [List.append_assoc left'] at hfound
  obtain ⟨before, rfl, hrest⟩ := Text.exists_of_inked_le hfound hlast (by
    rw [hleft]
    exact (List.prefix_append _ _).length_le)
  rw [← List.append_assoc before] at hrest
  obtain ⟨behind, rfl, hmiddle⟩ := Text.exists_of_inked_le' hrest hhead (by
    rw [hright]
    exact (List.suffix_append _ _).length_le)
  exact ⟨before, behind, hmiddle.symm⟩

theorem isBlank_ends_arrange (code : List Char) :
    (∀ c ∈ (arrange code).head?, Text.isBlank c = false) ∧
      ∀ c ∈ (arrange code).getLast?, Text.isBlank c = false := by
  have hclean : ∀ line ∈ arrangedLines (trimmedLines code), IsLine line := fun line hline =>
    isLine_of_mem_arrangedLines (fun line hline => isLine_of_mem_trimmedLines hline) hline
  rw [arrange_eq]
  generalize arrangedLines (trimmedLines code) = lines at hclean
  induction lines with
  | nil => exact ⟨nofun, nofun⟩
  | cons line lines ih =>
    obtain ⟨hline, hlines⟩ := List.forall_mem_cons.1 hclean
    by_cases hlast : lines = []
    · subst hlast
      exact ⟨hline.head_ink, hline.last_ink⟩
    · obtain ⟨-, hend⟩ := ih hlines
      rw [Text.joinWith_cons_of_ne_nil hlast, List.head?_append_of_ne_nil _ hline.ne_nil]
      refine ⟨hline.head_ink, fun c hc => hend c ?_⟩
      have hne : Text.joinWith '\n' lines ≠ [] := by
        obtain ⟨first, rest, rfl⟩ := List.exists_cons_of_ne_nil hlast
        have hfirst := (hlines first List.mem_cons_self).ne_nil
        cases rest with
        | nil => exact hfirst
        | cons second rest => simp [Text.joinWith]
      rwa [List.append_cons, List.getLast?_append_of_ne_nil _ hne] at hc

end Layout

end MustacheJsx
