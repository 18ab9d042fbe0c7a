import Mathlib.Data.List.DropRight
import MustacheJsx.Text.Blank

/-!
# Blanks at the ends of a text

Trimming takes the blanks at the ends of a text and nothing else: a text that begins or ends with
another character keeps it, and what is trimmed stays as it is when it is trimmed again.
-/

namespace MustacheJsx.Text

variable {c : Char}

/-! ### The start -/

theorem trimStart_cons_of_blank (h : isBlank c = true) (cs : List Char) :
    trimStart (c :: cs) = trimStart cs := List.dropWhile_cons_of_pos h

theorem trimStart_cons_of_not_blank (cs : List Char) (h : isBlank c = false) :
    trimStart (c :: cs) = c :: cs := List.dropWhile_cons_of_neg (Bool.eq_false_iff.1 h)

theorem trimStart_space_cons (cs : List Char) (h : isBlank c = false) :
    trimStart (' ' :: c :: cs) = c :: cs := by
  have hspace : isBlank ' ' = true := by decide
  rw [trimStart_cons_of_blank hspace, trimStart_cons_of_not_blank cs h]

theorem trimStart_cases (cs : List Char) :
    trimStart cs = [] ∨ ∃ c rest, isBlank c = false ∧ trimStart cs = c :: rest := by
  induction cs with
  | nil => exact .inl rfl
  | cons c cs ih =>
    cases hc : isBlank c with
    | true =>
      rw [trimStart_cons_of_blank hc]
      exact ih
    | false => exact .inr ⟨c, cs, hc, trimStart_cons_of_not_blank cs hc⟩

theorem trimStart_trimStart (cs : List Char) : trimStart (trimStart cs) = trimStart cs :=
  List.dropWhile_idempotent isBlank cs

theorem trimStart_append {ds : List Char} (h : ∀ c ∈ ds.head?, isBlank c = false)
    (cs : List Char) : trimStart (cs ++ ds) = trimStart cs ++ ds := by
  rw [trimStart, trimStart, List.dropWhile_append]
  split
  · next hempty =>
    rw [List.isEmpty_iff.1 hempty]
    cases ds with
    | nil => rfl
    | cons d ds => exact trimStart_cons_of_not_blank ds (h d rfl)
  · rfl

theorem trimStart_append_char (hc : isBlank c = false) (cs : List Char) :
    trimStart (cs ++ [c]) = trimStart cs ++ [c] :=
  trimStart_append (by simpa using hc) cs

theorem trimStart_isPrefix {cs ds : List Char} (h : cs <+: ds) :
    trimStart cs <+: trimStart ds := by
  obtain ⟨rest, rfl⟩ := h
  rw [trimStart, trimStart, List.dropWhile_append]
  split
  · next hempty =>
    rw [List.isEmpty_iff.1 hempty]
    exact List.nil_prefix
  · exact List.prefix_append _ _

/-! ### The end -/

theorem trimEnd_append {cs : List Char} (h : ∀ c ∈ cs.getLast?, isBlank c = false)
    (ds : List Char) : trimEnd (cs ++ ds) = cs ++ trimEnd ds := by
  rw [← List.head?_reverse] at h
  rw [trimEnd, List.reverse_append, ← trimStart, trimStart_append h, List.reverse_append,
    List.reverse_reverse]
  rfl

theorem trimEnd_of_getLast? {cs : List Char} (h : ∀ c ∈ cs.getLast?, isBlank c = false) :
    trimEnd cs = cs := by
  have hnil : trimEnd (cs ++ []) = cs ++ [] := trimEnd_append h []
  rwa [List.append_nil] at hnil

theorem trimEnd_append_char (hc : isBlank c = false) (cs : List Char) :
    trimEnd (cs ++ [c]) = cs ++ [c] :=
  trimEnd_of_getLast? (by simpa using hc)

theorem trimEnd_append_word {word : List Char} (hword : ∀ c ∈ word, isBlank c = false)
    (cs : List Char) : trimEnd (word ++ cs) = word ++ trimEnd cs :=
  trimEnd_append (fun c hc => hword c (List.mem_of_mem_getLast? hc)) cs

theorem trimEnd_cons (c : Char) (cs : List Char) :
    trimEnd (c :: cs) = if (trimEnd cs).isEmpty && isBlank c then [] else c :: trimEnd cs := by
  rw [trimEnd, trimEnd, List.reverse_cons, List.dropWhile_append, List.isEmpty_reverse]
  cases hempty : (cs.reverse.dropWhile isBlank).isEmpty with
  | false =>
    rw [if_neg Bool.false_ne_true, Bool.false_and, if_neg Bool.false_ne_true, List.reverse_append]
    rfl
  | true =>
    rw [if_pos rfl, Bool.true_and, List.isEmpty_iff.1 hempty]
    cases hblank : isBlank c with
    | true => simp [hblank]
    | false => simp [hblank]

theorem trimEnd_isPrefix (cs : List Char) : trimEnd cs <+: cs := by
  rw [trimEnd, ← List.reverse_suffix, List.reverse_reverse]
  exact List.dropWhile_suffix _

theorem getLast?_trimEnd (cs : List Char) : ∀ c ∈ (trimEnd cs).getLast?, isBlank c = false := by
  rw [trimEnd, List.getLast?_reverse]
  intro c hc
  have hnot := List.head?_dropWhile_not isBlank cs.reverse
  rw [hc] at hnot
  simpa using hnot

theorem exists_trimEnd_append (cs : List Char) :
    ∃ blanks, (∀ c ∈ blanks, isBlank c = true) ∧ cs = trimEnd cs ++ blanks := by
  refine ⟨(cs.reverse.takeWhile isBlank).reverse, fun c hc => ?_, ?_⟩
  · exact List.mem_takeWhile_imp (List.mem_reverse.1 hc)
  · rw [trimEnd, ← List.reverse_append, List.takeWhile_append_dropWhile, List.reverse_reverse]

/-! ### Both ends -/

theorem trimStart_trimEnd (cs : List Char) : trimStart (trimEnd cs) = trim cs := by
  induction cs with
  | nil => rfl
  | cons c cs ih =>
    cases hc : isBlank c with
    | true =>
      rw [trim, trimStart_cons_of_blank hc, ← trim, ← ih, trimEnd_cons, hc, Bool.and_true]
      split
      · next hempty => rw [List.isEmpty_iff.1 hempty]
      · exact trimStart_cons_of_blank hc _
    | false =>
      rw [trim, trimStart_cons_of_not_blank cs hc, trimEnd_cons, hc, Bool.and_false,
        if_neg Bool.false_ne_true, trimStart_cons_of_not_blank _ hc]

theorem trimStart_trim (cs : List Char) : trimStart (trim cs) = trim cs := by
  rw [← trimStart_trimEnd, trimStart_trimStart]

theorem trim_trim (cs : List Char) : trim (trim cs) = trim cs := by
  rw [trim, trimStart_trim, trim, trimEnd, trimEnd, List.reverse_reverse, List.dropWhile_idempotent]

theorem head?_trim (cs : List Char) : ∀ c ∈ (trim cs).head?, isBlank c = false := by
  rw [← trimStart_trim]
  rcases trimStart_cases (trim cs) with htrim | ⟨c, rest, hc, htrim⟩
  · rw [htrim]
    nofun
  · rw [htrim]
    rintro d ⟨⟩
    exact hc

theorem getLast?_trim (cs : List Char) : ∀ c ∈ (trim cs).getLast?, isBlank c = false :=
  getLast?_trimEnd (trimStart cs)

theorem trim_subset (cs : List Char) : trim cs ⊆ cs := fun _ hc =>
  (List.dropWhile_suffix isBlank).subset ((trimEnd_isPrefix (trimStart cs)).subset hc)

theorem trim_of_ends {cs : List Char} (hhead : ∀ c ∈ cs.head?, isBlank c = false)
    (hlast : ∀ c ∈ cs.getLast?, isBlank c = false) : trim cs = cs := by
  have hstart : trimStart ([] ++ cs) = trimStart [] ++ cs := trimStart_append hhead []
  rw [trim, show trimStart cs = cs from hstart, trimEnd_of_getLast? hlast]

theorem trim_around {piece : List Char} (hhead : ∃ c ∈ piece.head?, isBlank c = false)
    (hlast : ∃ c ∈ piece.getLast?, isBlank c = false) (left right : List Char) :
    trim (left ++ (piece ++ right)) = trimStart left ++ piece ++ trimEnd right := by
  obtain ⟨c, hc, hcInk⟩ := hhead
  obtain ⟨d, hd, hdInk⟩ := hlast
  have hstart : trimStart (left ++ (piece ++ right)) = trimStart left ++ (piece ++ right) := by
    refine trimStart_append (fun e he => ?_) left
    rw [List.head?_append, hc, Option.some_or] at he
    exact Option.mem_some.1 he ▸ hcInk
  rw [trim, hstart, ← List.append_assoc]
  refine trimEnd_append (fun e he => ?_) right
  rw [List.getLast?_append, hd, Option.some_or] at he
  exact Option.mem_some.1 he ▸ hdInk

theorem trim_append_word {word : List Char} (hne : word ≠ [])
    (hword : ∀ c ∈ word, isBlank c = false) (cs : List Char) :
    trim (word ++ cs) = word ++ trimEnd cs := by
  obtain ⟨c, word, rfl⟩ := List.exists_cons_of_ne_nil hne
  rw [trim, List.cons_append, trimStart_cons_of_not_blank _ (hword c List.mem_cons_self),
    ← List.cons_append, trimEnd_append_word hword]

theorem trim_append_blank_word {word : List Char} (hne : word ≠ [])
    (hword : ∀ c ∈ word, isBlank c = false) (cs : List Char) :
    trim (cs ++ word) = trimStart (cs ++ word) := by
  rw [← trimStart_trimEnd, trimEnd_of_getLast?]
  intro c hc
  rw [List.getLast?_append_of_ne_nil cs hne] at hc
  exact hword c (List.mem_of_mem_getLast? hc)

theorem trim_padded {before word after : List Char} (hbefore : ∀ c ∈ before, isBlank c = true)
    (hafter : ∀ c ∈ after, isBlank c = true) (hword : ∀ c ∈ word, isBlank c = false)
    (hne : word ≠ []) : trim (before ++ word ++ after) = word := by
  have hstart : trimStart before = [] := List.dropWhile_eq_nil_iff.2 hbefore
  have hend : trimEnd after = [] := by
    rw [trimEnd, List.reverse_eq_nil_iff, List.dropWhile_eq_nil_iff]
    exact fun c hc => hafter c (List.mem_reverse.1 hc)
  have hhead : ∃ c ∈ word.head?, isBlank c = false :=
    ⟨word.head hne, List.head?_eq_some_head hne, hword _ (List.head_mem hne)⟩
  have hlast : ∃ c ∈ word.getLast?, isBlank c = false :=
    ⟨word.getLast hne, List.getLast?_eq_some_getLast hne, hword _ (List.getLast_mem hne)⟩
  rw [List.append_assoc, trim_around hhead hlast, hstart, hend, List.append_nil, List.nil_append]

end MustacheJsx.Text
