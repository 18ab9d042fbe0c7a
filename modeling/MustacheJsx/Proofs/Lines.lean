import MustacheJsx.Proofs.Layout

/-!
# The lines of the output

The layout of the output is a normal form. Output is made of lines with text and without blanks at
their ends, the imports first and at most one line behind them, and code with such lines is left as
it is: `Layout.arrange_normalizes`.
-/

namespace MustacheJsx

namespace Layout

open Text (inked)

/-! ### Lines -/

/-- A line with text and without blanks at its ends. -/
structure IsLine (line : List Char) : Prop where
  ne_nil : line ≠ []
  newline_not_mem : '\n' ∉ line
  head_ink : ∀ c ∈ line.head?, Text.isBlank c = false
  last_ink : ∀ c ∈ line.getLast?, Text.isBlank c = false

theorem IsLine.trim_eq {line : List Char} (h : IsLine line) : Text.trim line = line :=
  Text.trim_of_ends h.head_ink h.last_ink

theorem isImport_iff {line : List Char} : isImport line = true ↔ "import ".toList <+: line := by
  rw [isImport, Text.startsWith_iff]
  rfl

theorem isLine_of_mem_trimmedLines {code line : List Char} (h : line ∈ trimmedLines code) :
    IsLine line := by
  obtain ⟨hmem, hne⟩ := List.mem_filter.1 h
  obtain ⟨piece, hpiece, rfl⟩ := List.mem_map.1 hmem
  exact ⟨by simpa using hne, fun hnewline =>
    Text.not_mem_of_mem_splitOn hpiece (Text.trim_subset piece hnewline), Text.head?_trim piece,
    Text.getLast?_trim piece⟩

theorem isLine_joinWith {lines : List (List Char)} (hne : lines ≠ [])
    (h : ∀ line ∈ lines, IsLine line) : IsLine (Text.joinWith ' ' lines) := by
  induction lines with
  | nil => exact absurd rfl hne
  | cons line lines ih =>
    obtain ⟨hline, hlines⟩ := List.forall_mem_cons.1 h
    by_cases hlast : lines = []
    · subst hlast
      exact hline
    · have hrest := ih hlast hlines
      rw [Text.joinWith_cons_of_ne_nil hlast]
      refine ⟨by simp, ?_, ?_, ?_⟩
      · rw [List.mem_append, List.mem_cons]
        rintro (hmem | heq | hmem)
        · exact hline.newline_not_mem hmem
        · exact absurd heq (by decide)
        · exact hrest.newline_not_mem hmem
      · rw [List.head?_append_of_ne_nil _ hline.ne_nil]
        exact hline.head_ink
      · rw [List.append_cons, List.getLast?_append_of_ne_nil _ hrest.ne_nil]
        exact hrest.last_ink

theorem trimmedLines_joinWith {lines : List (List Char)} (h : ∀ line ∈ lines, IsLine line) :
    trimmedLines (Text.joinWith '\n' lines) = lines := by
  by_cases hne : lines = []
  · subst hne
    rfl
  · rw [trimmedLines, Text.splitOn_joinWith hne fun line hline => (h line hline).newline_not_mem,
      List.map_congr_left fun line hline => (h line hline).trim_eq, List.map_id',
      List.filter_eq_self]
    exact fun line hline => by simpa using (h line hline).ne_nil

/-! ### The lines of the output -/

def body? (lines : List (List Char)) : Option (List Char) :=
  if lines = [] then none else some (Text.joinWith ' ' lines)

def arrangedLines (lines : List (List Char)) : List (List Char) :=
  lines.takeWhile isImport ++ (body? (lines.dropWhile isImport)).toList

theorem arrange_eq (code : List Char) :
    arrange code = Text.joinWith '\n' (arrangedLines (trimmedLines code)) := by
  rw [arrange, arrangedLines, body?]
  generalize (trimmedLines code).takeWhile isImport = imports
  generalize (trimmedLines code).dropWhile isImport = rest
  by_cases hrest : rest = []
  · simp [hrest]
  · rw [if_neg (by simpa using hrest), if_neg hrest]
    by_cases himports : imports = []
    · subst himports
      rfl
    · rw [if_neg (by simpa using himports)]
      exact (Text.joinWith_concat himports '\n' _).symm

theorem arrangedLines_arrangedLines (lines : List (List Char)) :
    arrangedLines (arrangedLines lines) = arrangedLines lines := by
  have himports : ∀ line ∈ lines.takeWhile isImport, isImport line = true :=
    fun line hline => List.mem_takeWhile_imp hline
  have hkeep : ∀ {found : List (List Char)}, (∀ line ∈ found, isImport line = true) →
      arrangedLines found = found := by
    intro found hfound
    rw [arrangedLines, List.takeWhile_eq_self_iff.2 hfound, List.dropWhile_eq_nil_iff.2 hfound]
    exact List.append_nil found
  cases hbody : body? (lines.dropWhile isImport) with
  | none =>
    have hlines : arrangedLines lines = lines.takeWhile isImport := by
      rw [arrangedLines, hbody, Option.toList_none, List.append_nil]
    rw [hlines, hkeep himports]
  | some body =>
    have hlines : arrangedLines lines = lines.takeWhile isImport ++ [body] := by
      rw [arrangedLines, hbody, Option.toList_some]
    rw [hlines]
    by_cases himport : isImport body = true
    · refine hkeep fun line hline => ?_
      rcases List.mem_append.1 hline with hline | hline
      · exact himports line hline
      · exact List.mem_singleton.1 hline ▸ himport
    · rw [arrangedLines, List.takeWhile_append_of_pos himports,
        List.dropWhile_append_of_pos himports, List.takeWhile_cons_of_neg himport,
        List.dropWhile_cons_of_neg himport, List.append_nil]
      rfl

theorem isLine_of_mem_arrangedLines {lines : List (List Char)} {line : List Char}
    (h : ∀ line ∈ lines, IsLine line) (hline : line ∈ arrangedLines lines) : IsLine line := by
  rcases List.mem_append.1 hline with hline | hline
  · exact h line ((List.takeWhile_prefix isImport).subset hline)
  · rw [Option.mem_toList, body?] at hline
    split at hline
    · cases hline
    · next hne =>
      cases hline
      exact isLine_joinWith hne fun line hline =>
        h line ((List.dropWhile_suffix isImport).subset hline)

theorem inked_joinWith_arrangedLines (lines : List (List Char)) :
    inked (Text.joinWith '\n' (arrangedLines lines)) = lines.flatMap inked := by
  have hnewline : Text.isBlank '\n' = true := by decide
  have hspace : Text.isBlank ' ' = true := by decide
  have hlines := List.takeWhile_append_dropWhile (p := isImport) (l := lines)
  rw [Text.inked_joinWith hnewline, arrangedLines, List.flatMap_append]
  conv_rhs => rw [← hlines, List.flatMap_append]
  rw [List.append_cancel_left_eq, body?]
  split
  · next hrest => rw [hrest]; rfl
  · rw [Option.toList_some, List.flatMap_singleton, Text.inked_joinWith hspace]

/-! ### The layout -/

theorem arrange_line {line : List Char} (h : IsLine line) : arrange (line ++ ['\n']) = line := by
  have hlines : trimmedLines (line ++ ['\n']) = [line] := by
    have hempty : line.isEmpty = false := by simpa using h.ne_nil
    rw [trimmedLines, Text.splitOn_append, Text.splitOn_of_not_mem h.newline_not_mem,
      List.singleton_append, List.map_cons, h.trim_eq, List.filter_cons, hempty]
    rfl
  rw [arrange, hlines]
  cases himport : isImport line <;> simp [himport, Text.joinWith]

/-- Arranging code is idempotent and changes nothing but blanks. What it gives are the lines that
come first and begin with `import `, one below the other, and at most one line of all else. -/
theorem arrange_normalizes (code : List Char) :
    arrange (arrange code) = arrange code ∧ inked (arrange code) = inked code ∧
      ∃ (imports : List (List Char)) (body : Option (List Char)),
        imports = (trimmedLines code).takeWhile isImport ∧
        (∀ line ∈ imports, "import ".toList <+: line) ∧
        (∀ line ∈ ((trimmedLines code).drop imports.length).head?, ¬ "import ".toList <+: line) ∧
        (body = none ↔ imports = trimmedLines code) ∧
        (∀ line ∈ imports ++ body.toList, IsLine line) ∧
        arrange code = Text.joinWith '\n' (imports ++ body.toList) := by
  have hclean : ∀ line ∈ arrangedLines (trimmedLines code), IsLine line := fun line hline =>
    isLine_of_mem_arrangedLines (fun line hline => isLine_of_mem_trimmedLines hline) hline
  have hrest : (trimmedLines code).drop ((trimmedLines code).takeWhile isImport).length =
      (trimmedLines code).dropWhile isImport := by
    have hlines := List.takeWhile_append_dropWhile (p := isImport) (l := trimmedLines code)
    generalize (trimmedLines code).takeWhile isImport = imports at hlines ⊢
    generalize (trimmedLines code).dropWhile isImport = rest at hlines ⊢
    rw [← hlines, List.drop_left]
  refine ⟨?_, ?_, _, body? ((trimmedLines code).dropWhile isImport), rfl,
    fun line hline => isImport_iff.1 (List.mem_takeWhile_imp hline), ?_, ?_, hclean,
    arrange_eq code⟩
  · rw [arrange_eq (arrange code), arrange_eq code, trimmedLines_joinWith hclean,
      arrangedLines_arrangedLines]
  · rw [arrange_eq, inked_joinWith_arrangedLines, trimmedLines, flatMap_inked_trimmed,
      flatMap_inked_splitOn]
  · rw [hrest]
    intro line hline himport
    have hnot := List.head?_dropWhile_not isImport (trimmedLines code)
    rw [hline] at hnot
    exact absurd (isImport_iff.2 himport) (by simpa using hnot)
  · have hall : (trimmedLines code).takeWhile isImport = trimmedLines code ↔
        (trimmedLines code).dropWhile isImport = [] := by
      rw [List.takeWhile_eq_self_iff, List.dropWhile_eq_nil_iff]
    rw [hall, body?]
    split
    · next hrest => simp [hrest]
    · next hrest => simp [hrest]

example : arrange ("import a from \"a\";\n\n  import b from \"b\";\r\nexport default (\n" ++
      "  props\n);\nimport c from \"c\";").toList =
    ("import a from \"a\";\nimport b from \"b\";\n" ++
      "export default ( props ); import c from \"c\";").toList := by
  decide +kernel

end Layout

end MustacheJsx
