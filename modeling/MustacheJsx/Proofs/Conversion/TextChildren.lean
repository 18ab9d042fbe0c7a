import MustacheJsx.Jsx.Printer
import MustacheJsx.Proofs.Jsx.Denotation
import MustacheJsx.Proofs.Opening.Reference
import MustacheJsx.Proofs.Text.Splitting

/-!
# What text inside an element stands for

Text becomes children of an element: raw text, and strings in braces for the characters that have a
meaning inside elements. Read again, the children stand for the text with its character references
decoded, so they stand for the text itself exactly if it holds none: `childText_iff`.
-/

namespace MustacheJsx

open MustacheJsx.Jsx

/-! ### Reading children -/

namespace Jsx

def trimLineStart (line : List Char) : List Char := line.dropWhile fun c => c == ' ' || c == '\t'

def trimLineEnd (line : List Char) : List Char := (trimLineStart line.reverse).reverse

/-- Lines without the spaces and tabs around the line ends between them, of which there is one
before the first line if it is not the `first` one of the text. -/
def trimLines (first : Bool) : List (List Char) → List (List Char)
  | [] => []
  | [line] => [if first then line else trimLineStart line]
  | line :: lines =>
    trimLineEnd (if first then line else trimLineStart line) :: trimLines false lines

/-- Raw text with a space for each run of line ends with blanks around it. -/
def joinLines (raw : List Char) : List Char :=
  let lines := Text.splitOn '\n' (raw.map fun c => if c = '\r' then '\n' else c)
  Text.joinWith ' ' ((trimLines true lines).filter fun line => !line.isEmpty)

/-- A string in braces after the opening one: its text, and the number of characters up to the
closing brace. -/
def braced? (cs : List Char) : Option (List Char × Nat) :=
  match cs with
  | '"' :: inside =>
    match readLiteral 0 inside with
    | some (value, '}' :: rest) => some (value, cs.length - rest.length)
    | _ => none
  | _ => none

section Reading

variable (named : List Char → Option Char)

/-- The text that children stand for, if they are raw texts and strings in braces. `raw` is the raw
text right before them, held in reverse, and `skip` characters belong to a string. -/
def childText (raw : List Char) (skip : Nat) : List Char → Option (List Char)
  | [] => decode named 0 (joinLines raw.reverse)
  | c :: cs =>
    match skip with
    | skip + 1 => childText raw skip cs
    | 0 =>
      if c = '{' then
        (braced? cs).bind fun string =>
          (decode named 0 (joinLines raw.reverse)).bind fun before =>
            (childText [] string.2 cs).map fun after => before ++ string.1 ++ after
      else if Text.isElementSyntax c then none
      else childText (c :: raw) 0 cs

end Reading

end Jsx

/-! ### Lines -/

theorem Jsx.joinLines_of_line {raw : List Char} (h : ∀ c ∈ raw, c ≠ '\n' ∧ c ≠ '\r') :
    joinLines raw = raw := by
  have hmap : (raw.map fun c => if c = '\r' then '\n' else c) = raw := by
    rw [List.map_congr_left fun c hc => if_neg (h c hc).2]
    exact List.map_id raw
  have hsplit : Text.splitOn '\n' raw = [raw] :=
    Text.splitOn_of_not_mem fun hmem => (h '\n' hmem).1 rfl
  rw [joinLines, hmap, hsplit]
  cases raw <;> rfl

/-! ### References -/

namespace Jsx

open Markup.Reference (IsStop takeWhile_append_stop head?_drop_append)

variable {named : List Char → Option Char} {stop : Char}

theorem isStop_of_isElementSyntax (h : Text.isElementSyntax stop = true) : IsStop stop := by
  simp only [Text.isElementSyntax, Bool.or_eq_true, beq_iff_eq] at h
  rcases h with ((rfl | rfl) | rfl) | rfl <;> decide

theorem upToSemicolon?_append {isPart : Char → Bool} (hpart : isPart stop = false)
    (hstop : IsStop stop) (cs rest : List Char) :
    upToSemicolon? isPart (cs ++ stop :: rest) = upToSemicolon? isPart cs := by
  rw [upToSemicolon?, upToSemicolon?, takeWhile_append_stop rest hpart,
    head?_drop_append rest (List.takeWhile_prefix _).length_le]
  cases (cs.drop _).head? with
  | none => simp [hstop.semicolon]
  | some c => rfl

theorem reference?_name {cs : List Char} (h : ∀ digits, cs ≠ '#' :: digits) :
    reference? named cs = (upToSemicolon? Text.isAsciiAlphanumeric cs).bind fun run =>
      (named run).map fun c => (some c, run.length + 1) := by
  rw [reference?.eq_def]
  split
  · exact absurd rfl (h _)
  · exact absurd rfl (h _)
  · rfl

theorem reference?_decimal {digits : List Char} (h : ∀ rest, digits ≠ 'x' :: rest) :
    reference? named ('#' :: digits) = (upToSemicolon? Text.isAsciiDigit digits).map fun run =>
      (character? (numeral 10 run), run.length + 2) := by
  rw [reference?.eq_def]
  split
  · next heq => exact absurd (List.cons.inj heq).2 (h _)
  · next heq => rw [(List.cons.inj heq).2]
  · next hdecimal => exact absurd rfl (hdecimal digits)

theorem append_ne_cons {c : Char} (hc : stop ≠ c) {cs : List Char} (h : ∀ ds, cs ≠ c :: ds)
    (rest ds : List Char) : cs ++ stop :: rest ≠ c :: ds := by
  cases cs with
  | nil => exact fun heq => hc (List.cons.inj heq).1
  | cons d cs => exact fun heq => h cs (by rw [(List.cons.inj heq).1])

theorem reference?_append (hstop : IsStop stop) (cs rest : List Char) :
    reference? named (cs ++ stop :: rest) = reference? named cs := by
  by_cases hhash : ∃ digits, cs = '#' :: digits
  · obtain ⟨cs, rfl⟩ := hhash
    by_cases hx : ∃ digits, cs = 'x' :: digits
    · obtain ⟨digits, rfl⟩ := hx
      exact congrArg (Option.map _) (upToSemicolon?_append hstop.hexDigit hstop digits rest)
    · rw [not_exists] at hx
      have hstopx : stop ≠ 'x' := by
        rintro rfl
        exact absurd hstop (by decide)
      rw [List.cons_append, reference?_decimal hx,
        reference?_decimal (append_ne_cons hstopx hx rest),
        upToSemicolon?_append hstop.digit hstop]
  · rw [not_exists] at hhash
    rw [reference?_name hhash, reference?_name (append_ne_cons hstop.hash hhash rest),
      upToSemicolon?_append hstop.alphanumeric hstop]

/-- What a text stands for is made up of what stands before and behind such a character. -/
theorem decode_append (hstop : IsStop stop) (hmark : stop ≠ '&') {skip : Nat} {cs : List Char}
    (hskip : skip ≤ cs.length) (rest : List Char) :
    decode named skip (cs ++ stop :: rest) =
      (decode named skip cs).bind fun before =>
        (decode named 0 rest).map fun after => before ++ stop :: after := by
  induction cs generalizing skip with
  | nil =>
    obtain rfl := Nat.le_zero.1 hskip
    rw [List.nil_append, decode_cons_of_ne hmark]
    rfl
  | cons c cs ih =>
    cases skip with
    | succ skip => exact ih (Nat.le_of_succ_le_succ hskip)
    | zero =>
      rw [List.cons_append, decode, reference?_append hstop, decode]
      split
      · next value length hreference =>
        have hle : length ≤ cs.length := by
          by_cases hc : c = '&'
          · rw [if_pos hc] at hreference
            obtain ⟨inside, behind, rfl, rfl, -⟩ := exists_of_reference? hreference
            rw [List.length_append, List.length_cons]
            omega
          · rw [if_neg hc] at hreference
            cases hreference
        rw [ih hle]
        cases value with
        | none => rfl
        | some d =>
          cases decode named length cs with
          | none => rfl
          | some before => cases decode named 0 rest <;> rfl
      · rw [ih (Nat.zero_le _)]
        cases decode named 0 cs with
        | none => rfl
        | some before => cases decode named 0 rest <;> rfl

end Jsx

/-! ### Printed runs -/

namespace TextRun

/-- Runs as they are printed inside an element. -/
def printAll (runs : List TextRun) : List Char := Child.printAll (runs.map toChild)

theorem printAll_addPlain (c : Char) (runs : List TextRun) :
    printAll (addPlain c runs) = c :: printAll runs := by
  have hplain : ∀ cs rest, printAll (.plain cs :: rest) = cs ++ printAll rest := by
    intro cs rest
    show (String.ofList cs).toList ++ _ = _
    rw [String.toList_ofList]
    rfl
  cases runs with
  | nil => exact hplain [c] []
  | cons run runs =>
    cases run with
    | plain cs => rw [addPlain, hplain, hplain, List.cons_append]
    | marked d => exact hplain [c] (.marked d :: runs)

theorem printAll_marked {c : Char} (hc : Text.isElementSyntax c = true) (runs : List TextRun) :
    printAll (.marked c :: runs) = '{' :: '"' :: c :: '"' :: '}' :: printAll runs := by
  simp only [Text.isElementSyntax, Bool.or_eq_true, beq_iff_eq] at hc
  rcases hc with ((rfl | rfl) | rfl) | rfl <;> rfl

theorem plain_of_mem_addPlain {c : Char} (hc : Text.isElementSyntax c = false)
    {runs : List TextRun}
    (hruns : ∀ ds, .plain ds ∈ runs → ∀ d ∈ ds, Text.isElementSyntax d = false) {ds : List Char}
    (h : .plain ds ∈ addPlain c runs) : ∀ d ∈ ds, Text.isElementSyntax d = false := by
  cases runs with
  | nil =>
    cases List.mem_singleton.1 h
    exact List.forall_mem_cons.2 ⟨hc, List.forall_mem_nil _⟩
  | cons run runs =>
    cases run with
    | plain es =>
      rcases List.mem_cons.1 h with heq | h
      · cases heq
        exact List.forall_mem_cons.2 ⟨hc, hruns es List.mem_cons_self⟩
      · exact hruns ds (List.mem_cons_of_mem _ h)
    | marked d =>
      rcases List.mem_cons.1 h with heq | h
      · cases heq
        exact List.forall_mem_cons.2 ⟨hc, List.forall_mem_nil _⟩
      · exact hruns ds h

theorem plain_of_mem_ofText {cs ds : List Char} (h : .plain ds ∈ ofText cs) :
    ∀ d ∈ ds, Text.isElementSyntax d = false := by
  induction cs generalizing ds with
  | nil => cases h
  | cons c cs ih =>
    rw [ofText] at h
    split at h
    · rcases List.mem_cons.1 h with heq | h
      · cases heq
      · exact ih h
    · next hc => exact plain_of_mem_addPlain (Bool.eq_false_iff.2 hc) (fun _ => ih) h

end TextRun

/-! ### Reading printed runs -/

namespace Jsx

variable {named : List Char → Option Char}

theorem braced?_string {c : Char} (hc : Text.isElementSyntax c = true) (rest : List Char) :
    braced? ('"' :: c :: '"' :: '}' :: rest) = some ([c], 4) := by
  have hplain : c ∉ ['\\', '"', '\n', '\r'] := by
    simp only [Text.isElementSyntax, Bool.or_eq_true, beq_iff_eq] at hc
    rcases hc with ((rfl | rfl) | rfl) | rfl <;> decide
  have hread : readLiteral 0 (c :: '"' :: '}' :: rest) = some ([c], '}' :: rest) := by
    rw [readLiteral_plain hplain]
    rfl
  have hlength : ('"' :: c :: '"' :: '}' :: rest).length - rest.length = 4 := by
    simp only [List.length_cons]
    omega
  rw [braced?, hread]
  exact congrArg (fun length => some ([c], length)) hlength

theorem childText_braced {raw cs value : List Char} {length : Nat}
    (h : braced? cs = some (value, length)) :
    childText named raw 0 ('{' :: cs) =
      (decode named 0 (joinLines raw.reverse)).bind fun before =>
        (childText named [] length cs).map fun after => before ++ value ++ after := by
  rw [childText, if_pos rfl, h]
  rfl

/-- On one line the printed runs of a text stand for the text with its references decoded. -/
theorem childText_runs {raw cs : List Char} (h : ∀ c ∈ raw.reverse ++ cs, c ≠ '\n' ∧ c ≠ '\r') :
    childText named raw 0 (TextRun.printAll (TextRun.ofText cs)) =
      decode named 0 (raw.reverse ++ cs) := by
  induction cs generalizing raw with
  | nil =>
    rw [List.append_nil] at h ⊢
    show decode named 0 (joinLines raw.reverse) = _
    rw [joinLines_of_line h]
  | cons c cs ih =>
    rw [TextRun.ofText]
    split
    · next hc =>
      have hstop := isStop_of_isElementSyntax hc
      have hmark : c ≠ '&' := by
        rintro rfl
        exact absurd hc (by decide)
      have hline := joinLines_of_line fun d hd => h d (List.mem_append_left _ hd)
      have hrest : ∀ d ∈ ([] : List Char).reverse ++ cs, d ≠ '\n' ∧ d ≠ '\r' :=
        fun d hd => h d (List.mem_append_right _ (List.mem_cons_of_mem c hd))
      rw [TextRun.printAll_marked hc, decode_append hstop hmark (Nat.zero_le _)]
      rw [childText_braced (braced?_string hc _), hline]
      refine Option.bind_congr fun before _ => ?_
      -- The string takes four characters after the opening brace.
      show (childText named [] 0 (TextRun.printAll (TextRun.ofText cs))).map _ = _
      rw [ih hrest]
      simp
    · next hc =>
      have hbrace : c ≠ '{' := by
        rintro rfl
        exact hc rfl
      have hraw : (c :: raw).reverse ++ cs = raw.reverse ++ c :: cs := by simp
      rw [TextRun.printAll_addPlain, childText, if_neg hbrace, if_neg hc, ih (by rwa [hraw]), hraw]

end Jsx

/-- The children of a text on one line hold nothing with a meaning in their raw texts, and stand for
the text with its references decoded: for the text itself exactly if it holds no reference. -/
theorem Jsx.Child.childText_iff (named : List Char → Option Char) {chars : String}
    (hline : ∀ c ∈ chars.toList, c ≠ '\n' ∧ c ≠ '\r') :
    (∀ raw, .text raw ∈ ofText chars → ∀ c ∈ raw.toList, Text.isElementSyntax c = false) ∧
      childText named [] 0 (printAll (ofText chars)) = decode named 0 chars.toList ∧
      (childText named [] 0 (printAll (ofText chars)) = some chars.toList ↔
        holdsReference named chars.toList = false) := by
  have htext : childText named [] 0 (printAll (ofText chars)) = decode named 0 chars.toList :=
    childText_runs hline
  refine ⟨fun raw hraw => ?_, htext, by rw [htext, decode_eq_some_self_iff]⟩
  obtain ⟨run, hrun, hchild⟩ := List.mem_map.1 hraw
  cases run with
  | plain cs =>
    cases hchild
    rw [String.toList_ofList]
    exact TextRun.plain_of_mem_ofText hrun
  | marked c => cases hchild

def markupNames (name : List Char) : Option Char :=
  if name = ['l', 't'] then some '<' else if name = ['a', 'm', 'p'] then some '&' else none

/-- Braces, an ampersand and the name of no character stand for themselves. -/
theorem Jsx.Child.bracesAndAmpersand_stand :
    (∀ c ∈ "a \x7bb\x7d & &c; <d> &lt".toList, c ≠ '\n' ∧ c ≠ '\r') ∧
      holdsReference markupNames "a \x7bb\x7d & &c; <d> &lt".toList = false ∧
      childText markupNames [] 0 (printAll (ofText "a \x7bb\x7d & &c; <d> &lt")) =
        some "a \x7bb\x7d & &c; <d> &lt".toList := by
  have hline : ∀ c ∈ "a \x7bb\x7d & &c; <d> &lt".toList, c ≠ '\n' ∧ c ≠ '\r' := by decide
  have hnone : holdsReference markupNames "a \x7bb\x7d & &c; <d> &lt".toList = false := by decide
  exact ⟨hline, hnone, (childText_iff markupNames hline).2.2.2 hnone⟩

/-- A text that spells a reference stands for the character of the reference. -/
theorem Jsx.Child.spelledReference_is_decoded :
    ofText "&lt;" = [.text "&lt;"] ∧
      childText markupNames [] 0 (printAll (ofText "&lt;")) = some ['<'] :=
  ⟨rfl, rfl⟩

end MustacheJsx
