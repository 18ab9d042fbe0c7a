import MustacheJsx.Proofs.Extraction.Retagging
import MustacheJsx.Proofs.Text.Splitting

/-!
# Replacements that share no byte

What a pass records can always be spliced: each replacement begins and ends between two characters
of the template, and no two of them share a byte. For blocks within values and for calls this is so
because attributes and mustaches are read one behind the other. A block around an attribute is
looked for from the beginning of its tag, so here the reason is another one: a second block that
began inside of the first one would do so in its condition, and would have been found there before,
or in the value of its attribute, which may hold no block.
-/

namespace MustacheJsx

open OpeningTag

/-! ### Attributes one behind the other -/

namespace WrittenAttribute

theorem le_of_mem_allFrom {entry : Nat × WrittenAttribute} {offset skip : Nat} {cs : List Char}
    (h : entry ∈ allFrom offset skip cs) :
    offset + Text.utf8Length (cs.take skip) ≤ entry.1 := by
  induction cs generalizing offset skip with
  | nil => cases h
  | cons c cs ih =>
    cases skip with
    | succ skip =>
      have hle := ih h
      rw [List.take_succ_cons, Text.utf8Length]
      omega
    | zero =>
      rw [allFrom.eq_def] at h
      dsimp only at h
      rw [List.take_zero, Text.utf8Length]
      split at h
      · rcases List.mem_cons.1 h with rfl | h
        · exact Nat.le_refl _
        · have hle := ih h
          omega
      · have hle := ih h
        omega

theorem pairwise_allFrom (offset skip : Nat) (cs : List Char) :
    (allFrom offset skip cs).Pairwise fun entry entry' =>
      entry.1 + Text.utf8Length entry.2.text ≤ entry'.1 := by
  induction cs generalizing offset skip with
  | nil => exact .nil
  | cons c cs ih =>
    cases skip with
    | succ skip => exact ih _ _
    | zero =>
      rw [allFrom.eq_def]
      dsimp only
      split
      · next found hfound =>
        refine .cons (fun entry hentry => ?_) (ih _ _)
        have hle := le_of_mem_allFrom hentry
        obtain ⟨gap, gap', valueText, rest, hcs, hparts⟩ := exists_of_at? hfound
        obtain ⟨d, text, htext⟩ := List.exists_cons_of_ne_nil (l := found.text) (by
          rw [hparts.text]
          simp)
        rw [htext] at hle hcs ⊢
        obtain ⟨rfl, hbehind⟩ := List.cons.inj hcs
        have hbehind : cs = text ++ rest := hbehind
        rw [List.length_cons, Nat.add_sub_cancel, hbehind, List.take_left' rfl] at hle
        rw [Text.utf8Length]
        omega
      · exact ih _ _

end WrittenAttribute

/-! ### What a fold records -/

/-- The first and the last byte of each replacement that was recorded. -/
def Extraction.edges (found : Extraction) : List (Nat × Nat) :=
  found.replacements.map fun r => (r.start, r.stop)

/-- If each step records something of what belongs to its element, in order, then so does a run. -/
theorem foldlM_sublist {α : Type} {f : Extraction → α → ExtractM Extraction}
    {g : α → List (Nat × Nat)} {xs : List α}
    (hstep : ∀ x ∈ xs, ∀ found found' names names', (f found x).run names = (.ok found', names') →
      ∃ new, found'.edges = found.edges ++ new ∧ new.Sublist (g x))
    {found found' : Extraction} {names names' : HelperNames}
    (h : (xs.foldlM f found).run names = (.ok found', names')) :
    ∃ new, found'.edges = found.edges ++ new ∧ new.Sublist (xs.flatMap g) := by
  induction xs generalizing found names with
  | nil =>
    cases h
    exact ⟨[], (List.append_nil _).symm, .slnil⟩
  | cons x xs ih =>
    rw [List.foldlM_cons] at h
    obtain ⟨middle, names'', hfirst, hrest⟩ := exists_of_run_bind h
    obtain ⟨new, hnew, hsublist⟩ := hstep x List.mem_cons_self _ _ _ _ hfirst
    obtain ⟨later, hlater, hsublist'⟩ := ih (fun y hy => hstep y (List.mem_cons_of_mem x hy)) hrest
    refine ⟨new ++ later, ?_, ?_⟩
    · rw [hlater, hnew, List.append_assoc]
    · rw [List.flatMap_cons]
      exact hsublist.append hsublist'

def OpeningTag.attributeEdges (tag : OpeningTag) : List (Nat × Nat) :=
  tag.attributes.map fun entry =>
    (tag.start + entry.1, tag.start + entry.1 + Text.utf8Length entry.2.text)

theorem pairwise_attributeEdges (template : List Char) :
    ((all template).flatMap attributeEdges).Pairwise fun e e' => e.2 ≤ e'.1 := by
  have hwithin : ∀ tag ∈ all template, ∀ e ∈ tag.attributeEdges,
      tag.start ≤ e.1 ∧ e.2 ≤ tag.stop := by
    intro tag htag e he
    obtain ⟨entry, hentry, rfl⟩ := List.mem_map.1 he
    obtain ⟨before, behind, htext, -, -, -, hoffset⟩ :=
      WrittenAttribute.exists_of_mem_attributes (isRead_of_mem htag) hentry
    have hlength := congrArg Text.utf8Length htext
    rw [Text.utf8Length_append, Text.utf8Length_append] at hlength
    refine ⟨Nat.le_add_right _ _, ?_⟩
    show tag.start + entry.1 + Text.utf8Length entry.2.text ≤ tag.start + Text.utf8Length tag.text
    omega
  rw [List.pairwise_flatMap]
  refine ⟨fun tag _ => ?_, (pairwise_all template).imp_of_mem fun {tag tag'} htag htag' hle => ?_⟩
  · refine List.pairwise_map.2 (List.Pairwise.imp (fun {entry entry'} hle => ?_)
      ((WrittenAttribute.pairwise_allFrom 0 0 tag.text).filter _))
    dsimp only
    omega
  · intro e he e' he'
    have hstop := (hwithin tag htag e he).2
    have hstart := (hwithin tag' htag' e' he').1
    omega

namespace BlockPass

variable {template : List Char} {found found' : Extraction} {names names' : HelperNames}

theorem edges_fromValue {tag : OpeningTag} {entry : Nat × WrittenAttribute}
    (h : (entry.2.extractFromValue (tag.start + entry.1) found).run names =
      (.ok found', names')) :
    ∃ new, found'.edges = found.edges ++ new ∧ new.Sublist
      [(tag.start + entry.1, tag.start + entry.1 + Text.utf8Length entry.2.text)] := by
  rw [WrittenAttribute.extractFromValue] at h
  split at h
  · split at h
    · cases h
    · obtain ⟨⟨helper, text⟩, middle, -, h⟩ := exists_of_run_bind h
      cases h
      exact ⟨_, List.map_append, .refl _⟩
  · cases h
    exact ⟨[], (List.append_nil _).symm, List.nil_sublist _⟩

theorem pairwise_within (h : (within.find template).run names = (.ok found, names')) :
    found.replacements.Pairwise fun r s => r.stop ≤ s.start := by
  obtain ⟨new, hnew, hsublist⟩ := foldlM_sublist (g := attributeEdges)
    (fun tag _ found found' names names' hstep => by
      rw [attributeEdges, List.map_eq_flatMap]
      exact foldlM_sublist (fun entry _ _ _ _ _ hstep => edges_fromValue hstep) hstep) h
  have hedges : found.edges = new := hnew
  have hpairwise := (pairwise_attributeEdges template).sublist hsublist
  rw [← hedges] at hpairwise
  exact List.pairwise_map.1 hpairwise

end BlockPass

/-! ### Where no block begins -/

theorem Text.eq_none_of_cutAtFirst? {α : Type} {pattern : List Char → Option α}
    {front cs before : List Char} {a : α}
    (h : cutAtFirst? pattern (front ++ cs) = some (before, a))
    (hlt : front.length < before.length) :
    pattern cs = none := by
  induction front generalizing before with
  | nil =>
    cases cs with
    | nil =>
      obtain ⟨found, _, heq⟩ := Option.map_eq_some_iff.1 h
      cases heq
      exact absurd hlt (Nat.lt_irrefl _)
    | cons c cs =>
      rw [List.nil_append, cutAtFirst?] at h
      split at h
      · cases h
        exact absurd hlt (Nat.lt_irrefl _)
      · next hnone => exact hnone
  | cons c front ih =>
    rw [List.cons_append, cutAtFirst?] at h
    split at h
    · cases h
      exact absurd hlt (Nat.not_lt_zero _)
    · obtain ⟨⟨before', a'⟩, hcut, heq⟩ := Option.map_eq_some_iff.1 h
      cases heq
      exact ih hcut (Nat.lt_of_succ_lt_succ hlt)

/-- No tag that opens a block begins in a text, if `rest` follows it. -/
def NoneBegins (text rest : List Char) : Prop :=
  ∀ before behind, text ++ rest = before ++ '{' :: '{' :: '#' :: behind → text <+: before

namespace NoneBegins

variable {text text' rest : List Char}

theorem append (h : NoneBegins text (text' ++ rest)) (h' : NoneBegins text' rest) :
    NoneBegins (text ++ text') rest := by
  intro before behind heq
  rw [List.append_assoc] at heq
  obtain ⟨before', rfl⟩ := h before behind heq
  rw [List.append_assoc] at heq
  exact (List.prefix_append_right_inj text).2 (h' before' behind (List.append_cancel_left heq))

theorem of_not_mem (h : '{' ∉ text) (rest : List Char) : NoneBegins text rest := by
  intro before behind heq
  rcases List.append_eq_append_iff.1 heq with ⟨middle, rfl, -⟩ | ⟨middle, rfl, hmiddle⟩
  · exact List.prefix_append text middle
  · cases middle with
    | nil => exact ⟨[], by simp⟩
    | cons c middle =>
      obtain ⟨rfl, -⟩ := List.cons.inj hmiddle
      exact absurd (List.mem_append_right before List.mem_cons_self) h

/-- A text without such a tag has no beginning of one either, unless it goes on behind the text. -/
theorem of_not_isInfix (h : ¬ ['{', '{', '#'] <:+: text) (hhead : rest.head? ≠ some '#')
    (hbrace : ¬ ['{', '#'] <+: rest) : NoneBegins text rest := by
  intro before behind heq
  rcases List.append_eq_append_iff.1 heq with ⟨middle, rfl, -⟩ | ⟨middle, rfl, hmiddle⟩
  · exact List.prefix_append text middle
  · rcases middle with _ | ⟨a, _ | ⟨b, _ | ⟨c, middle⟩⟩⟩
    · exact ⟨[], by simp⟩
    · obtain ⟨-, hrest⟩ := List.cons.inj hmiddle
      exact absurd ⟨behind, hrest⟩ hbrace
    · obtain ⟨-, hrest⟩ := List.cons.inj (List.cons.inj hmiddle).2
      exact absurd (by rw [show rest = '#' :: behind from hrest.symm]; rfl) hhead
    · simp only [List.cons_append, List.cons.injEq] at hmiddle
      obtain ⟨rfl, rfl, rfl, -⟩ := hmiddle
      exact absurd ⟨before, middle, by simp⟩ h

end NoneBegins

theorem IsEnding.exists_cons {negated : Bool} {text : List Char} (h : IsEnding negated text) :
    ∃ rest, text = ['{', '{', '/'] ++ rest ∧ '{' ∉ rest := by
  obtain ⟨blanks, rfl, hblanks⟩ := h
  refine ⟨(conditionName negated).toList ++ blanks ++ ['}', '}'], by simp, fun hmem => ?_⟩
  rcases List.mem_append.1 hmem with hmem | hmem
  · rcases List.mem_append.1 hmem with hmem | hmem
    · cases negated <;> exact absurd hmem (by decide)
    · exact absurd (hblanks _ hmem) (by decide)
  · exact absurd hmem (by decide)

theorem IsEnding.noneBegins {negated : Bool} {text : List Char} (h : IsEnding negated text)
    (rest : List Char) : NoneBegins text rest := by
  obtain ⟨tail, rfl, htail⟩ := h.exists_cons
  refine NoneBegins.append (fun before behind heq => ?_) (.of_not_mem htail rest)
  rcases before with _ | ⟨a, _ | ⟨b, _ | ⟨c, before⟩⟩⟩
  · simp at heq
  · simp at heq
  · simp at heq
  · simp only [List.cons_append, List.cons.injEq] at heq
    obtain ⟨rfl, rfl, rfl, -⟩ := heq
    exact ⟨before, rfl⟩

theorem IsEnding.follows {negated : Bool} {blanks ending : List Char} (h : IsEnding negated ending)
    (hblanks : ∀ c ∈ blanks, Text.isBlank c = true) (rest : List Char) :
    (blanks ++ (ending ++ rest)).head? ≠ some '#' ∧
      ¬ ['{', '#'] <+: blanks ++ (ending ++ rest) := by
  obtain ⟨tail, rfl, -⟩ := h.exists_cons
  cases blanks with
  | nil => exact ⟨by simp, by simp⟩
  | cons c blanks =>
    have hc := hblanks c List.mem_cons_self
    constructor
    · intro hhead
      obtain rfl : c = '#' := Option.some.inj hhead
      exact absurd hc (by decide)
    · rintro ⟨behind, hbehind⟩
      obtain rfl := (List.cons.inj hbehind).1
      exact absurd hc (by decide)

/-- No tag that opens a block begins in an attribute but in its value. -/
theorem WrittenAttribute.Parts.noneBegins {written : WrittenAttribute}
    {gap gap' valueText rest : List Char} (h : written.Parts gap gap' valueText)
    (hname : ∀ c ∈ written.name, isNameChar c = true)
    (hvalue : ¬ ['{', '{', '#'] <:+: written.value) (hhead : rest.head? ≠ some '#')
    (hbrace : ¬ ['{', '#'] <+: rest) : NoneBegins written.text rest := by
  have hblank : ∀ {blanks : List Char}, (∀ c ∈ blanks, Text.isBlank c = true) → '{' ∉ blanks :=
    fun hblanks hmem => absurd (hblanks _ hmem) (by decide)
  obtain ⟨hgap, hgap'⟩ := List.forall_mem_append.1 h.blanks
  have hwritten : NoneBegins valueText rest := by
    rcases h.value with ⟨quote, hquote, rfl⟩ | ⟨rfl, -, -⟩
    · have hquotes : quote ≠ '{' ∧ quote ≠ '#' := by
        rcases hquote with rfl | rfl <;> decide
      rw [← List.singleton_append]
      refine .append (.of_not_mem (by simpa using hquotes.1.symm) _)
        (.append (.of_not_isInfix hvalue ?_ ?_) (.of_not_mem (by simpa using hquotes.1.symm) _))
      · simpa using hquotes.2
      · rintro ⟨behind, hbehind⟩
        exact hquotes.1 (List.cons.inj hbehind).1.symm
    · exact .of_not_isInfix hvalue hhead hbrace
  have hequals : '=' :: (gap' ++ valueText) = ['='] ++ (gap' ++ valueText) := rfl
  rw [h.text, hequals]
  refine .append (.of_not_mem (fun hmem => absurd (hname _ hmem) (by decide)) _)
    (.append (.of_not_mem (hblank hgap) _) (.append (.of_not_mem (by decide) _)
      (.append (.of_not_mem (hblank hgap') _) hwritten)))

/-! ### Two blocks in one tag -/

theorem BlockOpening.exists_front {cs rest : List Char} {opening : BlockOpening}
    (h : at? cs = some (opening, rest)) :
    ∃ front, cs = '{' :: '{' :: '#' :: (front ++ '}' :: '}' :: rest) ∧ '}' ∉ front := by
  obtain ⟨text, rfl, inner, rfl, -, hinner, -⟩ := exists_of_at? h
  refine ⟨(conditionName opening.negated).toList ++ inner, by simp, fun hmem => ?_⟩
  rcases List.mem_append.1 hmem with hmem | hmem
  · cases hnegated : opening.negated <;> rw [hnegated] at hmem <;> exact absurd hmem (by decide)
  · exact hinner hmem

/-- Of two openings of blocks the second one ends with the first one, or it begins behind it. -/
theorem BlockOpening.ends_or_behind {middle cs rest rest' : List Char}
    {opening opening' : BlockOpening} (h : at? (middle ++ cs) = some (opening, rest))
    (h' : at? cs = some (opening', rest')) :
    rest' = rest ∨ ∃ between, rest = between ++ cs := by
  obtain ⟨front, hcs, hfront⟩ := exists_front h
  obtain ⟨front', rfl, hfront'⟩ := exists_front h'
  have hcs : middle ++ '{' :: '{' :: '#' :: (front' ++ '}' :: '}' :: rest') =
      ('{' :: '{' :: '#' :: front) ++ '}' :: '}' :: rest := hcs
  have hclear : '}' ∉ '{' :: '{' :: '#' :: front := by simpa using hfront
  by_cases hmem : '}' ∈ middle
  -- The first braces that close stand before the second opening.
  · obtain ⟨near, far, rfl, hnear⟩ := List.eq_append_cons_of_mem hmem
    rw [List.append_assoc, List.cons_append] at hcs
    obtain ⟨-, hfar⟩ := Text.append_cons_inj hnear hclear hcs
    cases far with
    | nil => cases hfar
    | cons c far => exact .inr ⟨far, (List.cons.inj hfar).2.symm⟩
  -- They belong to it as well.
  · have hfirst : '}' ∉ middle ++ '{' :: '{' :: '#' :: front' := by simpa using ⟨hmem, hfront'⟩
    have hsplit : middle ++ '{' :: '{' :: '#' :: (front' ++ '}' :: '}' :: rest') =
        (middle ++ '{' :: '{' :: '#' :: front') ++ '}' :: '}' :: rest' := by simp
    rw [hsplit] at hcs
    exact .inl (List.cons.inj (Text.append_cons_inj hfirst hclear hcs).2).2

/-- Whether an opening is that of a block around an attribute depends on what follows it alone. -/
theorem isSome_surroundingBlock? {cs cs' inside : List Char} {opening opening' : BlockOpening}
    (h : BlockOpening.at? cs = some (opening, inside))
    (h' : BlockOpening.at? cs' = some (opening', inside)) (attributeText : List Char) :
    (surroundingBlock? attributeText cs).isSome = (surroundingBlock? attributeText cs').isSome := by
  rw [surroundingBlock?, surroundingBlock?, h, h']
  dsimp only [bind, Option.bind]
  cases Text.afterLead? attributeText (Text.trimStart inside) with
  | none => rfl
  | some rest =>
    dsimp only
    cases blockEnd? (Text.trimStart rest) <;> rfl

/-- A replacement of the first block of a tag that wraps an attribute, whose value holds no other
block. -/
structure Replacement.Surrounds (r : Replacement) (tag : OpeningTag) (written : WrittenAttribute) :
    Prop where
  cut : ∃ before opening negated rest,
    Text.cutAtFirst? (surroundingBlock? written.text) tag.text =
      some (before, opening, negated, rest) ∧
    tag.start + Text.utf8Length before = r.start ∧ r.stop + Text.utf8Length rest = tag.stop
  value : ¬ ['{', '{', '#'] <:+: written.value

theorem Replacement.Surrounds.bounds {r : Replacement} {tag : OpeningTag}
    {written : WrittenAttribute} (h : r.Surrounds tag written) :
    tag.start ≤ r.start ∧ r.start ≤ r.stop ∧ r.stop ≤ tag.stop := by
  obtain ⟨before, opening, negated, rest, -, hstart, hstop⟩ := h.cut
  have hle := r.start_le_stop
  omega

/-- Of two blocks around attributes of a tag the second one begins behind the first one. -/
theorem Replacement.Surrounds.apart {r s : Replacement} {tag : OpeningTag}
    {entry entry' : Nat × WrittenAttribute} (h : r.Surrounds tag entry.2)
    (h' : s.Surrounds tag entry'.2) (hentry : entry ∈ tag.attributes)
    (hlt : r.start < s.start) : r.stop ≤ s.start := by
  obtain ⟨before, opening, negated, rest, hcut, hstart, hstop⟩ := h.cut
  obtain ⟨before', opening', negated', rest', hcut', hstart', -⟩ := h'.cut
  obtain ⟨cs, htext, hblock⟩ := Text.exists_of_cutAtFirst? hcut
  obtain ⟨cs', htext', hblock'⟩ := Text.exists_of_cutAtFirst? hcut'
  obtain ⟨middle, rfl, rfl⟩ := Text.exists_of_append_eq (htext.symm.trans htext') (by omega)
  obtain ⟨blanks, blanks', ending, hopening, hending, hblanks, hblanks'⟩ :=
    exists_of_surrounding hblock
  obtain ⟨_, _, _, hopening', -⟩ := exists_of_surrounding hblock'
  rcases BlockOpening.ends_or_behind hopening hopening' with heq | ⟨between, hbetween⟩
  -- The second block would have been found where the first one begins.
  · rw [heq] at hopening'
    have hmiddle : middle ≠ [] := by
      rintro rfl
      rw [List.append_nil] at hstart'
      omega
    have hlength : before.length < (before ++ middle).length := by
      have hpos := List.length_pos_iff.2 hmiddle
      rw [List.length_append]
      omega
    rw [htext] at hcut'
    have hnone := Text.eq_none_of_cutAtFirst? hcut' hlength
    have hsome := isSome_surroundingBlock? hopening hopening' entry'.2.text
    rw [hnone, hblock'] at hsome
    cases hsome
  -- It begins behind the opening of the first one, and cannot begin before its end.
  · obtain ⟨front, hfront, -⟩ := BlockOpening.exists_front hopening'
    obtain ⟨_, _, -, -, hat⟩ :=
      WrittenAttribute.exists_of_mem_allFrom (List.mem_of_mem_filter hentry)
    obtain ⟨gap, gap', valueText, _, -, hparts⟩ := WrittenAttribute.exists_of_at? hat
    obtain ⟨hhead, hbrace⟩ := hending.follows hblanks' rest
    have hnone : NoneBegins (blanks ++ (entry.2.text ++ (blanks' ++ ending))) rest := by
      have hblank : ∀ {blanks : List Char}, (∀ c ∈ blanks, Text.isBlank c = true) → '{' ∉ blanks :=
        fun hblanks hmem => absurd (hblanks _ hmem) (by decide)
      refine .append (.of_not_mem (hblank hblanks) _) (.append ?_
        (.append (.of_not_mem (hblank hblanks') _) (hending.noneBegins rest)))
      rw [List.append_assoc]
      exact hparts.noneBegins (WrittenAttribute.name_of_at? hat).2 h.value hhead hbrace
    rw [hfront] at hbetween
    obtain ⟨behind, hbehind⟩ := hnone between _ (by
      rw [← hbetween]
      simp only [List.append_assoc])
    rw [← hbehind, ← hfront] at hbetween
    have hrest : rest = behind ++ cs' := by
      simpa only [List.append_assoc, List.append_cancel_left_eq] using hbetween
    have htotal := congrArg Text.utf8Length htext'
    rw [Text.utf8Length_append] at htotal
    rw [hrest, Text.utf8Length_append, OpeningTag.stop] at hstop
    omega

theorem ConditionalAttribute.not_infix_of_fault? {a : ConditionalAttribute}
    (h : a.fault? = none) : ¬ ['{', '{', '#'] <:+: a.body := by
  intro hwithin
  rw [fault?, if_pos (Text.contains_iff.2 hwithin)] at h
  split at h <;> cases h

namespace BlockPass

variable {template : List Char} {found found' : Extraction} {names names' : HelperNames}

/-- What the pass over blocks around attributes has recorded so far: blocks that begin at places of
their own. -/
structure Surrounding (template : List Char) (found : Extraction) : Prop where
  surrounds : ∀ r ∈ found.replacements,
    ∃ tag ∈ all template, ∃ entry ∈ tag.attributes, r.Surrounds tag entry.2
  starts : found.replacements.Pairwise fun r s => r.start ≠ s.start

theorem Surrounding.step {tag : OpeningTag} {entry : Nat × WrittenAttribute}
    (h : Surrounding template found) (htag : tag ∈ all template) (hentry : entry ∈ tag.attributes)
    (hrun : (entry.2.extractAround tag found).run names = (.ok found', names')) :
    Surrounding template found' := by
  rw [WrittenAttribute.extractAround] at hrun
  split at hrun
  · cases hrun
    exact h
  · next before opening negated rest hcut =>
    dsimp only at hrun
    split at hrun
    · cases hrun
      exact h
    · next hnew =>
      split at hrun
      · cases hrun
      · obtain ⟨⟨helper, text⟩, middle, hextract, hrun⟩ := exists_of_run_bind hrun
        cases hrun
        obtain ⟨hfault, -⟩ := ConditionalAttribute.of_extract hextract
        obtain ⟨cs, htext, hblock⟩ := Text.exists_of_cutAtFirst? hcut
        obtain ⟨opened, blanks, blanks', ending, -, -, -, rfl⟩ := exists_of_surroundingBlock? hblock
        have hlength := congrArg Text.utf8Length htext
        rw [Text.utf8Length_append, Text.utf8Length_append _ rest] at hlength
        refine ⟨fun r hr => ?_, List.pairwise_append.2 ⟨h.starts, List.pairwise_singleton _ _,
          fun r hr s hs => ?_⟩⟩
        · rcases List.mem_append.1 hr with hr | hr
          · exact h.surrounds r hr
          · cases List.mem_singleton.1 hr
            refine ⟨tag, htag, entry, hentry, ⟨before, opening, negated, rest, hcut, rfl, ?_⟩,
              ConditionalAttribute.not_infix_of_fault? hfault⟩
            show tag.start + Text.utf8Length before + (Text.utf8Length tag.text -
              Text.utf8Length before - Text.utf8Length rest) + Text.utf8Length rest = tag.stop
            rw [OpeningTag.stop]
            omega
        · cases List.mem_singleton.1 hs
          exact fun heq => hnew (List.any_eq_true.2 ⟨r, hr, beq_iff_eq.2 heq⟩)

theorem surrounding_of_find (h : (around.find template).run names = (.ok found, names')) :
    Surrounding template found := by
  have hnone : Surrounding template {} := ⟨fun r hr => absurd hr List.not_mem_nil, .nil⟩
  refine foldlM_induction (fun tag htag b b' names names' hb hstep => ?_) hnone h
  obtain ⟨⟨middle, hfold⟩, -⟩ := exists_of_extractAround hstep
  exact foldlM_induction (fun entry hentry b b' names names' hb hstep =>
    hb.step htag hentry hstep) hb hfold

theorem apart_around (h : (around.find template).run names = (.ok found, names')) :
    found.replacements.Pairwise fun r s => r.stop ≤ s.start ∨ s.stop ≤ r.start := by
  have hall := surrounding_of_find h
  refine hall.starts.imp_of_mem fun {r s} hr hs hne => ?_
  obtain ⟨tag, htag, entry, hentry, hr⟩ := hall.surrounds r hr
  obtain ⟨tag', htag', entry', hentry', hs⟩ := hall.surrounds s hs
  have hbounds := hr.bounds
  have hbounds' := hs.bounds
  rcases eq_or_apart htag htag' with rfl | hle | hle
  · rcases Nat.lt_or_gt_of_ne hne with hlt | hlt
    · exact .inl (hr.apart hs hentry hlt)
    · exact .inr (hs.apart hr hentry' hlt)
  · exact .inl (by omega)
  · exact .inr (by omega)

end BlockPass

/-! ### Splicing what a pass records -/

/-- Replacements that can be spliced into a template: each one stands for some characters of it, and
no two of them share a byte. -/
structure Extraction.IsApplicable (found : Extraction) (template : List Char) : Prop where
  cuts : ∀ r ∈ found.replacements, ∃ before span behind, template = before ++ (span ++ behind) ∧
    Text.utf8Length before = r.start ∧ Text.utf8Length span = r.length
  apart : found.replacements.Pairwise fun r s => r.stop ≤ s.start ∨ s.stop ≤ r.start
  splices : ∃ result, splice template found.replacements = .ok result

theorem Replacement.exists_splice_amid {template : List Char} {rs : List Replacement}
    (hrs : ∀ r ∈ rs, r.LiesAmid 0 template)
    (hapart : rs.Pairwise fun r s => r.stop ≤ s.start ∨ s.stop ≤ r.start) :
    ∃ result, splice template rs = .ok result := by
  have hmem : ∀ {r}, r ∈ rs.mergeSort (fun r s => r.start ≤ s.start) ↔ r ∈ rs :=
    List.mem_mergeSort
  refine exists_applyAll_amid (fun r hr => hrs r (hmem.1 hr)) ?_
  refine pairwise_mergeSort (fun r hr => ?_) hapart
  have hlt := (hrs r hr).bounds.2.1
  rw [stop] at hlt
  omega

theorem TagPass.isApplicable_of_find {pass : TagPass} {template : List Char} {found : Extraction}
    {names names' : HelperNames} (h : (pass.find template).run names = (.ok found, names')) :
    found.IsApplicable template := by
  have hamid : ∀ r ∈ found.replacements, r.LiesAmid 0 template := by
    intro r hr
    obtain ⟨tag, htag, hlies⟩ := exists_liesIn h r hr
    exact hlies.liesAmid htag
  have hapart : found.replacements.Pairwise fun r s => r.stop ≤ s.start ∨ s.stop ≤ r.start := by
    cases pass with
    | blocks pass =>
      cases pass with
      | within => exact (BlockPass.pairwise_within h).imp Or.inl
      | around => exact BlockPass.apart_around h
    | generators =>
      cases h
      exact (pairwise_generatorBindings template).imp Or.inl
  refine ⟨fun r hr => ?_, hapart, Replacement.exists_splice_amid hamid hapart⟩
  obtain ⟨before, span, behind, htemplate, -, -, hstart, hlength⟩ := hamid r hr
  exact ⟨before, span, behind, htemplate, by rw [← hstart, Nat.zero_add], hlength.symm⟩

/-- A pass fails only because of a block that is not supported. -/
theorem TagPass.isBlockInAttribute_of_run {pass : TagPass} {template : List Char}
    {e : CompileError} {names names' : HelperNames}
    (h : (pass.run template).run names = (.error e, names')) : e.IsBlockInAttribute := by
  rw [run_eq] at h
  rcases exists_of_run_bind_error h with h | ⟨found, middle, hfind, h⟩
  · cases pass with
    | blocks pass => exact BlockPass.isBlockInAttribute_of_find h
    | generators => cases h
  · obtain ⟨result, hsplice⟩ := (isApplicable_of_find hfind).splices
    have hrun : found.applyTo template = .error e := congrArg Prod.fst h
    rw [Extraction.applyTo, hsplice] at hrun
    cases hrun

theorem isBlockInAttribute_of_prepare {template : List Char} {e : CompileError}
    (h : prepare template = .error e) : e.IsBlockInAttribute := by
  obtain ⟨given, names, names', ⟨pass, hpass⟩ | hbind⟩ := pass_error_of_prepare h
  · have hrun : ((TagPass.blocks pass).run given).run names = (.error e, names') := hpass
    exact TagPass.isBlockInAttribute_of_run hrun
  · have hrun : (TagPass.generators.run given).run names = (.error e, names') := hbind
    exact TagPass.isBlockInAttribute_of_run hrun

theorem CompileError.IsBlockInAttribute.ne {e : CompileError} (h : e.IsBlockInAttribute)
    (start : Nat) : e ≠ .overlappingReplacement start := by
  obtain ⟨name, fault, rfl⟩ := h
  exact nofun

/-- What a pass over opening tags records can always be spliced: the replacements begin and end
between characters of the template and share no byte. So no pass, and no preparation of a template,
fails because of replacements that overlap or that are not in the template. -/
theorem replacements_never_overlap (template : List Char) :
    (∀ (pass : TagPass) names found names',
      (pass.find template).run names = (.ok found, names') → found.IsApplicable template) ∧
    (∀ (pass : TagPass) names start,
      ((pass.run template).run names).1 ≠ .error (.overlappingReplacement start)) ∧
    ∀ start, prepare template ≠ .error (.overlappingReplacement start) := by
  refine ⟨fun pass names found names' h => pass.isApplicable_of_find h,
    fun pass names start h => ?_, fun start h => (isBlockInAttribute_of_prepare h).ne start rfl⟩
  cases hrun : (pass.run template).run names with
  | mk result names' =>
    rw [hrun] at h
    obtain rfl : result = .error (.overlappingReplacement start) := h
    exact (TagPass.isBlockInAttribute_of_run hrun).ne start rfl

def twoBlocks : List Char :=
  ("<a \x7b\x7b#if b\x7d\x7dc=\"d\"\x7b\x7b/if\x7d\x7d " ++
    "\x7b\x7b#unless e\x7d\x7df=\"g\"\x7b\x7b/unless\x7d\x7d>").toList

theorem twoBlocks_never_overlap :
    ∃ found names', ((TagPass.blocks .around).find twoBlocks).run [] = (.ok found, names') ∧
      found.edges = [(3, 24), (25, 54)] ∧ found.IsApplicable twoBlocks := by
  have hrun : (((TagPass.blocks .around).find twoBlocks).run []).1.toOption.map Extraction.edges =
      some [(3, 24), (25, 54)] := by
    decide +kernel
  cases hresult : ((TagPass.blocks .around).find twoBlocks).run [] with
  | mk result names' =>
    rw [hresult] at hrun
    cases result with
    | error fault => cases hrun
    | ok found =>
      exact ⟨found, names', rfl, Option.some.inj hrun,
        (replacements_never_overlap twoBlocks).1 _ _ _ _ hresult⟩

end MustacheJsx
