import Mathlib.Data.List.Nodup
import MustacheJsx.Proofs.Extraction.Splicing

/-!
# What splicing gives

Replacements are taken in the order of their positions. Each has to start behind the one before it
and to end within the template; then the text between them stays, and their texts come in, each
behind a blank. The first that does not fit is the error. `splice_exact` says this of every list of
replacements between characters, in whatever order they come.
-/

namespace MustacheJsx

/-! ### Positions and what is between them -/

namespace Text

/-- Whether a position is between two characters of a text, or at one of its ends. -/
def IsBoundary (cs : List Char) (position : Nat) : Prop :=
  ∃ before rest, cs = before ++ rest ∧ utf8Length before = position

/-- The characters that begin between two positions, if the first of them is at `offset`. -/
def sliceFrom (offset start stop : Nat) : List Char → List Char
  | [] => []
  | c :: cs =>
    let rest := sliceFrom (offset + c.utf8Size) start stop cs
    if start ≤ offset ∧ offset < stop then c :: rest else rest

def slice (cs : List Char) (start stop : Nat) : List Char := sliceFrom 0 start stop cs

theorem sliceFrom_cons (offset start stop : Nat) (c : Char) (cs : List Char) :
    sliceFrom offset start stop (c :: cs) =
      if start ≤ offset ∧ offset < stop then c :: sliceFrom (offset + c.utf8Size) start stop cs
      else sliceFrom (offset + c.utf8Size) start stop cs := rfl

variable {offset start stop : Nat} {cs : List Char}

theorem sliceFrom_append (offset start stop : Nat) (cs ds : List Char) :
    sliceFrom offset start stop (cs ++ ds) =
      sliceFrom offset start stop cs ++ sliceFrom (offset + utf8Length cs) start stop ds := by
  induction cs generalizing offset with
  | nil => rfl
  | cons c cs ih =>
    rw [List.cons_append, sliceFrom_cons, sliceFrom_cons, ih, utf8Length, ← Nat.add_assoc]
    split <;> rfl

theorem sliceFrom_eq_self (hstart : start ≤ offset) (hstop : offset + utf8Length cs ≤ stop) :
    sliceFrom offset start stop cs = cs := by
  induction cs generalizing offset with
  | nil => rfl
  | cons c cs ih =>
    rw [utf8Length] at hstop
    have hpos := c.utf8Size_pos
    rw [sliceFrom_cons, if_pos (by omega), ih (by omega) (by omega)]

theorem sliceFrom_eq_nil (h : offset + utf8Length cs ≤ start ∨ stop ≤ offset) :
    sliceFrom offset start stop cs = [] := by
  induction cs generalizing offset with
  | nil => rfl
  | cons c cs ih =>
    rw [utf8Length] at h
    have hpos := c.utf8Size_pos
    rw [sliceFrom_cons, if_neg (by omega), ih (by omega)]

theorem slice_append {before middle : List Char} (hbefore : utf8Length before = start)
    (hmiddle : start + utf8Length middle = stop) (rest : List Char) :
    slice (before ++ (middle ++ rest)) start stop = middle := by
  rw [slice, sliceFrom_append, sliceFrom_append, sliceFrom_eq_nil (.inl (by omega)),
    sliceFrom_eq_self (by omega) (by omega), sliceFrom_eq_nil (.inr (by omega)), List.nil_append,
    List.append_nil]

theorem IsBoundary.exists_of_le {before rest : List Char} (h : IsBoundary (before ++ rest) stop)
    (hle : utf8Length before ≤ stop) :
    ∃ middle after, rest = middle ++ after ∧ utf8Length before + utf8Length middle = stop := by
  obtain ⟨whole, after, hwhole, rfl⟩ := h
  obtain ⟨middle, rfl, hrest⟩ := exists_of_append_eq hwhole hle
  exact ⟨middle, after, hrest, (utf8Length_append before middle).symm⟩

end Text

namespace Replacement

/-! ### Replacements in their order -/

/-- A list in the order of positions; where positions are the same, as it was. -/
structure IsStableSort (rs sorted : List Replacement) : Prop where
  perm : sorted.Perm rs
  ordered : sorted.Pairwise fun r s => r.start ≤ s.start
  stable : ∀ position, (sorted.filter fun r => r.start == position) =
    rs.filter fun r => r.start == position

theorem isStableSort_mergeSort (rs : List Replacement) :
    IsStableSort rs (rs.mergeSort fun r s => r.start ≤ s.start) := by
  have hperm := List.mergeSort_perm rs fun r s => decide (r.start ≤ s.start)
  refine ⟨hperm, pairwise_start rs, fun position => ?_⟩
  -- Those of one position are in order, so sorting keeps them one behind the other.
  have hsame : (rs.filter fun r => r.start == position).Pairwise
      fun r s => decide (r.start ≤ s.start) = true := by
    rw [List.pairwise_filter]
    refine List.pairwise_of_forall fun r s hr hs => decide_eq_true ?_
    rw [beq_iff_eq.1 hr, beq_iff_eq.1 hs]
  have hkept := (List.sublist_mergeSort start_trans start_total hsame List.filter_sublist).filter
    fun r => r.start == position
  rw [List.filter_filter] at hkept
  simp only [Bool.and_self] at hkept
  exact (hkept.eq_of_length (hperm.filter _).length_eq.symm).symm

/-- The position behind the last of some replacements. -/
def behind (front : List Replacement) : Nat := (front.getLast?.map stop).getD 0

/-- A replacement that starts behind those in front of it and ends within the template. -/
def FitsBehind (template : List Char) (front : List Replacement) (r : Replacement) : Prop :=
  behind front ≤ r.start ∧ r.stop ≤ Text.utf8Length template

/-- Replacements that fit one behind the other. -/
def AllFit (template : List Char) (rs : List Replacement) : Prop :=
  ∀ front r back, rs = front ++ r :: back → FitsBehind template front r

theorem behind_concat (front : List Replacement) (r : Replacement) :
    behind (front ++ [r]) = r.stop := by
  rw [behind, List.getLast?_concat, Option.map_some, Option.getD_some]

theorem allFit_concat {template : List Char} {front : List Replacement} {r : Replacement} :
    AllFit template (front ++ [r]) ↔ AllFit template front ∧ FitsBehind template front r := by
  constructor
  · exact fun h => ⟨fun before s after hfront => h before s (after ++ [r]) (by simp [hfront]),
      h front r [] rfl⟩
  · rintro ⟨hfront, hr⟩ before s after heq
    rcases List.eq_nil_or_concat after with rfl | ⟨after, last, rfl⟩
    · obtain ⟨rfl, hs⟩ := List.append_inj' heq rfl
      exact (List.cons.inj hs).1 ▸ hr
    · rw [List.concat_eq_append, ← List.cons_append, ← List.append_assoc] at heq
      exact hfront before s after (List.append_inj' heq rfl).1

theorem allFit_or_exists (template : List Char) (rs : List Replacement) :
    AllFit template rs ∨ ∃ front r back, rs = front ++ r :: back ∧ AllFit template front ∧
      ¬ FitsBehind template front r := by
  induction rs using List.reverseRecOn with
  | nil => exact .inl fun front r back h => by simp at h
  | append_singleton rs r ih =>
    rcases ih with hall | ⟨front, s, back, rfl, hfront, hs⟩
    · by_cases hr : FitsBehind template rs r
      · exact .inl (allFit_concat.2 ⟨hall, hr⟩)
      · exact .inr ⟨rs, r, [], rfl, hall, hr⟩
    · exact .inr ⟨front, s, back ++ [r], by simp, hfront, hs⟩

/-! ### The text that they make -/

/-- The position of a template up to which it is done, and the text that came of it. -/
structure Woven where
  cursor : Nat
  text : List Char

/-- One replacement more: the template up to it, a space unless one is there, and its text. -/
def Woven.add (template : List Char) (done : Woven) (r : Replacement) : Woven :=
  let kept := done.text ++ Text.slice template done.cursor r.start
  let gap := if 0 < r.start ∧ ¬ kept.getLast?.any Text.isBlank then [' '] else []
  ⟨r.stop, kept ++ gap ++ r.text⟩

def weave (template : List Char) (rs : List Replacement) : Woven :=
  rs.foldl (Woven.add template) ⟨0, []⟩

def woven (template : List Char) (rs : List Replacement) : List Char :=
  let done := weave template rs
  done.text ++ Text.slice template done.cursor (Text.utf8Length template)

theorem weave_concat (template : List Char) (rs : List Replacement) (r : Replacement) :
    weave template (rs ++ [r]) = (weave template rs).add template r := by
  rw [weave, List.foldl_append]
  rfl

theorem cursor_weave (template : List Char) (rs : List Replacement) :
    (weave template rs).cursor = behind rs := by
  induction rs using List.reverseRecOn with
  | nil => rfl
  | append_singleton rs r _ =>
    rw [weave_concat, behind_concat]
    rfl

variable {template : List Char} {front rs : List Replacement} {r : Replacement}

/-- After replacements that fit, the rest is applied behind them to what is left of the template. -/
theorem exists_weave (hfit : AllFit template front)
    (hboundary : ∀ r ∈ front, Text.IsBoundary template r.start ∧ Text.IsBoundary template r.stop) :
    ∃ before rest, template = before ++ rest ∧ Text.utf8Length before = behind front ∧
      ∀ back, applyAll 0 template [] (front ++ back) =
        applyAll (behind front) rest (weave template front).text.reverse back := by
  induction front using List.reverseRecOn with
  | nil => exact ⟨[], template, rfl, rfl, fun back => rfl⟩
  | append_singleton front r ih =>
    obtain ⟨hfront, hstart, hstop⟩ := allFit_concat.1 hfit
    obtain ⟨hboundaries, hr⟩ := List.forall_mem_append.1 hboundary
    obtain ⟨hrStart, hrStop⟩ := hr r List.mem_cons_self
    obtain ⟨before, rest, rfl, hbefore, happly⟩ := ih hfront hboundaries
    obtain ⟨gap, rest, rfl, hgap⟩ := hrStart.exists_of_le (hbefore.trans_le hstart)
    rw [← List.append_assoc] at hrStop
    have hlength : Text.utf8Length (before ++ gap) = r.start := by
      rw [Text.utf8Length_append, hgap]
    obtain ⟨span, rest, rfl, hspan⟩ := hrStop.exists_of_le (hlength.trans_le r.start_le_stop)
    rw [hlength] at hspan
    refine ⟨before ++ (gap ++ span), rest, by simp, ?_, fun back => ?_⟩
    · rw [Text.utf8Length_append, Text.utf8Length_append, behind_concat]
      omega
    · rw [List.append_assoc, List.singleton_append, happly,
        applyAll_cons (hbefore ▸ hgap) hspan, behind_concat, weave_concat, Woven.add,
        cursor_weave, Text.slice_append hbefore (hbefore ▸ hgap)]
      -- The output so far is held in reverse, and ends where its reverse begins.
      generalize (weave (before ++ (gap ++ (span ++ rest))) front).text = done
      rw [← List.reverse_append, List.head?_reverse]
      dsimp only
      split <;> simp

theorem applyAll_of_allFit (hfit : AllFit template rs)
    (hboundary : ∀ r ∈ rs, Text.IsBoundary template r.start ∧ Text.IsBoundary template r.stop) :
    applyAll 0 template [] rs = .ok (woven template rs) := by
  obtain ⟨before, rest, htemplate, hbefore, happly⟩ := exists_weave hfit hboundary
  have hlength : behind rs + Text.utf8Length rest = Text.utf8Length template := by
    rw [htemplate, Text.utf8Length_append, hbefore]
  have hrest : Text.slice template (behind rs) (Text.utf8Length template) = rest := by
    have hslice := Text.slice_append hbefore hlength []
    rwa [List.append_nil, ← htemplate] at hslice
  have hwhole := happly []
  rw [List.append_nil, applyAll, List.reverse_reverse] at hwhole
  rw [hwhole, woven, cursor_weave, hrest]

theorem applyAll_of_not_fits (hfit : AllFit template front)
    (hboundary : ∀ r ∈ front, Text.IsBoundary template r.start ∧ Text.IsBoundary template r.stop)
    (hr : ¬ FitsBehind template front r) (back : List Replacement) :
    applyAll 0 template [] (front ++ r :: back) = .error (.overlappingReplacement r.start) := by
  obtain ⟨before, rest, htemplate, hbefore, happly⟩ := exists_weave hfit hboundary
  rw [FitsBehind, htemplate, Text.utf8Length_append, hbefore] at hr
  rw [happly, applyAll, if_pos (by omega)]

theorem mergeSort_eq_of_perm {others : List Replacement} (hperm : others.Perm rs)
    (hdistinct : (rs.map start).Nodup) :
    (others.mergeSort fun r s => r.start ≤ s.start) =
      rs.mergeSort fun r s => r.start ≤ s.start := by
  have hothers := isStableSort_mergeSort others
  have hrs := isStableSort_mergeSort rs
  refine List.Perm.eq_of_pairwise (fun r s hr hs hle hge => ?_) hothers.ordered hrs.ordered
    ((hothers.perm.trans hperm).trans hrs.perm.symm)
  have hr : r ∈ rs := hperm.mem_iff.1 (hothers.perm.mem_iff.1 hr)
  have hs : s ∈ rs := hrs.perm.mem_iff.1 hs
  exact List.inj_on_of_nodup_map hdistinct hr hs (Nat.le_antisymm hle hge)

end Replacement

open Replacement

variable {template : List Char} {rs : List Replacement}

/-- Splicing says of every list of replacements between characters whether it can be applied: in the
order of their positions, each has to start behind the one before it and to end within the template.
The result is the template with the texts in their places, and the error is the first that does not
fit. If no two start at one position, it does not matter how they are listed. -/
theorem splice_exact
    (hboundary : ∀ r ∈ rs, ∀ position ∈ [r.start, r.stop], position ≤ Text.utf8Length template →
      Text.IsBoundary template position) :
    ∃ sorted, IsStableSort rs sorted ∧
      (∀ result, splice template rs = .ok result ↔
        AllFit template sorted ∧ result = woven template sorted) ∧
      (∀ e, splice template rs = .error e ↔
        ∃ front r back, sorted = front ++ r :: back ∧ AllFit template front ∧
          ¬ FitsBehind template front r ∧ e = .overlappingReplacement r.start) ∧
      ((rs.map Replacement.start).Nodup →
        ∀ others, others.Perm rs → splice template others = splice template rs) := by
  have hsort := isStableSort_mergeSort rs
  have hsplice : splice template rs =
      applyAll 0 template [] (rs.mergeSort fun r s => r.start ≤ s.start) := rfl
  have horder : ∀ others, others.Perm rs → (rs.map Replacement.start).Nodup →
      splice template others = splice template rs := fun others hperm hdistinct => by
    rw [splice, mergeSort_eq_of_perm hperm hdistinct, splice]
  generalize (rs.mergeSort fun r s => decide (r.start ≤ s.start)) = sorted at hsort hsplice
  -- What fits ends within the template.
  have hwithin : ∀ front, AllFit template front → front ⊆ sorted →
      ∀ r ∈ front, Text.IsBoundary template r.start ∧ Text.IsBoundary template r.stop := by
    intro front hfit hsub r hr
    obtain ⟨before, after, rfl⟩ := List.append_of_mem hr
    have hstop := (hfit before r after rfl).2
    have hat := hboundary r (hsort.perm.mem_iff.1 (hsub hr))
    exact ⟨hat _ (by simp) (Nat.le_trans r.start_le_stop hstop), hat _ (by simp) hstop⟩
  have hok : AllFit template sorted → splice template rs = .ok (woven template sorted) :=
    fun hfit => hsplice.trans (applyAll_of_allFit hfit (hwithin sorted hfit fun _ hr => hr))
  have herror : ∀ front r back, sorted = front ++ r :: back → AllFit template front →
      ¬ FitsBehind template front r →
        splice template rs = .error (.overlappingReplacement r.start) := by
    intro front r back heq hfit hr
    rw [hsplice, heq]
    exact applyAll_of_not_fits hfit
      (hwithin front hfit (heq ▸ List.subset_append_left front (r :: back))) hr back
  refine ⟨sorted, hsort, fun result => ⟨fun h => ?_, ?_⟩, fun e => ⟨fun h => ?_, ?_⟩,
    fun hdistinct others hperm => horder others hperm hdistinct⟩
  · rcases allFit_or_exists template sorted with hfit | ⟨front, r, back, heq, hfit, hr⟩
    · exact ⟨hfit, (Except.ok.inj ((hok hfit).symm.trans h)).symm⟩
    · rw [herror front r back heq hfit hr] at h
      cases h
  · rintro ⟨hfit, rfl⟩
    exact hok hfit
  · rcases allFit_or_exists template sorted with hfit | ⟨front, r, back, heq, hfit, hr⟩
    · rw [hok hfit] at h
      cases h
    · rw [herror front r back heq hfit hr] at h
      exact ⟨front, r, back, heq, hfit, hr, (Except.error.inj h).symm⟩
  · rintro ⟨front, r, back, heq, hfit, hr, rfl⟩
    exact herror front r back heq hfit hr

/-- A text behind a character of two bytes and one before it, listed in either order. -/
theorem splice_exact_two :
    (∀ r ∈ [Replacement.mk 3 1 ['x'], .mk 0 1 []], ∀ position ∈ [r.start, r.stop],
      position ≤ Text.utf8Length ['a', 'é', 'b'] → Text.IsBoundary ['a', 'é', 'b'] position) ∧
      splice ['a', 'é', 'b'] [.mk 0 1 [], .mk 3 1 ['x']] =
        splice ['a', 'é', 'b'] [.mk 3 1 ['x'], .mk 0 1 []] := by
  have hboundary : ∀ r ∈ [Replacement.mk 3 1 ['x'], .mk 0 1 []], ∀ position ∈ [r.start, r.stop],
      position ≤ Text.utf8Length ['a', 'é', 'b'] → Text.IsBoundary ['a', 'é', 'b'] position := by
    rintro r hr position hposition -
    have hcases : position = 0 ∨ position = 1 ∨ position = 3 ∨ position = 4 := by
      revert r position
      decide
    rcases hcases with rfl | rfl | rfl | rfl
    · exact ⟨[], _, rfl, rfl⟩
    · exact ⟨['a'], ['é', 'b'], rfl, rfl⟩
    · exact ⟨['a', 'é'], ['b'], rfl, rfl⟩
    · exact ⟨['a', 'é', 'b'], [], rfl, rfl⟩
  obtain ⟨sorted, hsort, hok, herror, horder⟩ := splice_exact hboundary
  exact ⟨hboundary, horder (by decide) _ (List.Perm.swap _ _ _)⟩

end MustacheJsx
