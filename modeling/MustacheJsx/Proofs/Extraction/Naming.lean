import Mathlib.Data.List.Nodup
import Mathlib.Data.List.Perm.Subperm
import MustacheJsx.Compile
import MustacheJsx.Proofs.Extraction.Clearing

/-!
# Names of helpers differ

A name that is taken for a helper is free. The passes share the names that are taken, so all helpers
of a prepared template have names that differ, and none of them is that of the framework.
-/

namespace MustacheJsx

namespace HelperNames

/-! ### Candidates -/

theorem candidate_injective (base : String) : Function.Injective (candidate base) := by
  have hrepr : ∀ n : Nat, base ≠ base ++ n.repr := by
    intro n h
    have hlength := congrArg String.length h
    have hpos : 0 < n.repr.length := Nat.length_repr_pos
    rw [String.length_append] at hlength
    omega
  intro n m h
  cases n with
  | zero =>
    cases m with
    | zero => rfl
    | succ m => exact absurd h (hrepr _)
  | succ n =>
    cases m with
    | zero => exact absurd h.symm (hrepr _)
    | succ m =>
      have hnumber : (n + 2).repr = (m + 2).repr := String.append_right_inj base |>.1 h
      rw [Nat.repr_eq_ofList_toDigits, Nat.repr_eq_ofList_toDigits] at hnumber
      have hvalue := congrArg (Nat.ofDigitChars 10 · 0) (String.ofList_injective hnumber)
      simp only [Nat.ofDigitChars_toDigits (by decide) (Nat.le_refl 10)] at hvalue
      omega

/-- Only if all candidates on the way are taken is the one that is found taken as well. -/
theorem candidate_mem_of_firstFree_mem {taken : HelperNames} {base : String} {n fuel : Nat}
    (h : firstFree taken base n fuel ∈ taken) : ∀ k ≤ fuel, candidate base (n + k) ∈ taken := by
  induction fuel generalizing n with
  | zero =>
    intro k hk
    cases Nat.le_zero.1 hk
    exact h
  | succ fuel ih =>
    rw [firstFree] at h
    split at h
    · next hn =>
      intro k hk
      cases k with
      | zero => exact List.contains_iff_mem.1 hn
      | succ k =>
        rw [Nat.add_comm k 1, ← Nat.add_assoc]
        exact ih h k (Nat.le_of_succ_le_succ hk)
    · next hn => exact absurd (List.contains_iff_mem.2 h) hn

theorem le_length_of_taken {taken : HelperNames} {base : String} {k : Nat}
    (h : ∀ j < k, candidate base j ∈ taken) : k ≤ taken.length := by
  have hsub : (List.range k).map (candidate base) ⊆ taken := by
    intro name hname
    obtain ⟨j, hj, rfl⟩ := List.mem_map.1 hname
    exact h j (List.mem_range.1 hj)
  have hnodup : ((List.range k).map (candidate base)).Nodup :=
    List.nodup_range.map (candidate_injective base)
  have hlength := (hnodup.subperm hsub).length_le
  rwa [List.length_map, List.length_range] at hlength

/-- There are more candidates than names that are taken, so the name that is found is free. -/
theorem unique_not_mem (taken : HelperNames) (base : String) :
    (taken.unique base).1 ∉ taken := by
  intro h
  have hall := candidate_mem_of_firstFree_mem h
  refine absurd (@le_length_of_taken taken base (taken.length + 1) fun j hj => ?_)
    (Nat.not_succ_le_self taken.length)
  have hmem := hall j (Nat.le_of_lt_succ hj)
  rwa [Nat.zero_add] at hmem

/-! ### Helpers -/

/-- The names that are taken are those of the helpers, which differ, and are longer than that of the
framework. -/
structure Reserve (names : HelperNames) (helpers : List Helper) : Prop where
  taken : names = (helpers.map Helper.name).reverse
  distinct : names.Nodup
  long : ∀ helper ∈ helpers, Vocabulary.framework.length < helper.name.length

namespace Reserve

variable {names names' : HelperNames} {helpers : List Helper}

theorem nil : Reserve [] [] := ⟨rfl, List.nodup_nil, nofun⟩

theorem nodup (h : Reserve names helpers) : (helpers.map Helper.name).Nodup := by
  rw [← List.nodup_reverse, ← h.taken]
  exact h.distinct

theorem not_framework (h : Reserve names helpers) :
    Vocabulary.framework ∉ helpers.map Helper.name := by
  intro hm
  obtain ⟨helper, hm, hname⟩ := List.mem_map.1 hm
  have hlong := h.long helper hm
  rw [hname] at hlong
  exact Nat.lt_irrefl _ hlong

theorem extract {a : ConditionalAttribute} {helper : Helper} {text : List Char}
    (h : Reserve names helpers) (hextract : a.extract.run names = (.ok (helper, text), names')) :
    Reserve names' (helpers ++ [helper]) := by
  obtain ⟨-, name, hname, rfl, -⟩ := ConditionalAttribute.of_extract hextract
  have hfree := unique_not_mem names (helperBase a.name a.negated)
  obtain ⟨hlength, -⟩ := unique_chars names a.name a.negated
  rw [hname] at hfree hlength
  have hnames : names' = name :: names := by
    rw [unique] at hname
    obtain ⟨rfl, rfl⟩ := Prod.mk.inj hname
    rfl
  refine ⟨?_, ?_, ?_⟩
  · rw [hnames, List.map_append, List.reverse_append, ← h.taken]
    rw [List.map_singleton, ConditionalAttribute.name_helper]
    rfl
  · rw [hnames]
    exact List.nodup_cons.2 ⟨hfree, h.distinct⟩
  · intro other hm
    rcases List.mem_append.1 hm with hm | hm
    · exact h.long other hm
    · rw [List.mem_singleton.1 hm, ConditionalAttribute.name_helper]
      exact hlength

end Reserve

end HelperNames

/-! ### Passes -/

/-- A fact about the names that are taken and the helpers: it holds at first, and extracting an
attribute keeps it. -/
structure HelperInvariant (motive : HelperNames → List Helper → Prop) : Prop where
  start : motive [] []
  step : ∀ {a : ConditionalAttribute} {helper : Helper} {text : List Char}
    {names names' : HelperNames} {helpers : List Helper}, motive names helpers →
      a.extract.run names = (.ok (helper, text), names') → motive names' (helpers ++ [helper])

namespace HelperInvariant

variable {motive : HelperNames → List Helper → Prop} {before : List Helper}
  {found found' : Extraction} {names names' : HelperNames}

theorem fromValue (hmotive : HelperInvariant motive) {written : WrittenAttribute} {start : Nat}
    (hfound : motive names (before ++ found.helpers))
    (h : (written.extractFromValue start found).run names = (.ok found', names')) :
    motive names' (before ++ found'.helpers) := by
  rw [WrittenAttribute.extractFromValue] at h
  split at h
  · split at h
    · cases h
    · obtain ⟨⟨helper, text⟩, middle, hextract, h⟩ := exists_of_run_bind h
      cases h
      rw [Extraction.add, ← List.append_assoc]
      exact hmotive.step hfound hextract
  · cases h
    exact hfound

theorem around (hmotive : HelperInvariant motive) {tag : OpeningTag} {written : WrittenAttribute}
    (hfound : motive names (before ++ found.helpers))
    (h : (written.extractAround tag found).run names = (.ok found', names')) :
    motive names' (before ++ found'.helpers) := by
  rw [WrittenAttribute.extractAround] at h
  split at h
  · cases h
    exact hfound
  · dsimp only at h
    split at h
    · cases h
      exact hfound
    · split at h
      · cases h
      · obtain ⟨⟨helper, text⟩, middle, hextract, h⟩ := exists_of_run_bind h
        cases h
        rw [Extraction.add, ← List.append_assoc]
        exact hmotive.step hfound hextract

theorem find (hmotive : HelperInvariant motive) {pass : BlockPass} {template : List Char}
    (hbefore : motive names before)
    (h : (pass.find template).run names = (.ok found, names')) :
    motive names' (before ++ found.helpers) := by
  have hnone : motive names (before ++ ({} : Extraction).helpers) := by
    rwa [List.append_nil]
  cases pass with
  | within =>
    exact foldlM_run_induction
      (motive := fun found names => motive names (before ++ found.helpers))
      (fun tag _ b b' names names' hb hstep => foldlM_run_induction
        (motive := fun found names => motive names (before ++ found.helpers))
        (fun p _ b b' names names' hb hstep => hmotive.fromValue hb hstep) hb hstep) hnone h
  | around =>
    refine foldlM_run_induction
      (motive := fun found names => motive names (before ++ found.helpers))
      (fun tag _ b b' names names' hb hstep => ?_) hnone h
    rw [OpeningTag.extractAround] at hstep
    obtain ⟨last, middle, hfold, hstep⟩ := exists_of_run_bind hstep
    have hlast := foldlM_run_induction
      (motive := fun found names => motive names (before ++ found.helpers))
      (fun p _ b b' names names' hb hstep => hmotive.around hb hstep) hb hfold
    dsimp only at hstep
    split at hstep
    · cases hstep
    · cases hstep
      exact hlast

end HelperInvariant

theorem Extraction.helpers_of_applyTo {found : Extraction} {template : List Char}
    {prepared : Prepared} (h : found.applyTo template = .ok prepared) :
    prepared.helpers = found.helpers := by
  obtain ⟨text, -, rfl⟩ := exists_of_map_eq_ok h
  rfl

namespace HelperInvariant

variable {motive : HelperNames → List Helper → Prop} {names names' : HelperNames}

theorem extract (hmotive : HelperInvariant motive) (pass : BlockPass) {template : List Char}
    {before : List Helper} {prepared : Prepared} (hbefore : motive names before)
    (h : (pass.extract template).run names = (.ok prepared, names')) :
    motive names' (before ++ prepared.helpers) := by
  rw [BlockPass.extract_eq] at h
  obtain ⟨found, middle, hfind, h⟩ := exists_of_run_bind h
  obtain ⟨happly, rfl⟩ := Prod.mk.inj h
  rw [Extraction.helpers_of_applyTo happly]
  exact hmotive.find hbefore hfind

theorem of_prepare (hmotive : HelperInvariant motive) {template : List Char} {prepared : Prepared}
    (h : prepare template = .ok prepared) : ∃ names, motive names prepared.helpers := by
  obtain ⟨lifted, cleared, bound, _, names, _, hlifted, hcleared, hbound, rfl⟩ :=
    passes_of_prepare h
  have hfirst := hmotive.extract .within hmotive.start hlifted
  have hsecond := hmotive.extract .around hfirst hcleared
  -- Binding calls makes no helper.
  have hnone := Extraction.helpers_of_applyTo (Prod.mk.inj hbound).1
  refine ⟨names, ?_⟩
  rw [hnone, List.append_nil]
  exact hsecond

theorem of_options (hmotive : HelperInvariant motive) {options : Options} {template : List Char}
    {prepared : Prepared} (h : options.prepare template = .ok prepared) :
    ∃ names, motive names prepared.helpers := by
  rw [Options.prepare] at h
  split at h
  · exact hmotive.of_prepare h
  · cases h
    exact ⟨[], hmotive.start⟩

end HelperInvariant

theorem Options.exists_reserve_of_prepare {options : Options} {template : List Char}
    {prepared : Prepared} (h : options.prepare template = .ok prepared) :
    ∃ names, HelperNames.Reserve names prepared.helpers :=
  HelperInvariant.of_options ⟨.nil, fun hreserve hextract => hreserve.extract hextract⟩ h

end MustacheJsx
