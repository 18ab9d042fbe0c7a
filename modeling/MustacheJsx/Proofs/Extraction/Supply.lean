import Mathlib.Data.List.DropRight
import MustacheJsx.Proofs.Extraction.Naming

/-!
# The names that extraction hands out

Extraction names a helper after the attribute and the block that it stands for. The first helper of
a kind gets that name and the later ones get it with 2, 3 and so on: which names are handed out
depends on nothing but the kinds of the helpers. In particular no name that the template calls is
avoided.
-/

namespace MustacheJsx

namespace HelperNames

/-- The names of helpers by what they are called after: the use of a base that comes after `k`
others gets its `k`th candidate. The bases in `used` come before all of them. -/
def numbered (used : List String) : List String → List String
  | [] => []
  | base :: bases => candidate base (used.count base) :: numbered (base :: used) bases

/-- A base is what some block in some attribute is called after. -/
def IsBase (base : String) : Prop :=
  ∃ (name : List Char) (negated : Bool), base = helperBase name negated

/-- The names that are taken are numbered. -/
structure Supplied (bases : List String) (names : HelperNames) (helpers : List Helper) :
    Prop where
  isBase : ∀ base ∈ bases, IsBase base
  names_eq : helpers.map Helper.name = numbered [] bases
  taken : names = (helpers.map Helper.name).reverse

/-! ### Numbers -/

theorem length_numbered (used bases : List String) :
    (numbered used bases).length = bases.length := by
  induction bases generalizing used with
  | nil => rfl
  | cons base bases ih => rw [numbered, List.length_cons, ih, List.length_cons]

theorem numbered_concat (used bases : List String) (last : String) :
    numbered used (bases ++ [last]) =
      numbered used bases ++ [candidate last (used.count last + bases.count last)] := by
  induction bases generalizing used with
  | nil => rfl
  | cons base bases ih =>
    have hcount : (base :: used).count last + bases.count last =
        used.count last + (base :: bases).count last := by
      rw [List.count_cons, List.count_cons]
      omega
    rw [List.cons_append, numbered, ih, hcount, numbered, List.cons_append]

/-- A name is handed out exactly if it is a candidate that is among the first so many, as many
helpers are called after its base. -/
theorem mem_numbered {name : String} {bases : List String} :
    name ∈ numbered [] bases ↔ ∃ base, ∃ k < bases.count base, name = candidate base k := by
  induction bases using List.reverseRecOn with
  | nil => simp [numbered]
  | append_singleton bases last ih =>
    rw [numbered_concat, List.mem_append, List.mem_singleton, ih, List.count_nil, Nat.zero_add]
    have hcount : ∀ base, (bases ++ [last]).count base =
        bases.count base + if last = base then 1 else 0 := by
      intro base
      rw [List.count_append, List.count_singleton]
      simp only [beq_iff_eq]
    constructor
    · rintro (⟨base, k, hk, rfl⟩ | rfl)
      · exact ⟨base, k, by rw [hcount]; omega, rfl⟩
      · exact ⟨last, bases.count last, by rw [hcount, if_pos rfl]; omega, rfl⟩
    · rintro ⟨base, k, hk, rfl⟩
      rw [hcount] at hk
      by_cases hlt : k < bases.count base
      · exact .inl ⟨base, k, hlt, rfl⟩
      · split at hk
        · next hlast =>
          cases hlast
          exact .inr (by rw [show k = bases.count last by omega])
        · omega

/-! ### Bases -/

/-- A candidate without the digits at its end is its base, which does not end in a digit. -/
theorem IsBase.rdropWhile_candidate {base : String} (h : IsBase base) (n : Nat) :
    (candidate base n).toList.rdropWhile Text.isAsciiDigit = base.toList := by
  obtain ⟨name, negated, rfl⟩ := h
  obtain ⟨stem, hstem⟩ : ∃ stem, (helperBase name negated).toList = stem ++ ['r'] := by
    refine ⟨String.toList (String.ofList (camelName false (name.flatMap Text.smallForm)) ++
      if negated then "Unless" else "If") ++ "Helpe".toList, ?_⟩
    rw [helperBase, String.toList_append, List.append_assoc]
    rfl
  have hbase : (helperBase name negated).toList.rdropWhile Text.isAsciiDigit =
      (helperBase name negated).toList := by
    rw [hstem]
    exact List.rdropWhile_concat_neg Text.isAsciiDigit stem 'r' (by decide)
  have hdigits : ∀ digits : List Char, (∀ c ∈ digits, Text.isAsciiDigit c = true) →
      ((helperBase name negated).toList ++ digits).rdropWhile Text.isAsciiDigit =
        (helperBase name negated).toList := by
    intro digits
    induction digits using List.reverseRecOn with
    | nil => rw [List.append_nil, hbase]; exact fun _ => rfl
    | append_singleton digits c ih =>
      intro hall
      rw [← List.append_assoc, List.rdropWhile_concat_pos Text.isAsciiDigit _ c
        (hall c (List.mem_append_right _ (List.mem_singleton.2 rfl)))]
      exact ih fun d hd => hall d (List.mem_append_left _ hd)
  cases n with
  | zero => exact hbase
  | succ n =>
    rw [candidate, String.toList_append, Nat.repr, String.toList_ofList]
    exact hdigits _ fun c hc => isAsciiDigit_of_mem_toDigits hc

theorem IsBase.candidate_inj {base other : String} {n m : Nat} (h : IsBase base)
    (h' : IsBase other) (heq : candidate base n = candidate other m) : base = other ∧ n = m := by
  have hbase : base = other := by
    rw [← String.toList_inj, ← h.rdropWhile_candidate n, ← h'.rdropWhile_candidate m, heq]
  cases hbase
  exact ⟨rfl, candidate_injective base heq⟩

theorem candidate_not_mem_numbered {base : String} {bases : List String} (h : IsBase base)
    (hbases : ∀ other ∈ bases, IsBase other) :
    candidate base (bases.count base) ∉ numbered [] bases := by
  intro hm
  obtain ⟨other, k, hk, heq⟩ := mem_numbered.1 hm
  have hother := hbases other (List.count_pos_iff.1 (Nat.zero_lt_of_lt hk))
  obtain ⟨rfl, rfl⟩ := h.candidate_inj hother heq
  exact Nat.lt_irrefl _ hk

/-! ### The supply -/

theorem firstFree_eq {taken : HelperNames} {base : String} {n k fuel : Nat} (hk : k ≤ fuel)
    (htaken : ∀ j < k, candidate base (n + j) ∈ taken) (hfree : candidate base (n + k) ∉ taken) :
    firstFree taken base n fuel = candidate base (n + k) := by
  induction fuel generalizing n k with
  | zero =>
    cases Nat.le_zero.1 hk
    rfl
  | succ fuel ih =>
    rw [firstFree]
    cases k with
    | zero => exact if_neg fun hn => hfree (List.contains_iff_mem.1 hn)
    | succ k =>
      have hfirst : candidate base n ∈ taken := htaken 0 (Nat.zero_lt_succ k)
      have hshift : ∀ j, n + (j + 1) = n + 1 + j := fun j => by omega
      rw [if_pos (List.contains_iff_mem.2 hfirst), hshift k]
      refine ih (Nat.le_of_succ_le_succ hk) (fun j hj => ?_) ?_
      · rw [← hshift]
        exact htaken (j + 1) (Nat.succ_lt_succ hj)
      · rwa [← hshift]

namespace Supplied

variable {bases : List String} {names names' : HelperNames} {helpers : List Helper}

theorem unique_eq (h : Supplied bases names helpers) {base : String} (hbase : IsBase base) :
    names.unique base =
      (candidate base (bases.count base), candidate base (bases.count base) :: names) := by
  have hmem : ∀ other, other ∈ names ↔ other ∈ numbered [] bases := by
    intro other
    rw [h.taken, List.mem_reverse, h.names_eq]
  have hlength : names.length = bases.length := by
    rw [h.taken, List.length_reverse, h.names_eq, length_numbered]
  have hfirst : firstFree names base 0 names.length = candidate base (0 + bases.count base) := by
    refine firstFree_eq (hlength ▸ List.count_le_length) (fun j hj => ?_) ?_
    · rw [hmem, Nat.zero_add]
      exact mem_numbered.2 ⟨base, j, hj, rfl⟩
    · rw [hmem, Nat.zero_add]
      exact candidate_not_mem_numbered hbase h.isBase
  rw [unique, hfirst, Nat.zero_add]

theorem extract (h : Supplied bases names helpers) {a : ConditionalAttribute} {helper : Helper}
    {text : List Char} (hextract : a.extract.run names = (.ok (helper, text), names')) :
    Supplied (bases ++ [helperBase a.name a.negated]) names' (helpers ++ [helper]) := by
  obtain ⟨-, name, hname, rfl, -⟩ := ConditionalAttribute.of_extract hextract
  have hbase : IsBase (helperBase a.name a.negated) := ⟨a.name, a.negated, rfl⟩
  rw [h.unique_eq hbase] at hname
  obtain ⟨rfl, rfl⟩ := Prod.mk.inj hname
  refine ⟨List.forall_mem_append.2 ⟨h.isBase, List.forall_mem_singleton.2 hbase⟩, ?_, ?_⟩
  · rw [List.map_append, List.map_singleton, ConditionalAttribute.name_helper, h.names_eq,
      numbered_concat, List.count_nil, Nat.zero_add]
  · rw [List.map_append, List.map_singleton, ConditionalAttribute.name_helper,
      List.reverse_append, ← h.taken]
    rfl

theorem invariant : HelperInvariant fun names helpers => ∃ bases, Supplied bases names helpers where
  start := ⟨[], nofun, rfl, rfl⟩
  step := fun ⟨_, hsupplied⟩ hextract => ⟨_, hsupplied.extract hextract⟩

end Supplied

end HelperNames

end MustacheJsx
