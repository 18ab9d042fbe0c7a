import Mathlib.Order.Bounds.Basic
import MustacheJsx.Proofs.Extraction.Naming

/-!
# Names that are handed out one after the other

Whatever the bases are, and whatever has been handed out before, the search for a free name ends,
and what it finds is the base or the base with the least number that makes it free. So no name is
handed out twice: `HelperNames.issue_spec`. Bases may end in digits, or be names that came about by
a number.
-/

namespace MustacheJsx

namespace HelperNames

/-! ### The search -/

/-- The search for a free name as it goes, with nothing to bound it: a candidate that is free ends
it, and after one that is taken it goes on to the next. -/
inductive Finds (taken : HelperNames) (base : String) : Nat → String → Prop
  | free {n : Nat} : candidate base n ∉ taken → Finds taken base n (candidate base n)
  | next {n : Nat} {name : String} : candidate base n ∈ taken → Finds taken base (n + 1) name →
      Finds taken base n name

/-- A search that stops before its fuel is used up goes as it would without. -/
theorem finds_firstFree {taken : HelperNames} {base : String} {n fuel : Nat}
    (hfree : firstFree taken base n fuel ∉ taken) :
    Finds taken base n (firstFree taken base n fuel) := by
  induction fuel generalizing n with
  | zero => exact .free hfree
  | succ fuel ih =>
    rw [firstFree] at hfree ⊢
    split at hfree
    · next htaken =>
      rw [if_pos htaken]
      exact .next (List.contains_iff_mem.1 htaken) (ih hfree)
    · next htaken =>
      rw [if_neg htaken]
      exact .free hfree

theorem Finds.exists_candidate {taken : HelperNames} {base name : String} {n : Nat}
    (h : Finds taken base n name) :
    ∃ k, name = candidate base (n + k) ∧ candidate base (n + k) ∉ taken ∧
      ∀ j < k, candidate base (n + j) ∈ taken := by
  induction h with
  | free hfree => exact ⟨0, rfl, hfree, fun _ hj => absurd hj (Nat.not_lt_zero _)⟩
  | @next n name htaken _ ih =>
    obtain ⟨k, hname, hfree, hbefore⟩ := ih
    have hshift : ∀ j, n + 1 + j = n + (j + 1) := fun j => by omega
    refine ⟨k + 1, by rw [hname, hshift], by rwa [← hshift], fun j hj => ?_⟩
    cases j with
    | zero => exact htaken
    | succ j =>
      rw [← hshift]
      exact hbefore j (Nat.lt_of_succ_lt_succ hj)

/-! ### One name -/

/-- The name that is due when the names in `taken` are: the base, or if that is taken the base with
the least number from 2 on that gives a free name. The program counts in signed integers of 32 bits,
here the numbers have no limit. They agree because the number exceeds that of the names that are
taken by one at most: the counter, which is one ahead of it, stays in range while fewer than
`2 ^ 31 - 2` names are taken. -/
inductive IsDue (taken : HelperNames) (base : String) : String → Prop
  | base : base ∉ taken → IsDue taken base base
  | numbered {number : Nat} : base ∈ taken →
      IsLeast {n | 2 ≤ n ∧ base ++ n.repr ∉ taken} number → number ≤ taken.length + 1 →
      IsDue taken base (base ++ number.repr)

theorem IsDue.not_mem {taken : HelperNames} {base name : String} (h : IsDue taken base name) :
    name ∉ taken := by
  cases h with
  | base hfree => exact hfree
  | numbered _ hleast _ => exact hleast.1.2

theorem Finds.isDue {taken : HelperNames} {base name : String} (h : Finds taken base 0 name) :
    IsDue taken base name := by
  obtain ⟨k, rfl, hfree, hbefore⟩ := h.exists_candidate
  simp only [Nat.zero_add] at hfree hbefore ⊢
  have hle := le_length_of_taken hbefore
  cases k with
  | zero => exact .base hfree
  | succ k =>
    refine @IsDue.numbered taken base (k + 2) (hbefore 0 (Nat.zero_lt_succ k))
      ⟨⟨Nat.le_add_left 2 k, hfree⟩, ?_⟩ (Nat.succ_le_succ hle)
    rintro n ⟨hn, hfreeN⟩
    -- A smaller number belongs to a candidate that the search has passed.
    by_contra hlt
    refine hfreeN ?_
    have hcandidate := hbefore (n - 1) (by omega)
    obtain ⟨m, rfl⟩ : ∃ m, n = m + 2 := ⟨n - 2, by omega⟩
    exact hcandidate

theorem unique_spec (taken : HelperNames) (base : String) :
    Finds taken base 0 (taken.unique base).1 ∧ IsDue taken base (taken.unique base).1 ∧
      (taken.unique base).2 = (taken.unique base).1 :: taken := by
  have hfinds : Finds taken base 0 (taken.unique base).1 :=
    finds_firstFree (unique_not_mem taken base)
  exact ⟨hfinds, hfinds.isDue, rfl⟩

/-! ### All names -/

def issue (taken : HelperNames) : List String → List String
  | [] => []
  | base :: bases => (taken.unique base).1 :: issue (taken.unique base).2 bases

theorem length_issue (taken : HelperNames) (bases : List String) :
    (taken.issue bases).length = bases.length := by
  induction bases generalizing taken with
  | nil => rfl
  | cons base bases ih => rw [issue, List.length_cons, ih, List.length_cons]

theorem nodup_issue (taken : HelperNames) (bases : List String) :
    (taken.issue bases).Nodup ∧ ∀ name ∈ taken.issue bases, name ∉ taken := by
  induction bases generalizing taken with
  | nil => exact ⟨List.nodup_nil, fun _ hname => absurd hname List.not_mem_nil⟩
  | cons base bases ih =>
    obtain ⟨-, hdue, hnext⟩ := unique_spec taken base
    obtain ⟨hnodup, hfree⟩ := ih (taken.unique base).2
    rw [hnext] at hfree
    rw [issue, List.nodup_cons, List.forall_mem_cons]
    exact ⟨⟨fun hmem => hfree _ hmem List.mem_cons_self, hnodup⟩, hdue.not_mem,
      fun name hname hmem => hfree name hname (List.mem_cons_of_mem _ hmem)⟩

/-- The names that are handed out for a sequence of bases all differ, from each other and from those
that were taken before. Each search ends, and finds the name that is due after the searches before
it. -/
theorem issue_spec (taken : HelperNames) (bases : List String) :
    (taken.issue bases).length = bases.length ∧ (taken.issue bases).Nodup ∧
      (∀ name ∈ taken.issue bases, name ∉ taken) ∧
      ∀ (i : Nat) (base : String), bases[i]? = some base →
        ∃ name, (taken.issue bases)[i]? = some name ∧
          Finds (((taken.issue bases).take i).reverse ++ taken) base 0 name ∧
          IsDue (((taken.issue bases).take i).reverse ++ taken) base name := by
  obtain ⟨hnodup, hfree⟩ := nodup_issue taken bases
  refine ⟨length_issue taken bases, hnodup, hfree, ?_⟩
  clear hnodup hfree
  induction bases generalizing taken with
  | nil => exact fun i base h => nomatch h
  | cons first bases ih =>
    intro i base hbase
    obtain ⟨hfinds, hdue, hnext⟩ := unique_spec taken first
    cases i with
    | zero =>
      cases hbase
      exact ⟨_, rfl, hfinds, hdue⟩
    | succ i =>
      obtain ⟨name, hname, hlater⟩ := ih (taken.unique first).2 i base hbase
      rw [hnext] at hlater
      refine ⟨name, hname, ?_⟩
      rw [issue, List.take_succ_cons, List.reverse_cons, List.append_assoc]
      exact hlater

example : issue [] ["a2", "a", "a", "a2", ""] = ["a2", "a", "a3", "a22", ""] := by decide

end HelperNames

end MustacheJsx
