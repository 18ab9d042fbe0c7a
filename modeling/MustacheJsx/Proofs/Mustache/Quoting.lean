import MustacheJsx.Mustache.Span
import MustacheJsx.Proofs.Opening.Span

/-!
# Quotes in the inside of a mustache

The reader of spans passes over closing braces between quotes, whatever the quotes stand for. A text
that leaves it outside quotes closes them; when no closing braces stand in such a text, the braces
that follow it are the ones that end the mustache.
-/

namespace MustacheJsx

/-! ### Marks in text -/

namespace Text

/-- Braces that do not stand in a text do not come about before a brace either, unless the text ends
with one. -/
theorem contains_braces_append {cs : List Char} (h : contains ['}', '}'] cs = false)
    (hlast : ∀ c ∈ cs.getLast?, c ≠ '}') : contains ['}', '}'] (cs ++ ['}']) = false := by
  induction cs with
  | nil => rfl
  | cons c cs ih =>
    obtain ⟨hlead, hcs⟩ := contains_of_cons h
    have hne : c :: cs ≠ ['}'] := by
      intro heq
      rw [heq] at hlast
      exact hlast '}' rfl rfl
    have hmore : afterLead? ['}', '}'] (c :: (cs ++ ['}'])) = none := by
      cases cs with
      | nil =>
        have hc : '}' ≠ c := fun heq => hne (heq ▸ rfl)
        simp [afterLead?, hc]
      | cons d cs =>
        rw [← List.cons_append, afterLead?_append _ (by simp), hlead]
        rfl
    have hlast' : ∀ d ∈ cs.getLast?, d ≠ '}' := by
      intro d hd
      refine hlast d ?_
      rw [List.getLast?_cons]
      rw [Option.mem_def.1 hd]
      rfl
    rw [contains, List.cons_append, cutAt?, hmore, Option.isSome_map]
    exact ih hcs hlast'

theorem contains_braces_of_cutAt? {cs before rest : List Char}
    (h : cutAt? ['}', '}'] cs = some (before, rest)) :
    contains ['}', '}'] (before ++ ['}']) = false := by
  induction cs generalizing before with
  | nil => cases h
  | cons c cs ih =>
    rw [cutAt?] at h
    split at h
    · cases h
      rfl
    · next hlead =>
      obtain ⟨⟨before', rest'⟩, hcut, hpair⟩ := Option.map_eq_some_iff.1 h
      cases hpair
      have hcs := eq_append_of_cutAt? hcut
      have hmore := @afterLead?_append ['}', '}'] (c :: (before' ++ ['}'])) ('}' :: rest) (by simp)
      have hsource : c :: (before' ++ ['}']) ++ '}' :: rest = c :: cs := by simp [hcs]
      rw [hsource, hlead] at hmore
      have hnone : afterLead? ['}', '}'] (c :: (before' ++ ['}'])) = none :=
        Option.map_eq_none_iff.1 hmore.symm
      rw [List.cons_append, contains, cutAt?, hnone, Option.isSome_map]
      exact ih hcut

end Text

/-! ### Closing quotes -/

namespace Span

def Quoting.afterAll (quoting : Quoting) (cs : List Char) : Quoting :=
  cs.foldl (fun quoting c => quoting.after c) quoting

@[simp] theorem Quoting.afterAll_nil (quoting : Quoting) : quoting.afterAll [] = quoting := rfl

@[simp] theorem Quoting.afterAll_cons (quoting : Quoting) (c : Char) (cs : List Char) :
    quoting.afterAll (c :: cs) = (quoting.after c).afterAll cs := rfl

@[simp] theorem Quoting.afterAll_append (quoting : Quoting) (cs ds : List Char) :
    quoting.afterAll (cs ++ ds) = (quoting.afterAll cs).afterAll ds :=
  List.foldl_append

/-- Every quote that a text opens is closed in it. -/
def ClosesQuotes (cs : List Char) : Prop := Quoting.outside.afterAll cs = .outside

instance (cs : List Char) : Decidable (ClosesQuotes cs) :=
  inferInstanceAs (Decidable (Quoting.outside.afterAll cs = .outside))

theorem ClosesQuotes.append {cs ds : List Char} (hcs : ClosesQuotes cs) (hds : ClosesQuotes ds) :
    ClosesQuotes (cs ++ ds) := by
  rw [ClosesQuotes, Quoting.afterAll_append, hcs]
  exact hds

theorem closesQuotes_of_forall {cs : List Char} (h : ∀ c ∈ cs, c ≠ '"' ∧ c ≠ '\'') :
    ClosesQuotes cs := by
  induction cs with
  | nil => rfl
  | cons c cs ih =>
    obtain ⟨hdouble, hsingle⟩ := h c List.mem_cons_self
    have hc : Quoting.outside.after c = .outside := by
      simp [Quoting.after, hdouble, hsingle]
    rw [ClosesQuotes, Quoting.afterAll_cons, hc]
    exact ih fun d hd => h d (List.mem_cons_of_mem c hd)

/-! ### The closing braces -/

/-- The search for braces goes through a text in which they do not stand. -/
theorem cutAtClose?_through {cs : List Char} (h : Text.contains ['}', '}'] (cs ++ ['}']) = false)
    (quoting : Quoting) (rest : List Char) :
    cutAtClose? ['}', '}'] quoting (cs ++ '}' :: rest) =
      (cutAtClose? ['}', '}'] (quoting.afterAll cs) ('}' :: rest)).map
        fun cut => (cs ++ cut.1, cut.2) := by
  induction cs generalizing quoting with
  | nil => simp
  | cons c cs ih =>
    rw [List.cons_append] at h
    obtain ⟨hlead, hcs⟩ := Text.contains_of_cons h
    have hmore := @Text.afterLead?_append ['}', '}'] (c :: (cs ++ ['}'])) rest (by simp)
    have hnone : Text.afterLead? ['}', '}'] (c :: (cs ++ '}' :: rest)) = none := by
      rw [hlead] at hmore
      simpa using hmore
    rw [List.cons_append, cutAtClose?, hnone, ite_self, ih hcs, Option.map_map]
    rfl

/-- Two braces end a mustache in front of which they are met outside quotes, and nothing else. -/
theorem cutAtClose?_braces_iff {cs : List Char}
    (h : Text.contains ['}', '}'] (cs ++ ['}']) = false) (rest : List Char) :
    cutAtClose? ['}', '}'] .outside (cs ++ '}' :: '}' :: rest) = some (cs, rest) ↔
      ClosesQuotes cs := by
  rw [cutAtClose?_through h]
  constructor
  · intro hcut
    obtain ⟨⟨before, after⟩, hbraces, hpair⟩ := Option.map_eq_some_iff.1 hcut
    obtain ⟨hbefore, rfl⟩ := Prod.mk.inj hpair
    have hnil : before = [] := List.append_right_eq_self.1 hbefore
    rw [cutAtClose?] at hbraces
    split at hbraces
    · next hlead =>
      split at hlead
      · next hcloses => exact hcloses
      · cases hlead
    · obtain ⟨cut, -, hcons⟩ := Option.map_eq_some_iff.1 hbraces
      cases hnil
      cases hcons
  · intro hcloses
    rw [show Quoting.outside.afterAll cs = .outside from hcloses]
    have hlead : Text.afterLead? ['}', '}'] ('}' :: '}' :: rest) = some rest := rfl
    rw [cutAtClose?, if_pos rfl, hlead]
    simp

end Span

end MustacheJsx
