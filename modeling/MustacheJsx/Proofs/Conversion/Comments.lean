import MustacheJsx.Conversion.Text
import MustacheJsx.Jsx.Printer
import MustacheJsx.Proofs.Joints

/-!
# Comments stay closed

A comment is written between `{/*` and `*/}`, with what would end it broken up. In the output, where
its lines are joined, it still ends at its own end and nowhere before, and apart from blanks it
holds what it held: `Jsx.Child.comment_contained`.
-/

namespace MustacheJsx

open Text (inked Stands)

/-! ### Ends that are broken up -/

namespace Text

theorem inked_breakCommentEnds (cs : List Char) : inked (breakCommentEnds cs) = inked cs := by
  fun_induction breakCommentEnds cs with
  | case1 cs ih =>
    have hbroken : inked ['*', ' ', '/'] = inked ['*', '/'] := by decide
    have hleft := inked_append ['*', ' ', '/'] (breakCommentEnds cs)
    have hright := inked_append ['*', '/'] cs
    rw [hbroken, ih] at hleft
    exact hleft.trans hright.symm
  | case2 c cs _ ih =>
    have hleft := inked_append [c] (breakCommentEnds cs)
    have hright := inked_append [c] cs
    rw [ih] at hleft
    exact hleft.trans hright.symm
  | case3 => rfl

theorem head?_breakCommentEnds (cs : List Char) :
    (breakCommentEnds cs).head? = cs.head? := by
  fun_cases breakCommentEnds cs <;> rfl

/-- Nothing in a broken text ends a comment, and its last character and the end that follows it do
not do so together. -/
theorem not_end_breakCommentEnds (cs : List Char) :
    ¬ ['*', '/'] <:+: breakCommentEnds cs ++ ['*'] := by
  have hcons : ∀ {c : Char} {ds : List Char}, (c = '*' → ds.head? ≠ some '/') →
      ¬ ['*', '/'] <:+: ds → ¬ ['*', '/'] <:+: c :: ds := by
    intro c ds hhead hds hinfix
    rcases List.infix_cons_iff.1 hinfix with hprefix | hinside
    · obtain ⟨hc, rest, hrest⟩ := List.cons_prefix_cons.1 hprefix
      exact hhead hc.symm (by rw [← hrest]; rfl)
    · exact hds hinside
  fun_induction breakCommentEnds cs with
  | case1 cs ih =>
    exact hcons (fun _ => by simp) (hcons (fun h => absurd h (by decide))
      (hcons (fun h => absurd h (by decide)) ih))
  | case2 c cs hbreak ih =>
    refine hcons (fun hc => ?_) ih
    show (breakCommentEnds cs ++ ['*']).head? ≠ some '/'
    rw [List.head?_append, head?_breakCommentEnds]
    cases cs with
    | nil => decide
    | cons d cs =>
      intro hhead
      cases hhead
      exact hbreak cs hc rfl
  | case3 => decide

theorem eq_nil_of_inked {cs : List Char} (h : inked cs = [])
    (hhead : ∀ c ∈ cs.head?, isBlank c = false) : cs = [] := by
  cases cs with
  | nil => rfl
  | cons c cs =>
    have hc := List.filter_eq_nil_iff.1 h c List.mem_cons_self
    rw [hhead c rfl] at hc
    exact absurd rfl hc

theorem eq_nil_of_inked' {cs : List Char} (h : inked cs = [])
    (hlast : ∀ c ∈ cs.getLast?, isBlank c = false) : cs = [] := by
  rw [← List.reverse_eq_nil_iff]
  refine eq_nil_of_inked ?_ fun c hc => hlast c ?_
  · rw [inked, List.filter_reverse, List.reverse_eq_nil_iff]
    exact h
  · rwa [List.head?_reverse] at hc

end Text

/-! ### A comment in the output -/

namespace Jsx

theorem Child.print_ofComment (value : String) :
    (Child.ofComment value).print =
      ['{', '/', '*'] ++ Text.breakCommentEnds value.toList ++ ['*', '/', '}'] := by
  rw [Child.ofComment, Child.print, String.toList_ofList]

/-- Layout makes no end of a comment within one. -/
theorem not_end_of_arrange {above broken below front inside back : List Char}
    (h : Layout.arrange (above ++ ['{', '/', '*'] ++ (broken ++ (['*', '/', '}'] ++ below))) =
      front ++ ['{', '/', '*'] ++ (inside ++ (['*', '/', '}'] ++ back)))
    (hfront : inked front = inked above) (hback : inked back = inked below)
    (hbroken : ¬ ['*', '/'] <:+: broken ++ ['*']) : ¬ ['*', '/'] <:+: inside ++ ['*'] := by
  intro hend
  -- The star belongs to the end of the comment, of which the slash and the brace are left.
  have hstar : Layout.arrange
      (above ++ ['{', '/', '*'] ++ ((broken ++ ['*']) ++ (['/', '}'] ++ below))) =
      front ++ ['{', '/', '*'] ++ ((inside ++ ['*']) ++ (['/', '}'] ++ back)) := by
    simpa using h
  have hword : ∀ c ∈ ['*', '/'], Text.isBlank c = false :=
    List.forall_mem_cons.2 ⟨by decide, List.forall_mem_singleton.2 (by decide)⟩
  have hlast : ∃ c ∈ (above ++ ['{', '/', '*']).getLast?, Text.isBlank c = false :=
    ⟨'*', by rw [List.getLast?_append]; rfl, by decide⟩
  have hhead : ∃ c ∈ (['/', '}'] ++ below).head?, Text.isBlank c = false :=
    ⟨'/', rfl, by decide⟩
  refine hbroken
    (Layout.isInfix_of_arrange (List.cons_ne_nil _ _) hword hlast hhead hstar ?_ ?_ hend)
  · rw [Text.inked_append, Text.inked_append, hfront]
  · rw [Text.inked_append, Text.inked_append, hback]

/-- Wherever a comment stands in code, in the output it stands between `{/*` and `*/}`, at the same
place. After it has begun, the first `*/` is its end. It holds what it held, apart from blanks. If
it is all the code, it is all the output. -/
theorem Child.comment_contained (value : String) (above below : List Char) :
    ∃ front inside back,
      Layout.arrange (above ++ (Child.ofComment value).print ++ below) =
        front ++ (['{', '/', '*'] ++ inside ++ ['*', '/', '}']) ++ back ∧
      Text.cutAt? ['*', '/'] (inside ++ ['*', '/', '}'] ++ back) = some (inside, '}' :: back) ∧
      inked front = inked above ∧ inked inside = inked value.toList ∧ inked back = inked below ∧
      (above = [] → front = []) ∧ (below = [] → back = []) := by
  have hvalue := Text.inked_breakCommentEnds value.toList
  have hnoEnd := Text.not_end_breakCommentEnds value.toList
  rw [Child.print_ofComment]
  generalize Text.breakCommentEnds value.toList = broken at hvalue hnoEnd
  have hcode : above ++ (['{', '/', '*'] ++ broken ++ ['*', '/', '}']) ++ below =
      above ++ ['{', '/', '*'] ++ (broken ++ (['*', '/', '}'] ++ below)) := by
    simp only [List.append_assoc]
  obtain ⟨front, inside, back, harrange, hfront, hinside, hback⟩ :=
    @Layout.exists_arrange_between ['{', '/', '*'] ['*', '/', '}'] (by decide)
      ⟨'{', rfl, by decide⟩ ⟨'*', rfl, by decide⟩ (by decide) ⟨'*', rfl, by decide⟩
      ⟨'}', rfl, by decide⟩ above broken below
  have hnone := not_end_of_arrange harrange hfront hback hnoEnd
  rw [← hcode] at harrange
  have hends := Layout.isBlank_ends_arrange
    (above ++ (['{', '/', '*'] ++ broken ++ ['*', '/', '}']) ++ below)
  refine ⟨front, inside, back, ?_, ?_, hfront, hinside.trans hvalue, hback, ?_, ?_⟩
  · rw [harrange]
    simp only [List.append_assoc]
  · exact (Text.cutAt?_eq_some_iff (List.cons_ne_nil _ _)).2 ⟨by simp, hnone⟩
  · rintro rfl
    refine Text.eq_nil_of_inked hfront fun c hc => hends.1 c ?_
    rw [harrange, List.append_assoc, List.head?_append, hc]
    rfl
  · rintro rfl
    refine Text.eq_nil_of_inked' hback fun c hc => hends.2 c ?_
    rw [harrange, List.getLast?_append, List.getLast?_append, List.getLast?_append, hc]
    rfl

example : Layout.arrange (Child.ofComment "*/\n/ x *").print =
    ['{', '/', '*'] ++ "* / / x *".toList ++ ['*', '/', '}'] := by decide

end Jsx

end MustacheJsx
