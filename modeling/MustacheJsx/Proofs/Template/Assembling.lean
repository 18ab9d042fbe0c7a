import MustacheJsx.Proofs.Template.Numbering

/-!
# No number occurs twice in a template

While a template is put together, a tag that waited is moved into it and no tag is copied; closing a
block takes the numbers of its bodies from the counter. So the numbers in an assembly, those of the
tags that still wait among them, occur as often as before a step, or are new. The main statement is
`Template.nodup_numbers_of_read`.
-/

namespace MustacheJsx

/-! ### Elements and blocks that are open -/

def numbersOfBranches (branches : List (Branch × List Statement)) : List Nat :=
  branches.flatMap fun branch => Statement.numbersOfAll branch.2

def Frame.numbers : Frame → List Nat
  | .element _ _ attributes children =>
    Statement.numbersOfAttributes attributes ++ Statement.numbersOfAll children
  | .block head closed _ body =>
    head.numbers ++ (numbersOfBranches closed ++ Statement.numbersOfAll body)

namespace Assembly

open Statement (numbersOfAll numbersOfAttributes numbersOfValue numbersOfInverse
  count_numbersOfAll_reverse)

/-- The numbers of a template being put together, those of the tags that wait among them. -/
def numbers (a : Assembly) : List Nat :=
  a.lifted.numbers ++ (a.stack.flatMap Frame.numbers ++ numbersOfAll a.body)

theorem count_numbers (a : Assembly) (n : Nat) :
    a.numbers.count n = a.lifted.numbers.count n + (a.stack.flatMap Frame.numbers).count n +
      (numbersOfAll a.body).count n := by
  rw [numbers, List.count_append, List.count_append, Nat.add_assoc]

theorem next_add (a : Assembly) (statement : Statement) : (a.add statement).next = a.next := by
  rw [add]
  split <;> rfl

theorem lifted_add (a : Assembly) (statement : Statement) :
    (a.add statement).lifted = a.lifted := by
  rw [add]
  split <;> rfl

theorem count_numbers_add (a : Assembly) (statement : Statement) (n : Nat) :
    (a.add statement).numbers.count n = statement.numbers.count n + a.numbers.count n := by
  rw [count_numbers, count_numbers, add]
  split
  · next hs =>
    simp only [hs, List.flatMap_cons, List.count_append, Frame.numbers, numbersOfAll]
    omega
  · next hs =>
    simp only [hs, List.flatMap_cons, List.count_append, Frame.numbers, numbersOfAll]
    omega
  · next hs =>
    simp only [hs, List.count_append, numbersOfAll]
    omega

theorem count_numbers_push (a : Assembly) (frame : Frame) (n : Nat) :
    (a.push frame).numbers.count n = frame.numbers.count n + a.numbers.count n := by
  rw [count_numbers, count_numbers, push]
  simp only [List.flatMap_cons, List.count_append]
  omega

theorem next_foldl_add (a : Assembly) (statements : List Statement) :
    (statements.foldl add a).next = a.next := by
  induction statements generalizing a with
  | nil => rfl
  | cons statement statements ih => rw [List.foldl_cons, ih, next_add]

theorem count_numbers_foldl_add (a : Assembly) (statements : List Statement) (n : Nat) :
    (statements.foldl add a).numbers.count n =
      (numbersOfAll statements).count n + a.numbers.count n := by
  induction statements generalizing a with
  | nil => simp only [List.foldl_nil, numbersOfAll, List.count_nil, Nat.zero_add]
  | cons statement statements ih =>
    rw [List.foldl_cons, ih, count_numbers_add, numbersOfAll, List.count_append]
    omega

theorem restore_counts {lifted rest : Lifted} {pieces : List Piece}
    {statements : List Statement} (h : restore lifted pieces = .ok (statements, rest)) (n : Nat) :
    (numbersOfAll statements).count n + rest.numbers.count n ≤ lifted.numbers.count n := by
  induction pieces generalizing lifted statements with
  | nil =>
    cases h
    simp only [numbersOfAll, List.count_nil, Nat.zero_add]
    exact Nat.le_refl _
  | cons piece pieces ih =>
    cases piece with
    | text chars =>
      obtain ⟨⟨others, rest'⟩, hr, h⟩ := bind_eq_ok h
      cases h
      have hothers := ih hr
      simpa only [numbersOfAll, Statement.numbers, List.nil_append] using hothers
    | hole index =>
      cases index with
      | none => cases h
      | some index =>
        rw [restore.eq_def] at h
        dsimp only at h
        generalize ht : lifted.take index = taken at h
        obtain ⟨found, lifted'⟩ := taken
        have hcases : ∃ statement others, statement.numbers = Lifted.numbersOf found ∧
            restore lifted' pieces = .ok (others, rest) ∧ statements = statement :: others := by
          dsimp only at h
          split at h <;> obtain ⟨statement, hs, h⟩ := bind_eq_ok h
          · obtain ⟨⟨others, rest'⟩, hr, h⟩ := bind_eq_ok h
            cases hs
            cases h
            exact ⟨_, others, rfl, hr, rfl⟩
          · obtain ⟨⟨others, rest'⟩, hr, h⟩ := bind_eq_ok h
            cases hs
            cases h
            exact ⟨_, others, rfl, hr, rfl⟩
          · cases hs
          · cases hs
        obtain ⟨statement, others, hnumbers, hr, rfl⟩ := hcases
        have htake := Lifted.count_numbers_take ht n
        have hothers := ih hr
        rw [numbersOfAll, List.count_append, hnumbers]
        omega

theorem mixedValue_counts {lifted rest : Lifted} {chars : List Char} {value : AttributeValue}
    (h : mixedValue lifted chars = .ok (value, rest)) (n : Nat) :
    (numbersOfValue value).count n + rest.numbers.count n ≤ lifted.numbers.count n := by
  rw [mixedValue] at h
  dsimp only at h
  split at h
  · obtain ⟨⟨parts, rest'⟩, hr, h⟩ := bind_eq_ok h
    cases h
    exact restore_counts hr n
  · cases h
    simp only [numbersOfValue, List.count_nil, Nat.zero_add]
    exact Nat.le_refl _

theorem restoreValue_counts {lifted rest : Lifted} {chars : List Char} {value : AttributeValue}
    (h : restoreValue lifted chars = .ok (value, rest)) (n : Nat) :
    (numbersOfValue value).count n + rest.numbers.count n ≤ lifted.numbers.count n := by
  rw [restoreValue] at h
  split at h
  · exact mixedValue_counts h n
  · split at h
    · split at h
      · next ht =>
        cases h
        exact Nat.le_of_eq (Lifted.count_numbers_take ht n)
      · next ht =>
        -- the tag that was taken is lost
        have := Lifted.count_numbers_take ht n
        have := mixedValue_counts h n
        omega
    · exact mixedValue_counts h n

theorem restoreAttributes_counts {spellings : List (List Char)} {lifted rest : Lifted}
    {written : List (String × String)} {attributes : List Attribute}
    (h : restoreAttributes spellings lifted written = .ok (attributes, rest)) (n : Nat) :
    (numbersOfAttributes attributes).count n + rest.numbers.count n ≤ lifted.numbers.count n := by
  induction written generalizing lifted attributes with
  | nil =>
    cases h
    simp only [numbersOfAttributes, List.count_nil, Nat.zero_add]
    exact Nat.le_refl _
  | cons pair written ih =>
    obtain ⟨name, value⟩ := pair
    rw [restoreAttributes] at h
    split at h
    · exact ih h
    · obtain ⟨⟨restored, lifted'⟩, hv, h⟩ := bind_eq_ok h
      obtain ⟨⟨others, rest'⟩, hr, h⟩ := bind_eq_ok h
      cases h
      have hvalue := restoreValue_counts hv n
      have hothers := ih hr
      rw [numbersOfAttributes, List.count_append]
      omega

/-- A step adds only numbers that it takes from the counter. -/
def Counts (a a' : Assembly) : Prop :=
  a.next ≤ a'.next ∧ ∀ n, a'.numbers.count n ≤ a.numbers.count n + handedOut a.next a'.next n

theorem Counts.of_le {a a' : Assembly} (hn : a'.next = a.next)
    (h : ∀ n, a'.numbers.count n ≤ a.numbers.count n) : Counts a a' :=
  ⟨Nat.le_of_eq hn.symm, fun n => Nat.le_trans (h n) (Nat.le_add_right ..)⟩

theorem Counts.trans {a a' a'' : Assembly} (h : Counts a a') (h' : Counts a' a'') :
    Counts a a'' := by
  refine ⟨Nat.le_trans h.1 h'.1, fun n => ?_⟩
  have := h.2 n
  have := h'.2 n
  have := handedOut_add h.1 h'.1 n
  omega

theorem addText_counts {a a' : Assembly} {chars : List Char} (h : a.addText chars = .ok a') :
    Counts a a' := by
  obtain ⟨⟨statements, rest⟩, hr, h⟩ := bind_eq_ok h
  cases h
  refine .of_le (next_foldl_add ..) fun n => ?_
  have hrestored := restore_counts hr n
  rw [count_numbers_foldl_add, count_numbers, count_numbers]
  dsimp only
  omega

theorem addComment_counts {a a' : Assembly} {value : List Char}
    (h : a.addComment value = .ok a') : Counts a a' := by
  rw [addComment] at h
  split at h
  · cases h
    refine .of_le (next_add ..) fun n => ?_
    have hadded := count_numbers_add a (.markupComment (String.ofList value)) n
    rw [Statement.numbers, List.count_nil] at hadded
    omega
  · split at h
    · next ht =>
      cases h
      refine .of_le (next_add ..) fun n => ?_
      have htake := Lifted.count_numbers_take ht n
      rw [count_numbers_add, count_numbers, count_numbers, Statement.numbers, List.count_nil]
      dsimp only
      omega
    · cases h

theorem openBlock_counts {a a' : Assembly} {index : Option Nat} {line : Nat}
    (h : a.openBlock index line = .ok a') : Counts a a' := by
  rw [openBlock] at h
  split at h
  · next head rest ht =>
    cases h
    obtain ⟨index, -, ht⟩ := Option.map_eq_some_iff.1 ht
    refine .of_le rfl fun n => ?_
    have htake := Lifted.count_numbers_take ht n
    rw [count_numbers_push, count_numbers, count_numbers]
    simp only [Frame.numbers, numbersOfBranches, numbersOfAll, List.flatMap_nil, List.append_nil]
    simp only [Lifted.numbersOf, Placeholder.numbers] at htake
    omega
  · cases h

theorem switch_counts {a a' : Assembly} {branch : Branch} {line : Nat}
    (h : a.switch branch line = .ok a') : Counts a a' := by
  rw [switch] at h
  split at h
  · next hs =>
    cases h
    refine .of_le rfl fun n => ?_
    rw [count_numbers, count_numbers, hs]
    simp only [List.flatMap_cons, Frame.numbers, numbersOfBranches, numbersOfAll, List.append_nil,
      List.count_append, count_numbersOfAll_reverse]
    omega
  · cases h
  · cases h

/-! ### Closing a block -/

/-- The numbers of folded branches, those of the tags that wait among them. -/
def Folded.numbers (f : Folded) : List Nat :=
  numbersOfAll f.program ++ (numbersOfInverse f.inverse ++ f.lifted.numbers)

theorem numbersOfInverse_some (body : Body) :
    numbersOfInverse (some body) = Statement.numbersOfBody body := rfl

theorem numbersOfInverse_none : numbersOfInverse none = [] := rfl

theorem foldBranch_counts {name : String} {f f' : Folded} {branch : Branch × List Statement}
    (h : foldBranch name f branch = .ok f') :
    f.next ≤ f'.next ∧ ∀ n, f'.numbers.count n ≤
      f.numbers.count n + (numbersOfAll branch.2).count n + handedOut f.next f'.next n := by
  obtain ⟨kind, body⟩ := branch
  cases kind with
  | program =>
    cases h
    refine ⟨Nat.le_refl _, fun n => ?_⟩
    simp only [Folded.numbers, List.count_append]
    omega
  | otherwise =>
    rw [foldBranch] at h
    split at h
    · cases h
    · cases h
      refine ⟨Nat.le_succ _, fun n => ?_⟩
      simp only [Folded.numbers, numbersOfInverse_some, Statement.numbersOfBody,
        List.count_append, count_cons_next]
      omega
  | elseIf index =>
    rw [foldBranch] at h
    split at h
    · next head rest ht =>
      cases h
      refine ⟨Nat.le_add_right .., fun n => ?_⟩
      have htake := Lifted.count_numbers_take ht n
      simp only [Lifted.numbersOf, Placeholder.numbers] at htake
      have hadd : handedOut f.next (f.next + 1) n + handedOut (f.next + 1) (f.next + 1 + 1) n =
          handedOut f.next (f.next + 2) n :=
        handedOut_add (Nat.le_succ _) (Nat.le_succ _) n
      simp only [Folded.numbers, numbersOfInverse_some, Statement.numbersOfBody, numbersOfAll,
        Statement.numbers_block, List.count_append, count_cons_next, List.count_nil]
      omega
    · cases h

theorem foldBranches_counts {name : String} {f f' : Folded}
    {branches : List (Branch × List Statement)}
    (h : branches.foldlM (foldBranch name) f = .ok f') :
    f.next ≤ f'.next ∧ ∀ n, f'.numbers.count n ≤
      f.numbers.count n + (numbersOfBranches branches).count n + handedOut f.next f'.next n := by
  induction branches generalizing f with
  | nil =>
    cases h
    refine ⟨Nat.le_refl _, fun n => ?_⟩
    rw [Nat.add_assoc]
    exact Nat.le_add_right ..
  | cons branch branches ih =>
    rw [List.foldlM_cons] at h
    obtain ⟨f₁, hf, h⟩ := bind_eq_ok h
    obtain ⟨hle, hc⟩ := foldBranch_counts hf
    obtain ⟨hle', hc'⟩ := ih h
    refine ⟨Nat.le_trans hle hle', fun n => ?_⟩
    have := hc n
    have := hc' n
    have := handedOut_add hle hle' n
    simp only [numbersOfBranches, List.flatMap_cons, List.count_append] at *
    omega

theorem closeBlock_counts {a a' : Assembly} {head : BlockHead}
    {branches : List (Branch × List Statement)} (h : a.closeBlock head branches = .ok a') :
    a.next ≤ a'.next ∧ ∀ n, a'.numbers.count n ≤ a.numbers.count n + head.numbers.count n +
      (numbersOfBranches branches).count n + handedOut a.next a'.next n := by
  obtain ⟨f, hf, h⟩ := bind_eq_ok h
  cases h
  obtain ⟨hle, hc⟩ := foldBranches_counts hf
  rw [next_add]
  refine ⟨Nat.le_succ_of_le hle, fun n => ?_⟩
  have hfold := hc n
  have hadd : handedOut a.next f.next n + handedOut f.next (f.next + 1) n =
      handedOut a.next (f.next + 1) n :=
    handedOut_add hle (Nat.le_succ _) n
  simp only [Folded.numbers, List.count_append] at hfold
  simp only [numbersOfAll, numbersOfInverse_none, List.count_nil] at hfold
  rw [count_numbers_add, count_numbers, count_numbers, Statement.numbers_block]
  simp only [Statement.numbersOfBody, List.count_append, count_cons_next]
  omega

/-! ### Tokens -/

theorem startTag_counts {a a' : Assembly} {tag : Markup.StartTag} {line : Nat}
    (h : a.startTag tag line = .ok a') : Counts a a' := by
  rw [startTag] at h
  dsimp only at h
  split at h
  · exact openBlock_counts h
  · split at h
    · split at h <;> exact switch_counts h
    · obtain ⟨⟨attributes, rest⟩, hr, h⟩ := bind_eq_ok h
      dsimp only at h
      split at h
      · cases h
        refine .of_le (next_add ..) fun n => ?_
        have hattributes := restoreAttributes_counts hr n
        rw [count_numbers_add, count_numbers, count_numbers]
        simp only [Statement.numbers, numbersOfAll, List.append_nil]
        omega
      · cases h
        refine .of_le rfl fun n => ?_
        have hattributes := restoreAttributes_counts hr n
        rw [count_numbers_push, count_numbers, count_numbers]
        simp only [Frame.numbers, numbersOfAll, List.append_nil]
        omega

theorem endTag_counts {a a' : Assembly} {name : String} {line : Nat}
    (h : a.endTag name line = .ok a') : Counts a a' := by
  rw [endTag] at h
  split at h
  · split at h
    · next hs =>
      obtain ⟨hle, hc⟩ := closeBlock_counts h
      refine ⟨hle, fun n => ?_⟩
      have hclosed := hc n
      rw [count_numbers a', count_numbers] at hclosed
      rw [count_numbers a', count_numbers a, hs]
      simp only [numbersOfBranches, Frame.numbers, List.flatMap_cons, List.count_append,
        count_numbersOfAll_reverse] at hclosed ⊢
      omega
    · cases h
    · cases h
  · split at h
    · cases h
    · split at h
      · next hs =>
        split at h
        · cases h
          refine .of_le (next_add ..) fun n => ?_
          rw [count_numbers_add, count_numbers, count_numbers, hs]
          simp only [Statement.numbers, Frame.numbers, List.flatMap_cons, List.count_append,
            count_numbersOfAll_reverse]
          omega
        · cases h
      · cases h
      · cases h

theorem read_counts {a a' : Assembly} {token : Markup.Token} (h : a.read token = .ok a') :
    Counts a a' := by
  cases token with
  | text chars => exact addText_counts h
  | comment value => exact addComment_counts h
  | startTag tag line => exact startTag_counts h
  | endTag name line => exact endTag_counts h

theorem foldlM_read_counts {a a' : Assembly} {tokens : List Markup.Token}
    (h : tokens.foldlM read a = .ok a') : Counts a a' := by
  induction tokens generalizing a with
  | nil =>
    cases h
    exact .of_le rfl fun n => Nat.le_refl _
  | cons token tokens ih =>
    rw [List.foldlM_cons] at h
    obtain ⟨a₁, hr, h⟩ := bind_eq_ok h
    exact (read_counts hr).trans (ih h)

theorem count_numbers_result {a : Assembly} {template : Template} (h : a.result = .ok template)
    (n : Nat) : template.numbers.count n ≤ a.numbers.count n := by
  rw [result] at h
  split at h
  · cases h
  · cases h
  · split at h
    · cases h
      rw [Template.numbers, count_numbersOfAll_reverse, count_numbers]
      exact Nat.le_add_left ..
    · cases h

end Assembly

/-- The state in which the tokens of a source leave the assembly. -/
def Assembly.Ends (source : List Char) (a : Assembly) : Prop :=
  ∃ lifted next, Lifted.ofSource source = .ok (lifted, next) ∧
    (Markup.tokens lifted.markup).foldlM Assembly.read { lifted, next } = .ok a

theorem Template.exists_ends_of_read {source : List Char} {template : Template}
    (h : Template.read source = .ok template) :
    ∃ a, Assembly.Ends source a ∧ ∀ n, template.numbers.count n ≤ handedOut 0 a.next n := by
  obtain ⟨⟨lifted, next⟩, hl, h⟩ := bind_eq_ok h
  obtain ⟨a, hfold, hresult⟩ := bind_eq_ok (mapError_eq_ok h)
  refine ⟨a, ⟨lifted, next, hl, hfold⟩, fun n => ?_⟩
  have hlifted := Lifted.count_numbers_ofSource hl n
  obtain ⟨hle, hcounts⟩ := Assembly.foldlM_read_counts hfold
  have hread := hcounts n
  have hbody := Assembly.count_numbers_result hresult n
  have hadd := handedOut_add (Nat.zero_le next) hle n
  have hstart : Assembly.numbers { lifted, next } = lifted.numbers := List.append_nil _
  rw [hstart] at hread
  dsimp only at hread
  omega

/-- No number occurs twice in a template that was read: not for a path, the name of a block, or a
body. -/
theorem Template.nodup_numbers_of_read {source : List Char} {template : Template}
    (h : Template.read source = .ok template) : template.numbers.Nodup := by
  obtain ⟨a, -, hcounts⟩ := Template.exists_ends_of_read h
  exact List.nodup_iff_count.2 fun n => Nat.le_trans (hcounts n) (handedOut_le_one 0 a.next n)

end MustacheJsx
