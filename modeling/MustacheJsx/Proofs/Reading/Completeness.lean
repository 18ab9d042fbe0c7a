import Mathlib.Data.List.Perm.Basic
import Mathlib.Data.List.Nodup
import MustacheJsx.Proofs.Reading.Stack

/-!
# What reads is read

Tokens that read as statements are assembled, as long as the tags that they carry are there. The
proof follows `Lifted.Reads`: some tokens are settling if every assembly goes past them and has only
statements added (`Lifted.Settling`). A block settles if each of its branches does and only the last
one is an `else`; with any other order its end is refused (`Lifted.SourceBlock.foldlM_read`). So a
template is read if and only if its tokens read as one and carry every tag once:
`Template.exists_read_iff`.
-/

namespace MustacheJsx

open Markup (Token StartTag)

/-! ### Tags that are there -/

/-- The marks differ, and none of them is used. -/
structure Fresh (used marks : List Nat) : Prop where
  nodup : marks.Nodup
  apart : List.Disjoint used marks

namespace Fresh

variable {used xs ys : List Nat}

theorem not_mem {index : Nat} (h : Fresh used (index :: xs)) : index ∉ used :=
  fun hmem => h.apart hmem List.mem_cons_self

theorem left (h : Fresh used (xs ++ ys)) : Fresh used xs :=
  ⟨(List.nodup_append.1 h.nodup).1, (List.disjoint_append_right.1 h.apart).1⟩

theorem right (h : Fresh used (xs ++ ys)) : Fresh (used ++ xs) ys := by
  obtain ⟨-, hys, hne⟩ := List.nodup_append.1 h.nodup
  have hxs : List.Disjoint xs ys := fun index hx hy => hne index hx index hy rfl
  exact ⟨hys, List.disjoint_append_left.2 ⟨(List.disjoint_append_right.1 h.apart).2, hxs⟩⟩

theorem perm (h : Fresh used xs) (hp : xs.Perm ys) : Fresh used ys :=
  ⟨hp.nodup_iff.1 h.nodup, fun _ hu hy => h.apart hu (hp.mem_iff.2 hy)⟩

end Fresh

namespace Lifted

/-- The tags that are not used are there as they have been lifted out. -/
structure Leaves (lifted current : Lifted) (used : List Nat) : Prop where
  marker : current.marker = lifted.marker
  unquoted : current.unquoted = lifted.unquoted
  left : ∀ index, index ∉ used → current.placeholders[index]? = lifted.placeholders[index]?

variable {lifted current : Lifted} {used : List Nat}

theorem Leaves.refl (lifted : Lifted) : lifted.Leaves lifted [] :=
  ⟨rfl, rfl, fun _ _ => rfl⟩

theorem Leaves.mono (h : lifted.Leaves current used) {more : List Nat} (hs : used ⊆ more) :
    lifted.Leaves current more :=
  ⟨h.marker, h.unquoted, fun index hindex => h.left index fun hmem => hindex (hs hmem)⟩

theorem Leaves.take (h : lifted.Leaves current used) {index : Nat} {placeholder : Placeholder}
    (hk : lifted.Keeps index placeholder) (hfresh : index ∉ used) :
    ∃ rest, current.take index = (some placeholder, rest) ∧
      lifted.Leaves rest (used ++ [index]) := by
  have hthere : current.placeholders[index]? = some (some placeholder) :=
    (h.left index hfresh).trans hk
  refine ⟨{ current with placeholders := current.placeholders.set index none }, ?_, h.marker,
    h.unquoted, fun other hother => ?_⟩
  · rw [Lifted.take, hthere]
  · rw [List.mem_append, List.mem_singleton, not_or] at hother
    rw [List.getElem?_set_ne (Ne.symm hother.2)]
    exact h.left other hother.1

/-! ### Text and attributes -/

theorem restore_cons_of_restorePiece {middle rest : Lifted} {piece : Piece} {pieces : List Piece}
    {statement : Statement} {statements : List Statement}
    (hp : Assembly.restorePiece current piece = .ok (statement, middle))
    (hr : Assembly.restore middle pieces = .ok (statements, rest)) :
    Assembly.restore current (piece :: pieces) = .ok (statement :: statements, rest) := by
  rw [Assembly.restore_cons, hp, ok_bind]
  dsimp only
  rw [hr]
  rfl

/-- A placeholder of a text is restored if its tag is there. -/
theorem Leaves.restore_cons (hl : lifted.Leaves current used) {index : Nat}
    {placeholder : Placeholder} (hk : lifted.Keeps index placeholder) {statement : Statement}
    (hp : ∀ rest, current.take index = (some placeholder, rest) →
      Assembly.restorePiece current (.hole (some index)) = .ok (statement, rest))
    {pieces : List Piece} {statements : List Statement}
    (hf : Fresh used ((Piece.hole (some index) :: pieces).filterMap Piece.mark?))
    (ih : ∀ {middle : Lifted} {more : List Nat}, lifted.Leaves middle more →
      Fresh more (pieces.filterMap Piece.mark?) →
      ∃ rest, Assembly.restore middle pieces = .ok (statements, rest) ∧
        lifted.Leaves rest (more ++ pieces.filterMap Piece.mark?)) :
    ∃ rest, Assembly.restore current (.hole (some index) :: pieces) =
        .ok (statement :: statements, rest) ∧
      lifted.Leaves rest (used ++ (Piece.hole (some index) :: pieces).filterMap Piece.mark?) := by
  have hmarks : (Piece.hole (some index) :: pieces).filterMap Piece.mark? =
      [index] ++ pieces.filterMap Piece.mark? := rfl
  rw [hmarks] at hf ⊢
  obtain ⟨middle, ht, hmiddle⟩ := hl.take hk (Fresh.not_mem hf)
  obtain ⟨rest, hr, hrest⟩ := ih hmiddle hf.right
  exact ⟨rest, restore_cons_of_restorePiece (hp middle ht) hr, by rwa [← List.append_assoc]⟩

theorem Restores.restore {pieces : List Piece} {statements : List Statement}
    (h : lifted.Restores pieces statements) (hl : lifted.Leaves current used)
    (hf : Fresh used (pieces.filterMap Piece.mark?)) :
    ∃ rest, Assembly.restore current pieces = .ok (statements, rest) ∧
      lifted.Leaves rest (used ++ pieces.filterMap Piece.mark?) := by
  induction h generalizing current used with
  | nil => exact ⟨current, rfl, by simpa using hl⟩
  | text _ ih =>
    obtain ⟨rest, hr, hrest⟩ := ih hl hf
    exact ⟨rest, restore_cons_of_restorePiece rfl hr, hrest⟩
  | mustache hk _ ih =>
    refine hl.restore_cons hk (fun rest ht => ?_) hf ih
    rw [Assembly.restorePiece, ht]
  | partialCall hk _ ih =>
    refine hl.restore_cons hk (fun rest ht => ?_) hf ih
    rw [Assembly.restorePiece, ht]

theorem mixedValue_of_text (hl : lifted.Leaves current used) {value : List Char}
    (h : ∀ index, .hole index ∉ Piece.split lifted.marker value) :
    Assembly.mixedValue current value = .ok (.text (String.ofList value), current) := by
  rw [Assembly.mixedValue, hl.marker]
  dsimp only
  split
  · next hany =>
    obtain ⟨piece, hmem, hpiece⟩ := List.any_eq_true.1 hany
    cases piece with
    | text chars => cases hpiece
    | hole index => exact absurd hmem (h index)
  · rfl

theorem mixedValue_of_restores (hl : lifted.Leaves current used) {value : List Char}
    {index : Option Nat} (hhole : .hole index ∈ Piece.split lifted.marker value)
    {parts : List Statement} (h : lifted.Restores (Piece.split lifted.marker value) parts)
    (hf : Fresh used (marksOf lifted.marker value)) :
    ∃ rest, Assembly.mixedValue current value = .ok (.concat parts, rest) ∧
      lifted.Leaves rest (used ++ marksOf lifted.marker value) := by
  obtain ⟨rest, hr, hrest⟩ := h.restore hl hf
  refine ⟨rest, ?_, hrest⟩
  rw [Assembly.mixedValue, hl.marker]
  dsimp only
  rw [if_pos (List.any_eq_true.2 ⟨_, hhole, rfl⟩), hr]
  rfl

theorem RestoresValue.restoreValue {value : List Char} {found : AttributeValue}
    (h : lifted.RestoresValue value found) (hl : lifted.Leaves current used)
    (hf : Fresh used (marksOf lifted.marker value)) :
    ∃ rest, Assembly.restoreValue current value = .ok (found, rest) ∧
      lifted.Leaves rest (used ++ marksOf lifted.marker value) := by
  rw [Assembly.restoreValue, hl.marker]
  cases h with
  | text hnone =>
    have hwhole : Piece.whole? lifted.marker value = none := by
      cases hwhole : Piece.whole? lifted.marker value with
      | none => rfl
      | some index =>
        have hsplit := Piece.split_of_whole? hwhole
        exact absurd (hsplit ▸ List.mem_singleton.2 rfl) (hnone (some index))
    rw [hwhole]
    exact ⟨current, mixedValue_of_text hl hnone, hl.mono (List.subset_append_left ..)⟩
  | @mustache index m hlone hk =>
    rw [marksOf_of_whole? hlone.1] at hf ⊢
    obtain ⟨rest, ht, hrest⟩ := hl.take hk (Fresh.not_mem hf)
    refine ⟨rest, ?_, hrest⟩
    rw [hlone.1]
    dsimp only
    rw [if_pos (by rw [hl.unquoted]; exact List.contains_iff_mem.2 hlone.2), ht]
  | concat hhole hlone hparts =>
    obtain ⟨rest, hm, hrest⟩ := mixedValue_of_restores hl hhole hparts hf
    refine ⟨rest, ?_, hrest⟩
    split
    · exact hm
    · next index hwhole =>
      rw [if_neg (fun hc => hlone index ⟨hwhole, ?_⟩), hm]
      rw [hl.unquoted] at hc
      exact List.contains_iff_mem.1 hc

theorem restoreAttributes_of_forall₂ {spellings : List (List Char)}
    {entries : List (String × String)} {attributes : List Attribute}
    (h : List.Forall₂ (lifted.RestoresAttribute spellings) (entries.filter isOwn) attributes)
    (hl : lifted.Leaves current used)
    (hf : Fresh used ((entries.filter isOwn).flatMap fun entry =>
      marksOf lifted.marker entry.2.toList)) :
    ∃ rest, Assembly.restoreAttributes spellings current entries = .ok (attributes, rest) ∧
      lifted.Leaves rest (used ++ (entries.filter isOwn).flatMap fun entry =>
        marksOf lifted.marker entry.2.toList) := by
  induction entries generalizing current used attributes with
  | nil =>
    cases h
    exact ⟨current, rfl, by simpa using hl⟩
  | cons entry entries ih =>
    obtain ⟨name, value⟩ := entry
    rw [Assembly.restoreAttributes]
    by_cases hname : name = tagSpelling ∨ name = attributeSpellings
    · rw [if_pos hname]
      rw [List.filter_cons_of_neg (by simpa [isOwn, or_iff_not_imp_left] using hname)] at h hf ⊢
      exact ih h hl hf
    · rw [if_neg hname]
      rw [List.filter_cons_of_pos (by simpa [isOwn] using hname)] at h hf ⊢
      rw [List.flatMap_cons] at hf ⊢
      cases h with
      | @cons _ found _ others hentry hothers =>
        obtain ⟨foundName, foundValue⟩ := found
        obtain ⟨rfl, hvalue⟩ : foundName = Assembly.spellingOf spellings name ∧
            lifted.RestoresValue value.toList foundValue := hentry
        obtain ⟨middle, hv, hmiddle⟩ := hvalue.restoreValue hl hf.left
        obtain ⟨rest, hr, hrest⟩ := ih hothers hmiddle hf.right
        refine ⟨rest, ?_, by rwa [← List.append_assoc]⟩
        rw [hv, ok_bind]
        dsimp only
        rw [hr]
        rfl

/-! ### Tokens that settle -/

def marks (lifted : Lifted) (tokens : List Token) : List Nat :=
  tokens.flatMap (Token.marks lifted.marker)

theorem marks_cons (token : Token) (tokens : List Token) :
    lifted.marks (token :: tokens) = Token.marks lifted.marker token ++ lifted.marks tokens := rfl

theorem marks_append (xs ys : List Token) :
    lifted.marks (xs ++ ys) = lifted.marks xs ++ lifted.marks ys := List.flatMap_append

/-- Every assembly goes past the tokens if their tags are there, and has statements added that they
read as. -/
def Settling (lifted : Lifted) (tokens : List Token) : Prop :=
  ∀ (a : Assembly) used, lifted.Leaves a.lifted used → Fresh used (lifted.marks tokens) →
    ∃ found current next,
      tokens.foldlM Assembly.read a =
        .ok (found.foldl Assembly.add { a with lifted := current, next }) ∧
      lifted.Reads tokens found ∧ lifted.Leaves current (used ++ lifted.marks tokens)

theorem settling_nil : lifted.Settling [] := by
  intro a used hl _
  exact ⟨[], a.lifted, a.next, rfl, .nil, hl.mono (List.subset_append_left ..)⟩

theorem Settling.append {xs ys : List Token} (hx : lifted.Settling xs) (hy : lifted.Settling ys) :
    lifted.Settling (xs ++ ys) := by
  intro a used hl hf
  rw [marks_append] at hf
  obtain ⟨first, middle, next, hfirst, hreads, hmiddle⟩ := hx a used hl hf.left
  obtain ⟨second, current, next', hsecond, hreads', hcurrent⟩ :=
    hy (first.foldl Assembly.add { a with lifted := middle, next }) _
      (by rwa [Assembly.lifted_foldl_add]) hf.right
  refine ⟨first ++ second, current, next', ?_, hreads.append hreads', ?_⟩
  · rw [List.foldlM_append, hfirst, ok_bind, hsecond, List.foldl_append,
      Assembly.foldl_add_resume a middle, Assembly.foldl_add_resume a current]
  · rwa [marks_append, ← List.append_assoc]

/-- Inside a frame the statements are added to the frame. -/
theorem Settling.foldlM_read {tokens : List Token} (h : lifted.Settling tokens) {a : Assembly}
    {frame : Frame} {stack : List Frame} (hs : a.stack = frame :: stack)
    (hl : lifted.Leaves a.lifted used) (hf : Fresh used (lifted.marks tokens)) :
    ∃ found current next,
      tokens.foldlM Assembly.read a =
        .ok { a with lifted := current, next, stack := frame.extend found :: stack } ∧
      lifted.Reads tokens found ∧ lifted.Leaves current (used ++ lifted.marks tokens) := by
  obtain ⟨found, current, next, hread, hreads, hcurrent⟩ := h a used hl hf
  rw [Assembly.foldl_add_cons (a := { a with lifted := current, next }) hs] at hread
  exact ⟨found, current, next, hread, hreads, hcurrent⟩

/-- A token that is a statement, or statements, by itself. -/
theorem settling_singleton {token : Token} {found : List Statement}
    (hreads : lifted.Reads [token] found)
    (h : ∀ (a : Assembly) used, lifted.Leaves a.lifted used →
      Fresh used (Token.marks lifted.marker token) →
      ∃ current, a.read token = .ok (found.foldl Assembly.add { a with lifted := current }) ∧
        lifted.Leaves current (used ++ Token.marks lifted.marker token)) :
    lifted.Settling [token] := by
  intro a used hl hf
  have hmarks : lifted.marks [token] = Token.marks lifted.marker token := List.flatMap_singleton ..
  rw [hmarks] at hf ⊢
  obtain ⟨current, hread, hcurrent⟩ := h a used hl hf
  refine ⟨found, current, a.next, ?_, hreads, hcurrent⟩
  rw [List.foldlM_cons, hread]
  rfl

theorem settling_text {chars : List Char} {restored : List Statement}
    (h : lifted.Restores (Piece.split lifted.marker chars) restored) :
    lifted.Settling [.text chars] := by
  have hreads := Reads.text h .nil
  rw [List.append_nil] at hreads
  refine settling_singleton hreads fun a used hl hf => ?_
  obtain ⟨current, hr, hcurrent⟩ := h.restore hl hf
  refine ⟨current, ?_, hcurrent⟩
  rw [Assembly.read, Assembly.addText, hl.marker, hr]
  rfl

theorem settling_markupComment {value : List Char}
    (h : Piece.whole? lifted.marker value = none) : lifted.Settling [.comment value] := by
  refine settling_singleton (.markupComment h .nil) fun a used hl _ => ?_
  refine ⟨a.lifted, ?_, hl.mono (List.subset_append_left ..)⟩
  rw [Assembly.read, Assembly.addComment, hl.marker, h]
  rfl

theorem settling_mustacheComment {value : List Char} {index : Nat} {comment : String}
    (h : Piece.whole? lifted.marker value = some index)
    (hk : lifted.Keeps index (.comment comment)) : lifted.Settling [.comment value] := by
  refine settling_singleton (.mustacheComment h hk .nil) fun a used hl hf => ?_
  rw [Token.marks, h, Option.toList_some] at hf ⊢
  obtain ⟨current, ht, hcurrent⟩ := hl.take hk (Fresh.not_mem hf)
  refine ⟨current, ?_, hcurrent⟩
  rw [Assembly.read, Assembly.addComment, hl.marker, h]
  dsimp only
  rw [ht]
  rfl

/-! ### Elements -/

theorem marks_startTag {tag : StartTag} (he : IsElement tag) (line : Nat) :
    Token.marks lifted.marker (.startTag tag line) =
      (ownAttributes tag).flatMap fun entry => marksOf lifted.marker entry.2.toList := by
  rw [Token.marks, if_neg (not_or.2 he)]

/-- The start tag of an element adds the element, or opens it. -/
theorem RestoresAttributes.startTag {tag : StartTag} {attributes : List Attribute}
    (h : lifted.RestoresAttributes tag attributes) (he : IsElement tag) (line : Nat)
    {a : Assembly} (hl : lifted.Leaves a.lifted used)
    (hf : Fresh used (Token.marks lifted.marker (.startTag tag line))) :
    ∃ current, a.read (.startTag tag line) =
        .ok (if isLeaf tag then
          Assembly.add { a with lifted := current }
            (.element (writtenName tag) attributes [] tag.selfClosing)
        else { a with
          lifted := current
          stack := .element tag.name (writtenName tag) attributes [] :: a.stack }) ∧
      lifted.Leaves current (used ++ Token.marks lifted.marker (.startTag tag line)) := by
  rw [marks_startTag he] at hf ⊢
  obtain ⟨current, hr, hcurrent⟩ := restoreAttributes_of_forall₂ h hl hf
  refine ⟨current, ?_, hcurrent⟩
  rw [Assembly.read, Assembly.startTag]
  dsimp only
  rw [if_neg he.1, if_neg he.2]
  rw [writtenSpellings] at hr
  rw [hr, ok_bind, isLeaf, writtenName]
  dsimp only
  split <;> rfl

theorem settling_leaf {tag : StartTag} {line : Nat} {attributes : List Attribute}
    (he : IsElement tag) (hleaf : isLeaf tag = true)
    (h : lifted.RestoresAttributes tag attributes) : lifted.Settling [.startTag tag line] := by
  refine settling_singleton (.leaf he hleaf h .nil) fun a used hl hf => ?_
  obtain ⟨current, hread, hcurrent⟩ := h.startTag he line hl hf
  rw [if_pos hleaf] at hread
  exact ⟨current, hread, hcurrent⟩

theorem read_endTag {a : Assembly} {tag : StartTag} (he : IsElement tag)
    (hleaf : isLeaf tag = false) {written : String} {attributes : List Attribute}
    {children : List Statement} {stack : List Frame}
    (hs : a.stack = .element tag.name written attributes children :: stack) (line : Nat) :
    a.read (.endTag tag.name line) =
      .ok ({ a with stack }.add (.element written attributes children.reverse false)) := by
  have hvoid : ¬Markup.isVoid tag.name = true := by
    rw [(Bool.or_eq_false_iff.1 hleaf).2]
    exact Bool.false_ne_true
  rw [Assembly.read, Assembly.endTag, if_neg he.1, if_neg hvoid, hs]
  dsimp only
  rw [if_pos rfl]

theorem settling_element {tag : StartTag} {line line' : Nat} {attributes : List Attribute}
    {inner : List Token} (he : IsElement tag) (hleaf : isLeaf tag = false)
    (h : lifted.RestoresAttributes tag attributes) (hi : lifted.Settling inner) :
    lifted.Settling (.startTag tag line :: (inner ++ [.endTag tag.name line'])) := by
  intro a used hl hf
  have hmarks : lifted.marks (.startTag tag line :: (inner ++ [.endTag tag.name line'])) =
      Token.marks lifted.marker (.startTag tag line) ++ lifted.marks inner := by
    rw [marks_cons, marks_append]
    exact congrArg _ (List.append_nil _)
  rw [hmarks] at hf ⊢
  obtain ⟨middle, hread, hmiddle⟩ := h.startTag he line hl hf.left
  rw [hleaf, if_neg Bool.false_ne_true] at hread
  obtain ⟨children, current, next, hinner, hreads, hcurrent⟩ :=
    hi.foldlM_read (a := { a with
      lifted := middle
      stack := .element tag.name (writtenName tag) attributes [] :: a.stack }) rfl hmiddle hf.right
  refine ⟨[.element (writtenName tag) attributes children false], current, next, ?_,
    .element he hleaf h hreads .nil, by rwa [← List.append_assoc]⟩
  rw [List.foldlM_cons, hread, ok_bind, List.foldlM_append, hinner, ok_bind, List.foldlM_cons,
    read_endTag he hleaf rfl, List.append_nil, List.reverse_reverse]
  rfl

/-! ### Blocks -/

/-- What the marker of an `else` stands for: nothing more, or the head of a chained block. -/
inductive StandsFor (lifted : Lifted) (tag : StartTag) : Option BlockHead → Prop where
  | otherwise : number? tag = none → StandsFor lifted tag none
  | elseIf {index head} : number? tag = some index → lifted.Keeps index (.elseIf head) →
      StandsFor lifted tag (some head)

/-- A branch of a block after its program: the marker of an `else`, and the tokens of its body. -/
structure Arm (lifted : Lifted) where
  tag : StartTag
  line : Nat
  /-- The head of an `else if`. -/
  head : Option BlockHead
  inner : List Token
  isElse : tag.name = elseTag
  standsFor : lifted.StandsFor tag head

namespace Arm

def tokens (arm : Arm lifted) : List Token := .startTag arm.tag arm.line :: arm.inner

/-- The tags that a branch carries but for its marker. -/
def innerMarks (arm : Arm lifted) : List Nat := lifted.marks arm.inner

def pending (arm : Arm lifted) : List Nat := (number? arm.tag).toList

theorem marks_tokens (arm : Arm lifted) :
    lifted.marks arm.tokens = arm.pending ++ arm.innerMarks := by
  rw [tokens, marks_cons, Token.marks, if_pos (.inr arm.isElse), pending, innerMarks]

theorem marks_perm (arms : List (Arm lifted)) :
    (lifted.marks (arms.flatMap tokens)).Perm
      (arms.flatMap innerMarks ++ arms.flatMap pending) := by
  rw [marks, List.flatMap_assoc]
  refine (List.Perm.of_eq ?_).trans
    ((List.flatMap_append_perm arms pending innerMarks).symm.trans List.perm_append_comm)
  exact List.flatMap_congr fun arm _ => arm.marks_tokens

end Arm

/-- There is at most one `else`, and it comes last. -/
def ElseLast (arms : List (Arm lifted)) : Prop := ∀ arm ∈ arms.dropLast, arm.head ≠ none

theorem elseLast_nil : ElseLast ([] : List (Arm lifted)) := List.forall_mem_nil _

theorem elseLast_cons (arm : Arm lifted) (arms : List (Arm lifted)) :
    ElseLast (arm :: arms) ↔ (arm.head = none → arms = []) ∧ ElseLast arms := by
  cases arms with
  | nil => simp [ElseLast]
  | cons next arms =>
    rw [ElseLast, List.dropLast_cons_cons, List.forall_mem_cons]
    simp [ElseLast]

/-- A branch and what the assembly holds of it. -/
def Arm.Holds (arm : Arm lifted) (entry : Branch × List Statement) : Prop :=
  entry.1 = Assembly.branchOf arm.tag ∧ lifted.Reads arm.inner entry.2

theorem read_elseTag {tag : StartTag} (htag : tag.name = elseTag) (line : Nat) (a : Assembly) :
    a.read (.startTag tag line) = a.switch (Assembly.branchOf tag) line := by
  have hblock : tag.name ≠ blockTag := by
    rw [htag]
    decide
  rw [Assembly.read, Assembly.startTag, Assembly.branchOf, number?]
  dsimp only
  rw [if_neg hblock, if_pos htag]
  cases (tag.attribute? numberAttribute).bind fun value => signedIndex? value.toList with
  | none => rfl
  | some index => rfl

/-- The branches of a block are read one after another, in whatever order they stand. -/
theorem foldlM_read_arms {arms : List (Arm lifted)}
    (hsettling : ∀ arm ∈ arms, lifted.Settling arm.inner) {a : Assembly} {head : BlockHead}
    {closed : List (Branch × List Statement)} {branch : Branch} {body : List Statement}
    {stack : List Frame} (hs : a.stack = .block head closed branch body :: stack)
    (hl : lifted.Leaves a.lifted used) (hf : Fresh used (arms.flatMap Arm.innerMarks)) :
    ∃ entries closed' branch' body' current next,
      (arms.flatMap Arm.tokens).foldlM Assembly.read a = .ok { a with
        lifted := current, next, stack := .block head closed' branch' body' :: stack } ∧
      (branch', body'.reverse) :: closed' =
        entries.reverse ++ (branch, body.reverse) :: closed ∧
      List.Forall₂ Arm.Holds arms entries ∧
      lifted.Leaves current (used ++ arms.flatMap Arm.innerMarks) := by
  induction arms generalizing a closed branch body used with
  | nil =>
    refine ⟨[], closed, branch, body, a.lifted, a.next, ?_, rfl, .nil,
      hl.mono (List.subset_append_left ..)⟩
    rw [← hs]
    rfl
  | cons arm arms ih =>
    rw [List.flatMap_cons] at hf
    have hswitch : a.read (.startTag arm.tag arm.line) = .ok { a with
        stack := .block head ((branch, body.reverse) :: closed) (Assembly.branchOf arm.tag) [] ::
          stack } := by
      rw [read_elseTag arm.isElse, Assembly.switch, hs]
    obtain ⟨found, middle, next, hinner, hreads, hmiddle⟩ :=
      (hsettling arm List.mem_cons_self).foldlM_read (a := { a with
        stack := .block head ((branch, body.reverse) :: closed) (Assembly.branchOf arm.tag) [] ::
          stack }) rfl hl hf.left
    obtain ⟨entries, closed', branch', body', current, next', hread, hlist, hall, hcurrent⟩ :=
      ih (a := { a with
          lifted := middle, next,
          stack := (Frame.block head ((branch, body.reverse) :: closed)
            (Assembly.branchOf arm.tag) []).extend found :: stack })
        (fun other hother => hsettling other (List.mem_cons_of_mem _ hother)) rfl hmiddle hf.right
    refine ⟨(Assembly.branchOf arm.tag, found) :: entries, closed', branch', body', current, next',
      ?_, ?_, .cons ⟨rfl, hreads⟩ hall, ?_⟩
    · rw [List.flatMap_cons, Arm.tokens, List.foldlM_append, List.foldlM_cons, hswitch, ok_bind,
        hinner, ok_bind]
      exact hread
    · rw [hlist]
      simp
    · rwa [List.flatMap_cons, ← List.append_assoc]

/-! ### Folding the branches -/

/-- What the branches of a block after its program become. -/
inductive Inverts (lifted : Lifted) : List (Arm lifted) → Option Body → Prop where
  | none : Inverts lifted [] none
  | otherwise {arm id body} : arm.head = .none → lifted.Reads arm.inner body →
      Inverts lifted [arm] (some (.mk id body))
  | elseIf {arm head arms id id' body inverse} : arm.head = some head →
      lifted.Reads arm.inner body → Inverts lifted arms inverse →
      Inverts lifted (arm :: arms) (some (.mk id' [.block head (.mk id body) inverse]))

theorem Inverts.readsInverse {arms : List (Arm lifted)} {inverse : Option Body}
    (h : lifted.Inverts arms inverse) :
    lifted.ReadsInverse (arms.flatMap Arm.tokens) inverse := by
  induction h with
  | none => exact .none
  | @otherwise arm id body hhead hreads =>
    rw [List.flatMap_singleton]
    obtain ⟨tag, line, head, inner, htag, hstands⟩ := arm
    cases hhead
    cases hstands with
    | otherwise hn => exact .otherwise htag hn hreads
  | @elseIf arm head arms id id' body inverse hhead hreads _ ih =>
    rw [List.flatMap_cons]
    obtain ⟨tag, line, found, inner, htag, hstands⟩ := arm
    cases hhead
    cases hstands with
    | elseIf hn hk => exact .elseIf htag hn hk hreads ih

theorem Inverts.eq_nil {arms : List (Arm lifted)} (h : lifted.Inverts arms Option.none) :
    arms = [] := by
  cases h
  rfl

/-- A branch is folded before those that follow it; an `else` has none after it. -/
theorem foldBranch_arm (name : String) (arm : Arm lifted) {body : List Statement}
    (hreads : lifted.Reads arm.inner body) {arms : List (Arm lifted)} {f : Assembly.Folded}
    (hinverts : lifted.Inverts arms f.inverse) (hl : lifted.Leaves f.lifted used)
    (hf : Fresh used arm.pending) :
    ((arm.head = none → arms = []) → ∃ inverse current next,
      Assembly.foldBranch name f (Assembly.branchOf arm.tag, body) =
        .ok { f with inverse, lifted := current, next } ∧
      lifted.Inverts (arm :: arms) inverse ∧ lifted.Leaves current (used ++ arm.pending)) ∧
    (¬(arm.head = none → arms = []) →
      Assembly.foldBranch name f (Assembly.branchOf arm.tag, body) =
        .error (.repeatedElse name)) := by
  obtain ⟨tag, line, head, inner, htag, hstands⟩ := arm
  cases hstands with
  | otherwise hn =>
    have hbranch : Assembly.branchOf tag = .otherwise := by rw [Assembly.branchOf, hn]
    dsimp only
    rw [hbranch, Assembly.foldBranch.eq_def]
    dsimp only
    cases hinverse : f.inverse with
    | none =>
      rw [hinverse] at hinverts
      have hnil := hinverts.eq_nil
      subst hnil
      exact ⟨fun _ => ⟨_, f.lifted, f.next + 1, rfl, .otherwise rfl hreads,
        hl.mono (List.subset_append_left ..)⟩, fun hnot => absurd (fun _ => rfl) hnot⟩
    | some found =>
      refine ⟨fun hlast => ?_, fun _ => rfl⟩
      rw [hlast rfl, hinverse] at hinverts
      cases hinverts
  | @elseIf index head hn hk =>
    have hbranch : Assembly.branchOf tag = .elseIf index := by rw [Assembly.branchOf, hn]
    have hpending : (Arm.mk tag line (some head) inner htag (.elseIf hn hk)).pending = [index] := by
      rw [Arm.pending, hn, Option.toList_some]
    rw [hpending] at hf ⊢
    obtain ⟨current, ht, hcurrent⟩ := hl.take hk hf.not_mem
    dsimp only
    rw [hbranch, Assembly.foldBranch.eq_def]
    dsimp only
    rw [ht]
    exact ⟨fun _ => ⟨_, current, f.next + 2, rfl, .elseIf rfl hreads hinverts, hcurrent⟩,
      fun hnot => absurd (fun hnone => by cases hnone) hnot⟩

/-- Folded from the last one on, branches become an inverse if only the last one is an `else`, and
are refused otherwise. -/
theorem foldlM_foldBranch_arms (name : String) {arms : List (Arm lifted)}
    {entries : List (Branch × List Statement)} (hall : List.Forall₂ Arm.Holds arms entries)
    {f : Assembly.Folded} (hinverse : f.inverse = none) (hl : lifted.Leaves f.lifted used)
    (hf : Fresh used (arms.flatMap Arm.pending)) :
    (ElseLast arms → ∃ inverse current next,
      entries.reverse.foldlM (Assembly.foldBranch name) f =
        .ok { f with inverse, lifted := current, next } ∧
      lifted.Inverts arms inverse ∧
      lifted.Leaves current (used ++ arms.flatMap Arm.pending)) ∧
    (¬ElseLast arms →
      entries.reverse.foldlM (Assembly.foldBranch name) f = .error (.repeatedElse name)) := by
  induction hall generalizing used with
  | nil =>
    refine ⟨fun _ => ⟨none, f.lifted, f.next, ?_, .none, hl.mono (List.subset_append_left ..)⟩,
      fun h => absurd elseLast_nil h⟩
    rw [← hinverse]
    rfl
  | @cons arm entry arms entries hentry _ ih =>
    obtain ⟨branch, body⟩ := entry
    obtain ⟨rfl, hreads⟩ : branch = Assembly.branchOf arm.tag ∧ lifted.Reads arm.inner body :=
      hentry
    rw [List.flatMap_cons] at hf ⊢
    have hfresh := hf.perm List.perm_append_comm
    obtain ⟨hok, herror⟩ := ih hl hfresh.left
    rw [elseLast_cons, List.reverse_cons, List.foldlM_append]
    by_cases hlast : ElseLast arms
    · obtain ⟨inverse, middle, next, hfold, hinverts, hmiddle⟩ := hok hlast
      obtain ⟨hbranch, hrefused⟩ := foldBranch_arm name arm hreads
        (f := { f with inverse, lifted := middle, next }) hinverts hmiddle hfresh.right
      rw [hfold, ok_bind, List.foldlM_cons]
      constructor
      · intro h
        obtain ⟨inverse', current, next', hread, hinverts', hcurrent⟩ := hbranch h.1
        refine ⟨inverse', current, next', ?_, hinverts', hcurrent.mono ?_⟩
        · rw [hread]
          rfl
        · intro index hmem
          simp only [List.mem_append] at hmem ⊢
          tauto
      · intro hnot
        rw [hrefused fun h => hnot ⟨h, hlast⟩]
        rfl
    · rw [herror hlast]
      exact ⟨fun h => absurd h.2 hlast, fun _ => rfl⟩

/-! ### Whole blocks -/

/-- The tokens of a block: its start tag, its program, its other branches, and its end tag. -/
structure SourceBlock (lifted : Lifted) where
  tag : StartTag
  line : Nat
  head : BlockHead
  program : List Token
  arms : List (Arm lifted)
  endLine : Nat
  isBlock : tag.name = blockTag
  opens : ∃ index, number? tag = some index ∧ lifted.Keeps index (.block head)

namespace SourceBlock

def tokens (block : SourceBlock lifted) : List Token :=
  .startTag block.tag block.line ::
    (block.program ++ (block.arms.flatMap Arm.tokens ++ [.endTag blockTag block.endLine]))

/-- Every branch settles. -/
structure BranchesSettle (block : SourceBlock lifted) : Prop where
  program : lifted.Settling block.program
  arms : ∀ arm ∈ block.arms, lifted.Settling arm.inner

/-- A statement that the tokens of a block become. -/
inductive Becomes (block : SourceBlock lifted) : Statement → Prop where
  | intro {id body inverse} : lifted.Reads block.program body →
      lifted.Inverts block.arms inverse →
      Becomes block (.block block.head (.mk id body) inverse)

theorem Becomes.reads {block : SourceBlock lifted} {statement : Statement}
    (h : block.Becomes statement) : lifted.Reads block.tokens [statement] := by
  obtain ⟨index, hn, hk⟩ := block.opens
  cases h with
  | intro hprogram hinverts =>
    exact .block block.isBlock hn hk hprogram hinverts.readsInverse .nil

theorem marks_perm (block : SourceBlock lifted) : (lifted.marks block.tokens).Perm
    ((number? block.tag).toList ++ lifted.marks block.program ++
      block.arms.flatMap Arm.innerMarks ++ block.arms.flatMap Arm.pending) := by
  have hend : lifted.marks [.endTag blockTag block.endLine] = [] := rfl
  rw [tokens, marks_cons, Token.marks, if_pos (.inl block.isBlock), marks_append, marks_append,
    hend, List.append_nil, List.append_assoc, List.append_assoc]
  exact ((Arm.marks_perm block.arms).append_left _).append_left _

theorem foldlM_singleton {ε α β : Type} (f : α → β → Except ε α) (a : α) (b : β) :
    [b].foldlM f a = f a b := by
  rw [List.foldlM_cons]
  cases f a b <;> rfl

theorem read_startTag (block : SourceBlock lifted) {a : Assembly}
    (hl : lifted.Leaves a.lifted used) (hf : Fresh used (number? block.tag).toList) :
    ∃ current, a.read (.startTag block.tag block.line) =
        .ok { a with lifted := current, stack := .block block.head [] .program [] :: a.stack } ∧
      lifted.Leaves current (used ++ (number? block.tag).toList) := by
  obtain ⟨index, hn, hk⟩ := block.opens
  rw [hn, Option.toList_some] at hf ⊢
  obtain ⟨current, ht, hcurrent⟩ := hl.take hk hf.not_mem
  refine ⟨current, ?_, hcurrent⟩
  rw [number?] at hn
  rw [Assembly.read, Assembly.startTag]
  dsimp only
  rw [if_pos block.isBlock, hn, Assembly.openBlock, Option.map_some, ht]
  rfl

/-- A block whose branches settle is read if only its last branch is an `else`, and its end is
refused otherwise. -/
theorem foldlM_read (block : SourceBlock lifted) (h : block.BranchesSettle) {a : Assembly}
    (hl : lifted.Leaves a.lifted used) (hf : Fresh used (lifted.marks block.tokens)) :
    (ElseLast block.arms → ∃ statement current next,
      block.tokens.foldlM Assembly.read a =
        .ok (Assembly.add { a with lifted := current, next } statement) ∧
      block.Becomes statement ∧ lifted.Leaves current (used ++ lifted.marks block.tokens)) ∧
    (¬ElseLast block.arms →
      block.tokens.foldlM Assembly.read a = .error (.repeatedElse block.head.name)) := by
  have hfresh := hf.perm block.marks_perm
  obtain ⟨opened, hstart, hopened⟩ := block.read_startTag hl hfresh.left.left.left
  obtain ⟨body, middle, next, hprogram, hreads, hmiddle⟩ :=
    h.program.foldlM_read (a := { a with
      lifted := opened, stack := .block block.head [] .program [] :: a.stack })
      rfl hopened hfresh.left.left.right
  rw [List.append_assoc] at hmiddle
  obtain ⟨entries, closed, branch, last, later, next', harms, hlist, hall, hlater⟩ :=
    foldlM_read_arms h.arms (a := { a with
        lifted := middle, next,
        stack := (Frame.block block.head [] .program []).extend body :: a.stack })
      rfl hmiddle hfresh.left.right
  rw [List.append_nil, List.reverse_reverse] at hlist
  rw [List.append_assoc] at hlater
  have hread : block.tokens.foldlM Assembly.read a =
      Assembly.closeBlock { a with lifted := later, next := next' } block.head
        (entries.reverse ++ [(.program, body)]) := by
    rw [tokens, List.foldlM_cons, hstart, ok_bind, List.foldlM_append, hprogram, ok_bind,
      List.foldlM_append, harms, ok_bind, foldlM_singleton, Assembly.read, Assembly.endTag,
      if_pos rfl, ← hlist]
  obtain ⟨hok, herror⟩ := foldlM_foldBranch_arms block.head.name hall
    (f := { lifted := later, next := next' }) rfl hlater hfresh.right
  rw [hread, Assembly.closeBlock, List.foldlM_append]
  constructor
  · intro hlast
    obtain ⟨inverse, current, after, hfold, hinverts, hcurrent⟩ := hok hlast
    refine ⟨.block block.head (.mk after body) inverse, current, after + 1, ?_,
      .intro hreads hinverts, ?_⟩
    · rw [hfold]
      rfl
    · refine hcurrent.mono fun index hmem => ?_
      rw [List.append_assoc, List.mem_append] at hmem
      rw [List.mem_append, block.marks_perm.mem_iff]
      exact hmem
  · intro hnot
    rw [herror hnot]
    rfl

theorem settling (block : SourceBlock lifted) (h : block.BranchesSettle)
    (hlast : ElseLast block.arms) : lifted.Settling block.tokens := by
  intro a used hl hf
  obtain ⟨statement, current, next, hread, hbecomes, hcurrent⟩ :=
    (block.foldlM_read h hl hf).1 hlast
  exact ⟨[statement], current, next, hread, hbecomes.reads, hcurrent⟩

end SourceBlock

/-! ### Statements -/

mutual

theorem Reads.settling {tokens : List Token} {statements : List Statement}
    (h : lifted.Reads tokens statements) : lifted.Settling tokens := by
  match h with
  | .nil => exact settling_nil
  | .text hr h => exact (settling_text hr).append h.settling
  | .markupComment hw h => exact (settling_markupComment hw).append h.settling
  | .mustacheComment hw hk h => exact (settling_mustacheComment hw hk).append h.settling
  | .leaf he hleaf ha h => exact (settling_leaf he hleaf ha).append h.settling
  | .element he hleaf ha hi h =>
    rw [List.append_cons, ← List.cons_append]
    exact (settling_element he hleaf ha hi.settling).append h.settling
  | .block ht hn hk hp hi h =>
    obtain ⟨arms, rfl, hlast, harms⟩ := hi.exists_arms
    rw [List.append_cons, ← List.append_assoc, ← List.cons_append]
    exact Settling.append (SourceBlock.settling
      { tag := _, line := _, head := _, program := _, arms, endLine := _, isBlock := ht,
        opens := ⟨_, hn, hk⟩ } ⟨hp.settling, harms⟩ hlast) h.settling

/-- The tokens of an inverse are branches that settle, the last one an `else` at most. -/
theorem ReadsInverse.exists_arms {tokens : List Token} {inverse : Option Body}
    (h : lifted.ReadsInverse tokens inverse) :
    ∃ arms : List (Arm lifted), tokens = arms.flatMap Arm.tokens ∧ ElseLast arms ∧
      ∀ arm ∈ arms, lifted.Settling arm.inner := by
  match h with
  | .none => exact ⟨[], rfl, elseLast_nil, List.forall_mem_nil _⟩
  | @ReadsInverse.otherwise _ tag line inner _ _ ht hn hp =>
    refine ⟨[⟨tag, line, none, inner, ht, .otherwise hn⟩], ?_, ?_, ?_⟩
    · rw [List.flatMap_singleton, Arm.tokens]
    · exact (elseLast_cons _ _).2 ⟨fun _ => rfl, elseLast_nil⟩
    · exact List.forall_mem_cons.2 ⟨hp.settling, List.forall_mem_nil _⟩
  | .elseIf ht hn hk hp hi =>
    obtain ⟨arms, rfl, hlast, harms⟩ := hi.exists_arms
    refine ⟨⟨_, _, some _, _, ht, .elseIf hn hk⟩ :: arms, rfl, ?_, ?_⟩
    · exact (elseLast_cons _ _).2 ⟨fun hnone => absurd hnone (Option.some_ne_none _), hlast⟩
    · exact List.forall_mem_cons.2 ⟨hp.settling, harms⟩

end

end Lifted

/-! ### Templates -/

namespace Template

variable {source : List Char} {lifted : Lifted} {next : Nat}

/-- A template is read if and only if its tokens read as one and carry every tag once. -/
theorem exists_read_iff (hs : Lifted.ofSource source = .ok (lifted, next)) :
    (∃ template, Template.read source = .ok template) ↔
      (∃ template, lifted.Reads (Markup.tokens lifted.markup) template) ∧
        (lifted.marks (Markup.tokens lifted.markup)).Perm
          (List.range lifted.placeholders.length) := by
  constructor
  · rintro ⟨template, hread⟩
    obtain ⟨hreads, hperm⟩ := reads_of_read hs hread
    exact ⟨⟨template, hreads⟩, hperm⟩
  · rintro ⟨⟨template, hreads⟩, hperm⟩
    have hfresh : Fresh [] (lifted.marks (Markup.tokens lifted.markup)) :=
      ⟨hperm.nodup_iff.2 List.nodup_range, List.disjoint_nil_left _⟩
    obtain ⟨found, current, next', hfold, -, -⟩ :=
      hreads.settling { lifted, next } [] (.refl lifted) hfresh
    -- every tag has been taken, for the tokens carry all of them
    have hstart : Assembly.Reaches lifted [] { lifted, next } :=
      ⟨.outside .nil, [], .refl lifted, .nil⟩
    obtain ⟨-, taken, htaken, htakenPerm⟩ := Assembly.foldlM_read_reaches hstart hfold
    rw [Assembly.foldl_add_nil rfl] at hfold htaken htakenPerm
    rw [List.nil_append, List.flatMap_nil, List.append_nil] at htakenPerm
    have hempty : current.isEmpty = true := by
      refine List.all_eq_true.2 fun placeholder hmem => ?_
      obtain ⟨index, hindex, rfl⟩ := List.mem_iff_getElem.1 hmem
      have hcarried : index ∈ taken := by
        rw [← htakenPerm.mem_iff]
        refine hperm.mem_iff.2 (List.mem_range.2 ?_)
        rwa [← htaken.length]
      have hgone := htaken.gone index hcarried
      rw [List.getElem?_eq_getElem hindex, Option.some.injEq] at hgone
      rw [hgone]
      rfl
    refine ⟨found, ?_⟩
    rw [Template.read, hs, ok_bind]
    dsimp only
    rw [hfold, ok_bind, Assembly.result]
    dsimp only
    rw [if_pos hempty]
    simp [Except.mapError]

end Template

end MustacheJsx
