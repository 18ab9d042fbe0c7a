import MustacheJsx.Proofs.Printing.Assembly
import MustacheJsx.Proofs.Reading.Basic

/-!
# Every step of an assembly reads a token

At any time the tokens so far have been read up to the open elements and blocks (`Lifted.Reached`),
and the tags that they carry are those that have been taken and those of the `else if`s that wait
for the end of their block (`Assembly.Reaches`). So a template is what its tokens read as, and every
tag that was lifted out is carried by them once: `Template.reads_of_read`.
-/

namespace MustacheJsx

open Markup (Token StartTag)

theorem marksOf_of_whole? {marker : Char} {value : List Char} {index : Nat}
    (h : Piece.whole? marker value = some index) : marksOf marker value = [index] := by
  rw [marksOf, Piece.split_of_whole? h]
  rfl

/-! ### Taking tags -/

namespace Lifted

/-- The tags with the indices `taken` have been taken from `lifted`, each once. -/
structure Taken (lifted current : Lifted) (taken : List Nat) : Prop where
  marker : current.marker = lifted.marker
  unquoted : current.unquoted = lifted.unquoted
  length : current.placeholders.length = lifted.placeholders.length
  nodup : taken.Nodup
  gone : ∀ index ∈ taken, current.placeholders[index]? = some none
  left : ∀ index, index ∉ taken → current.placeholders[index]? = lifted.placeholders[index]?

variable {lifted current rest : Lifted} {taken : List Nat}

theorem Taken.refl (lifted : Lifted) : lifted.Taken lifted [] :=
  ⟨rfl, rfl, rfl, List.nodup_nil, nofun, fun _ _ => rfl⟩

theorem take_eq_some {index : Nat} {placeholder : Placeholder}
    (h : current.take index = (some placeholder, rest)) :
    current.placeholders[index]? = some (some placeholder) ∧
      rest = { current with placeholders := current.placeholders.set index none } := by
  rw [take] at h
  split at h
  · next found hfound =>
    cases h
    exact ⟨hfound, rfl⟩
  · cases h

theorem Taken.take (h : lifted.Taken current taken) {index : Nat} {placeholder : Placeholder}
    (ht : current.take index = (some placeholder, rest)) :
    lifted.Keeps index placeholder ∧ lifted.Taken rest (taken ++ [index]) := by
  obtain ⟨hthere, rfl⟩ := take_eq_some ht
  have hlt : index < current.placeholders.length := (List.getElem?_eq_some_iff.1 hthere).1
  have hfresh : index ∉ taken := by
    intro hmem
    have hgone := h.gone index hmem
    rw [hthere] at hgone
    cases hgone
  refine ⟨(h.left index hfresh).symm.trans hthere, h.marker, h.unquoted, ?_, ?_, ?_, ?_⟩
  · rw [List.length_set]
    exact h.length
  · refine List.nodup_append.2 ⟨h.nodup, by simp, ?_⟩
    rintro other hother _ hindex rfl
    exact hfresh (List.mem_singleton.1 hindex ▸ hother)
  · intro other hother
    rw [List.getElem?_set]
    by_cases heq : index = other
    · subst heq
      simp [hlt]
    · rw [if_neg heq]
      rcases List.mem_append.1 hother with hother | hother
      · exact h.gone other hother
      · exact absurd (List.mem_singleton.1 hother).symm heq
  · intro other hother
    rw [List.mem_append, List.mem_singleton, not_or] at hother
    rw [List.getElem?_set_ne (Ne.symm hother.2)]
    exact h.left other hother.1

theorem Taken.perm_range (h : lifted.Taken current taken) (hall : none ∉ lifted.placeholders)
    (hempty : current.isEmpty = true) : taken.Perm (List.range lifted.placeholders.length) := by
  refine (List.perm_ext_iff_of_nodup h.nodup List.nodup_range).2 fun index => ?_
  rw [List.mem_range]
  constructor
  · intro hmem
    rw [← h.length]
    exact (List.getElem?_eq_some_iff.1 (h.gone index hmem)).1
  · intro hlt
    by_contra hmem
    have hleft := h.left index hmem
    rw [List.getElem?_eq_getElem hlt] at hleft
    have hnone := List.all_eq_true.1 hempty _ (List.mem_of_getElem? hleft)
    rw [Option.isNone_iff_eq_none] at hnone
    exact hall (hnone ▸ List.getElem_mem hlt)

/-! ### Text and attributes -/

theorem Taken.restore (h : lifted.Taken current taken) {pieces : List Piece}
    {statements : List Statement} (hr : Assembly.restore current pieces = .ok (statements, rest)) :
    lifted.Restores pieces statements ∧
      lifted.Taken rest (taken ++ pieces.filterMap Piece.mark?) := by
  induction pieces generalizing current taken statements with
  | nil =>
    cases hr
    rw [List.filterMap_nil, List.append_nil]
    exact ⟨.nil, h⟩
  | cons piece pieces ih =>
    rw [Assembly.restore_cons] at hr
    obtain ⟨⟨statement, middle⟩, hpiece, hr⟩ := bind_eq_ok hr
    obtain ⟨⟨others, last⟩, hrest, hr⟩ := bind_eq_ok hr
    cases hr
    cases piece with
    | text chars =>
      cases hpiece
      obtain ⟨hothers, htaken⟩ := ih h hrest
      exact ⟨.text hothers, htaken⟩
    | hole index =>
      cases index with
      | none => cases hpiece
      | some index =>
        have hmarks : taken ++ (Piece.hole (some index) :: pieces).filterMap Piece.mark? =
            taken ++ [index] ++ pieces.filterMap Piece.mark? := by
          simp [Piece.mark?]
        rw [Assembly.restorePiece] at hpiece
        rw [hmarks]
        split at hpiece
        · next ht =>
          cases hpiece
          obtain ⟨hkeeps, hmiddle⟩ := h.take ht
          obtain ⟨hothers, htaken⟩ := ih hmiddle hrest
          exact ⟨.mustache hkeeps hothers, htaken⟩
        · next ht =>
          cases hpiece
          obtain ⟨hkeeps, hmiddle⟩ := h.take ht
          obtain ⟨hothers, htaken⟩ := ih hmiddle hrest
          exact ⟨.partialCall hkeeps hothers, htaken⟩
        · cases hpiece
        · cases hpiece

theorem Taken.mixedValue (h : lifted.Taken current taken) {value : List Char}
    {found : AttributeValue} (hlone : ∀ index, ¬ lifted.IsLone value index)
    (hm : Assembly.mixedValue current value = .ok (found, rest)) :
    lifted.RestoresValue value found ∧
      lifted.Taken rest (taken ++ marksOf lifted.marker value) := by
  rw [Assembly.mixedValue, h.marker] at hm
  dsimp only at hm
  split at hm
  · next hany =>
    obtain ⟨⟨parts, last⟩, hr, hm⟩ := bind_eq_ok hm
    cases hm
    obtain ⟨hparts, htaken⟩ := h.restore hr
    obtain ⟨piece, hmem, hpiece⟩ := List.any_eq_true.1 hany
    cases piece with
    | text chars => cases hpiece
    | hole index => exact ⟨.concat hmem hlone hparts, htaken⟩
  · next hany =>
    cases hm
    have htext : ∀ index, Piece.hole index ∉ Piece.split lifted.marker value :=
      fun index hmem => hany (List.any_eq_true.2 ⟨_, hmem, rfl⟩)
    have hmarks : marksOf lifted.marker value = [] := by
      refine List.filterMap_eq_nil_iff.2 fun piece hmem => ?_
      cases piece with
      | text chars => rfl
      | hole index => exact absurd hmem (htext index)
    rw [hmarks, List.append_nil]
    exact ⟨.text htext, h⟩

theorem restore_hole_of_take {index : Nat} (ht : (current.take index).1 = none)
    (statements : List Statement) (rest : Lifted) :
    Assembly.restore current [.hole (some index)] ≠ .ok (statements, rest) := by
  intro hr
  rw [Assembly.restore_cons] at hr
  obtain ⟨⟨statement, middle⟩, hpiece, -⟩ := bind_eq_ok hr
  rw [Assembly.restorePiece] at hpiece
  generalize current.take index = taken at ht hpiece
  obtain ⟨found, remaining⟩ := taken
  cases ht
  cases hpiece

theorem mixedValue_of_take {value : List Char} {index : Nat} {found : AttributeValue}
    (hwhole : Piece.whole? current.marker value = some index)
    (ht : (current.take index).1 = none) :
    Assembly.mixedValue current value ≠ .ok (found, rest) := by
  intro hm
  rw [Assembly.mixedValue, Piece.split_of_whole? hwhole] at hm
  obtain ⟨⟨parts, last⟩, hr, -⟩ := bind_eq_ok hm
  exact restore_hole_of_take ht _ _ hr

theorem Taken.restoreValue (h : lifted.Taken current taken) {value : List Char}
    {found : AttributeValue} (hv : Assembly.restoreValue current value = .ok (found, rest)) :
    lifted.RestoresValue value found ∧
      lifted.Taken rest (taken ++ marksOf lifted.marker value) := by
  rw [Assembly.restoreValue] at hv
  split at hv
  · next hwhole =>
    refine h.mixedValue (fun index hlone => ?_) hv
    rw [h.marker, hlone.1] at hwhole
    cases hwhole
  · next index hwhole =>
    have hwhole' : Piece.whole? lifted.marker value = some index := by rw [← h.marker, hwhole]
    split at hv
    · next hunquoted =>
      rw [List.contains_iff_mem, h.unquoted] at hunquoted
      split at hv
      · next ht =>
        cases hv
        obtain ⟨hkeeps, htaken⟩ := h.take ht
        rw [marksOf_of_whole? hwhole']
        exact ⟨.mustache ⟨hwhole', hunquoted⟩ hkeeps, htaken⟩
      · next found' middle hnot ht =>
        -- a lone placeholder of another kind has been taken in vain
        have hgone : (middle.take index).1 = none := by
          have htake := take_take current index
          rw [ht] at htake
          exact htake
        have hmarker : middle.marker = current.marker := by
          have hsame : (current.take index).2.marker = current.marker := by
            rw [Lifted.take]
            split <;> rfl
          rw [ht] at hsame
          exact hsame
        exact absurd hv (mixedValue_of_take (hmarker ▸ hwhole) hgone)
    · next hunquoted =>
      refine h.mixedValue (fun other hlone => hunquoted ?_) hv
      have heq : index = other := Option.some.inj (hwhole'.symm.trans hlone.1)
      rw [List.contains_iff_mem, h.unquoted, heq]
      exact hlone.2

theorem Taken.restoreAttributes (h : lifted.Taken current taken) {spellings : List (List Char)}
    {entries : List (String × String)} {attributes : List Attribute}
    (ha : Assembly.restoreAttributes spellings current entries = .ok (attributes, rest)) :
    List.Forall₂ (lifted.RestoresAttribute spellings) (entries.filter isOwn) attributes ∧
      lifted.Taken rest (taken ++
        (entries.filter isOwn).flatMap fun entry => marksOf lifted.marker entry.2.toList) := by
  induction entries generalizing current taken attributes with
  | nil =>
    cases ha
    rw [List.filter_nil, List.flatMap_nil, List.append_nil]
    exact ⟨.nil, h⟩
  | cons entry entries ih =>
    obtain ⟨name, value⟩ := entry
    rw [Assembly.restoreAttributes] at ha
    split at ha
    · next hname =>
      rw [List.filter_cons_of_neg (by simpa [isOwn, or_iff_not_imp_left] using hname)]
      exact ih h ha
    · next hname =>
      obtain ⟨⟨found, middle⟩, hv, ha⟩ := bind_eq_ok ha
      obtain ⟨⟨others, last⟩, hr, ha⟩ := bind_eq_ok ha
      cases ha
      obtain ⟨hvalue, hmiddle⟩ := h.restoreValue hv
      obtain ⟨hothers, htaken⟩ := ih hmiddle hr
      rw [List.filter_cons_of_pos (by simpa [isOwn] using hname), List.flatMap_cons,
        ← List.append_assoc]
      exact ⟨.cons ⟨rfl, hvalue⟩ hothers, htaken⟩

/-! ### Open elements and blocks -/

/-- The tokens of a block that is open and its branches, the latest first. -/
inductive Branches (lifted : Lifted) : List Token → List (Branch × List Statement) → Prop where
  | program {inner body} : lifted.Reads inner body → Branches lifted inner [(.program, body)]
  | otherwise {before branches tag line inner body} :
      Branches lifted before branches → tag.name = elseTag → number? tag = none →
      lifted.Reads inner body →
      Branches lifted (before ++ .startTag tag line :: inner) ((.otherwise, body) :: branches)
  | elseIf {before branches tag line index inner body} :
      Branches lifted before branches → tag.name = elseTag → number? tag = some index →
      lifted.Reads inner body →
      Branches lifted (before ++ .startTag tag line :: inner) ((.elseIf index, body) :: branches)

/-- The tokens that lead to the open frames and to the statements outside them. -/
inductive Reached (lifted : Lifted) : List Token → List Frame → List Statement → Prop where
  | outside {tokens body} : lifted.Reads tokens body.reverse → Reached lifted tokens [] body
  | element {outer stack body tag line attributes inner children} :
      Reached lifted outer stack body → IsElement tag → isLeaf tag = false →
      lifted.RestoresAttributes tag attributes → lifted.Reads inner children.reverse →
      Reached lifted (outer ++ .startTag tag line :: inner)
        (.element tag.name (writtenName tag) attributes children :: stack) body
  | block {outer stack body tag line index head inner closed branch statements} :
      Reached lifted outer stack body → tag.name = blockTag → number? tag = some index →
      lifted.Keeps index (.block head) →
      lifted.Branches inner ((branch, statements.reverse) :: closed) →
      Reached lifted (outer ++ .startTag tag line :: inner)
        (.block head closed branch statements :: stack) body

theorem Branches.append {tokens others : List Token} {branch : Branch} {body more : List Statement}
    {closed : List (Branch × List Statement)}
    (h : lifted.Branches tokens ((branch, body) :: closed)) (hr : lifted.Reads others more) :
    lifted.Branches (tokens ++ others) ((branch, body ++ more) :: closed) := by
  cases h with
  | program hp => exact .program (hp.append hr)
  | otherwise hb ht hn hp =>
    rw [List.append_assoc, List.cons_append]
    exact .otherwise hb ht hn (hp.append hr)
  | elseIf hb ht hn hp =>
    rw [List.append_assoc, List.cons_append]
    exact .elseIf hb ht hn (hp.append hr)

end Lifted

def Branch.pending : Branch → List Nat
  | .elseIf index => [index]
  | _ => []

/-- The indices of the `else if`s that wait for the end of a frame. -/
def Frame.pending : Frame → List Nat
  | .element _ _ _ _ => []
  | .block _ closed branch _ => branch.pending ++ closed.flatMap fun entry => entry.1.pending

def Frame.extend (statements : List Statement) : Frame → Frame
  | .element name tag attributes children =>
    .element name tag attributes (statements.reverse ++ children)
  | .block head closed branch body => .block head closed branch (statements.reverse ++ body)

theorem Frame.pending_extend (statements : List Statement) (frame : Frame) :
    (frame.extend statements).pending = frame.pending := by
  cases frame <;> rfl

namespace Assembly

theorem foldl_add_cons {a : Assembly} {frame : Frame} {stack : List Frame}
    (hs : a.stack = frame :: stack) (statements : List Statement) :
    statements.foldl add a = { a with stack := frame.extend statements :: stack } := by
  induction statements generalizing a frame with
  | nil =>
    obtain ⟨lifted, next, stack', body⟩ := a
    cases hs
    cases frame <;> rfl
  | cons statement statements ih =>
    have hadd : a.add statement = { a with stack := frame.extend [statement] :: stack } := by
      rw [add, hs]
      cases frame <;> rfl
    rw [List.foldl_cons, hadd, ih rfl]
    cases frame <;> simp [Frame.extend]

theorem foldl_add_nil {a : Assembly} (hs : a.stack = []) (statements : List Statement) :
    statements.foldl add a = { a with body := statements.reverse ++ a.body } := by
  induction statements generalizing a with
  | nil => rfl
  | cons statement statements ih =>
    have hadd : a.add statement = { a with body := statement :: a.body } := by rw [add, hs]
    rw [List.foldl_cons, hadd, ih (a := { a with body := statement :: a.body }) hs]
    simp

theorem pending_foldl_add (a : Assembly) (statements : List Statement) :
    (statements.foldl add a).stack.flatMap Frame.pending = a.stack.flatMap Frame.pending := by
  cases hs : a.stack with
  | nil => rw [foldl_add_nil hs, hs]
  | cons frame stack =>
    rw [foldl_add_cons hs, List.flatMap_cons, List.flatMap_cons, Frame.pending_extend]

variable {lifted : Lifted} {tokens others : List Token} {statements : List Statement}

theorem reached_foldl_add {a : Assembly} (h : lifted.Reached tokens a.stack a.body)
    (hr : lifted.Reads others statements) :
    lifted.Reached (tokens ++ others) (statements.foldl add a).stack
      (statements.foldl add a).body := by
  generalize hs : a.stack = stack at h
  cases h with
  | outside hbody =>
    rw [foldl_add_nil hs]
    dsimp only
    rw [hs]
    refine .outside ?_
    rw [List.reverse_append, List.reverse_reverse]
    exact hbody.append hr
  | element hout he hl ha hinner =>
    rw [foldl_add_cons hs, List.append_assoc, List.cons_append]
    refine .element hout he hl ha ?_
    rw [List.reverse_append, List.reverse_reverse]
    exact hinner.append hr
  | block hout ht hn hk hb =>
    rw [foldl_add_cons hs, List.append_assoc, List.cons_append]
    refine .block hout ht hn hk ?_
    rw [List.reverse_append, List.reverse_reverse]
    exact hb.append hr

/-! ### Closing a block -/

/-- The branches of a block, from its first tag to its last, are its program and its inverse. -/
theorem reads_of_foldBranches {name : String} {branches : List (Branch × List Statement)}
    {rest : List Token} {taken : List Nat} {f f' : Folded}
    (hb : lifted.Branches tokens branches) (hi : lifted.ReadsInverse rest f.inverse)
    (ht : lifted.Taken f.lifted taken) (h : branches.foldlM (foldBranch name) f = .ok f') :
    (∃ inner rest', tokens ++ rest = inner ++ rest' ∧ lifted.Reads inner f'.program ∧
      lifted.ReadsInverse rest' f'.inverse) ∧
    lifted.Taken f'.lifted (taken ++ branches.flatMap fun entry => entry.1.pending) := by
  induction hb generalizing rest taken f with
  | program hp =>
    cases h
    refine ⟨⟨_, rest, rfl, hp, hi⟩, ?_⟩
    simpa [Branch.pending] using ht
  | @otherwise _ _ _ _ _ body hb htag hn hp ih =>
    rw [List.foldlM_cons] at h
    obtain ⟨f₁, hf, h⟩ := bind_eq_ok h
    rw [foldBranch] at hf
    split at hf
    · cases hf
    · next hnone =>
      cases hf
      rw [hnone] at hi
      cases hi
      obtain ⟨⟨inner, rest', heq, hread⟩, htaken⟩ :=
        ih (f := { f with inverse := some (.mk f.next body), next := f.next + 1 })
          (.otherwise htag hn hp) ht h
      refine ⟨⟨inner, rest', ?_, hread⟩, ?_⟩
      · rw [← heq, List.append_nil]
      · simpa [Branch.pending] using htaken
  | @elseIf _ _ _ _ index _ _ hb htag hn hp ih =>
    rw [List.foldlM_cons] at h
    obtain ⟨f₁, hf, h⟩ := bind_eq_ok h
    rw [foldBranch] at hf
    split at hf
    · next htake =>
      cases hf
      obtain ⟨hkeeps, htaken⟩ := ht.take htake
      obtain ⟨⟨inner, rest', heq, hread⟩, htaken'⟩ :=
        ih (.elseIf htag hn hkeeps hp hi) htaken h
      refine ⟨⟨inner, rest', ?_, hread⟩, ?_⟩
      · rw [← heq, List.append_assoc, List.cons_append]
      · simpa [Branch.pending] using htaken'
    · cases hf

/-! ### Steps -/

/-- The tokens have led to the assembly: to its frames, and to the tags that it has taken or has yet
to take for the `else if`s of open blocks. -/
structure Reaches (lifted : Lifted) (tokens : List Token) (a : Assembly) : Prop where
  frames : lifted.Reached tokens a.stack a.body
  taken : ∃ taken, lifted.Taken a.lifted taken ∧
    (tokens.flatMap (Token.marks lifted.marker)).Perm (taken ++ a.stack.flatMap Frame.pending)

theorem perm_append_between {xs ys zs : List Nat} (h : xs.Perm (ys ++ zs)) (new : List Nat) :
    (xs ++ new).Perm (ys ++ (new ++ zs)) := by
  refine (h.append_right new).trans ?_
  rw [List.append_assoc]
  exact List.perm_append_comm.append_left ys

section

variable {a a' : Assembly} {taken : List Nat} {rest : Lifted}

/-- Statements are added whose tags have been taken. -/
theorem reaches_foldl_add (h : lifted.Reached tokens a.stack a.body)
    (hr : lifted.Reads others statements) (ht : lifted.Taken a.lifted taken)
    (hp : ((tokens ++ others).flatMap (Token.marks lifted.marker)).Perm
      (taken ++ a.stack.flatMap Frame.pending)) :
    Reaches lifted (tokens ++ others) (statements.foldl add a) := by
  refine ⟨reached_foldl_add h hr, taken, ?_, ?_⟩
  · rwa [lifted_foldl_add]
  · rwa [pending_foldl_add]

theorem perm_concat {pending : List Nat}
    (h : (tokens.flatMap (Token.marks lifted.marker)).Perm (taken ++ pending)) (token : Token) :
    ((tokens ++ [token]).flatMap (Token.marks lifted.marker)).Perm
      (taken ++ Token.marks lifted.marker token ++ pending) := by
  rw [List.flatMap_append, List.flatMap_singleton, List.append_assoc]
  exact perm_append_between h _

theorem addText_reaches {chars : List Char} (h : Reaches lifted tokens a)
    (hr : a.addText chars = .ok a') : Reaches lifted (tokens ++ [.text chars]) a' := by
  obtain ⟨hframes, taken, ht, hp⟩ := h
  obtain ⟨⟨statements, rest⟩, hrestore, hr⟩ := bind_eq_ok hr
  cases hr
  rw [ht.marker] at hrestore
  obtain ⟨hrestores, htaken⟩ := ht.restore hrestore
  have hreads := Lifted.Reads.text hrestores .nil
  rw [List.append_nil] at hreads
  exact reaches_foldl_add (a := { a with lifted := rest }) hframes hreads htaken (perm_concat hp _)

theorem addComment_reaches {value : List Char} (h : Reaches lifted tokens a)
    (hr : a.addComment value = .ok a') : Reaches lifted (tokens ++ [.comment value]) a' := by
  obtain ⟨hframes, taken, ht, hp⟩ := h
  have hperm := perm_concat hp (.comment value)
  rw [addComment, ht.marker] at hr
  split at hr
  · next hwhole =>
    cases hr
    rw [Token.marks, hwhole, Option.toList_none, List.append_nil] at hperm
    exact reaches_foldl_add hframes (.markupComment hwhole .nil) ht hperm
  · next index hwhole =>
    rw [Token.marks, hwhole, Option.toList_some] at hperm
    split at hr
    · next rest htake =>
      cases hr
      obtain ⟨hkeeps, htaken⟩ := ht.take htake
      exact reaches_foldl_add (a := { a with lifted := rest }) hframes
        (.mustacheComment hwhole hkeeps .nil) htaken hperm
    · cases hr

theorem openBlock_reaches {tag : StartTag} {line : Nat} (htag : tag.name = blockTag)
    (h : Reaches lifted tokens a) (hr : a.openBlock (number? tag) line = .ok a') :
    Reaches lifted (tokens ++ [.startTag tag line]) a' := by
  obtain ⟨hframes, taken, ht, hp⟩ := h
  rw [openBlock] at hr
  split at hr
  · next htake =>
    cases hr
    obtain ⟨index, hnumber, htake⟩ := Option.map_eq_some_iff.1 htake
    obtain ⟨hkeeps, htaken⟩ := ht.take htake
    have hperm := perm_concat hp (.startTag tag line)
    rw [Token.marks, if_pos (.inl htag), hnumber, Option.toList_some] at hperm
    exact ⟨.block hframes htag hnumber hkeeps (.program .nil), _, htaken, hperm⟩
  · cases hr

def branchOf (tag : StartTag) : Branch :=
  match number? tag with
  | some index => .elseIf index
  | none => .otherwise

theorem marks_elseTag {tag : StartTag} (htag : tag.name = elseTag) (marker : Char) (line : Nat) :
    Token.marks marker (.startTag tag line) = (branchOf tag).pending := by
  rw [Token.marks, if_pos (.inr htag), branchOf]
  cases number? tag <;> rfl

theorem branches_switch {tag : StartTag} {branches : List (Branch × List Statement)}
    (htag : tag.name = elseTag) (line : Nat) (h : lifted.Branches tokens branches) :
    lifted.Branches (tokens ++ [.startTag tag line]) ((branchOf tag, []) :: branches) := by
  rw [branchOf]
  cases hnumber : number? tag with
  | none => exact .otherwise h htag hnumber .nil
  | some index => exact .elseIf h htag hnumber .nil

theorem switch_reaches {tag : StartTag} {line : Nat} (htag : tag.name = elseTag)
    (h : Reaches lifted tokens a) (hr : a.switch (branchOf tag) line = .ok a') :
    Reaches lifted (tokens ++ [.startTag tag line]) a' := by
  obtain ⟨hframes, taken, ht, hp⟩ := h
  rw [switch] at hr
  split at hr
  · next hs =>
    cases hr
    rw [hs] at hframes hp
    cases hframes with
    | block hout hblock hn hk hb =>
      refine ⟨?_, taken, ht, ?_⟩
      · rw [List.append_assoc, List.cons_append]
        exact .block hout hblock hn hk (branches_switch htag line hb)
      · rw [List.flatMap_append, List.flatMap_singleton, marks_elseTag htag]
        simpa [Frame.pending] using perm_append_between hp (branchOf tag).pending
  · cases hr
  · cases hr

theorem closeBlock_reaches {line : Nat} {head : BlockHead} {branch : Branch}
    {body : List Statement} {closed : List (Branch × List Statement)} {stack : List Frame}
    (hs : a.stack = .block head closed branch body :: stack) (h : Reaches lifted tokens a)
    (hr : closeBlock { a with stack } head ((branch, body.reverse) :: closed) = .ok a') :
    Reaches lifted (tokens ++ [.endTag blockTag line]) a' := by
  obtain ⟨hframes, taken, ht, hp⟩ := h
  obtain ⟨f, hf, hr⟩ := bind_eq_ok hr
  cases hr
  rw [hs] at hframes hp
  cases hframes with
  | @block outer _ _ tag line' _ _ _ _ _ _ hout hblock hn hk hb =>
    obtain ⟨⟨inner, rest, heq, hp', hi⟩, htaken⟩ :=
      reads_of_foldBranches (f := { lifted := a.lifted, next := a.next }) hb .none ht hf
    rw [List.append_nil] at heq
    have hreads : lifted.Reads
        (.startTag tag line' :: (inner ++ (rest ++ [.endTag blockTag line])))
        [.block head (.mk f.next f.program) f.inverse] := .block hblock hn hk hp' hi .nil
    have hsource : outer ++ .startTag tag line' :: (inner ++ rest) ++ [.endTag blockTag line] =
        outer ++ .startTag tag line' :: (inner ++ (rest ++ [.endTag blockTag line])) := by
      simp
    rw [heq] at hp ⊢
    have hperm := perm_concat hp (.endTag blockTag line)
    rw [Token.marks, hsource, List.flatMap_cons, Frame.pending] at hperm
    rw [hsource]
    refine reaches_foldl_add (a := { a with stack, lifted := f.lifted, next := f.next + 1 }) hout
      hreads htaken ?_
    simpa using hperm

theorem startTag_reaches {tag : StartTag} {line : Nat} (h : Reaches lifted tokens a)
    (hr : a.startTag tag line = .ok a') :
    Reaches lifted (tokens ++ [.startTag tag line]) a' := by
  rw [startTag] at hr
  dsimp only at hr
  split at hr
  · next htag => exact openBlock_reaches htag h hr
  · next hblock =>
    split at hr
    · next htag =>
      refine switch_reaches htag h ?_
      rw [branchOf]
      cases hnumber : number? tag with
      | some index =>
        rw [number?] at hnumber
        rw [hnumber] at hr
        exact hr
      | none =>
        rw [number?] at hnumber
        rw [hnumber] at hr
        exact hr
    · next helse =>
      obtain ⟨hframes, taken, ht, hp⟩ := h
      obtain ⟨⟨attributes, rest⟩, hattributes, hr⟩ := bind_eq_ok hr
      obtain ⟨hrestores, htaken⟩ := ht.restoreAttributes hattributes
      have hperm := perm_concat hp (.startTag tag line)
      rw [Token.marks, if_neg (not_or.2 ⟨hblock, helse⟩)] at hperm
      dsimp only at hr
      split at hr
      · next hleaf =>
        cases hr
        exact reaches_foldl_add (a := { a with lifted := rest }) hframes
          (.leaf ⟨hblock, helse⟩ hleaf hrestores .nil) htaken hperm
      · next hleaf =>
        cases hr
        exact ⟨.element hframes ⟨hblock, helse⟩ (by simpa [isLeaf] using hleaf) hrestores .nil,
          _, htaken, hperm⟩

theorem endTag_reaches {name : String} {line : Nat} (h : Reaches lifted tokens a)
    (hr : a.endTag name line = .ok a') : Reaches lifted (tokens ++ [.endTag name line]) a' := by
  rw [endTag] at hr
  split at hr
  · next hname =>
    subst hname
    split at hr
    · next hs => exact closeBlock_reaches hs h hr
    · cases hr
    · cases hr
  · split at hr
    · cases hr
    · split at hr
      · next attributes children stack hs =>
        split at hr
        · next hname =>
          subst hname
          cases hr
          obtain ⟨hframes, taken, ht, hp⟩ := h
          rw [hs] at hframes hp
          cases hframes with
          | @element outer _ _ tag line' _ inner _ hout he hl ha hinner =>
            have hreads : lifted.Reads (.startTag tag line' :: (inner ++ [.endTag tag.name line]))
                [.element (writtenName tag) attributes children.reverse false] :=
              .element he hl ha hinner .nil
            have hperm := perm_concat hp (.endTag tag.name line)
            rw [Token.marks, List.append_nil, List.append_assoc, List.cons_append] at hperm
            rw [List.append_assoc, List.cons_append]
            exact reaches_foldl_add (a := { a with stack }) hout hreads ht hperm
        · cases hr
      · cases hr
      · cases hr

theorem read_reaches {token : Token} (h : Reaches lifted tokens a) (hr : a.read token = .ok a') :
    Reaches lifted (tokens ++ [token]) a' := by
  cases token with
  | text chars => exact addText_reaches h hr
  | comment value => exact addComment_reaches h hr
  | startTag tag line => exact startTag_reaches h hr
  | endTag name line => exact endTag_reaches h hr

theorem foldlM_read_reaches (h : Reaches lifted tokens a) (hr : others.foldlM read a = .ok a') :
    Reaches lifted (tokens ++ others) a' := by
  induction others generalizing tokens a with
  | nil =>
    cases hr
    rwa [List.append_nil]
  | cons token others ih =>
    rw [List.foldlM_cons] at hr
    obtain ⟨a₁, hfirst, hr⟩ := bind_eq_ok hr
    have hrest := ih (read_reaches h hfirst) hr
    rwa [List.append_assoc] at hrest

end

end Assembly

theorem Lifted.none_not_mem_placeholders {source : List Char} {lifted : Lifted} {next : Nat}
    (h : Lifted.ofSource source = .ok (lifted, next)) : none ∉ lifted.placeholders := by
  unfold Lifted.ofSource at h
  split at h
  · cases h
  · split at h
    · cases h
    · split at h
      · cases h
      · cases h
        simp

/-- A template is what the tokens of its markup read as, and they carry every tag once. -/
theorem Template.reads_of_read {source : List Char} {lifted : Lifted} {next : Nat}
    {template : Template} (hs : Lifted.ofSource source = .ok (lifted, next))
    (h : Template.read source = .ok template) :
    lifted.Reads (Markup.tokens lifted.markup) template ∧
      ((Markup.tokens lifted.markup).flatMap (Token.marks lifted.marker)).Perm
        (List.range lifted.placeholders.length) := by
  rw [Template.read, hs] at h
  obtain ⟨a, hfold, hresult⟩ := bind_eq_ok (mapError_eq_ok h)
  have hstart : Assembly.Reaches lifted [] { lifted, next } :=
    ⟨.outside .nil, [], .refl lifted, .nil⟩
  obtain ⟨hframes, taken, ht, hp⟩ := Assembly.foldlM_read_reaches hstart hfold
  rw [List.nil_append] at hframes hp
  generalize Markup.tokens lifted.markup = tokens at hframes hp ⊢
  rw [Assembly.result] at hresult
  split at hresult
  · cases hresult
  · cases hresult
  · next hstack =>
    split at hresult
    · next hempty =>
      cases hresult
      rw [hstack] at hframes hp
      rw [List.flatMap_nil, List.append_nil] at hp
      cases hframes with
      | outside hreads =>
        exact ⟨hreads, hp.trans (ht.perm_range (Lifted.none_not_mem_placeholders hs) hempty)⟩
    · cases hresult

end MustacheJsx
