import MustacheJsx.Proofs.Lowering.Tokens
import MustacheJsx.Proofs.Printing.Assembly

/-!
# Assembling takes names as they come

`Statement.lowered` writes the names of elements and attributes small. It commutes with every step
of an assembly, whose frames nest by small names anyway: tokens that say the same with small names
are both refused, or give the same tree up to the case of its names (`Assembly.agree_read`).
-/

namespace MustacheJsx

open Markup (Token StartTag)

/-! ### Trees with small names -/

/-- No name stands in a value. -/
def Attribute.lowered : Attribute → Attribute
  | .mk name value => .mk (smallName name.toList) value

mutual

def Statement.lowered : Statement → Statement
  | .element tag attributes children selfClosing =>
    .element (smallName tag.toList) (attributes.map Attribute.lowered)
      (loweredOfAll children) selfClosing
  | .text chars => .text chars
  | .mustache m => .mustache m
  | .block head program inverse =>
    .block head (loweredOfBody program)
      (match inverse with
      | some body => some (loweredOfBody body)
      | none => none)
  | .partialCall call => .partialCall call
  | .mustacheComment value => .mustacheComment value
  | .markupComment value => .markupComment value

def Statement.loweredOfAll : List Statement → List Statement
  | [] => []
  | statement :: statements => statement.lowered :: loweredOfAll statements

def Statement.loweredOfBody : Body → Body
  | .mk id statements => .mk id (loweredOfAll statements)

end

def Template.lowered (template : Template) : Template := Statement.loweredOfAll template

namespace Statement

theorem loweredOfAll_eq_map (statements : List Statement) :
    loweredOfAll statements = statements.map lowered := by
  induction statements with
  | nil => rfl
  | cons statement statements ih => rw [loweredOfAll, ih, List.map_cons]

theorem lowered_element (tag : String) (attributes : List Attribute) (children : List Statement)
    (selfClosing : Bool) :
    (Statement.element tag attributes children selfClosing).lowered =
      .element (smallName tag.toList) (attributes.map Attribute.lowered) (children.map lowered)
        selfClosing := by
  rw [lowered, loweredOfAll_eq_map]

theorem lowered_block (head : BlockHead) (id : Nat) (program : List Statement)
    (inverse : Option Body) :
    (Statement.block head (.mk id program) inverse).lowered =
      .block head (.mk id (program.map lowered)) (inverse.map loweredOfBody) := by
  cases inverse <;> rw [lowered, loweredOfBody, loweredOfAll_eq_map] <;> rfl

theorem loweredOfBody_mk (id : Nat) (statements : List Statement) :
    loweredOfBody (.mk id statements) = .mk id (statements.map lowered) := by
  rw [loweredOfBody, loweredOfAll_eq_map]

end Statement

/-! ### Assemblies with small names -/

/-- Steps that give the same up to a change give the same one after another. -/
theorem bind_eq_map {ε α α' β β' : Type} {x : Except ε α} {y : Except ε α'} {f : α → α'}
    {next : α → Except ε β} {next' : α' → Except ε β'} {g : β → β'} (h : y = x.map f)
    (hnext : ∀ a, x = .ok a → next' (f a) = (next a).map g) :
    (y >>= next') = (x >>= next).map g := by
  subst h
  cases x with
  | error e => rfl
  | ok a => exact hnext a rfl

namespace Lifted

def withMarkup (markup : List Char) (lifted : Lifted) : Lifted := { lifted with markup }

theorem take_withMarkup (markup : List Char) (lifted : Lifted) (index : Nat) :
    (lifted.withMarkup markup).take index =
      ((lifted.take index).1, (lifted.take index).2.withMarkup markup) := by
  have hplaceholders : (lifted.withMarkup markup).placeholders = lifted.placeholders := rfl
  rw [take, take, hplaceholders]
  cases lifted.placeholders[index]? with
  | none => rfl
  | some slot => cases slot <;> rfl

theorem marker_withMarkup (markup : List Char) (lifted : Lifted) :
    (lifted.withMarkup markup).marker = lifted.marker := rfl

theorem unquoted_withMarkup (markup : List Char) (lifted : Lifted) :
    (lifted.withMarkup markup).unquoted = lifted.unquoted := rfl

end Lifted

def Frame.lowered : Frame → Frame
  | .element name tag attributes children =>
    .element name (smallName tag.toList) (attributes.map Attribute.lowered)
      (children.map Statement.lowered)
  | .block head closed branch body =>
    .block head (closed.map fun entry => (entry.1, entry.2.map Statement.lowered)) branch
      (body.map Statement.lowered)

namespace Assembly

def lowered (markup : List Char) (a : Assembly) : Assembly where
  lifted := a.lifted.withMarkup markup
  next := a.next
  stack := a.stack.map Frame.lowered
  body := a.body.map Statement.lowered

variable {markup : List Char} {a : Assembly}

theorem lowered_add (markup : List Char) (a : Assembly) (statement : Statement) :
    (a.add statement).lowered markup = (a.lowered markup).add statement.lowered := by
  obtain ⟨lifted, next, stack, body⟩ := a
  cases stack with
  | nil => rfl
  | cons frame stack => cases frame <;> rfl

theorem lowered_foldl_add (markup : List Char) (statements : List Statement) (a : Assembly) :
    (statements.foldl add a).lowered markup =
      (statements.map Statement.lowered).foldl add (a.lowered markup) := by
  induction statements generalizing a with
  | nil => rfl
  | cons statement statements ih =>
    rw [List.foldl_cons, ih, lowered_add, List.map_cons, List.foldl_cons]

/-! ### Text and attributes -/

theorem restorePiece_withMarkup (markup : List Char) (lifted : Lifted) (piece : Piece) :
    restorePiece (lifted.withMarkup markup) piece =
      (restorePiece lifted piece).map fun found => (found.1, found.2.withMarkup markup) := by
  cases piece with
  | text chars => rfl
  | hole index =>
    cases index with
    | none => rfl
    | some index =>
      rw [restorePiece, restorePiece, Lifted.take_withMarkup]
      cases lifted.take index with
      | mk found rest =>
        cases found with
        | none => rfl
        | some placeholder => cases placeholder <;> rfl

theorem restore_withMarkup (markup : List Char) (lifted : Lifted) (pieces : List Piece) :
    restore (lifted.withMarkup markup) pieces =
      (restore lifted pieces).map fun found => (found.1, found.2.withMarkup markup) := by
  induction pieces generalizing lifted with
  | nil => rfl
  | cons piece pieces ih =>
    rw [restore_cons, restore_cons]
    refine bind_eq_map (restorePiece_withMarkup markup lifted piece) fun found _ => ?_
    exact bind_eq_map (ih found.2) fun more _ => rfl

theorem lowered_of_restore {lifted rest : Lifted} {pieces : List Piece}
    {statements : List Statement} (h : restore lifted pieces = .ok (statements, rest)) :
    statements.map Statement.lowered = statements := by
  induction pieces generalizing lifted statements with
  | nil =>
    cases h
    rfl
  | cons piece pieces ih =>
    rw [restore_cons] at h
    obtain ⟨⟨statement, middle⟩, hpiece, h⟩ := bind_eq_ok h
    obtain ⟨⟨others, last⟩, hrest, h⟩ := bind_eq_ok h
    cases h
    have hsame : statement.lowered = statement := by
      cases piece with
      | text chars =>
        cases hpiece
        rfl
      | hole index =>
        cases index with
        | none => cases hpiece
        | some index =>
          rw [restorePiece] at hpiece
          split at hpiece
          · cases hpiece
            rfl
          · cases hpiece
            rfl
          · cases hpiece
          · cases hpiece
    rw [List.map_cons, hsame, ih hrest]

theorem mixedValue_withMarkup (markup : List Char) (lifted : Lifted) (value : List Char) :
    mixedValue (lifted.withMarkup markup) value =
      (mixedValue lifted value).map fun found => (found.1, found.2.withMarkup markup) := by
  rw [mixedValue, mixedValue, Lifted.marker_withMarkup]
  dsimp only
  split
  · exact bind_eq_map (restore_withMarkup markup lifted _) fun found _ => rfl
  · rfl

theorem restoreValue_withMarkup (markup : List Char) (lifted : Lifted) (value : List Char) :
    restoreValue (lifted.withMarkup markup) value =
      (restoreValue lifted value).map fun found => (found.1, found.2.withMarkup markup) := by
  rw [restoreValue, restoreValue, Lifted.marker_withMarkup, Lifted.unquoted_withMarkup]
  cases Piece.whole? lifted.marker value with
  | none => exact mixedValue_withMarkup markup lifted value
  | some index =>
    dsimp only
    split
    · rw [Lifted.take_withMarkup]
      cases lifted.take index with
      | mk found rest =>
        cases found with
        | none => exact mixedValue_withMarkup markup rest value
        | some placeholder =>
          cases placeholder with
          | expression m => rfl
          | _ => exact mixedValue_withMarkup markup rest value
    · exact mixedValue_withMarkup markup lifted value

theorem restoreAttributes_filter (spellings : List (List Char)) (lifted : Lifted)
    (entries : List (String × String)) :
    restoreAttributes spellings lifted (entries.filter isOwn) =
      restoreAttributes spellings lifted entries := by
  induction entries generalizing lifted with
  | nil => rfl
  | cons entry entries ih =>
    obtain ⟨name, value⟩ := entry
    by_cases hcarrier : name = tagSpelling ∨ name = attributeSpellings
    · have hown : ¬ isOwn (name, value) = true := by
        rcases hcarrier with rfl | rfl <;> simp [isOwn]
      rw [List.filter_cons_of_neg hown, ih, restoreAttributes, if_pos hcarrier]
    · have hown : isOwn (name, value) = true := by
        simpa [isOwn, not_or] using hcarrier
      rw [List.filter_cons_of_pos hown, restoreAttributes, if_neg hcarrier, restoreAttributes,
        if_neg hcarrier]
      simp only [ih]

theorem restoreAttributes_own (tag : StartTag) (spellings : List (List Char)) (lifted : Lifted) :
    restoreAttributes spellings lifted (ownAttributes tag) =
      restoreAttributes spellings lifted tag.attributes :=
  restoreAttributes_filter spellings lifted tag.attributes

theorem restoreAttributes_lowered {spellings spellings' : List (List Char)} (lifted : Lifted)
    {entries : List (String × String)}
    (h : ∀ entry ∈ entries,
      spellingOf spellings' entry.1 = smallName (spellingOf spellings entry.1).toList) :
    restoreAttributes spellings' (lifted.withMarkup markup) entries =
      (restoreAttributes spellings lifted entries).map fun found =>
        (found.1.map Attribute.lowered, found.2.withMarkup markup) := by
  induction entries generalizing lifted with
  | nil => rfl
  | cons entry entries ih =>
    obtain ⟨name, value⟩ := entry
    obtain ⟨hname, hlater⟩ := List.forall_mem_cons.1 h
    rw [restoreAttributes, restoreAttributes]
    split
    · exact ih lifted hlater
    · refine bind_eq_map (restoreValue_withMarkup markup lifted value.toList) fun found _ => ?_
      refine bind_eq_map (ih found.2 hlater) fun more _ => ?_
      rw [hname]
      rfl

/-! ### Steps -/

theorem lowered_addText (a : Assembly) (chars : List Char) :
    (a.lowered markup).addText chars = (a.addText chars).map (lowered markup) := by
  refine bind_eq_map (restore_withMarkup markup a.lifted _) fun found hfound => ?_
  have hadded := lowered_foldl_add markup found.1 { a with lifted := found.2 }
  rw [lowered_of_restore hfound] at hadded
  exact congrArg Except.ok hadded.symm

theorem lowered_addComment (a : Assembly) (value : List Char) :
    (a.lowered markup).addComment value = (a.addComment value).map (lowered markup) := by
  have hmarker : (a.lowered markup).lifted.marker = a.lifted.marker := rfl
  rw [addComment, addComment, hmarker]
  cases Piece.whole? a.lifted.marker value with
  | none =>
    exact congrArg Except.ok (lowered_add markup a (.markupComment (String.ofList value))).symm
  | some index =>
    have htake := Lifted.take_withMarkup markup a.lifted index
    dsimp only
    rw [show (a.lowered markup).lifted = a.lifted.withMarkup markup from rfl, htake]
    cases a.lifted.take index with
    | mk found rest =>
      cases found with
      | none => rfl
      | some placeholder =>
        cases placeholder with
        | comment text =>
          exact congrArg Except.ok
            (lowered_add markup { a with lifted := rest } (.mustacheComment text)).symm
        | _ => rfl

theorem agree_openBlock (a : Assembly) (index : Option Nat) (line line' : Nat) :
    Agree (fun b b' => b' = b.lowered markup) (a.openBlock index line)
      ((a.lowered markup).openBlock index line') := by
  rw [openBlock, openBlock]
  cases index with
  | none => exact .error _ _
  | some index =>
    have htake := Lifted.take_withMarkup markup a.lifted index
    rw [Option.map_some, Option.map_some]
    rw [show (a.lowered markup).lifted = a.lifted.withMarkup markup from rfl, htake]
    cases a.lifted.take index with
    | mk found rest =>
      cases found with
      | none => exact .error _ _
      | some placeholder =>
        cases placeholder with
        | block head => exact .ok rfl
        | _ => exact .error _ _

theorem agree_switch (a : Assembly) (next : Branch) (line line' : Nat) :
    Agree (fun b b' => b' = b.lowered markup) (a.switch next line)
      ((a.lowered markup).switch next line') := by
  obtain ⟨lifted, index, stack, body⟩ := a
  cases stack with
  | nil => exact .error _ _
  | cons frame stack =>
    cases frame with
    | element name tag attributes children => exact .error _ _
    | block head closed branch body =>
      refine .ok ?_
      simp [lowered, Frame.lowered]

def Folded.lowered (markup : List Char) (f : Folded) : Folded where
  program := f.program.map Statement.lowered
  inverse := f.inverse.map Statement.loweredOfBody
  lifted := f.lifted.withMarkup markup
  next := f.next

theorem lowered_foldBranch (name : String) (f : Folded) (entry : Branch × List Statement) :
    foldBranch name (f.lowered markup) (entry.1, entry.2.map Statement.lowered) =
      (foldBranch name f entry).map (Folded.lowered markup) := by
  obtain ⟨branch, body⟩ := entry
  obtain ⟨program, inverse, lifted, next⟩ := f
  cases branch with
  | program => rfl
  | otherwise =>
    cases inverse with
    | some body => rfl
    | none =>
      simp [foldBranch, Folded.lowered, Except.map, Statement.loweredOfBody_mk]
  | elseIf index =>
    have htake := Lifted.take_withMarkup markup lifted index
    unfold foldBranch
    dsimp only [Folded.lowered]
    rw [htake]
    cases lifted.take index with
    | mk found rest =>
      cases found with
      | none => rfl
      | some placeholder =>
        cases placeholder with
        | elseIf head =>
          simp [Except.map, Folded.lowered, Statement.loweredOfBody_mk, Statement.lowered_block]
        | _ => rfl

theorem lowered_foldBranches (name : String) (branches : List (Branch × List Statement))
    (f : Folded) :
    (branches.map fun entry => (entry.1, entry.2.map Statement.lowered)).foldlM (foldBranch name)
        (f.lowered markup) =
      (branches.foldlM (foldBranch name) f).map (Folded.lowered markup) := by
  induction branches generalizing f with
  | nil => rfl
  | cons entry branches ih =>
    rw [List.map_cons, List.foldlM_cons, List.foldlM_cons]
    exact bind_eq_map (lowered_foldBranch name f entry) fun more _ => ih more

theorem lowered_closeBlock (a : Assembly) (head : BlockHead)
    (branches : List (Branch × List Statement)) :
    (a.lowered markup).closeBlock head
        (branches.map fun entry => (entry.1, entry.2.map Statement.lowered)) =
      (a.closeBlock head branches).map (lowered markup) := by
  rw [closeBlock, closeBlock]
  refine bind_eq_map (lowered_foldBranches head.name branches
    { lifted := a.lifted, next := a.next }) fun f _ => ?_
  have hadded := lowered_add markup
    { a with lifted := f.lifted, next := f.next + 1 }
    (.block head (.mk f.next f.program) f.inverse)
  rw [Statement.lowered_block] at hadded
  exact congrArg Except.ok hadded.symm

/-! ### Tokens -/

/-- A start tag of an element adds an element without children or opens one. -/
theorem startTag_element {tag : StartTag} (helement : IsElement tag) (a : Assembly) (line : Nat) :
    a.startTag tag line =
      restoreAttributes (writtenSpellings tag) a.lifted tag.attributes >>= fun found =>
        if isLeaf tag then
          .ok ({ a with lifted := found.2 }.add
            (.element (writtenName tag) found.1 [] tag.selfClosing))
        else
          .ok ({ a with lifted := found.2 }.push
            (.element tag.name (writtenName tag) found.1 [])) := by
  rw [startTag]
  dsimp only
  rw [if_neg helement.1, if_neg helement.2]
  rfl

theorem lowered_startTag {tag tag' : StartTag} (helement : IsElement tag)
    (h : StartTag.Lowers tag tag') (a : Assembly) (line line' : Nat) :
    (a.lowered markup).startTag tag' line' = (a.startTag tag line).map (lowered markup) := by
  have helement' : IsElement tag' := by
    rw [IsElement, h.name]
    exact helement
  have hleaf : isLeaf tag' = isLeaf tag := by
    rw [isLeaf, isLeaf, h.name, h.selfClosing]
  have hrestored : restoreAttributes (writtenSpellings tag') (a.lowered markup).lifted
      tag'.attributes = (restoreAttributes (writtenSpellings tag) a.lifted tag.attributes).map
        fun found => (found.1.map Attribute.lowered, found.2.withMarkup markup) := by
    rw [← restoreAttributes_own tag', h.own, ← restoreAttributes_own tag]
    exact restoreAttributes_lowered a.lifted h.spelled
  rw [startTag_element helement, startTag_element helement']
  refine bind_eq_map hrestored fun found _ => ?_
  rw [hleaf, h.written, h.name, h.selfClosing]
  split
  · refine congrArg Except.ok ?_
    rw [lowered_add, Statement.lowered_element]
    rfl
  · rfl

theorem agree_endTag (a : Assembly) (name : String) (line line' : Nat) :
    Agree (fun b b' => b' = b.lowered markup) (a.endTag name line)
      ((a.lowered markup).endTag name line') := by
  obtain ⟨lifted, next, stack, body⟩ := a
  rw [endTag, endTag]
  split
  · cases stack with
    | nil => exact .error _ _
    | cons frame stack =>
      cases frame with
      | element name tag attributes children => exact .error _ _
      | block head closed branch inner =>
        refine .of_map ?_
        rw [← lowered_closeBlock]
        simp [lowered, Frame.lowered]
  · split
    · exact .error _ _
    · cases stack with
      | nil => exact .error _ _
      | cons frame stack =>
        cases frame with
        | block head closed branch body => exact .error _ _
        | element opened tag attributes children =>
          have hadded := lowered_add markup { lifted, next, stack, body }
            (.element tag attributes children.reverse false)
          rw [Statement.lowered_element, List.map_reverse] at hadded
          simp only [lowered, List.map_cons, Frame.lowered] at hadded ⊢
          split
          · exact .ok hadded.symm
          · exact .error _ _

theorem agree_read {token token' : Token} (h : Token.Lowers token token') (a : Assembly) :
    Agree (fun b b' => b' = b.lowered markup) (a.read token) ((a.lowered markup).read token') := by
  cases h with
  | text cs => exact .of_map (lowered_addText a cs)
  | comment cs => exact .of_map (lowered_addComment a cs)
  | endTag name line line' => exact agree_endTag a name line line'
  | @marker tag line line' hmarker =>
    rw [read, read, startTag, startTag]
    dsimp only
    split
    · exact agree_openBlock a _ line line'
    · next hblock =>
      have hbranch : tag.name = elseTag := Classical.byContradiction fun h => hmarker ⟨hblock, h⟩
      rw [if_pos hbranch, if_pos hbranch]
      split <;> exact agree_switch a _ line line'
  | element line line' helement htag =>
    exact .of_map (lowered_startTag helement htag a line line')

theorem agree_reads (markup : List Char) {tokens tokens' : List Token}
    (h : List.Forall₂ Token.Lowers tokens tokens') (a : Assembly) :
    Agree (fun b b' => b' = b.lowered markup) (tokens.foldlM read a)
      (tokens'.foldlM read (a.lowered markup)) := by
  induction h generalizing a with
  | nil => exact .ok rfl
  | cons htoken _ ih =>
    rw [List.foldlM_cons, List.foldlM_cons]
    refine (agree_read htoken a).bind fun b b' hb => ?_
    subst hb
    exact ih b

theorem agree_result (a : Assembly) :
    Agree (fun template template' => template' = template.lowered) a.result
      (a.lowered markup).result := by
  obtain ⟨lifted, next, stack, body⟩ := a
  cases stack with
  | nil =>
    have hempty : (lifted.withMarkup markup).isEmpty = lifted.isEmpty := rfl
    simp only [result, lowered, List.map_nil, hempty]
    split
    · exact .ok (by rw [Template.lowered, Statement.loweredOfAll_eq_map, List.map_reverse])
    · exact .error _ _
  | cons frame stack => cases frame <;> exact .error _ _

end Assembly

end MustacheJsx
