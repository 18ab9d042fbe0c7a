import MustacheJsx.Proofs.Printing.Lexing
import MustacheJsx.Proofs.Template.Assembling

/-!
# Assembling the items of a printed template

A text is restored as a whole, when the token after it is read. It comes to the same to restore each
piece where it stands: `Assembly.Absorbs` is what an item does to an assembly then. That reading the
tokens of markup absorbs the items one after another is `Assembly.exists_reads`.
-/

namespace MustacheJsx

def Item.isText : Item → Bool
  | .text _ => true
  | _ => false

/-- Not both items are texts. -/
def Item.Apart (x y : Item) : Prop := ¬(x.isText = true ∧ y.isText = true)

namespace Assembly

/-! ### Pieces of a text -/

def settle (a : Assembly) (pieces : List Piece) : Except SyntaxFault Assembly := do
  let (statements, lifted) ← restore a.lifted pieces
  return statements.foldl add { a with lifted }

theorem settle_nil (a : Assembly) : a.settle [] = .ok a := rfl

theorem addText_eq_settle (a : Assembly) (chars : List Char) :
    a.addText chars = a.settle (Piece.split a.lifted.marker chars) := rfl

theorem add_resume (a : Assembly) (lifted : Lifted) (next : Nat) (statement : Statement) :
    add { a with lifted, next } statement = { a.add statement with lifted, next } := by
  rw [add, add]
  cases a.stack with
  | nil => rfl
  | cons frame stack => cases frame <;> rfl

theorem foldl_add_resume (a : Assembly) (lifted : Lifted) (next : Nat)
    (statements : List Statement) :
    statements.foldl add { a with lifted, next } =
      { statements.foldl add a with lifted, next } := by
  induction statements generalizing a with
  | nil => rfl
  | cons statement statements ih => rw [List.foldl_cons, add_resume, ih, List.foldl_cons]

theorem lifted_foldl_add (a : Assembly) (statements : List Statement) :
    (statements.foldl add a).lifted = a.lifted := by
  induction statements generalizing a with
  | nil => rfl
  | cons statement statements ih => rw [List.foldl_cons, ih, lifted_add]

def restorePiece (lifted : Lifted) : Piece → Except SyntaxFault (Statement × Lifted)
  | .text chars => .ok (.text (String.ofList chars), lifted)
  | .hole none => .error .unknownPlaceholder
  | .hole (some index) =>
    match lifted.take index with
    | (some (.expression m), lifted) => .ok (.mustache m, lifted)
    | (some (.partialCall call), lifted) => .ok (.partialCall call, lifted)
    | (some _, _) => .error .misplacedPlaceholder
    | (none, _) => .error .unknownPlaceholder

theorem restore_cons (lifted : Lifted) (piece : Piece) (pieces : List Piece) :
    restore lifted (piece :: pieces) = (do
      let (statement, lifted) ← restorePiece lifted piece
      let (statements, lifted) ← restore lifted pieces
      return (statement :: statements, lifted)) := by
  cases piece with
  | text chars => rfl
  | hole index =>
    cases index with
    | none => rfl
    | some n =>
      rw [restore.eq_def, restorePiece]
      dsimp only
      cases lifted.take n with
      | mk found lifted' =>
        cases found with
        | none => rfl
        | some placeholder => cases placeholder <;> rfl

theorem restore_append {lifted middle last : Lifted} {xs ys : List Piece}
    {first second : List Statement} (hx : restore lifted xs = .ok (first, middle))
    (hy : restore middle ys = .ok (second, last)) :
    restore lifted (xs ++ ys) = .ok (first ++ second, last) := by
  induction xs generalizing lifted first with
  | nil =>
    cases hx
    exact hy
  | cons piece xs ih =>
    rw [restore_cons] at hx
    obtain ⟨⟨statement, lifted'⟩, hs, hx⟩ := bind_eq_ok hx
    obtain ⟨⟨others, rest⟩, hr, hx⟩ := bind_eq_ok hx
    cases hx
    rw [List.cons_append, restore_cons, hs]
    show (do
      let (statements, lifted) ← restore lifted' (xs ++ ys)
      return (statement :: statements, lifted)) = _
    rw [ih hr]
    rfl

theorem settle_append {a b c : Assembly} {xs ys : List Piece} (hx : a.settle xs = .ok b)
    (hy : b.settle ys = .ok c) : a.settle (xs ++ ys) = .ok c := by
  obtain ⟨⟨first, middle⟩, hfirst, hb⟩ := bind_eq_ok hx
  cases hb
  obtain ⟨⟨second, last⟩, hsecond, hc⟩ := bind_eq_ok hy
  cases hc
  rw [lifted_foldl_add] at hsecond
  rw [settle, restore_append hfirst hsecond]
  show Except.ok _ = Except.ok _
  rw [List.foldl_append, foldl_add_resume a middle a.next, foldl_add_resume a last a.next]

/-! ### Items -/

/-- The item brings one assembly to the other, whatever line it stands on. -/
def Absorbs (marker : Char) (first : Nat) (item : Item) (a b : Assembly) : Prop :=
  b.lifted.marker = a.lifted.marker ∧
    match item.signal marker first with
    | .inl piece => a.settle [piece] = .ok b
    | .inr token => ∀ line, a.read (token line) = .ok b

/-- The items bring one assembly to the other, one after another. -/
def AbsorbsAll (marker : Char) (first : Nat) : List Item → Assembly → Assembly → Prop
  | [], a, b => a = b
  | item :: items, a, c =>
    ∃ b, Absorbs marker first item a b ∧ AbsorbsAll marker (first + item.slots.length) items b c

theorem AbsorbsAll.append {marker : Char} {first : Nat} {xs ys : List Item} {a b c : Assembly}
    (hx : AbsorbsAll marker first xs a b)
    (hy : AbsorbsAll marker (first + (xs.flatMap Item.slots).length) ys b c) :
    AbsorbsAll marker first (xs ++ ys) a c := by
  induction xs generalizing first a with
  | nil =>
    cases hx
    exact hy
  | cons item xs ih =>
    obtain ⟨middle, hitem, hx⟩ := hx
    refine ⟨middle, hitem, ih hx ?_⟩
    rw [List.flatMap_cons, List.length_append] at hy
    rwa [Nat.add_assoc]

theorem absorbsAll_singleton {marker : Char} {first : Nat} {item : Item} {a b : Assembly}
    (h : Absorbs marker first item a b) : AbsorbsAll marker first [item] a b :=
  ⟨b, h, rfl⟩

/-! ### Reading the tokens of items -/

section

variable {marker : Char}

theorem foldlM_textTokens (hmarker : IsMarker marker) {pieces : List Piece}
    (hpieces : Piece.Separated marker pieces) {a b : Assembly} (ha : a.lifted.marker = marker)
    (h : a.settle pieces = .ok b) :
    (Markup.Lexer.textTokens (pieces.flatMap (Piece.rendered marker))).foldlM read a = .ok b := by
  have hsplit := Piece.split_rendered hmarker hpieces
  generalize pieces.flatMap (Piece.rendered marker) = chars at hsplit
  rw [Markup.Lexer.textTokens]
  cases chars with
  | nil =>
    have hnil : pieces = [] := hsplit.symm
    rw [hnil, settle_nil] at h
    exact h
  | cons c cs =>
    have hread : a.read (.text (c :: cs)) = .ok b := by
      rw [read, addText_eq_settle, ha, hsplit, h]
    rw [if_neg (by simp), List.foldlM_cons, hread]
    rfl

/-- A piece that an item means can be found again. -/
theorem isGood_of_signal {first : Nat} {item : Item} (hitem : item.isPlain isKept = true)
    (hfree : marker ∉ item.printed) (hbound : first + item.slots.length ≤ Nat.pow 2 64)
    {piece : Piece}
    (hsignal : item.signal marker first = .inl piece) :
    piece.IsGood marker ∧ piece.isText = item.isText := by
  cases item with
  | text chars =>
    simp only [Item.isPlain, Bool.and_eq_true, Bool.not_eq_true', List.isEmpty_eq_false_iff]
      at hitem
    cases hsignal
    exact ⟨⟨hitem.1, hfree⟩, rfl⟩
  | tag t =>
    cases t with
    | expression m =>
      cases hsignal
      exact ⟨⟨first, Nat.lt_of_succ_le hbound, rfl⟩, rfl⟩
    | partialCall call =>
      cases hsignal
      exact ⟨⟨first, Nat.lt_of_succ_le hbound, rfl⟩, rfl⟩
    | elseBranch chain =>
      cases chain with
      | none => cases hsignal
      | some head => cases hsignal
    | _ => cases hsignal
  | _ => cases hsignal

/-- Reading the tokens of items absorbs the items. At any time the text that is pending stands for
the items since the last token; once it is settled, the assembly has absorbed all items so far. -/
theorem exists_reads (hmarker : IsMarker marker) {items : List Item}
    (hplain : ∀ item ∈ items, item.isPlain isKept = true)
    (hfree : ∀ item ∈ items, marker ∉ item.printed)
    (hapart : items.IsChain Item.Apart) (first : Nat)
    (hbound : first + (items.flatMap Item.slots).length ≤ Nat.pow 2 64)
    (m : Markup.Lexer.Machine) (pieces : List Piece)
    (hm : Markup.Lexer.InText m (pieces.flatMap (Piece.rendered marker)))
    (hpieces : Piece.Separated marker pieces)
    (hlast : ∀ last ∈ pieces.getLast?, ∀ item ∈ items.head?,
      ¬(last.isText = true ∧ item.isText = true))
    {a s s' : Assembly} (ha : a.lifted.marker = marker) (hs : s.lifted.marker = marker)
    (hsettle : a.settle pieces = .ok s) (habsorbs : AbsorbsAll marker first items s s') :
    ∃ tokens m' pieces' a', Markup.Lexer.Lexes (itemsMarkup marker first items) m tokens m' ∧
      tokens.foldlM read a = .ok a' ∧
      Markup.Lexer.InText m' (pieces'.flatMap (Piece.rendered marker)) ∧
      Piece.Separated marker pieces' ∧ a'.lifted.marker = marker ∧
      a'.settle pieces' = .ok s' := by
  induction items generalizing m pieces a s first with
  | nil =>
    cases habsorbs
    exact ⟨[], m, pieces, a, Markup.Lexer.lexes_nil m, rfl, hm, hpieces, ha, hsettle⟩
  | cons item items ih =>
    obtain ⟨middle, ⟨hkept, hitem⟩, hrest⟩ := habsorbs
    have hplainItem := hplain item List.mem_cons_self
    have hplainRest : ∀ item ∈ items, item.isPlain isKept = true :=
      fun item hi => hplain item (List.mem_cons_of_mem _ hi)
    have hfreeRest : ∀ item ∈ items, marker ∉ item.printed :=
      fun item hi => hfree item (List.mem_cons_of_mem _ hi)
    obtain ⟨hnext, hapartRest⟩ := List.isChain_cons.1 hapart
    rw [List.flatMap_cons, List.length_append] at hbound
    have hmiddle : middle.lifted.marker = marker := by rw [hkept, hs]
    cases hsignal : item.signal marker first with
    | inl piece =>
      rw [hsignal] at hitem
      dsimp only at hitem
      obtain ⟨hgood, htext⟩ := isGood_of_signal hplainItem (hfree item List.mem_cons_self)
        (show first + item.slots.length ≤ Nat.pow 2 64 by omega) hsignal
      obtain ⟨after, hlexes, hafter⟩ := hm.lexes_piece hmarker hplainItem hsignal
      have hseparated : Piece.Separated marker (pieces ++ [piece]) := by
        refine hpieces.concat hgood fun last hl => ?_
        rw [htext]
        exact hlast last hl item rfl
      have hlast' : ∀ last ∈ (pieces ++ [piece]).getLast?, ∀ next ∈ items.head?,
          ¬(last.isText = true ∧ next.isText = true) := by
        intro last hl next hn
        rw [List.getLast?_concat] at hl
        cases hl
        rw [htext]
        exact hnext next hn
      have hafter' : Markup.Lexer.InText after
          ((pieces ++ [piece]).flatMap (Piece.rendered marker)) := by
        simpa using hafter
      obtain ⟨tokens, m', pieces', a', hlexes', hread, hm', hpieces', ha', hsettle'⟩ :=
        ih hplainRest hfreeRest hapartRest _ (by omega) _ _ hafter' hseparated hlast' ha hmiddle
          (settle_append hsettle hitem) hrest
      exact ⟨tokens, m', pieces', a', hlexes.append hlexes', hread, hm', hpieces', ha', hsettle'⟩
    | inr token =>
      rw [hsignal] at hitem
      dsimp only at hitem
      obtain ⟨line, after, hlexes, hafter⟩ := hm.lexes_token hmarker hplainItem hsignal
      have htokens := foldlM_textTokens hmarker hpieces ha hsettle
      obtain ⟨tokens, m', pieces', a', hlexes', hread, hm', hpieces', ha', hsettle'⟩ :=
        ih hplainRest hfreeRest hapartRest _ (by omega) after []
          hafter ⟨by simp, List.isChain_nil⟩ (by simp) hmiddle hmiddle (settle_nil middle) hrest
      refine ⟨_, m', pieces', a', hlexes.append hlexes', ?_, hm', hpieces', ha', hsettle'⟩
      rw [List.append_assoc, List.foldlM_append, htokens]
      show (do
        let b ← s.read (token line)
        tokens.foldlM read b) = .ok a'
      rw [hitem line]
      exact hread

end

end Assembly

end MustacheJsx
