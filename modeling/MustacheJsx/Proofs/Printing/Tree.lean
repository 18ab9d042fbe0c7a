import MustacheJsx.Proofs.Printing.Restoring

/-!
# Building a printed template again

What the items of a statement build is the statement, up to numbers: `Assembly.Builds`. An element
and a block build what their branches build in a frame of their own, so that the frames below it do
not matter.
-/

namespace MustacheJsx

open Statement (itemsOfAll itemsOfBody unnumberedAll unnumberedAttributes unnumberedBody allPlain
  bodyIsPlain textsApart)

/-! ### Texts that do not touch -/

namespace Item

theorem apart_of_left {x y : Item} (h : x.isText = false) : x.Apart y := by
  rintro ⟨hx, -⟩
  rw [h] at hx
  cases hx

theorem apart_of_right {x y : Item} (h : y.isText = false) : x.Apart y := by
  rintro ⟨-, hy⟩
  rw [h] at hy
  cases hy

theorem isChain_cons {x : Item} {xs : List Item} (hx : x.isText = false)
    (hxs : xs.IsChain Apart) : (x :: xs).IsChain Apart :=
  List.isChain_cons.2 ⟨fun _ _ => apart_of_left hx, hxs⟩

theorem isChain_append {xs ys : List Item} {y : Item} (hxs : xs.IsChain Apart)
    (hys : (y :: ys).IsChain Apart) (hy : y.isText = false) : (xs ++ y :: ys).IsChain Apart := by
  rw [List.isChain_append]
  refine ⟨hxs, hys, fun x _ next hnext => ?_⟩
  cases hnext
  exact apart_of_right hy

end Item

namespace Statement

/-- The outermost items of a statement are texts only if it is one. -/
theorem exists_items (statement : Statement) :
    ∃ first last, statement.items.head? = some first ∧ statement.items.getLast? = some last ∧
      first.isText = statement.isText ∧ last.isText = statement.isText := by
  cases statement with
  | element tag attributes children selfClosing =>
    cases selfClosing with
    | true => exact ⟨_, _, rfl, rfl, rfl, rfl⟩
    | false =>
      refine ⟨_, .endTag tag, rfl, ?_, rfl, rfl⟩
      show (Item.startTag tag attributes false ::
        (itemsOfAll children ++ [.endTag tag])).getLast? = _
      rw [← List.cons_append, List.getLast?_concat]
  | block head program inverse =>
    refine ⟨_, .tag (.closeBlock head.name), rfl, ?_, rfl, rfl⟩
    rw [items.eq_def]
    dsimp only
    rw [← List.append_assoc, ← List.cons_append, List.getLast?_concat]
  | _ => exact ⟨_, _, rfl, rfl, rfl, rfl⟩

mutual

theorem isChain_items (statement : Statement) (h : statement.isPlain isKept = true) :
    statement.items.IsChain Item.Apart := by
  match statement with
  | .element tag attributes children selfClosing =>
    simp only [isPlain, Bool.and_eq_true] at h
    have hchildren := isChain_itemsOfAll children h.1.2.1 h.1.2.2
    cases selfClosing with
    | true => exact List.isChain_singleton _
    | false =>
      exact Item.isChain_cons rfl
        (Item.isChain_append hchildren (List.isChain_singleton _) rfl)
  | .text chars => exact List.isChain_singleton _
  | .mustache m => exact List.isChain_singleton _
  | .block head program inverse =>
    rw [isPlain.eq_def] at h
    simp only [Bool.and_eq_true] at h
    have hprogram := isChain_itemsOfBody program h.1.2
    match inverse with
    | none =>
      exact Item.isChain_cons rfl
        (Item.isChain_append hprogram (List.isChain_singleton _) rfl)
    | some body =>
      have hbody := isChain_itemsOfBody body h.2
      exact Item.isChain_cons rfl (Item.isChain_append hprogram
        (Item.isChain_cons rfl (Item.isChain_append hbody (List.isChain_singleton _) rfl)) rfl)
  | .partialCall call => exact List.isChain_singleton _
  | .mustacheComment value => exact List.isChain_singleton _
  | .markupComment value => exact List.isChain_singleton _

theorem isChain_itemsOfAll (statements : List Statement)
    (hplain : allPlain isKept statements = true) (hapart : textsApart statements = true) :
    (itemsOfAll statements).IsChain Item.Apart := by
  match statements with
  | [] => exact List.isChain_nil
  | [statement] =>
    rw [allPlain, Bool.and_eq_true] at hplain
    rw [itemsOfAll, itemsOfAll, List.append_nil]
    exact isChain_items statement hplain.1
  | statement :: next :: statements =>
    rw [allPlain, Bool.and_eq_true] at hplain
    rw [textsApart, Bool.and_eq_true] at hapart
    have hfirst := isChain_items statement hplain.1
    have hrest := isChain_itemsOfAll (next :: statements) hplain.2 hapart.2
    obtain ⟨-, last, -, hlast, -, hlastText⟩ := statement.exists_items
    obtain ⟨head, -, hhead, -, hheadText, -⟩ := next.exists_items
    rw [itemsOfAll, List.isChain_append]
    refine ⟨hfirst, hrest, fun x hx y hy => ?_⟩
    rw [hlast] at hx
    cases hx
    rw [itemsOfAll, List.head?_append, hhead] at hy
    cases hy
    rintro ⟨hlastIs, hheadIs⟩
    rw [← hlastText, ← hheadText, hlastIs, hheadIs] at hapart
    cases hapart.1

theorem isChain_itemsOfBody (body : Body) (h : bodyIsPlain isKept body = true) :
    (itemsOfBody body).IsChain Item.Apart := by
  match body with
  | .mk id statements =>
    rw [bodyIsPlain, Bool.and_eq_true] at h
    exact isChain_itemsOfAll statements h.1 h.2

end

end Statement

/-! ### Building statements -/

namespace Assembly

/-- Reading the items adds the statements, up to numbers, to whatever frame is open, and takes the
tags of the items. -/
def Builds (marker : Char) (items : List Item) (statements : List Statement) : Prop :=
  ∀ (a : Assembly) first waiting,
    a.lifted.Waits marker first (items.flatMap Item.slots ++ waiting) →
    ∃ found lifted next,
      AbsorbsAll marker first items a (found.foldl add { a with lifted, next }) ∧
      lifted.Waits marker (first + (items.flatMap Item.slots).length) waiting ∧
      unnumberedAll found = unnumberedAll statements

section

variable {marker : Char} {first : Nat} {a b : Assembly}

theorem builds_nil : Builds marker [] [] :=
  fun a _ _ h => ⟨[], a.lifted, a.next, rfl, h, rfl⟩

theorem Builds.append {xs ys : List Item} {ss ts : List Statement} (hx : Builds marker xs ss)
    (hy : Builds marker ys ts) : Builds marker (xs ++ ys) (ss ++ ts) := by
  intro a first waiting h
  rw [List.flatMap_append, List.append_assoc] at h
  obtain ⟨foundXs, middle, next, hxs, hmiddle, hss⟩ := hx a first _ h
  have hbetween : (foundXs.foldl add { a with lifted := middle, next }).lifted = middle :=
    lifted_foldl_add ..
  rw [← hbetween] at hmiddle
  obtain ⟨foundYs, lifted, next', hys, hwaits, hts⟩ := hy _ _ waiting hmiddle
  refine ⟨foundXs ++ foundYs, lifted, next', ?_, ?_, ?_⟩
  · have hall := hxs.append hys
    have hresume : (foundXs ++ foundYs).foldl add { a with lifted, next := next' } =
        foundYs.foldl add
          { foundXs.foldl add { a with lifted := middle, next } with lifted, next := next' } := by
      rw [List.foldl_append, foldl_add_resume a middle, foldl_add_resume a lifted]
    rw [hresume]
    exact hall
  · rw [List.flatMap_append, List.length_append, ← Nat.add_assoc]
    exact hwaits
  · rw [Statement.unnumberedAll_append, Statement.unnumberedAll_append, hss, hts]

/-- An item that is a piece of a text is absorbed when the piece is restored. -/
theorem absorbs_of_piece {item : Item} {piece : Piece} {statement : Statement} {lifted : Lifted}
    (hsignal : item.signal marker first = .inl piece)
    (hrestore : restorePiece a.lifted piece = .ok (statement, lifted))
    (hmarker : lifted.marker = a.lifted.marker) :
    Absorbs marker first item a ({ a with lifted }.add statement) := by
  refine ⟨?_, ?_⟩
  · rw [lifted_add]
    exact hmarker
  · rw [hsignal]
    dsimp only
    rw [settle, restore_cons, hrestore]
    rfl

theorem absorbs_of_token {item : Item} {token : Nat → Markup.Token}
    (hsignal : item.signal marker first = .inr token) (hread : ∀ line, a.read (token line) = .ok b)
    (hmarker : b.lifted.marker = a.lifted.marker) : Absorbs marker first item a b := by
  refine ⟨hmarker, ?_⟩
  rw [hsignal]
  exact hread

/-! ### Text and comments -/

theorem builds_text (chars : String) : Builds marker [.text chars] [.text chars] := by
  intro a first waiting h
  have hofList : String.ofList chars.toList = chars := String.ofList_toList
  refine ⟨[.text chars], a.lifted, a.next, ?_, h, rfl⟩
  refine absorbsAll_singleton (absorbs_of_piece rfl ?_ rfl)
  rw [restorePiece, hofList]

theorem builds_mustache (m : Mustache) :
    Builds marker [.tag (.expression m)] [.mustache m] := by
  intro a first waiting h
  obtain ⟨m', lifted, htake, hm, hwaits⟩ := Lifted.Waits.take_expression h
  refine ⟨[.mustache m'], lifted, a.next, ?_, hwaits, ?_⟩
  · refine absorbsAll_singleton (absorbs_of_piece rfl ?_ ?_)
    · rw [restorePiece, htake]
    · rw [hwaits.marker, h.marker]
  · simp only [unnumberedAll, Statement.unnumbered, hm]

theorem builds_partialCall (call : PartialCall) :
    Builds marker [.tag (.partialCall call)] [.partialCall call] := by
  intro a first waiting h
  obtain ⟨call', lifted, htake, hcall, hwaits⟩ := Lifted.Waits.take_partialCall h
  refine ⟨[.partialCall call'], lifted, a.next, ?_, hwaits, ?_⟩
  · refine absorbsAll_singleton (absorbs_of_piece rfl ?_ ?_)
    · rw [restorePiece, htake]
    · rw [hwaits.marker, h.marker]
  · simp only [unnumberedAll, Statement.unnumbered, hcall]

theorem builds_mustacheComment (hmarker : IsMarker marker) (value : String) :
    Builds marker [.tag (.comment value)] [.mustacheComment value] := by
  intro a first waiting h
  obtain ⟨lifted, htake, hwaits⟩ := Lifted.Waits.take_comment h
  refine ⟨[.mustacheComment value], lifted, a.next, ?_, hwaits, rfl⟩
  refine absorbsAll_singleton (absorbs_of_token rfl (fun line => ?_) ?_)
  · rw [read, addComment, h.marker, Piece.whole?_placeholderText hmarker (Lifted.Waits.lt h)]
    dsimp only
    rw [htake]
    rfl
  · rw [lifted_foldl_add, h.marker]
    exact hwaits.marker

theorem builds_markupComment {value : String} (hfree : marker ∉ value.toList) :
    Builds marker [.comment value] [.markupComment value] := by
  intro a first waiting h
  have hofList : String.ofList value.toList = value := String.ofList_toList
  refine ⟨[.markupComment value], a.lifted, a.next, ?_, h, rfl⟩
  refine absorbsAll_singleton (absorbs_of_token rfl (fun line => ?_) ?_)
  · rw [read, addComment, h.marker, Piece.whole?_of_not_mem hfree, hofList]
    rfl
  · rw [lifted_foldl_add]

/-! ### Elements -/

theorem foldl_add_element (a : Assembly) (name tag : String) (attributes : List Attribute)
    (children : List Statement) (stack : List Frame) (statements : List Statement) :
    statements.foldl add { a with stack := .element name tag attributes children :: stack } =
      { a with
        stack := .element name tag attributes (statements.reverse ++ children) :: stack } := by
  induction statements generalizing children with
  | nil => rfl
  | cons statement statements ih =>
    have hfirst : add { a with stack := .element name tag attributes children :: stack } statement =
        { a with stack := .element name tag attributes (statement :: children) :: stack } := rfl
    rw [List.foldl_cons, hfirst, ih, List.reverse_cons, List.append_assoc, List.singleton_append]

/-- Attributes with plain names have no part in reading markup back. -/
theorem attribute?_renderedAttributes {attributes : List Attribute} (first : Nat)
    (h : ∀ entry ∈ attributes, isSmallName entry.name = true) {other : String}
    (hother : '-' ∈ other.toList) (name : String) (selfClosing : Bool) :
    Markup.StartTag.attribute?
      { name, attributes := renderedAttributes marker first attributes, selfClosing } other =
        none := by
  have hnone : (renderedAttributes marker first attributes).find?
      (fun entry => entry.1 == other) = none := by
    induction attributes generalizing first with
    | nil => rfl
    | cons entry attributes ih =>
      have hne := isSmallName_ne (h entry List.mem_cons_self) hother
      have hrest := ih (first + entry.value.slots.length)
        fun e he => h e (List.mem_cons_of_mem _ he)
      have hkey : (entry.name == other) = false := beq_eq_false_iff_ne.2 hne
      rw [renderedAttributes, List.find?_cons, hrest]
      dsimp only
      rw [hkey]
  rw [Markup.StartTag.attribute?, hnone]
  rfl

/-- The start tag of an element adds the element, or opens it. -/
theorem exists_startTag {tag : String} {attributes : List Attribute} {selfClosing : Bool}
    (hmarker : IsMarker marker)
    (hplain : (Item.startTag tag attributes selfClosing).isPlain isKept = true)
    (hfree : marker ∉ (Item.startTag tag attributes selfClosing).printed) {waiting : List Slot}
    (h : a.lifted.Waits marker first
      ((Item.startTag tag attributes selfClosing).slots ++ waiting)) :
    ∃ attributes' lifted, unnumberedAttributes attributes' = unnumberedAttributes attributes ∧
      lifted.Waits marker
        (first + (Item.startTag tag attributes selfClosing).slots.length) waiting ∧
      ∀ line, a.startTag { name := tag
                           attributes := renderedAttributes marker first attributes
                           selfClosing } line =
        .ok (if selfClosing then { a with lifted }.add (.element tag attributes' [] true)
          else { a with lifted }.push (.element tag tag attributes' [])) := by
  simp only [Item.isPlain, isPlainTagName, attributesArePlain, Bool.and_eq_true,
    Bool.not_eq_true', List.all_eq_true] at hplain
  obtain ⟨⟨⟨hname, hvoid⟩, -⟩, hattributes, -⟩ := hplain
  have hfreeAttributes : marker ∉ attributes.flatMap Attribute.printed := by
    intro hm
    exact hfree (List.mem_cons_of_mem _ (List.mem_append_right _ (List.mem_append_left _ hm)))
  obtain ⟨attributes', lifted, hrestore, hattributes', hwaits⟩ :=
    exists_restoreAttributes hmarker hattributes hfreeAttributes h
  refine ⟨attributes', lifted, hattributes', hwaits, fun line => ?_⟩
  have hnames : ∀ entry ∈ attributes, isSmallName entry.name = true :=
    fun entry he => (hattributes entry he).1
  rw [startTag.eq_def]
  dsimp only
  rw [if_neg (isSmallName_ne hname (by decide)), if_neg (isSmallName_ne hname (by decide)),
    attribute?_renderedAttributes first hnames (by decide),
    attribute?_renderedAttributes first hnames (by decide), hvoid, Bool.or_false]
  have hwords : Text.words ((none : Option String).getD "").toList = [] := rfl
  rw [hwords, hrestore, ok_bind]
  cases selfClosing with
  | true => rfl
  | false => rfl

theorem builds_selfClosing {tag : String} {attributes : List Attribute} (hmarker : IsMarker marker)
    (hplain : (Item.startTag tag attributes true).isPlain isKept = true)
    (hfree : marker ∉ (Item.startTag tag attributes true).printed) :
    Builds marker [.startTag tag attributes true] [.element tag attributes [] true] := by
  intro a first waiting h
  rw [List.flatMap_singleton] at h ⊢
  obtain ⟨attributes', lifted, hattributes, hwaits, hread⟩ :=
    exists_startTag hmarker hplain hfree h
  refine ⟨[.element tag attributes' [] true], lifted, a.next, ?_, hwaits, ?_⟩
  · refine absorbsAll_singleton (absorbs_of_token rfl hread ?_)
    rw [lifted_foldl_add, h.marker]
    exact hwaits.marker
  · simp only [unnumberedAll, Statement.unnumbered, hattributes]

/-- The end tag of an element adds the element with what has been read since its start tag. -/
theorem endTag_element {tag : String} (hplain : isPlainTagName tag = true)
    {attributes : List Attribute} {children : List Statement} {stack : List Frame}
    (h : a.stack = .element tag tag attributes children :: stack) (line : Nat) :
    a.endTag tag line =
      .ok ({ a with stack }.add (.element tag attributes children.reverse false)) := by
  simp only [isPlainTagName, Bool.and_eq_true, Bool.not_eq_true'] at hplain
  obtain ⟨⟨hname, hvoid⟩, -⟩ := hplain
  rw [endTag, if_neg (isSmallName_ne hname (by decide)), hvoid, h]
  simp

/-- An element between its tags. -/
theorem builds_element {tag : String} {attributes : List Attribute} {items : List Item}
    {children : List Statement} (hmarker : IsMarker marker)
    (hplain : (Item.startTag tag attributes false).isPlain isKept = true)
    (hfree : marker ∉ (Item.startTag tag attributes false).printed)
    (hchildren : Builds marker items children) :
    Builds marker (.startTag tag attributes false :: (items ++ [.endTag tag]))
      [.element tag attributes children false] := by
  intro a first waiting h
  have htag : isPlainTagName tag = true := by
    simp only [Item.isPlain, Bool.and_eq_true] at hplain
    exact hplain.1
  have hslots : (Item.startTag tag attributes false :: (items ++ [.endTag tag])).flatMap
      Item.slots = (Item.startTag tag attributes false).slots ++ items.flatMap Item.slots := by
    rw [List.flatMap_cons, List.flatMap_append]
    simp [Item.slots]
  rw [hslots, List.append_assoc] at h
  obtain ⟨attributes', middle, hattributes, hmiddle, hread⟩ :=
    exists_startTag hmarker hplain hfree h
  obtain ⟨found, lifted, next, hitems, hwaits, hfound⟩ := hchildren
    ({ a with lifted := middle }.push (.element tag tag attributes' [])) _ waiting hmiddle
  have hopened : found.foldl add { ({ a with lifted := middle }.push
      (.element tag tag attributes' [])) with lifted, next } =
        { a with
          lifted, next
          stack := .element tag tag attributes' (found.reverse ++ []) :: a.stack } :=
    foldl_add_element { a with lifted, next } tag tag attributes' [] a.stack found
  rw [hopened, List.append_nil] at hitems
  have hclosed : ∀ line, endTag { a with
      lifted, next
      stack := .element tag tag attributes' found.reverse :: a.stack } tag line =
        .ok ({ a with lifted, next }.add (.element tag attributes' found false)) := by
    intro line
    rw [endTag_element htag rfl, List.reverse_reverse]
  refine ⟨[.element tag attributes' found false], lifted, next, ?_, ?_, ?_⟩
  · refine ⟨_, absorbs_of_token rfl hread ?_, hitems.append (absorbsAll_singleton
      (absorbs_of_token rfl hclosed ?_))⟩
    · exact hmiddle.marker.trans h.marker.symm
    · rw [lifted_foldl_add]
  · rw [hslots, List.length_append, ← Nat.add_assoc]
    exact hwaits
  · simp only [unnumberedAll, Statement.unnumbered, hattributes, hfound]

/-! ### Blocks -/

theorem foldl_add_block (a : Assembly) (head : BlockHead)
    (closed : List (Branch × List Statement)) (branch : Branch) (body : List Statement)
    (stack : List Frame) (statements : List Statement) :
    statements.foldl add { a with stack := .block head closed branch body :: stack } =
      { a with stack := .block head closed branch (statements.reverse ++ body) :: stack } := by
  induction statements generalizing body with
  | nil => rfl
  | cons statement statements ih =>
    have hfirst : add { a with stack := .block head closed branch body :: stack } statement =
        { a with stack := .block head closed branch (statement :: body) :: stack } := rfl
    rw [List.foldl_cons, hfirst, ih, List.reverse_cons, List.append_assoc, List.singleton_append]

/-- The opening of a block and its program leave the block open. -/
theorem exists_program {head : BlockHead} {items : List Item} {program : List Statement}
    (hprogram : Builds marker items program) {waiting : List Slot}
    (h : a.lifted.Waits marker first
      ((.block head, false) :: (items.flatMap Item.slots ++ waiting))) :
    ∃ head' found lifted next,
      AbsorbsAll marker first (.tag (.openBlock head) :: items) a
        { a with
          lifted, next
          stack := .block head' [] .program found.reverse :: a.stack } ∧
      head'.unnumbered = head.unnumbered ∧ unnumberedAll found = unnumberedAll program ∧
      lifted.Waits marker (first + 1 + (items.flatMap Item.slots).length) waiting := by
  obtain ⟨head', middle, htake, hhead, hmiddle⟩ := Lifted.Waits.take_block h
  have hopen : ∀ line, a.startTag
      { name := blockTag, attributes := numberAttributes first, selfClosing := false } line =
        .ok ({ a with lifted := middle }.push (.block head' [] .program [])) := by
    intro line
    have hdigits : (String.ofList (Nat.toDigits 10 first)).toList = Nat.toDigits 10 first :=
      String.toList_ofList
    have hnumber : Markup.StartTag.attribute?
        { name := blockTag, attributes := numberAttributes first, selfClosing := false }
          numberAttribute = some (String.ofList (Nat.toDigits 10 first)) := by
      simp [Markup.StartTag.attribute?, numberAttributes]
    rw [startTag.eq_def, hnumber]
    dsimp only [Option.bind_some]
    rw [if_pos rfl, hdigits, signedIndex?_toDigits (Lifted.Waits.lt h), openBlock]
    dsimp only [Option.map_some]
    rw [htake]
  obtain ⟨found, lifted, next, hitems, hwaits, hfound⟩ := hprogram
    ({ a with lifted := middle }.push (.block head' [] .program [])) _ waiting hmiddle
  have hopened : found.foldl add { ({ a with lifted := middle }.push
      (.block head' [] .program [])) with lifted, next } =
        { a with
          lifted, next
          stack := .block head' [] .program (found.reverse ++ []) :: a.stack } :=
    foldl_add_block { a with lifted, next } head' [] .program [] a.stack found
  rw [hopened, List.append_nil] at hitems
  exact ⟨head', found, lifted, next,
    ⟨_, absorbs_of_token rfl hopen (hmiddle.marker.trans h.marker.symm), hitems⟩,
    hhead, hfound, hwaits⟩

theorem builds_block {head : BlockHead} {items : List Item} {program : List Statement} {id : Nat}
    (hprogram : Builds marker items program) :
    Builds marker (.tag (.openBlock head) :: (items ++ [.tag (.closeBlock head.name)]))
      [.block head (.mk id program) none] := by
  intro a first waiting h
  have hslots : (Item.tag (.openBlock head) :: (items ++ [.tag (.closeBlock head.name)])).flatMap
      Item.slots = (.block head, false) :: items.flatMap Item.slots := by
    rw [List.flatMap_cons, List.flatMap_append]
    simp [Item.slots, Tag.slots]
  rw [hslots] at h ⊢
  obtain ⟨head', found, lifted, next, hitems, hhead, hfound, hwaits⟩ := exists_program hprogram h
  have hclose : ∀ line, endTag { a with
      lifted, next
      stack := .block head' [] .program found.reverse :: a.stack } blockTag line =
        .ok ({ a with lifted, next := next + 1 }.add (.block head' (.mk next found) none)) := by
    intro line
    rw [endTag, if_pos rfl]
    dsimp only
    rw [List.reverse_reverse]
    rfl
  refine ⟨[.block head' (.mk next found) none], lifted, next + 1, ?_, ?_, ?_⟩
  · refine hitems.append (absorbsAll_singleton (absorbs_of_token rfl hclose ?_))
    rw [lifted_foldl_add]
  · rw [List.length_cons, Nat.add_comm _ 1, ← Nat.add_assoc]
    exact hwaits
  · simp only [unnumberedAll, Statement.unnumbered, unnumberedBody, hhead, hfound]

theorem builds_block_inverse {head : BlockHead} {items others : List Item}
    {program inverse : List Statement} {id id' : Nat} (hprogram : Builds marker items program)
    (hinverse : Builds marker others inverse) :
    Builds marker (.tag (.openBlock head) :: (items ++
        (.tag (.elseBranch none) :: (others ++ [.tag (.closeBlock head.name)]))))
      [.block head (.mk id program) (some (.mk id' inverse))] := by
  intro a first waiting h
  have hslots : (Item.tag (.openBlock head) :: (items ++ (.tag (.elseBranch none) ::
      (others ++ [.tag (.closeBlock head.name)])))).flatMap Item.slots =
        (.block head, false) :: (items.flatMap Item.slots ++ others.flatMap Item.slots) := by
    rw [List.flatMap_cons, List.flatMap_append, List.flatMap_cons, List.flatMap_append]
    simp [Item.slots, Tag.slots]
  rw [hslots] at h ⊢
  rw [List.cons_append, List.append_assoc] at h
  obtain ⟨head', found, middle, next, hitems, hhead, hfound, hmiddle⟩ := exists_program hprogram h
  have hswitch : ∀ line, startTag { a with
      lifted := middle, next
      stack := .block head' [] .program found.reverse :: a.stack }
        { name := elseTag, attributes := [], selfClosing := false } line =
        .ok { a with
          lifted := middle, next
          stack := .block head' [(.program, found)] .otherwise [] :: a.stack } := by
    intro line
    have hdifferent : elseTag ≠ blockTag := by decide
    rw [startTag.eq_def]
    dsimp only
    rw [if_neg hdifferent, if_pos rfl]
    show switch _ .otherwise line = _
    rw [switch]
    dsimp only
    rw [List.reverse_reverse]
  obtain ⟨found', lifted, next', hothers, hwaits, hfound'⟩ := hinverse
    { a with
      lifted := middle, next
      stack := .block head' [(.program, found)] .otherwise [] :: a.stack } _ waiting hmiddle
  have hopened := foldl_add_block { a with lifted, next := next' } head' [(.program, found)]
    .otherwise [] a.stack found'
  dsimp only at hopened
  rw [hopened, List.append_nil] at hothers
  have hclose : ∀ line, endTag { a with
      lifted, next := next'
      stack := .block head' [(.program, found)] .otherwise found'.reverse :: a.stack }
        blockTag line =
        .ok ({ a with lifted, next := next' + 2 }.add
          (.block head' (.mk (next' + 1) found) (some (.mk next' found')))) := by
    intro line
    rw [endTag, if_pos rfl]
    dsimp only
    rw [List.reverse_reverse]
    rfl
  refine ⟨[.block head' (.mk (next' + 1) found) (some (.mk next' found'))], lifted, next' + 2,
    ?_, ?_, ?_⟩
  · have hindex : first + ((Item.tag (.openBlock head) :: items).flatMap Item.slots).length =
        first + 1 + (items.flatMap Item.slots).length := by
      rw [List.flatMap_cons, List.length_append]
      exact (Nat.add_assoc ..).symm
    refine hitems.append ?_
    rw [hindex]
    refine ⟨_, absorbs_of_token rfl hswitch rfl, hothers.append (absorbsAll_singleton
      (absorbs_of_token rfl hclose ?_))⟩
    rw [lifted_foldl_add]
  · rw [List.length_cons, List.length_append]
    have hlength : first + ((items.flatMap Item.slots).length +
        (others.flatMap Item.slots).length + 1) =
          first + 1 + (items.flatMap Item.slots).length + (others.flatMap Item.slots).length := by
      omega
    rw [hlength]
    exact hwaits
  · simp only [unnumberedAll, Statement.unnumbered, unnumberedBody, hhead, hfound, hfound']

end

/-! ### Trees -/

section

variable {marker : Char}

mutual

theorem builds_items (hmarker : IsMarker marker) (statement : Statement)
    (hplain : statement.isPlain isKept = true)
    (hfree : ∀ item ∈ statement.items, marker ∉ item.printed) :
    Builds marker statement.items [statement] := by
  match statement with
  | .element tag attributes children selfClosing =>
    have hitems := Statement.isPlain_of_mem_items _ hplain
    simp only [Statement.isPlain, Bool.and_eq_true] at hplain
    obtain ⟨⟨-, hchildren, -⟩, hempty⟩ := hplain
    have hstart := hitems _ List.mem_cons_self
    have hfreeStart := hfree _ List.mem_cons_self
    cases selfClosing with
    | true =>
      have hnil : children = [] := List.isEmpty_iff.1 hempty
      rw [hnil]
      exact builds_selfClosing hmarker hstart hfreeStart
    | false =>
      refine builds_element hmarker hstart hfreeStart
        (builds_itemsOfAll hmarker children hchildren fun item hi => hfree item ?_)
      exact List.mem_cons_of_mem _ (List.mem_append_left _ hi)
  | .text chars => exact builds_text chars
  | .mustache m => exact builds_mustache m
  | .block head (.mk id program) none =>
    rw [Statement.isPlain.eq_def] at hplain
    simp only [Bool.and_eq_true] at hplain
    refine builds_block (builds_itemsOfBody hmarker (.mk id program) hplain.1.2
      fun item hi => hfree item ?_)
    exact List.mem_cons_of_mem _ (List.mem_append_left _ hi)
  | .block head (.mk id program) (some (.mk id' inverse)) =>
    rw [Statement.isPlain.eq_def] at hplain
    simp only [Bool.and_eq_true] at hplain
    refine builds_block_inverse
      (builds_itemsOfBody hmarker (.mk id program) hplain.1.2 fun item hi => hfree item ?_)
      (builds_itemsOfBody hmarker (.mk id' inverse) hplain.2 fun item hi => hfree item ?_)
    · exact List.mem_cons_of_mem _ (List.mem_append_left _ hi)
    · exact List.mem_cons_of_mem _ (List.mem_append_right _ (List.mem_cons_of_mem _
        (List.mem_append_left _ hi)))
  | .partialCall call => exact builds_partialCall call
  | .mustacheComment value => exact builds_mustacheComment hmarker value
  | .markupComment value =>
    refine builds_markupComment fun hm => hfree _ List.mem_cons_self ?_
    rw [Item.printed]
    simp [hm]

theorem builds_itemsOfAll (hmarker : IsMarker marker) (statements : List Statement)
    (hplain : allPlain isKept statements = true)
    (hfree : ∀ item ∈ itemsOfAll statements, marker ∉ item.printed) :
    Builds marker (itemsOfAll statements) statements := by
  match statements with
  | [] => exact builds_nil
  | statement :: statements =>
    rw [allPlain, Bool.and_eq_true] at hplain
    have hfirst := builds_items hmarker statement hplain.1
      fun item hi => hfree item (List.mem_append_left _ hi)
    have hrest := builds_itemsOfAll hmarker statements hplain.2
      fun item hi => hfree item (List.mem_append_right _ hi)
    exact hfirst.append hrest

theorem builds_itemsOfBody (hmarker : IsMarker marker) (body : Body)
    (hplain : bodyIsPlain isKept body = true)
    (hfree : ∀ item ∈ itemsOfBody body, marker ∉ item.printed) :
    Builds marker (itemsOfBody body) body.statements := by
  match body with
  | .mk id statements =>
    rw [bodyIsPlain, Bool.and_eq_true] at hplain
    exact builds_itemsOfAll hmarker statements hplain.1 hfree

end

end

end Assembly

end MustacheJsx
