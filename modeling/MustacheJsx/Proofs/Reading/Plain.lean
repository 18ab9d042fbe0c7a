import MustacheJsx.Proofs.Reading.Stack
import MustacheJsx.Proofs.Reading.Unbraced
import MustacheJsx.Proofs.Reading.Unmarked

/-!
# Templates without mustaches

A source without mustaches is markup alone. It is read exactly when its tokens nest as they are
written and nothing in them is taken for a tag of a template, and then as the tree of its tokens.
Only a reference or a reserved name can be taken for one: `Template.read_iff_nests`.
-/

namespace MustacheJsx

open Markup (Token StartTag)

/-! ### Plain tokens and their tree -/

def hasHole (marker : Char) (cs : List Char) : Bool :=
  (Piece.split marker cs).any fun piece => piece matches .hole _

/-- Whether nothing in a token is read as a tag of a template. -/
def Token.isPlain (marker : Char) : Token → Bool
  | .text chars => !hasHole marker chars
  | .comment value => (Piece.whole? marker value).isNone
  | .startTag tag _ => tag.name != blockTag && tag.name != elseTag &&
      (ownAttributes tag).all fun entry => !hasHole marker entry.2.toList
  | .endTag name _ => name != blockTag

def writtenAttributes (tag : StartTag) : List Attribute :=
  (ownAttributes tag).map fun entry =>
    .mk (Assembly.spellingOf (writtenSpellings tag) entry.1) (.text entry.2)

def textStatements (chars : List Char) : List Statement :=
  if chars.isEmpty then [] else [.text (String.ofList chars)]

/-- Tokens that nest, and their tree. -/
inductive Nests : List Token → List Statement → Prop where
  | nil : Nests [] []
  | text {chars tokens statements} : Nests tokens statements →
      Nests (.text chars :: tokens) (textStatements chars ++ statements)
  | comment {value tokens statements} : Nests tokens statements →
      Nests (.comment value :: tokens) (.markupComment (String.ofList value) :: statements)
  | leaf {tag line tokens statements} : isLeaf tag = true → Nests tokens statements →
      Nests (.startTag tag line :: tokens)
        (.element (writtenName tag) (writtenAttributes tag) [] tag.selfClosing :: statements)
  | element {tag line inner children line' tokens statements} :
      isLeaf tag = false → Nests inner children → Nests tokens statements →
      Nests (.startTag tag line :: (inner ++ .endTag tag.name line' :: tokens))
        (.element (writtenName tag) (writtenAttributes tag) children false :: statements)

theorem hasHole_eq_false_iff {marker : Char} {cs : List Char} :
    hasHole marker cs = false ↔ ∀ index, Piece.hole index ∉ Piece.split marker cs := by
  rw [hasHole, List.any_eq_false]
  constructor
  · intro h index hmem
    exact h _ hmem rfl
  · intro h piece hmem
    cases piece with
    | text chars => exact Bool.false_ne_true
    | hole index => exact absurd hmem (h index)

theorem Piece.splitAfter_of_no_hole {marker : Char} {text cs : List Char}
    (h : ∀ index, Piece.hole index ∉ splitAfter marker 0 text cs) :
    splitAfter marker 0 text cs = pending (cs.reverse ++ text) := by
  induction cs generalizing text with
  | nil => rfl
  | cons c cs ih =>
    rw [splitAfter.eq_def] at h ⊢
    dsimp only at h ⊢
    split at h
    · exact absurd (List.mem_append_right _ List.mem_cons_self) (h _)
    · rw [ih h]
      simp

theorem Piece.split_of_no_hole {marker : Char} {cs : List Char} (h : hasHole marker cs = false) :
    split marker cs = if cs.isEmpty then [] else [.text cs] := by
  rw [split, splitAfter_of_no_hole (hasHole_eq_false_iff.1 h), pending]
  simp

namespace Lifted

variable {lifted : Lifted}

theorem Restores.eq_textStatements (hempty : lifted.placeholders = []) {chars : List Char}
    {restored : List Statement} (h : lifted.Restores (Piece.split lifted.marker chars) restored) :
    hasHole lifted.marker chars = false ∧ restored = textStatements chars := by
  have hholes : ∀ {pieces restored}, lifted.Restores pieces restored →
      ∀ index, Piece.hole index ∉ pieces := by
    intro pieces restored h index hmem
    induction h with
    | nil => cases hmem
    | text _ ih =>
      rcases List.mem_cons.1 hmem with heq | hmem
      · cases heq
      · exact ih hmem
    | mustache hk => simp [Keeps, hempty] at hk
    | partialCall hk => simp [Keeps, hempty] at hk
  have hnone := hasHole_eq_false_iff.2 (hholes h)
  refine ⟨hnone, ?_⟩
  rw [Piece.split_of_no_hole hnone] at h
  rw [textStatements]
  split at h
  · next hchars =>
    rw [if_pos hchars]
    cases h
    rfl
  · next hchars =>
    rw [if_neg hchars]
    cases h with
    | text h =>
      cases h
      rfl

theorem RestoresValue.eq_text (hempty : lifted.placeholders = []) {value : List Char}
    {found : AttributeValue} (h : lifted.RestoresValue value found) :
    hasHole lifted.marker value = false ∧ found = .text (String.ofList value) := by
  cases h with
  | text hnone => exact ⟨hasHole_eq_false_iff.2 hnone, rfl⟩
  | mustache _ hk => simp [Keeps, hempty] at hk
  | concat hmem _ hparts =>
    have hnone := (hparts.eq_textStatements hempty).1
    exact absurd hmem (hasHole_eq_false_iff.1 hnone _)

theorem eq_writtenAttributes (hempty : lifted.placeholders = []) {tag : StartTag}
    {attributes : List Attribute} (h : lifted.RestoresAttributes tag attributes) :
    ((ownAttributes tag).all fun entry => !hasHole lifted.marker entry.2.toList) = true ∧
      attributes = writtenAttributes tag := by
  rw [writtenAttributes]
  unfold RestoresAttributes at h
  generalize ownAttributes tag = entries at h
  induction h with
  | nil => exact ⟨rfl, rfl⟩
  | @cons entry found entries attributes hentry _ ih =>
    obtain ⟨name, value⟩ := found
    obtain ⟨hname, hvalue⟩ := hentry
    obtain ⟨hhole, hvalue⟩ := hvalue.eq_text hempty
    dsimp only [Attribute.name, Attribute.value] at hname hvalue
    rw [String.ofList_toList] at hvalue
    obtain ⟨hall, hrest⟩ := ih
    rw [List.all_cons, hhole, hall, List.map_cons, hrest, hname, hvalue]
    exact ⟨rfl, rfl⟩

/-- Where no tag was lifted out, tokens are read only if they are plain and nest. -/
theorem Reads.nests (hempty : lifted.placeholders = []) {tokens : List Token}
    {statements : List Statement} (h : lifted.Reads tokens statements) :
    tokens.all (Token.isPlain lifted.marker) = true ∧ Nests tokens statements := by
  -- Nothing is known of the inverse of a block: there is no block.
  induction h using Lifted.Reads.rec (motive_2 := fun _ _ _ => True) with
  | nil => exact ⟨rfl, .nil⟩
  | text hr _ ih =>
    obtain ⟨hhole, rfl⟩ := hr.eq_textStatements hempty
    exact ⟨by simp [Token.isPlain, hhole, ih.1], .text ih.2⟩
  | markupComment hw _ ih => exact ⟨by simp [Token.isPlain, hw, ih.1], .comment ih.2⟩
  | mustacheComment _ hk _ _ => simp [Keeps, hempty] at hk
  | leaf he hl ha _ ih =>
    obtain ⟨hhole, rfl⟩ := eq_writtenAttributes hempty ha
    exact ⟨by simp [Token.isPlain, he.1, he.2, hhole, ih.1], .leaf hl ih.2⟩
  | element he hl ha _ _ ihinner ih =>
    obtain ⟨hhole, rfl⟩ := eq_writtenAttributes hempty ha
    refine ⟨?_, .element hl ihinner.2 ih.2⟩
    simp [Token.isPlain, he.1, he.2, hhole, ihinner.1, ih.1]
  | block _ _ hk _ _ _ _ _ _ => simp [Keeps, hempty] at hk
  | none | otherwise | elseIf => trivial

end Lifted

/-! ### Reading plain tokens -/

namespace Assembly

variable {a : Assembly}

theorem addText_plain {chars : List Char} (h : hasHole a.lifted.marker chars = false) :
    a.addText chars = .ok ((textStatements chars).foldl add a) := by
  rw [addText, Piece.split_of_no_hole h, textStatements]
  cases chars <;> rfl

theorem restoreValue_plain {lifted : Lifted} {value : List Char}
    (h : hasHole lifted.marker value = false) :
    restoreValue lifted value = .ok (.text (String.ofList value), lifted) := by
  have hmixed : mixedValue lifted value = .ok (.text (String.ofList value), lifted) :=
    if_neg (Bool.eq_false_iff.1 h)
  rw [restoreValue]
  split
  · exact hmixed
  · next index hwhole =>
    have hnone := hasHole_eq_false_iff.1 h (some index)
    rw [Piece.split_of_whole? hwhole] at hnone
    exact absurd List.mem_cons_self hnone

theorem restoreAttributes_plain {lifted : Lifted} (spellings : List (List Char))
    {entries : List (String × String)}
    (h : ∀ entry ∈ entries.filter isOwn, hasHole lifted.marker entry.2.toList = false) :
    restoreAttributes spellings lifted entries = .ok ((entries.filter isOwn).map fun entry =>
      .mk (spellingOf spellings entry.1) (.text entry.2), lifted) := by
  induction entries with
  | nil => rfl
  | cons entry entries ih =>
    obtain ⟨name, value⟩ := entry
    rw [restoreAttributes]
    split
    · next hname =>
      rw [List.filter_cons_of_neg (by simpa [isOwn, or_iff_not_imp_left] using hname)] at h ⊢
      exact ih h
    · next hname =>
      rw [List.filter_cons_of_pos (by simpa [isOwn] using hname)] at h ⊢
      rw [restoreValue_plain (h _ List.mem_cons_self), String.ofList_toList, ok_bind]
      dsimp only
      rw [ih fun entry he => h entry (List.mem_cons_of_mem _ he)]
      rfl

theorem startTag_plain {tag : StartTag} (line : Nat)
    (h : Token.isPlain a.lifted.marker (.startTag tag line) = true) :
    a.startTag tag line = .ok (if isLeaf tag
      then a.add (.element (writtenName tag) (writtenAttributes tag) [] tag.selfClosing)
      else a.push (.element tag.name (writtenName tag) (writtenAttributes tag) [])) := by
  simp only [Token.isPlain, Bool.and_eq_true, bne_iff_ne, List.all_eq_true,
    Bool.not_eq_true'] at h
  have hattributes : restoreAttributes (writtenSpellings tag) a.lifted tag.attributes =
      .ok (writtenAttributes tag, a.lifted) := restoreAttributes_plain _ h.2
  rw [startTag]
  dsimp only
  rw [if_neg h.1.1, if_neg h.1.2]
  rw [writtenSpellings] at hattributes
  rw [hattributes]
  show (if isLeaf tag = true then _ else _) = _
  split <;> rfl

theorem endTag_plain {name tag : String} {attributes : List Attribute}
    {children : List Statement} {stack : List Frame} (hname : name ≠ blockTag)
    (hvoid : Markup.isVoid name = false)
    (hs : a.stack = .element name tag attributes children :: stack) (line : Nat) :
    a.endTag name line =
      .ok ({ a with stack }.add (.element tag attributes children.reverse false)) := by
  rw [endTag, if_neg hname, if_neg (by simp [hvoid]), hs]
  exact if_pos rfl

theorem foldlM_read_of_nests {tokens : List Token} {statements : List Statement}
    (h : Nests tokens statements)
    (hplain : tokens.all (Token.isPlain a.lifted.marker) = true) :
    tokens.foldlM read a = .ok (statements.foldl add a) := by
  induction h generalizing a with
  | nil => rfl
  | @text chars tokens statements _ ih =>
    rw [List.all_cons, Bool.and_eq_true] at hplain
    rw [List.foldlM_cons, read, addText_plain (by simpa [Token.isPlain] using hplain.1)]
    show tokens.foldlM read _ = _
    rw [ih (by rw [lifted_foldl_add]; exact hplain.2), List.foldl_append]
  | @comment value tokens statements _ ih =>
    rw [List.all_cons, Bool.and_eq_true] at hplain
    have hwhole : Piece.whole? a.lifted.marker value = none := by
      simpa [Token.isPlain] using hplain.1
    rw [List.foldlM_cons, read, addComment, hwhole]
    show tokens.foldlM read _ = _
    rw [ih (by rw [lifted_add]; exact hplain.2), List.foldl_cons]
  | @leaf tag line tokens statements hl _ ih =>
    rw [List.all_cons, Bool.and_eq_true] at hplain
    rw [List.foldlM_cons, read, startTag_plain line hplain.1, if_pos hl]
    show tokens.foldlM read _ = _
    rw [ih (by rw [lifted_add]; exact hplain.2), List.foldl_cons]
  | @element tag line inner children line' tokens statements hl _ _ ihi ih =>
    simp only [List.all_cons, List.all_append, Bool.and_eq_true] at hplain
    obtain ⟨hstart, hinner, hend, hrest⟩ := hplain
    have hname : tag.name ≠ blockTag := by simpa [Token.isPlain] using hend
    have hvoid : Markup.isVoid tag.name = false := by
      rw [isLeaf, Bool.or_eq_false_iff] at hl
      exact hl.2
    rw [List.foldlM_cons, read, startTag_plain line hstart, hl]
    show (inner ++ .endTag tag.name line' :: tokens).foldlM read
      (a.push (.element tag.name (writtenName tag) (writtenAttributes tag) [])) = _
    have hchildren := ihi
      (a := a.push (.element tag.name (writtenName tag) (writtenAttributes tag) [])) hinner
    have hpushed := foldl_add_cons
      (a := a.push (.element tag.name (writtenName tag) (writtenAttributes tag) [])) rfl children
    rw [List.foldlM_append, hchildren, hpushed]
    show (Token.endTag tag.name line' :: tokens).foldlM read _ = _
    rw [List.foldlM_cons, read, endTag_plain hname hvoid rfl]
    show tokens.foldlM read (a.add (.element _ _ (children.reverse ++ []).reverse false)) = _
    rw [List.append_nil, List.reverse_reverse, ih (by rw [lifted_add]; exact hrest),
      List.foldl_cons]

theorem result_of_isEmpty {lifted : Lifted} {next : Nat} {body : List Statement}
    (h : lifted.isEmpty = true) : result { lifted, next, body } = .ok body.reverse := if_pos h

end Assembly

/-! ### Sources without mustaches -/

/-- Whether a token has no name that stands for a block or an `else`. -/
def Token.isUnreserved : Token → Bool
  | .startTag tag _ => tag.name != blockTag && tag.name != elseTag
  | .endTag name _ => name != blockTag
  | _ => true

theorem hasHole_of_not_mem {marker : Char} {cs : List Char} (h : marker ∉ cs) :
    hasHole marker cs = false := by
  have hsplit := Piece.splitAfter_text h [] []
  have hend : Piece.splitAfter marker 0 cs.reverse [] = Piece.pending cs.reverse := rfl
  rw [List.append_nil, List.append_nil, hend] at hsplit
  rw [hasHole, Piece.split, hsplit, Piece.pending]
  split <;> rfl

theorem isPlain_of_avoids {marker : Char} {token : Token} (h : token.Avoids marker) :
    Token.isPlain marker token = Token.isUnreserved token := by
  cases token with
  | text chars => rw [Token.isPlain, hasHole_of_not_mem h]; rfl
  | comment value => rw [Token.isPlain, Piece.whole?_of_not_mem h]; rfl
  | startTag tag line =>
    have hall : ((ownAttributes tag).all fun entry => !hasHole marker entry.2.toList) = true := by
      refine List.all_eq_true.2 fun entry hentry => ?_
      rw [hasHole_of_not_mem (h entry (List.mem_of_mem_filter hentry))]
      rfl
    rw [Token.isPlain, hall, Bool.and_true]
    rfl
  | endTag name line => rfl

namespace Template

/-- Without mustaches a template is read exactly when its markup is plain and nests, and then as its
tree. Without references only reserved names are not plain, and without capitals the markup is the
source. -/
theorem read_iff_nests {source : List Char} (hbraces : Unbraced source) :
    (freeMarker? source = none → Template.read source = .error (.parse .noFreeMarker 0)) ∧
    ∀ marker, freeMarker? source = some marker → ∃ markup,
      Lifted.ofSource source = .ok ({ markup, placeholders := [], unquoted := [], marker }, 0) ∧
      (∀ template, Template.read source = .ok template ↔
        (Markup.tokens markup).all (Token.isPlain marker) = true ∧
          Nests (Markup.tokens markup) template) ∧
      ('&' ∉ source → ∀ token ∈ Markup.tokens markup,
        Token.isPlain marker token = Token.isUnreserved token) ∧
      ((∀ c ∈ source, Text.isAsciiUpper c = false) → markup = source) := by
  refine ⟨fun hnone => ?_, fun marker hmarker => ?_⟩
  · have hs : Lifted.ofSource source = .error (.parse .noFreeMarker 0) := by
      unfold Lifted.ofSource
      rw [hnone]
    rw [Template.read, hs]
    rfl
  · have hmarked := isMarker_of_freeMarker? hmarker
    obtain ⟨markup, hs, havoids, hcopied⟩ := Lifted.ofSource_unbraced hbraces hmarker
    refine ⟨markup, hs, fun template => ⟨fun hread => ?_, fun hall => ?_⟩,
      fun hamp token htoken => ?_, hcopied⟩
    · exact (reads_of_read hs hread).1.nests rfl
    · obtain ⟨hplain, hnests⟩ := hall
      have hfold := Assembly.foldlM_read_of_nests (a := {
        lifted := { markup, placeholders := [], unquoted := [], marker }, next := 0 }) hnests hplain
      rw [Assembly.foldl_add_nil rfl, List.append_nil] at hfold
      rw [Template.read, hs]
      show Except.mapError _ (do
        let a ← (Markup.tokens markup).foldlM Assembly.read _
        a.result) = _
      rw [hfold]
      have hresult := @Assembly.result_of_isEmpty
        { markup, placeholders := [], unquoted := [], marker } 0 template.reverse rfl
      rw [List.reverse_reverse] at hresult
      exact congrArg (Except.mapError _) hresult
    · have hforeign : IsForeign '&' := by constructor <;> decide
      exact isPlain_of_avoids (Markup.avoids_of_mem_tokens hmarked
        (havoids marker hmarked.isForeign (freeMarker?_not_mem hmarker))
        (havoids '&' hforeign hamp) token htoken)

def paragraphSource : List Char := "<p class=\"a&amp;b\">x<br></p><!-- c -->".toList

theorem paragraphSource_read_iff_nests :
    Unbraced paragraphSource ∧ Template.read paragraphSource = .ok
      [.element "p" [.mk "class" (.text "a&b")] [.text "x", .element "br" [] [] false] false,
        .markupComment " c "] := by
  have hbraces : Unbraced paragraphSource := by decide +kernel
  have hmarker : freeMarker? paragraphSource = some '\ue000' := by decide +kernel
  have hsmall : ∀ c ∈ paragraphSource, Text.isAsciiUpper c = false := by decide +kernel
  have htokens : Markup.tokens paragraphSource =
      [.startTag ⟨"p", [("class", "a&b")], false⟩ 1, .text ['x'], .startTag ⟨"br", [], false⟩ 1,
        .endTag "p" 1, .comment [' ', 'c', ' ']] := by decide +kernel
  obtain ⟨markup, -, hread, -, hcopied⟩ := (read_iff_nests hbraces).2 _ hmarker
  rw [hcopied hsmall, htokens] at hread
  have hinner : Nests [.text ['x'], .startTag ⟨"br", [], false⟩ 1]
      [.text "x", .element "br" [] [] false] := .text (.leaf rfl .nil)
  exact ⟨hbraces, (hread _).2 ⟨by decide +kernel, .element rfl hinner (.comment .nil)⟩⟩

/-! ### Markup that is taken for a placeholder -/

/-- Two references that mean the marker, and a digit between them. -/
def referenceSource : List Char := "&#xE000;0&#xE000;".toList

theorem referenceSource_is_not_read :
    Unbraced referenceSource ∧
      Nests (Markup.tokens referenceSource) [.text "\ue0000\ue000"] ∧
      ∀ template, Template.read referenceSource ≠ .ok template := by
  have htokens : Markup.tokens referenceSource = [.text "\ue0000\ue000".toList] := by
    decide +kernel
  refine ⟨by decide +kernel, ?_, ?_⟩
  · rw [htokens]
    exact .text .nil
  · intro template hread
    have hfails : (Template.read referenceSource).toOption.isNone = true := by decide +kernel
    rw [hread] at hfails
    cases hfails

end Template

end MustacheJsx
