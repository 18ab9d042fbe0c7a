import Mathlib.Data.List.Nodup
import MustacheJsx.Proofs.Opening.Element

/-!
# The attributes of an element have different names

The lexer writes names of attributes in small letters and drops an attribute whose name the tag has
already. So the names of a start tag differ, and those of the element that it becomes differ in more
than capital letters: `Template.namesDiffer_of_read`.
-/

namespace MustacheJsx

namespace Markup

/-- The names of attributes are in small letters, and no two of them are the same. -/
structure NamesDiffer (attributes : List (String × String)) : Prop where
  distinct : (attributes.map Prod.fst).Nodup
  small : ∀ name ∈ attributes.map Prod.fst, smallName name.toList = name

/-- The names of a start tag differ. -/
def Token.NamesDiffer : Token → Prop
  | .startTag tag _ => Markup.NamesDiffer tag.attributes
  | _ => True

namespace Lexer

/-- The names that have been read differ, and the one that is being read is in small letters. -/
structure Sorts (m : Machine) : Prop where
  names : NamesDiffer m.attributes
  key : ∀ c ∈ m.key, Text.lowerAscii c = c

/-- The names in the machine and in the finished tokens differ. -/
def Outcome.Sorts (outcome : Outcome) : Prop :=
  Lexer.Sorts outcome.1 ∧ ∀ token ∈ outcome.2.1, token.NamesDiffer

variable {m : Machine} {c : Char}

namespace Sorts

theorem keep (h : Sorts m) {outcome : Outcome} (hattributes : outcome.1.attributes = m.attributes)
    (hkey : outcome.1.key = m.key) (htokens : outcome.2.1 = []) : outcome.Sorts := by
  refine ⟨⟨?_, ?_⟩, ?_⟩
  · rw [hattributes]
    exact h.names
  · rw [hkey]
    exact h.key
  · rw [htokens]
    exact List.forall_mem_nil _

theorem beginTag (h : Sorts m) (isEndTag : Bool) (c : Char) : Sorts (m.beginTag isEndTag c) :=
  ⟨⟨List.nodup_nil, nofun⟩, h.key⟩

theorem endAttribute (h : Sorts m) : Sorts m.endAttribute := by
  refine ⟨?_, nofun⟩
  unfold Machine.endAttribute
  dsimp only
  split
  · exact h.names
  · next hnew =>
    simp only [Bool.or_eq_true, List.any_eq_true, beq_iff_eq, not_or, not_exists, not_and] at hnew
    constructor
    · rw [List.map_cons]
      refine List.nodup_cons.2 ⟨fun hmem => ?_, h.names.distinct⟩
      obtain ⟨entry, hentry, hname⟩ := List.mem_map.1 hmem
      exact hnew.2 entry hentry hname
    · intro name hname
      rcases List.mem_cons.1 hname with rfl | hname
      · rw [smallName, String.toList_ofList]
        have hsmall : m.key.reverse.map Text.lowerAscii = m.key.reverse.map id :=
          List.map_congr_left fun c hc => h.key c (List.mem_reverse.1 hc)
        rw [hsmall, List.map_id]
      · exact h.names.small name hname

theorem beginAttribute (h : Sorts m) (c : Char) :
    Sorts (m.beginAttribute (Text.lowerAscii c)) := by
  refine ⟨h.endAttribute.names, fun d hd => ?_⟩
  cases List.mem_singleton.1 hd
  exact lowerAscii_lowerAscii c

theorem pending (m : Machine) : ∀ token ∈ m.pending, token.NamesDiffer := by
  intro token htoken
  unfold Machine.pending at htoken
  split at htoken
  · cases htoken
  · cases List.mem_singleton.1 htoken
    trivial

theorem endTag (h : Sorts m) : (finish m.endTag).Sorts := by
  have hend := h.endAttribute
  unfold Machine.endTag
  dsimp only
  split
  · refine ⟨⟨hend.names, hend.key⟩, List.forall_mem_append.2 ⟨pending _, ?_⟩⟩
    exact List.forall_mem_singleton.2 trivial
  · refine ⟨⟨hend.names, hend.key⟩, List.forall_mem_append.2 ⟨pending _, ?_⟩⟩
    refine List.forall_mem_singleton.2 ⟨?_, fun name hname => ?_⟩
    · rw [List.map_reverse]
      exact List.nodup_reverse.2 hend.names.distinct
    · rw [List.map_reverse, List.mem_reverse] at hname
      exact hend.names.small name hname

theorem endComment (h : Sorts m) : (finish m.endComment).Sorts :=
  ⟨⟨h.names, h.key⟩, List.forall_mem_append.2 ⟨pending m, List.forall_mem_singleton.2 trivial⟩⟩

/-! ### Steps -/

theorem stepText (h : Sorts m) (content : Content) (rest : List Char) :
    (stepText content m c rest).Sorts := by
  rw [Lexer.stepText.eq_def]
  split
  case h_2 | h_3 =>
    split
    · exact h.keep rfl rfl rfl
    · exact h.keep rfl rfl rfl
  all_goals exact h.keep rfl rfl rfl

theorem backToText (h : Sorts m) (content : Content) (read rest : List Char) :
    (backToText content m read c rest).Sorts :=
  stepText (m := (m.write read).goTo (.text content)) ⟨h.names, h.key⟩ content rest

theorem stepBogusComment (h : Sorts m) : (stepBogusComment m c).Sorts := by
  unfold Lexer.stepBogusComment
  split
  · exact h.endComment
  · exact h.keep rfl rfl rfl

theorem stepTagOpen (h : Sorts m) (rest : List Char) : (stepTagOpen m c rest).Sorts := by
  rw [Lexer.stepTagOpen.eq_def]
  split
  · dsimp only
    split
    · exact h.keep rfl rfl rfl
    · split
      · exact h.keep rfl rfl rfl
      · exact h.keep rfl rfl rfl
  · exact h.keep rfl rfl rfl
  · exact stepBogusComment ⟨h.names, h.key⟩
  · split
    · exact (h.beginTag true c).keep rfl rfl rfl
    · exact h.backToText _ _ _

theorem stepEndTagOpen (h : Sorts m) : (stepEndTagOpen m c).Sorts := by
  unfold Lexer.stepEndTagOpen
  split
  · exact (h.beginTag true c).keep rfl rfl rfl
  · split
    · exact h.keep rfl rfl rfl
    · exact stepBogusComment ⟨h.names, h.key⟩

theorem stepTagName (h : Sorts m) : (stepTagName m c).Sorts := by
  unfold Lexer.stepTagName
  split
  · exact h.keep rfl rfl rfl
  · split
    · exact h.keep rfl rfl rfl
    · split
      · exact h.endTag
      · exact h.keep rfl rfl rfl

theorem stepBeforeAttribute (h : Sorts m) : (stepBeforeAttribute m c).Sorts := by
  unfold Lexer.stepBeforeAttribute
  split
  · exact h.keep rfl rfl rfl
  · split
    · exact h.keep rfl rfl rfl
    · split
      · exact h.endTag
      · exact (h.beginAttribute _).keep rfl rfl rfl

theorem stepAttributeName (h : Sorts m) : (stepAttributeName m c).Sorts := by
  unfold Lexer.stepAttributeName
  split
  · exact h.keep rfl rfl rfl
  · split
    · exact h.keep rfl rfl rfl
    · split
      · exact h.keep rfl rfl rfl
      · split
        · exact h.endTag
        · refine ⟨⟨h.names, List.forall_mem_cons.2 ⟨?_, h.key⟩⟩, nofun⟩
          exact lowerAscii_lowerAscii _

theorem stepAfterAttributeName (h : Sorts m) : (stepAfterAttributeName m c).Sorts := by
  unfold Lexer.stepAfterAttributeName
  split
  · exact h.keep rfl rfl rfl
  · split
    · exact h.keep rfl rfl rfl
    · split
      · exact h.keep rfl rfl rfl
      · split
        · exact h.endTag
        · exact (h.beginAttribute _).keep rfl rfl rfl

theorem stepValue (h : Sorts m) (quote : Option Char) (rest : List Char) :
    (stepValue quote m c rest).Sorts := by
  have hchar : (stepValueChar (m.goTo (.value quote)) c rest).Sorts := by
    unfold stepValueChar
    split
    · split
      · exact h.keep rfl rfl rfl
      · exact h.keep rfl rfl rfl
    · exact h.keep rfl rfl rfl
  rw [Lexer.stepValue.eq_def]
  split
  · split
    · exact h.keep rfl rfl rfl
    · exact hchar
  · split
    · exact h.keep rfl rfl rfl
    · split
      · exact endTag ⟨h.names, h.key⟩
      · exact hchar

theorem stepBeforeValue (h : Sorts m) (rest : List Char) : (stepBeforeValue m c rest).Sorts := by
  unfold Lexer.stepBeforeValue
  split
  · exact h.keep rfl rfl rfl
  · split
    · exact h.keep rfl rfl rfl
    · split
      · exact h.endTag
      · exact h.stepValue none rest

theorem stepAfterValue (h : Sorts m) : (stepAfterValue m c).Sorts := by
  unfold Lexer.stepAfterValue
  split
  · exact h.keep rfl rfl rfl
  · exact h.stepBeforeAttribute

theorem stepSelfClosing (h : Sorts m) : (stepSelfClosing m c).Sorts := by
  unfold Lexer.stepSelfClosing
  split
  · exact endTag ⟨h.names, h.key⟩
  · exact h.stepBeforeAttribute

theorem stepRawLessThan (h : Sorts m) (content : Content) (rest : List Char) :
    (stepRawLessThan content m c rest).Sorts := by
  rw [Lexer.stepRawLessThan.eq_def]
  split
  · split
    · exact h.keep rfl rfl rfl
    · exact h.backToText _ _ _
  · split
    · exact h.keep rfl rfl rfl
    · split
      · exact h.keep rfl rfl rfl
      · split
        · exact h.keep rfl rfl rfl
        · exact h.backToText _ _ _

theorem stepRawEndTagOpen (h : Sorts m) (content : Content) (rest : List Char) :
    (stepRawEndTagOpen content m c rest).Sorts := by
  unfold Lexer.stepRawEndTagOpen
  split
  · exact (h.beginTag true c).keep rfl rfl rfl
  · exact h.backToText _ _ _

theorem stepRawEndTagName (h : Sorts m) (content : Content) (rest : List Char) :
    (stepRawEndTagName content m c rest).Sorts := by
  unfold Lexer.stepRawEndTagName
  split
  · exact h.keep rfl rfl rfl
  · split
    · exact h.keep rfl rfl rfl
    · split
      · exact endTag ⟨h.names, h.key⟩
      · split
        · exact h.keep rfl rfl rfl
        · exact h.backToText _ _ _

theorem stepScriptWord (h : Sorts m) (here there : Content) (rest : List Char) :
    (stepScriptWord here there m c rest).Sorts := by
  unfold Lexer.stepScriptWord
  split
  · exact h.keep rfl rfl rfl
  · split
    · exact h.keep rfl rfl rfl
    · exact h.backToText _ _ _

theorem stepEscapeStart (h : Sorts m) (next : State) (rest : List Char) :
    (stepEscapeStart next m c rest).Sorts := by
  unfold Lexer.stepEscapeStart
  split
  · exact h.keep rfl rfl rfl
  · exact h.backToText _ _ _

theorem stepEscapedDash (h : Sorts m) (content : Content) (dashes : Nat) :
    (stepEscapedDash content dashes m c).Sorts := by
  unfold Lexer.stepEscapedDash
  split
  · exact h.keep rfl rfl rfl
  · split
    · split
      · exact h.keep rfl rfl rfl
      · exact h.keep rfl rfl rfl
    · split
      · exact h.keep rfl rfl rfl
      · exact h.keep rfl rfl rfl

theorem stepComment (h : Sorts m) (read : List Char) : (stepComment read m c).Sorts := by
  unfold Lexer.stepComment
  split
  · exact h.keep rfl rfl rfl
  · exact h.keep rfl rfl rfl

theorem step (h : Sorts m) (c : Char) (rest : List Char) : (step m c rest).Sorts := by
  rw [Lexer.step.eq_def]
  split
  · exact h.stepText _ rest
  · exact h.stepTagOpen rest
  · exact h.stepEndTagOpen
  · exact h.stepTagName
  · exact h.stepBeforeAttribute
  · exact h.stepAttributeName
  · exact h.stepAfterAttributeName
  · exact h.stepBeforeValue rest
  · exact h.stepValue _ rest
  · exact h.stepAfterValue
  · exact h.stepSelfClosing
  · exact h.stepRawLessThan _ rest
  · exact h.stepRawEndTagOpen _ rest
  · exact h.stepRawEndTagName _ rest
  · exact h.stepEscapeStart _ rest
  · exact h.stepEscapeStart _ rest
  · exact h.stepEscapedDash _ _
  · exact h.stepEscapedDash _ _
  · exact h.stepScriptWord _ _ rest
  · exact h.stepScriptWord _ _ rest
  · split
    · exact h.keep rfl rfl rfl
    · split
      · exact h.endComment
      · exact h.keep rfl rfl rfl
  · split
    · exact h.keep rfl rfl rfl
    · split
      · exact h.endComment
      · exact h.stepComment _
  · exact h.stepComment _
  · split
    · exact h.keep rfl rfl rfl
    · exact h.stepComment _
  · split
    · exact h.endComment
    · split
      · exact h.keep rfl rfl rfl
      · split
        · exact h.keep rfl rfl rfl
        · exact h.stepComment _
  · split
    · exact h.keep rfl rfl rfl
    · split
      · exact h.endComment
      · exact h.stepComment _
  · exact h.stepBogusComment
  · split
    · exact h.keep rfl rfl rfl
    · exact h.keep rfl rfl rfl

/-! ### Runs -/

theorem countLine (h : Sorts m) (c : Char) : Sorts (countLine m c) := by
  unfold Lexer.countLine
  split
  · exact ⟨h.names, h.key⟩
  · exact h

theorem atEnd (h : Sorts m) : ∀ token ∈ atEnd m, token.NamesDiffer := by
  rw [Lexer.atEnd.eq_def]
  split
  all_goals first
    | exact h.endComment.2
    | exact pending _

theorem run (cs : List Char) (skip : Nat) (h : Sorts m) :
    ∀ token ∈ run skip m cs, token.NamesDiffer := by
  induction cs generalizing skip m with
  | nil => exact h.atEnd
  | cons c cs ih =>
    cases skip with
    | succ skip => exact ih skip h
    | zero =>
      obtain ⟨hm, htokens⟩ := (h.countLine c).step c cs
      exact List.forall_mem_append.2 ⟨htokens, ih _ hm⟩

end Sorts

end Lexer

theorem namesDiffer_of_mem_tokens (markup : List Char) :
    ∀ token ∈ tokens markup, token.NamesDiffer :=
  Lexer.Sorts.run _ 0 ⟨⟨List.nodup_nil, nofun⟩, nofun⟩

end Markup

/-! ### Elements -/

open Markup (Token StartTag)

variable {name : String} {attributes : List Attribute}

theorem HasElement.of_append {statements more : List Statement}
    (h : HasElement name attributes (statements ++ more)) :
    HasElement name attributes statements ∨ HasElement name attributes more := by
  cases h with
  | here hmem => exact (List.mem_append.1 hmem).imp .here .here
  | child hmem h => exact (List.mem_append.1 hmem).imp (.child · h) (.child · h)
  | program hmem h => exact (List.mem_append.1 hmem).imp (.program · h) (.program · h)
  | inverse hmem h => exact (List.mem_append.1 hmem).imp (.inverse · h) (.inverse · h)

theorem HasElement.of_cons {statement : Statement} {statements : List Statement}
    (h : HasElement name attributes (statement :: statements)) :
    HasElement name attributes [statement] ∨ HasElement name attributes statements := by
  rw [← List.singleton_append] at h
  exact h.of_append

theorem HasElement.of_element {tag : String} {own : List Attribute} {children : List Statement}
    {selfClosing : Bool} (h : HasElement name attributes [.element tag own children selfClosing]) :
    (name = tag ∧ attributes = own) ∨ HasElement name attributes children := by
  cases h with
  | here hmem =>
    cases List.mem_singleton.1 hmem
    exact .inl ⟨rfl, rfl⟩
  | child hmem h =>
    cases List.mem_singleton.1 hmem
    exact .inr h
  | program hmem | inverse hmem => cases List.mem_singleton.1 hmem

theorem HasElement.of_block {head : BlockHead} {id : Nat} {program : List Statement}
    {inverse : Option Body}
    (h : HasElement name attributes [.block head (.mk id program) inverse]) :
    HasElement name attributes program ∨
      HasElement name attributes (inverse.elim [] Body.statements) := by
  cases h with
  | here hmem | child hmem => cases List.mem_singleton.1 hmem
  | program hmem h =>
    cases List.mem_singleton.1 hmem
    exact .inl h
  | inverse hmem h =>
    cases List.mem_singleton.1 hmem
    exact .inr h

namespace Lifted

variable {lifted : Lifted}

/-- An element has come from a start tag among the tokens. -/
def ComesFrom (lifted : Lifted) (tokens : List Token) (name : String)
    (attributes : List Attribute) : Prop :=
  ∃ tag line, .startTag tag line ∈ tokens ∧ name = writtenName tag ∧
    lifted.RestoresAttributes tag attributes

theorem ComesFrom.mono {tokens others : List Token}
    (h : lifted.ComesFrom tokens name attributes) (hsub : tokens ⊆ others) :
    lifted.ComesFrom others name attributes := by
  obtain ⟨tag, line, hmem, h⟩ := h
  exact ⟨tag, line, hsub hmem, h⟩

theorem Restores.not_hasElement {pieces : List Piece} {restored : List Statement}
    (h : lifted.Restores pieces restored) : ¬ HasElement name attributes restored := by
  induction h with
  | nil => exact fun h => h.ne_nil rfl
  | text _ ih | mustache _ _ ih | partialCall _ _ ih =>
    intro h
    rcases h.of_cons with h | h
    · cases h with
      | here hmem | child hmem | program hmem | inverse hmem => cases List.mem_singleton.1 hmem
    · exact ih h

mutual

theorem Reads.comesFrom {tokens : List Token} {statements : List Statement}
    (h : lifted.Reads tokens statements) (he : HasElement name attributes statements) :
    lifted.ComesFrom tokens name attributes := by
  match h with
  | .nil => exact absurd rfl he.ne_nil
  | .text hr h =>
    rcases he.of_append with he | he
    · exact absurd he hr.not_hasElement
    · exact (h.comesFrom he).mono (List.subset_cons_self _ _)
  | .markupComment _ h | .mustacheComment _ _ h =>
    rcases he.of_cons with he | he
    · cases he with
      | here hmem | child hmem | program hmem | inverse hmem => cases List.mem_singleton.1 hmem
    · exact (h.comesFrom he).mono (List.subset_cons_self _ _)
  | .leaf _ _ ha h =>
    rcases he.of_cons with he | he
    · rcases he.of_element with ⟨rfl, rfl⟩ | he
      · exact ⟨_, _, List.mem_cons_self, rfl, ha⟩
      · exact absurd rfl he.ne_nil
    · exact (h.comesFrom he).mono (List.subset_cons_self _ _)
  | .element _ _ ha hi h =>
    rcases he.of_cons with he | he
    · rcases he.of_element with ⟨rfl, rfl⟩ | he
      · exact ⟨_, _, List.mem_cons_self, rfl, ha⟩
      · refine (hi.comesFrom he).mono fun token hmem => ?_
        exact List.mem_cons_of_mem _ (List.mem_append_left _ hmem)
    · refine (h.comesFrom he).mono fun token hmem => ?_
      exact List.mem_cons_of_mem _ (List.mem_append_right _ (List.mem_cons_of_mem _ hmem))
  | .block _ _ _ hp hi h =>
    rcases he.of_cons with he | he
    · rcases he.of_block with he | he
      · refine (hp.comesFrom he).mono fun token hmem => ?_
        exact List.mem_cons_of_mem _ (List.mem_append_left _ hmem)
      · refine (hi.comesFrom he).mono fun token hmem => ?_
        exact List.mem_cons_of_mem _ (List.mem_append_right _ (List.mem_append_left _ hmem))
    · refine (h.comesFrom he).mono fun token hmem => ?_
      exact List.mem_cons_of_mem _ (List.mem_append_right _
        (List.mem_append_right _ (List.mem_cons_of_mem _ hmem)))

theorem ReadsInverse.comesFrom {tokens : List Token} {inverse : Option Body}
    (h : lifted.ReadsInverse tokens inverse)
    (he : HasElement name attributes (inverse.elim [] Body.statements)) :
    lifted.ComesFrom tokens name attributes := by
  match h with
  | .none => exact absurd rfl he.ne_nil
  | .otherwise _ _ hp => exact (hp.comesFrom he).mono (List.subset_cons_self _ _)
  | .elseIf _ _ _ hp hi =>
    rcases he.of_block with he | he
    · refine (hp.comesFrom he).mono fun token hmem => ?_
      exact List.mem_cons_of_mem _ (List.mem_append_left _ hmem)
    · refine (hi.comesFrom he).mono fun token hmem => ?_
      exact List.mem_cons_of_mem _ (List.mem_append_right _ hmem)

end

end Lifted

/-! ### Names -/

/-- No two attributes have names that are the same in small letters. -/
def Attribute.NamesDiffer (attributes : List Attribute) : Prop :=
  (attributes.map fun a => smallName a.name.toList).Nodup

theorem smallName_spellingOf (spellings : List (List Char)) (name : String) :
    smallName (Assembly.spellingOf spellings name).toList = smallName name.toList := by
  unfold Assembly.spellingOf
  split
  · next spelling hfound =>
    have hsame := List.find?_some hfound
    rw [String.toList_ofList, smallName, beq_iff_eq.1 hsame, smallName]
  · rfl

theorem Lifted.RestoresAttributes.namesDiffer {lifted : Lifted} {tag : StartTag}
    (h : lifted.RestoresAttributes tag attributes) (hnames : Markup.NamesDiffer tag.attributes) :
    Attribute.NamesDiffer attributes := by
  have hown : ∀ entry ∈ ownAttributes tag, smallName entry.1.toList = entry.1 := fun entry hmem =>
    hnames.small _ (List.mem_map_of_mem (List.mem_filter.1 hmem).1)
  have hsame : attributes.map (fun a => smallName a.name.toList) =
      (ownAttributes tag).map Prod.fst := by
    unfold RestoresAttributes at h
    generalize ownAttributes tag = entries at h hown
    induction h with
    | nil => rfl
    | cons hfirst _ ih =>
      obtain ⟨hentry, hrest⟩ := List.forall_mem_cons.1 hown
      rw [List.map_cons, List.map_cons, ih hrest, hfirst.1, smallName_spellingOf, hentry]
  unfold Attribute.NamesDiffer
  rw [hsame]
  exact (List.filter_sublist.map Prod.fst).nodup hnames.distinct

theorem Template.namesDiffer_of_read {source : List Char} {template : Template}
    (h : Template.read source = .ok template) (he : HasElement name attributes template) :
    Attribute.NamesDiffer attributes := by
  obtain ⟨⟨lifted, next⟩, hs, -⟩ := bind_eq_ok h
  obtain ⟨hreads, -⟩ := Template.reads_of_read hs h
  obtain ⟨tag, line, hmem, -, hattributes⟩ := hreads.comesFrom he
  exact hattributes.namesDiffer (Markup.namesDiffer_of_mem_tokens _ _ hmem)

end MustacheJsx
