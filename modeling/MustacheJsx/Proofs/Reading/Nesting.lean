import MustacheJsx.Proofs.Reading.Stack

/-!
# Strict nesting

The tags of markup are events: an element or a block is opened, or closed, or a block goes over to
its `else`. A sequence of events is strict if each closing event closes what was opened last and
each `else` stands directly in its block (`Event.isStrict`). The events of the tokens that a
template was read from are those that are met when its tree is walked depth first, so they are
strict, and no other sequence is read: `Template.read_walks_strictly`.
-/

namespace MustacheJsx

open Markup (Token StartTag)

/-! ### Events -/

/-- What a tag does to the open elements and blocks. -/
inductive Event where
  | openElement (tag : StartTag)
  /-- An element that ends with its start tag. -/
  | leaf (tag : StartTag)
  | closeElement (name : String)
  | openBlock (head : Option BlockHead)
  /-- A block goes over to its `else`. -/
  | switch
  | closeBlock

/-- An open element, or an open block and whether its `else` has begun. -/
inductive Opened where
  | element (tag : StartTag)
  | block (switched : Bool)

namespace Event

/-- The open elements and blocks after an event, the innermost first. -/
def step : List Opened → Event → Option (List Opened)
  | stack, .openElement tag => some (.element tag :: stack)
  | stack, .leaf _ => some stack
  | .element tag :: stack, .closeElement name =>
    if tag.name = name ∧ Markup.isVoid name = false then some stack else none
  | stack, .openBlock _ => some (.block false :: stack)
  | .block false :: stack, .switch => some (.block true :: stack)
  | .block _ :: stack, .closeBlock => some stack
  | _, _ => none

theorem foldlM_step_cons {stack next : List Opened} {event : Event}
    (h : step stack event = some next) (events : List Event) :
    (event :: events).foldlM step stack = events.foldlM step next := by
  rw [List.foldlM_cons, h]
  rfl

theorem foldlM_step_append {stack next : List Opened} {events : List Event}
    (h : events.foldlM step stack = some next) (others : List Event) :
    (events ++ others).foldlM step stack = others.foldlM step next := by
  rw [List.foldlM_append, h]
  rfl

/-- Whether each event closes what was opened last, and nothing stays open. -/
def isStrict (events : List Event) : Bool := (events.foldlM step []).any List.isEmpty

end Event

/-! ### The events of tokens -/

namespace Lifted

/-- The head of the block or of the `else if` that a start tag stands for. -/
def headOf (lifted : Lifted) (tag : StartTag) : Option BlockHead :=
  match (number? tag).bind fun index => lifted.placeholders[index]?.join with
  | some (.block head) => some head
  | some (.elseIf head) => some head
  | _ => none

/-- The events of tokens. An `else if` is an `else` that opens a block, which closes with the block
around it: `chained` counts these for each open block, the innermost first. -/
def events (lifted : Lifted) (chained : List Nat) : List Token → List Event
  | [] => []
  | .startTag tag _ :: tokens =>
    if tag.name = blockTag then
      .openBlock (lifted.headOf tag) :: lifted.events (0 :: chained) tokens
    else if tag.name = elseTag then
      if (number? tag).isSome then
        .switch :: .openBlock (lifted.headOf tag) ::
          lifted.events (chained.modifyHead (· + 1)) tokens
      else .switch :: lifted.events chained tokens
    else if isLeaf tag then .leaf tag :: lifted.events chained tokens
    else .openElement tag :: lifted.events chained tokens
  | .endTag name _ :: tokens =>
    if name = blockTag then
      List.replicate (chained.headD 0 + 1) .closeBlock ++ lifted.events chained.tail tokens
    else .closeElement name :: lifted.events chained tokens
  | .text _ :: tokens => lifted.events chained tokens
  | .comment _ :: tokens => lifted.events chained tokens

end Lifted

/-! ### The events of a tree -/

def Statement.isInline : Statement → Bool
  | .element _ _ _ _ => false
  | .block _ _ _ => false
  | _ => true

namespace Lifted

mutual

/-- The events of statements, depth first. An element stands for a start tag that its name and its
attributes have been restored from. -/
inductive Walks (lifted : Lifted) : List Statement → List Event → Prop where
  | nil : Walks lifted [] []
  | inline {statement statements events} : statement.isInline = true →
      Walks lifted statements events → Walks lifted (statement :: statements) events
  | leaf {tag attributes statements events} :
      isLeaf tag = true → lifted.RestoresAttributes tag attributes →
      Walks lifted statements events →
      Walks lifted (.element (writtenName tag) attributes [] tag.selfClosing :: statements)
        (.leaf tag :: events)
  | element {tag attributes children inner statements events} :
      isLeaf tag = false → lifted.RestoresAttributes tag attributes →
      Walks lifted children inner → Walks lifted statements events →
      Walks lifted (.element (writtenName tag) attributes children false :: statements)
        (.openElement tag :: (inner ++ .closeElement tag.name :: events))
  | block {head id program inner inverse others statements events} :
      Walks lifted program inner → WalksInverse lifted inverse others →
      Walks lifted statements events →
      Walks lifted (.block head (.mk id program) inverse :: statements)
        (.openBlock (some head) :: (inner ++ (others ++ .closeBlock :: events)))

/-- The events of a block between its program and its end. -/
inductive WalksInverse (lifted : Lifted) : Option Body → List Event → Prop where
  | none : WalksInverse lifted none []
  | some {id body inner} : Walks lifted body inner →
      WalksInverse lifted (some (.mk id body)) (.switch :: inner)

end

variable {lifted : Lifted}

/-! ### A tree is walked strictly -/

theorem step_closeElement {tag : StartTag} (h : isLeaf tag = false) (stack : List Opened) :
    Event.step (.element tag :: stack) (.closeElement tag.name) = some stack :=
  if_pos ⟨rfl, (Bool.or_eq_false_iff.1 h).2⟩

mutual

theorem Walks.foldlM_step {statements : List Statement} {events : List Event}
    (h : lifted.Walks statements events) (stack : List Opened) :
    events.foldlM Event.step stack = some stack := by
  match h with
  | .nil => rfl
  | .inline _ h => exact h.foldlM_step stack
  | .leaf _ _ h =>
    rw [Event.foldlM_step_cons rfl]
    exact h.foldlM_step stack
  | .element hleaf _ hinner h =>
    rw [Event.foldlM_step_cons rfl, Event.foldlM_step_append (hinner.foldlM_step _),
      Event.foldlM_step_cons (step_closeElement hleaf stack)]
    exact h.foldlM_step stack
  | .block hp hi h =>
    obtain ⟨switched, hothers⟩ := hi.foldlM_step stack
    rw [Event.foldlM_step_cons rfl, Event.foldlM_step_append (hp.foldlM_step _),
      Event.foldlM_step_append hothers, Event.foldlM_step_cons rfl]
    exact h.foldlM_step stack

theorem WalksInverse.foldlM_step {inverse : Option Body} {events : List Event}
    (h : lifted.WalksInverse inverse events) (stack : List Opened) :
    ∃ switched, events.foldlM Event.step (.block false :: stack) =
      some (.block switched :: stack) := by
  match h with
  | .none => exact ⟨false, rfl⟩
  | .some hbody => exact ⟨true, hbody.foldlM_step (.block true :: stack)⟩

end

theorem isStrict_of_walks {statements : List Statement} {events : List Event}
    (h : lifted.Walks statements events) : Event.isStrict events = true := by
  rw [Event.isStrict, h.foldlM_step]
  rfl

/-! ### What tokens read as is walked with their events -/

theorem headOf_block {tag : StartTag} {index : Nat} {head : BlockHead}
    (hn : number? tag = some index) (hk : lifted.Keeps index (.block head)) :
    lifted.headOf tag = some head := by
  rw [headOf, hn, Option.bind_some, hk]
  rfl

theorem headOf_elseIf {tag : StartTag} {index : Nat} {head : BlockHead}
    (hn : number? tag = some index) (hk : lifted.Keeps index (.elseIf head)) :
    lifted.headOf tag = some head := by
  rw [headOf, hn, Option.bind_some, hk]
  rfl

theorem Restores.walks {pieces : List Piece} {restored statements : List Statement}
    {events : List Event} (h : lifted.Restores pieces restored)
    (hw : lifted.Walks statements events) : lifted.Walks (restored ++ statements) events := by
  induction h with
  | nil => exact hw
  | text _ ih => exact .inline rfl ih
  | mustache _ _ ih => exact .inline rfl ih
  | partialCall _ _ ih => exact .inline rfl ih

section

variable {tag : StartTag} (chained : List Nat) (line : Nat) (tokens : List Token)

theorem events_startTag :
    lifted.events chained (.startTag tag line :: tokens) =
      if tag.name = blockTag then
        .openBlock (lifted.headOf tag) :: lifted.events (0 :: chained) tokens
      else if tag.name = elseTag then
        if (number? tag).isSome then
          .switch :: .openBlock (lifted.headOf tag) ::
            lifted.events (chained.modifyHead (· + 1)) tokens
        else .switch :: lifted.events chained tokens
      else if isLeaf tag then .leaf tag :: lifted.events chained tokens
      else .openElement tag :: lifted.events chained tokens := rfl

theorem events_endTag (name : String) :
    lifted.events chained (.endTag name line :: tokens) =
      if name = blockTag then
        List.replicate (chained.headD 0 + 1) .closeBlock ++ lifted.events chained.tail tokens
      else .closeElement name :: lifted.events chained tokens := rfl

theorem events_leaf (he : IsElement tag) (hleaf : isLeaf tag = true) :
    lifted.events chained (.startTag tag line :: tokens) =
      .leaf tag :: lifted.events chained tokens := by
  rw [events_startTag, if_neg he.1, if_neg he.2, if_pos hleaf]

theorem events_element (he : IsElement tag) (hleaf : isLeaf tag = false) :
    lifted.events chained (.startTag tag line :: tokens) =
      .openElement tag :: lifted.events chained tokens := by
  rw [events_startTag, if_neg he.1, if_neg he.2, if_neg (by rw [hleaf]; exact Bool.false_ne_true)]

theorem events_endElement {name : String} (h : name ≠ blockTag) :
    lifted.events chained (.endTag name line :: tokens) =
      .closeElement name :: lifted.events chained tokens := by
  rw [events_endTag, if_neg h]

theorem events_block (htag : tag.name = blockTag) :
    lifted.events chained (.startTag tag line :: tokens) =
      .openBlock (lifted.headOf tag) :: lifted.events (0 :: chained) tokens := by
  rw [events_startTag, if_pos htag]

theorem elseTag_ne_blockTag : elseTag ≠ blockTag := by decide

theorem events_otherwise (htag : tag.name = elseTag) (hn : number? tag = none) :
    lifted.events chained (.startTag tag line :: tokens) =
      .switch :: lifted.events chained tokens := by
  rw [events_startTag, htag, if_neg elseTag_ne_blockTag, if_pos rfl, hn]
  rfl

theorem events_elseIf {index : Nat} (htag : tag.name = elseTag) (hn : number? tag = some index)
    (count : Nat) :
    lifted.events (count :: chained) (.startTag tag line :: tokens) =
      .switch :: .openBlock (lifted.headOf tag) ::
        lifted.events ((count + 1) :: chained) tokens := by
  rw [events_startTag, htag, if_neg elseTag_ne_blockTag, if_pos rfl, hn]
  rfl

theorem events_endBlock (count : Nat) :
    lifted.events (count :: chained) (.endTag blockTag line :: tokens) =
      List.replicate (count + 1) .closeBlock ++ lifted.events chained tokens := by
  rw [events_endTag, if_pos rfl]
  rfl

end

mutual

theorem Reads.walks {tokens : List Token} {statements : List Statement}
    (h : lifted.Reads tokens statements) : ∃ events, lifted.Walks statements events ∧
      ∀ chained rest, lifted.events chained (tokens ++ rest) =
        events ++ lifted.events chained rest := by
  match h with
  | .nil => exact ⟨[], .nil, fun _ _ => rfl⟩
  | .text hr h =>
    obtain ⟨events, hw, hevents⟩ := h.walks
    exact ⟨events, hr.walks hw, hevents⟩
  | .markupComment _ h =>
    obtain ⟨events, hw, hevents⟩ := h.walks
    exact ⟨events, .inline rfl hw, hevents⟩
  | .mustacheComment _ _ h =>
    obtain ⟨events, hw, hevents⟩ := h.walks
    exact ⟨events, .inline rfl hw, hevents⟩
  | .leaf he hleaf ha h =>
    obtain ⟨events, hw, hevents⟩ := h.walks
    refine ⟨_, .leaf hleaf ha hw, fun chained rest => ?_⟩
    rw [List.cons_append, events_leaf _ _ _ he hleaf, hevents, List.cons_append]
  | .element he hleaf ha hi h =>
    obtain ⟨inner, hwi, hinner⟩ := hi.walks
    obtain ⟨events, hw, hevents⟩ := h.walks
    refine ⟨_, .element hleaf ha hwi hw, fun chained rest => ?_⟩
    rw [List.cons_append, events_element _ _ _ he hleaf, List.append_assoc, hinner,
      List.cons_append, events_endElement _ _ _ he.1, hevents]
    simp
  | .block ht hn hk hp hi h =>
    obtain ⟨inner, hwp, hinner⟩ := hp.walks
    obtain ⟨others, hwi, hothers⟩ := hi.walks
    obtain ⟨events, hw, hevents⟩ := h.walks
    refine ⟨_, .block hwp hwi hw, fun chained rest => ?_⟩
    rw [List.cons_append, events_block _ _ _ ht, headOf_block hn hk, List.append_assoc, hinner,
      List.append_assoc, List.cons_append, hothers, hevents]
    simp

/-- The tokens of an inverse have the events of the inverse. Its blocks are closed at the end of the
block that it belongs to. -/
theorem ReadsInverse.walks {tokens : List Token} {inverse : Option Body}
    (h : lifted.ReadsInverse tokens inverse) : ∃ events, lifted.WalksInverse inverse events ∧
      ∀ count chained line rest,
        lifted.events (count :: chained) (tokens ++ .endTag blockTag line :: rest) =
          events ++ (List.replicate (count + 1) .closeBlock ++ lifted.events chained rest) := by
  match h with
  | .none => exact ⟨[], .none, fun count chained line rest => events_endBlock ..⟩
  | .otherwise ht hn hp =>
    obtain ⟨inner, hwp, hinner⟩ := hp.walks
    refine ⟨_, .some hwp, fun count chained line rest => ?_⟩
    rw [List.cons_append, events_otherwise _ _ _ ht hn, hinner, events_endBlock, List.cons_append]
  | .elseIf ht hn hk hp hi =>
    obtain ⟨inner, hwp, hinner⟩ := hp.walks
    obtain ⟨others, hwi, hothers⟩ := hi.walks
    refine ⟨_, .some (.block hwp hwi .nil), fun count chained line rest => ?_⟩
    rw [List.cons_append, events_elseIf _ _ _ ht hn, headOf_elseIf hn hk, List.append_assoc, hinner,
      hothers, List.replicate_succ]
    simp

end

end Lifted

/-! ### Text that cannot be lifted -/

/-- A failure of the syntax, at some offset. -/
def CompileError.IsParse (e : CompileError) : Prop := ∃ fault offset, e = .parse fault offset

theorem isParse_of_mapError {α : Type} {x : Except SyntaxFault α} {offset : Nat} {e : CompileError}
    (h : x.mapError (fun fault => CompileError.parse fault offset) = .error e) : e.IsParse := by
  obtain ⟨fault, rfl⟩ := exists_of_mapError_eq_error h
  exact ⟨fault, offset, rfl⟩

theorem Tag.isParse_of_read {content : List Char} {trusting : Bool} {offset next : Nat}
    {e : CompileError} (h : (Tag.read content trusting offset next).1 = .error e) : e.IsParse := by
  rw [Tag.read.eq_def] at h
  split at h
  · cases h
  · dsimp only at h
    split at h
    · cases h
    · cases h
      exact ⟨_, _, rfl⟩

namespace Lifting

variable {marker : Char} {st : Lifting} {offset : Nat} {e : CompileError}

theorem isParse_of_stepMustache {cs : List Char}
    (h : stepMustache marker st cs offset = .error e) : e.IsParse := by
  rw [stepMustache] at h
  obtain hspan | ⟨span, -, h⟩ := bind_eq_error h
  · exact isParse_of_mapError hspan
  · dsimp only at h
    obtain htag | ⟨tag, -, h⟩ := bind_eq_error h
    · exact Tag.isParse_of_read htag
    · split at h
      all_goals
        obtain hwritten | ⟨written, -, h⟩ := bind_eq_error h
        · exact isParse_of_mapError hwritten
        · cases h

theorem isParse_of_step {c : Char} {cs : List Char} (h : step marker st c cs offset = .error e) :
    e.IsParse := by
  rw [step.eq_def] at h
  split at h
  · cases h
  · exact isParse_of_stepMustache h
  · split at h <;> cases h

theorem isParse_of_run {cs : List Char} {skip : Nat} (h : run marker offset skip st cs = .error e) :
    e.IsParse := by
  induction cs generalizing offset skip st with
  | nil => cases h
  | cons c cs ih =>
    rw [run.eq_def] at h
    dsimp only at h
    split at h
    · exact ih h
    · split at h
      · exact ih h
      · next hstep =>
        cases h
        exact isParse_of_step hstep

end Lifting

theorem Lifted.isParse_of_ofSource {source : List Char} {e : CompileError}
    (h : Lifted.ofSource source = .error e) : e.IsParse := by
  unfold Lifted.ofSource at h
  split at h
  · cases h
    exact ⟨_, _, rfl⟩
  · split at h
    · next hrun =>
      cases h
      exact Lifting.isParse_of_run hrun
    · split at h
      · cases h
        exact ⟨_, _, rfl⟩
      · cases h

/-! ### Templates -/

namespace Template

theorem isParse_of_read {source : List Char} {e : CompileError}
    (h : Template.read source = .error e) : e.IsParse := by
  obtain hsource | ⟨⟨lifted, next⟩, -, h⟩ := bind_eq_error h
  · exact Lifted.isParse_of_ofSource hsource
  · exact isParse_of_mapError h

theorem walks_of_read {source : List Char} {lifted : Lifted} {next : Nat} {template : Template}
    (hs : Lifted.ofSource source = .ok (lifted, next)) (h : Template.read source = .ok template) :
    lifted.Walks template (lifted.events [] (Markup.tokens lifted.markup)) := by
  obtain ⟨hreads, -⟩ := reads_of_read hs h
  obtain ⟨events, hw, hevents⟩ := hreads.walks
  have hall := hevents [] []
  rw [List.append_nil, Lifted.events.eq_1, List.append_nil] at hall
  rwa [hall]

/-- A template is read from lifted markup whose events are those of its tree, depth first, and are
strict; text whose tags cannot be lifted out, or leave events that are not strict, is refused. -/
theorem read_walks_strictly (source : List Char) :
    (∀ template, Template.read source = .ok template →
      ∃ lifted next, Lifted.ofSource source = .ok (lifted, next) ∧
        lifted.Walks template (lifted.events [] (Markup.tokens lifted.markup)) ∧
        Event.isStrict (lifted.events [] (Markup.tokens lifted.markup)) = true) ∧
    ((∀ lifted next, Lifted.ofSource source = .ok (lifted, next) →
        Event.isStrict (lifted.events [] (Markup.tokens lifted.markup)) = false) →
      ∃ fault offset, Template.read source = .error (.parse fault offset)) := by
  have hread : ∀ template, Template.read source = .ok template →
      ∃ lifted next, Lifted.ofSource source = .ok (lifted, next) ∧
        lifted.Walks template (lifted.events [] (Markup.tokens lifted.markup)) := by
    intro template h
    obtain ⟨⟨lifted, next⟩, hs, -⟩ := bind_eq_ok h
    exact ⟨lifted, next, hs, walks_of_read hs h⟩
  constructor
  · intro template h
    obtain ⟨lifted, next, hs, hwalks⟩ := hread template h
    exact ⟨lifted, next, hs, hwalks, Lifted.isStrict_of_walks hwalks⟩
  · intro hstrict
    cases h : Template.read source with
    | ok template =>
      obtain ⟨lifted, next, hs, hwalks⟩ := hread template h
      have hfalse := hstrict lifted next hs
      rw [Lifted.isStrict_of_walks hwalks] at hfalse
      cases hfalse
    | error e =>
      obtain ⟨fault, offset, rfl⟩ := isParse_of_read h
      exact ⟨fault, offset, rfl⟩

/-- A list whose items hold a void element and a chain of branches. -/
def listSource : List Char :=
  ("<ul>\x7b\x7b#each items\x7d\x7d<li><br>\x7b\x7b#if a\x7d\x7d" ++ "x\x7b\x7belse if b\x7d\x7d" ++
    "<B>y</B>\x7b\x7belse\x7d\x7dz\x7b\x7b/if\x7d\x7d</li>\x7b\x7b/each\x7d\x7d</ul>").toList

/-- A block that is left by an end tag, an `else` in an element, an `else` without a block, a void
element that is ended, and an element that stays open. -/
def crossingSources : List (List Char) :=
  [("<p>\x7b\x7b#if a\x7d\x7d</p>\x7b\x7b/if\x7d\x7d").toList,
   ("\x7b\x7b#if a\x7d\x7d<p>\x7b\x7belse\x7d\x7d</p>\x7b\x7b/if\x7d\x7d").toList,
   "<p>\x7b\x7belse\x7d\x7d</p>".toList, "<p><br></br></p>".toList, "<p>".toList]

theorem listSource_walks_strictly :
    (∃ template lifted next, Template.read listSource = .ok template ∧
      Lifted.ofSource listSource = .ok (lifted, next) ∧
      lifted.Walks template (lifted.events [] (Markup.tokens lifted.markup))) ∧
    ∀ source ∈ crossingSources, ∃ fault offset,
      Template.read source = .error (.parse fault offset) := by
  constructor
  · have hread : (Template.read listSource).toOption.any (fun _ => true) = true := by
      decide +kernel
    obtain ⟨template, hread, -⟩ := exists_ok_of_check hread
    obtain ⟨lifted, next, hs, hwalks, -⟩ := (read_walks_strictly listSource).1 template hread
    exact ⟨template, lifted, next, hread, hs, hwalks⟩
  · intro source hmem
    have hcheck : crossingSources.all (fun source => !(Lifted.ofSource source).toOption.any
        fun found => Event.isStrict (found.1.events [] (Markup.tokens found.1.markup))) = true := by
      decide +kernel
    refine (read_walks_strictly source).2 fun lifted next hs => ?_
    have hsource := List.all_eq_true.1 hcheck source hmem
    simp only [hs, Except.toOption, Option.any_some, Bool.not_eq_true'] at hsource
    exact hsource

end Template

end MustacheJsx
