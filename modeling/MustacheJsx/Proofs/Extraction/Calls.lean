import MustacheJsx.Proofs.Extraction.Clearing
import MustacheJsx.Proofs.Extraction.Definitions
import MustacheJsx.Proofs.Mustache.Appending
import MustacheJsx.Proofs.Printing.Tag

/-!
# Calls of helpers

The call of a helper is put together from the text of a condition and that of a path, and is read
again by the grammar of mustaches. `BlockPass.calls_take_arguments` says when it is the call that
was meant: if the opening of the block has one positional argument and no named one, and the
mustache of the body can be read. Otherwise the call cannot be read, or its arguments are not those
that its helper has parameters for.
-/

namespace MustacheJsx

/-! ### Heads -/

namespace Expression

/-- A name before arguments: a word that is neither a literal nor `this`. -/
structure IsHead (name : List Char) : Prop where
  ne_nil : name ≠ []
  chars : ∀ c ∈ name, isHelperChar c = true
  literal : literal? name = none
  this : name ≠ ['t', 'h', 'i', 's']

variable {name : List Char}

theorem IsHead.isPathText (h : IsHead name) : IsPathText name :=
  ⟨h.ne_nil, fun c hc => .inr (isPathChar_of_isHelperChar (h.chars c hc))⟩

theorem segmentsAfter_of_isHelperChar {cs : List Char}
    (h : ∀ c ∈ cs, isHelperChar c = true) {current : List Char} (hne : current ++ cs ≠ []) :
    Path.segmentsAfter current false cs = some [String.ofList (current.reverse ++ cs)] := by
  induction cs generalizing current with
  | nil =>
    rw [List.append_nil] at hne ⊢
    rw [Path.segmentsAfter]
    simp [hne]
  | cons c cs ih =>
    obtain ⟨hc, hcs⟩ := List.forall_mem_cons.1 h
    have hnot : ∀ d, isHelperChar d = false → c ≠ d := by
      rintro d hd rfl
      rw [hc] at hd
      cases hd
    rw [Path.segmentsAfter, if_neg Bool.false_ne_true, if_neg (hnot '[' (by decide)),
      if_neg (not_or.2 ⟨hnot '.' (by decide), hnot '/' (by decide)⟩), ih hcs (by simp)]
    simp

theorem IsHead.ofToken? (h : IsHead name) (id : Nat) :
    ofToken? name id = some (.path (.ofName id (String.ofList name)), id + 1) := by
  have hnot : ∀ d, isHelperChar d = false → d ∉ name := by
    intro d hd hmem
    rw [h.chars d hmem] at hd
    cases hd
  have hhead : ∀ d, isHelperChar d = false → ∀ c ∈ name.head?, c ≠ d := by
    rintro d hd c hc rfl
    exact hnot c hd (List.mem_of_mem_head? hc)
  have hsteps : Path.parentSteps name = (0, name) :=
    Path.parentSteps_replicate 0 (hhead '.' (by decide))
  have hafter : Path.afterThis name = name := by
    rw [Path.afterThis.eq_def]
    split
    · exact absurd List.mem_cons_self (hnot '.' (by decide))
    · exact absurd rfl h.this
    · exact absurd List.mem_cons_self (hnot '.' (by decide))
    · exact absurd (by simp) (hnot '.' (by decide))
    · exact absurd (by simp) (hnot '/' (by decide))
    · rfl
  have hsegments : Path.segments? name = some [String.ofList name] := by
    obtain ⟨c, cs, hname⟩ := List.exists_cons_of_ne_nil h.ne_nil
    have hchars := h.chars
    rw [hname] at hchars ⊢
    exact segmentsAfter_of_isHelperChar hchars (List.cons_ne_nil c cs)
  have hempty : name.isEmpty = false := by
    simp [h.ne_nil]
  rw [Expression.ofToken?, hempty, if_neg Bool.false_ne_true, h.literal]
  dsimp only
  rw [Path.ofToken?, Path.dataMark_of_ne (hhead '@' (by decide))]
  dsimp only
  rw [hsteps]
  dsimp only
  rw [hafter, hsegments]
  rfl

/-- What stands after a name: nothing, or arguments after a blank. -/
def FollowsHead (rest : List Char) : Prop := ∀ c ∈ rest.head?, Text.isBlank c = true

theorem IsHead.outcome_readWith (h : IsHead name) {rest : List Char} (hrest : FollowsHead rest)
    (fuel first : Nat) :
    outcome (readWith (fuel + 1) (name ++ rest)) first =
      some ((.path (.ofName first (String.ofList name)), rest), first + 1) := by
  have hends : takeToken false rest = ([], rest) := by
    cases rest with
    | nil => rfl
    | cons c rest =>
      have hblank := hrest c rfl
      have hbracket : c ≠ '[' := by
        rintro rfl
        cases hblank
      have hends : endsToken c = true := by
        rw [endsToken, hblank]
        rfl
      rw [takeToken, if_neg Bool.false_ne_true, if_neg hbracket, if_pos hends]
  have htoken : takeToken false (name ++ rest) = (name, rest) := by
    rw [unbroken_path h.isPathText, hends, List.append_nil]
  obtain ⟨c, cs, hname⟩ := List.exists_cons_of_ne_nil h.ne_nil
  have hbegins := beginsToken_of_mem_path h.isPathText c (hname ▸ List.mem_cons_self)
  have hbare : readWith (fuel + 1) (name ++ rest) = readBare (name ++ rest) := by
    rw [hname]
    exact readWith_token hbegins fuel (cs ++ rest)
  rw [hbare, outcome_readBare, htoken, h.ofToken?]
  rfl

theorem outcome_readArguments_congr {cs ds : List Char}
    (h : Text.trimStart cs = Text.trimStart ds) (fuel : Nat) (named : Bool) (first : Nat) :
    outcome (readArguments fuel named cs) first = outcome (readArguments fuel named ds) first := by
  cases fuel with
  | zero => rfl
  | succ fuel =>
    rw [readArguments.eq_def, readArguments.eq_def]
    dsimp only
    rw [h]

/-- A name with arguments is read if these are, with any fuel that is enough. -/
theorem IsHead.outcome_readCall_iff (h : IsHead name) {rest args : List Char}
    (hrest : FollowsHead rest) (hargs : Text.trimStart rest = Text.trimStart args) {fuel : Nat}
    (hfuel : args.length + 1 < fuel) {first last : Nat} {callee : Expression}
    {params : List Expression} {hash : Hash} :
    outcome (readCall (name ++ rest)) first = some ((callee, params, hash), last) ↔
      callee = .path (.ofName first (String.ofList name)) ∧
        outcome (readArguments fuel false args) (first + 1) = some ((params, hash, []), last) := by
  obtain ⟨c, cs, hname⟩ := List.exists_cons_of_ne_nil h.ne_nil
  have hblank := h.isPathText.isBlank c (hname ▸ List.mem_cons_self)
  have htrim : Text.trimStart (name ++ rest) = name ++ rest := by
    rw [hname]
    exact Text.trimStart_cons_of_not_blank _ hblank
  have hpos := List.length_pos_iff.2 h.ne_nil
  have henough : rest.length + 1 < fuelFor (name ++ rest) := by
    rw [fuelFor, List.length_append]
    omega
  -- Both fuels are enough for the arguments without blanks before them.
  have hsame : outcome (readArguments (fuelFor (name ++ rest)) false rest) (first + 1) =
      outcome (readArguments fuel false args) (first + 1) := by
    have hidem : ∀ ds, Text.trimStart ds = Text.trimStart (Text.trimStart ds) := fun ds => by
      rw [Text.trimStart, Text.trimStart, List.dropWhile_idempotent]
    have hle := Text.length_trimStart_le rest
    rw [hargs] at hle
    have hle' := Text.length_trimStart_le args
    rw [outcome_readArguments_congr (hidem rest), outcome_readArguments_congr (hidem args), hargs]
    exact outcome_readArguments_fuel (by omega) (by omega) false (first + 1)
  rw [outcome_readCall, htrim, fuelFor, h.outcome_readWith hrest, Option.bind_some]
  dsimp only
  rw [← fuelFor, hsame]
  constructor
  · intro hread
    obtain ⟨⟨⟨params', hash', rest'⟩, last'⟩, harguments, hread⟩ := Option.bind_eq_some_iff.1 hread
    dsimp only at hread
    split at hread
    · next hempty =>
      cases hread
      rw [harguments, List.isEmpty_iff.1 hempty]
      exact ⟨rfl, rfl⟩
    · cases hread
  · rintro ⟨rfl, harguments⟩
    rw [harguments]
    rfl

end Expression

/-! ### Tags -/

namespace Tag

theorem read_eq_ok_iff {content : List Char} (h : ∀ rest, content ≠ '!' :: rest)
    {offset next last : Nat} {tag : Tag} :
    Tag.read content false offset next = (.ok tag, last) ↔
      outcome (readTrimmed (Text.trim content)) next = some (tag, last) := by
  rw [outcome_eq_some_iff, Tag.read.eq_def]
  split
  · next rest => exact absurd rfl (h rest)
  · dsimp only
    rw [if_neg Bool.false_ne_true]
    cases (readTrimmed (Text.trim content)).run next with
    | mk result middle =>
      cases result with
      | ok found =>
        dsimp only
        constructor <;>
        · intro heq
          cases heq
          rfl
      | error stop =>
        constructor <;>
        · intro heq
          cases heq

theorem outcome_readMustache (trusting : Bool) (cs : List Char) (next : Nat) :
    outcome (readMustache trusting cs) next =
      (outcome (Expression.readCall cs) next).map fun read =>
        (.expression { callee := read.1.1, params := read.1.2.1, hash := read.1.2.2, trusting },
          read.2) := by
  rw [Option.map_eq_bind]
  exact outcome_bind _ _

theorem outcome_readMustache_iff {trusting : Bool} {cs : List Char} {next last : Nat}
    {m : Mustache} :
    outcome (readMustache trusting cs) next = some (.expression m, last) ↔
      m.trusting = trusting ∧
        outcome (Expression.readCall cs) next = some ((m.callee, m.params, m.hash), last) := by
  rw [outcome_readMustache, Option.map_eq_some_iff]
  constructor
  · rintro ⟨⟨⟨callee, params, hash⟩, last'⟩, hread, heq⟩
    cases heq
    exact ⟨rfl, hread⟩
  · rintro ⟨rfl, hread⟩
    exact ⟨_, hread, rfl⟩

theorem outcome_readBlockHead_iff {cs : List Char} {next last : Nat} {head : BlockHead} :
    outcome (readBlockHead cs) next = some (head, last) ↔
      outcome (Expression.readCall cs) next =
        some ((.path head.path, head.params, head.hash), last) := by
  rw [readBlockHead, outcome_bind, Option.bind_eq_some_iff]
  constructor
  · rintro ⟨⟨⟨callee, params, hash⟩, last'⟩, hcall, heq⟩
    cases callee with
    | path path =>
      cases heq
      exact hcall
    | literal value => cases heq
    | call callee params hash => cases heq
  · intro hcall
    exact ⟨_, hcall, rfl⟩

theorem outcome_openBlock_iff {cs : List Char} (hmark : ∀ c ∈ cs.head?, c ≠ '>' ∧ c ≠ '*')
    {next last : Nat} {head : BlockHead} :
    outcome (readTrimmed ('#' :: cs)) next = some (.openBlock head, last) ↔
      outcome (Expression.readCall cs) next =
        some ((.path head.path, head.params, head.hash), last) := by
  have htrimmed : readTrimmed ('#' :: cs) = do return .openBlock (← readBlockHead cs) := by
    rw [readTrimmed]
    · rintro rest rfl
      exact (hmark '>' rfl).1 rfl
    · rintro rest rfl
      exact (hmark '*' rfl).2 rfl
  rw [htrimmed, ← outcome_readBlockHead_iff]
  have hbind := @outcome_bind _ _ next (readBlockHead cs) fun head =>
    (pure (.openBlock head) : ReadM Tag)
  refine Iff.trans (Eq.congr_left hbind) ?_
  rw [Option.bind_eq_some_iff]
  constructor
  · rintro ⟨⟨found, last'⟩, hread, heq⟩
    cases heq
    exact hread
  · intro hread
    exact ⟨_, hread, rfl⟩

/-- A word that is no mark of a tag is read as a value. -/
theorem readTrimmed_word {word rest : List Char} (hne : word ≠ [])
    (hmark : ∀ mark ∈ ['#', '/', '>', '^', '&'], mark ∉ word)
    (hword : ∀ c ∈ word, Text.isBlank c = false) (helse : word ≠ "else".toList)
    (hrest : Expression.FollowsHead rest) :
    readTrimmed (word ++ rest) = readMustache false (word ++ rest) := by
  -- The first word of the text is the whole word.
  have hcut : (word ++ rest).takeWhile (!Text.isBlank ·) = word := by
    rw [List.takeWhile_append_of_pos (by simpa using hword)]
    cases rest with
    | nil => exact List.append_nil word
    | cons c rest =>
      have hc := hrest c rfl
      rw [List.takeWhile_cons_of_neg (by simp [hc]), List.append_nil]
  have hbare : word ++ rest ≠ "else".toList := by
    intro heq
    rw [heq] at hcut
    exact helse (hcut.symm.trans (by decide))
  have hlead : Text.afterLead? "else ".toList (word ++ rest) = none := by
    rw [Option.eq_none_iff_forall_ne_some]
    intro after hafter
    rw [Text.afterLead?_eq_some_iff.1 hafter] at hcut
    refine helse (hcut.symm.trans ?_)
    rfl
  obtain ⟨c, cs, rfl⟩ := List.exists_cons_of_ne_nil hne
  have hne : ∀ mark ∈ ['#', '/', '>', '^', '&'], c ≠ mark := by
    rintro mark hmem rfl
    exact hmark c hmem List.mem_cons_self
  rw [List.cons_append] at hbare hlead ⊢
  rw [readTrimmed.eq_def]
  split
  · next heq => cases heq
  · next heq => exact absurd (List.cons.inj heq).1 (hne '#' (by decide))
  · next heq => exact absurd (List.cons.inj heq).1 (hne '/' (by decide))
  · next heq => exact absurd (List.cons.inj heq).1 (hne '>' (by decide))
  · next heq => exact absurd (List.cons.inj heq).1 (hne '^' (by decide))
  · next heq => exact absurd (List.cons.inj heq).1 (hne '&' (by decide))
  · rw [if_neg hbare, hlead]

end Tag

/-! ### Names before arguments -/

namespace Expression

variable {name rest args : List Char} {fuel offset first last : Nat} {params : List Expression}
  {hash : Hash}

theorem FollowsHead.trimEnd (h : FollowsHead rest) : FollowsHead (Text.trimEnd rest) := by
  intro c hc
  cases rest with
  | nil => cases hc
  | cons d rest =>
    rw [Text.trimEnd_cons] at hc
    split at hc
    · cases hc
    · exact h c hc

theorem IsHead.isBlank (h : IsHead name) : ∀ c ∈ name, Text.isBlank c = false :=
  h.isPathText.isBlank

theorem IsHead.not_mem (h : IsHead name) {c : Char} (hc : isHelperChar c = false) : c ∉ name := by
  intro hmem
  rw [h.chars c hmem] at hc
  cases hc

/-- A name with arguments is read as a value of which it is the callee. -/
theorem IsHead.read_expression_iff (h : IsHead name) (helse : name ≠ "else".toList)
    (hrest : FollowsHead rest) (hargs : Text.trim rest = Text.trimStart args)
    (hfuel : args.length + 1 < fuel) :
    Tag.read (name ++ rest) false offset first =
        (.ok (.expression { callee := .path (.ofName first (String.ofList name)), params, hash,
                            trusting := false }), last) ↔
      outcome (readArguments fuel false args) (first + 1) = some ((params, hash, []), last) := by
  have hcomment : ∀ after, name ++ rest ≠ '!' :: after := by
    intro after heq
    obtain ⟨c, cs, hname⟩ := List.exists_cons_of_ne_nil h.ne_nil
    have hc := h.chars c (hname ▸ List.mem_cons_self)
    rw [hname] at heq
    cases heq
    cases hc
  rw [Tag.read_eq_ok_iff hcomment, Text.trim_append_word h.ne_nil h.isBlank,
    Tag.readTrimmed_word h.ne_nil ?_ h.isBlank helse hrest.trimEnd, Tag.outcome_readMustache_iff,
    h.outcome_readCall_iff hrest.trimEnd ((Text.trimStart_trimEnd rest).trans hargs) hfuel]
  · exact ⟨fun hread => hread.2.2, fun hread => ⟨rfl, rfl, hread⟩⟩
  · intro mark hmark
    refine h.not_mem ?_
    revert mark
    decide

/-- A name with arguments after the mark of a block is read as the opening of the block. -/
theorem IsHead.read_openBlock_iff (h : IsHead name) (hrest : FollowsHead rest)
    (hargs : Text.trim rest = Text.trimStart args) (hfuel : args.length + 1 < fuel) :
    Tag.read ('#' :: (name ++ rest)) false offset first =
        (.ok (.openBlock { path := .ofName first (String.ofList name), params, hash }), last) ↔
      outcome (readArguments fuel false args) (first + 1) = some ((params, hash, []), last) := by
  have hword : ∀ c ∈ '#' :: name, Text.isBlank c = false :=
    List.forall_mem_cons.2 ⟨by decide, h.isBlank⟩
  have hmark : ∀ c ∈ (name ++ Text.trimEnd rest).head?, c ≠ '>' ∧ c ≠ '*' := by
    intro c hc
    obtain ⟨d, cs, hname⟩ := List.exists_cons_of_ne_nil h.ne_nil
    rw [hname] at hc
    cases hc
    have hmem : c ∈ name := hname ▸ List.mem_cons_self
    constructor
    · rintro rfl
      exact h.not_mem (by decide) hmem
    · rintro rfl
      exact h.not_mem (by decide) hmem
  rw [Tag.read_eq_ok_iff (by simp), ← List.cons_append,
    Text.trim_append_word (List.cons_ne_nil _ _) hword, List.cons_append,
    Tag.outcome_openBlock_iff hmark,
    h.outcome_readCall_iff hrest.trimEnd ((Text.trimStart_trimEnd rest).trans hargs) hfuel]
  exact ⟨And.right, fun hread => ⟨rfl, hread⟩⟩

theorem outcome_readCall_path {path : List Char} (h : IsPathText path) :
    outcome (readCall path) first =
      (ofToken? path first).map fun read => ((read.1, [], []), read.2) := by
  have hstart : Text.trimStart path = path := by
    obtain ⟨c, cs, hpath⟩ := List.exists_cons_of_ne_nil h.1
    have hc := h.isBlank c (hpath ▸ List.mem_cons_self)
    rw [hpath]
    exact Text.trimStart_cons_of_not_blank cs hc
  rw [outcome_readCall, hstart, fuelFor, outcome_readWith_path h, Option.bind_map,
    Option.map_eq_bind]
  refine Option.bind_congr fun read _ => ?_
  have harguments : outcome (readArguments (path.length + 2) false []) read.2 =
      some (([], [], []), read.2) := outcome_readArguments_nil rfl _ _ _
  dsimp only [Function.comp_apply]
  rw [harguments]
  rfl

theorem readTrimmed_path {path : List Char} (h : IsPathText path)
    (helse : path ≠ "else".toList) : Tag.readTrimmed path = Tag.readMustache false path := by
  have hmark : ∀ mark ∈ ['#', '/', '>', '^', '&'], mark ∉ path := by
    intro mark hmark
    refine h.not_mem ?_ ?_
    · rintro rfl
      exact absurd hmark (by decide)
    · revert mark
      decide
  have hrest : FollowsHead [] := by
    rintro c ⟨⟩
  have hread := Tag.readTrimmed_word h.1 hmark h.isBlank helse hrest
  rwa [List.append_nil] at hread

/-- A plain path alone is read as a value. -/
theorem read_path_iff {path : List Char} (h : IsPathText path) (helse : path ≠ "else".toList)
    {value : Expression} :
    Tag.read path false offset first =
        (.ok (.expression { callee := value, params := [], hash := [], trusting := false }), last) ↔
      ofToken? path first = some (value, last) := by
  have hcomment : ∀ after, path ≠ '!' :: after := by
    rintro after rfl
    exact h.not_mem (by decide) (by decide) List.mem_cons_self
  have htrim : Text.trim path = path := by
    have hall := Text.trim_append_word h.1 h.isBlank []
    rwa [List.append_nil, show Text.trimEnd [] = [] from rfl, List.append_nil] at hall
  rw [Tag.read_eq_ok_iff hcomment, htrim, readTrimmed_path h helse, Tag.outcome_readMustache_iff,
    outcome_readCall_path h, Option.map_eq_some_iff]
  constructor
  · rintro ⟨-, read, hread, heq⟩
    cases heq
    exact hread
  · intro hread
    exact ⟨rfl, _, hread, rfl⟩

end Expression

/-! ### Calls of helpers -/

theorem IsHelperName.isHead {name : String} (h : IsHelperName name) :
    Expression.IsHead name.toList := by
  refine ⟨List.ne_nil_of_mem h.capital, h.chars,
    Expression.literal?_of_mem (by decide) (by decide) h.capital, fun heq => ?_⟩
  have hcapital := h.capital
  rw [heq] at hcapital
  exact absurd hcapital (by decide)

/-- The name of a helper with arguments is read as a call of the helper. -/
theorem IsHelperName.read_expression_iff {name : String} (h : IsHelperName name) {args : List Char}
    (hargs : Text.trim (' ' :: args) = Text.trimStart args) (fuel : Nat)
    (hfuel : args.length + 1 < fuel) {offset first last : Nat} {params : List Expression} :
    Tag.read (name.toList ++ ' ' :: args) false offset first =
        (.ok (.expression { callee := .path (.ofName first name), params, hash := [],
                            trusting := false }), last) ↔
      outcome (Expression.readArguments fuel false args) (first + 1) =
        some ((params, [], []), last) := by
  have helse : name.toList ≠ "else".toList := by
    intro heq
    exact absurd (heq ▸ h.capital) (by decide)
  have hhead : Expression.FollowsHead (' ' :: args) := by
    rintro c ⟨⟩
    decide
  rw [← h.isHead.read_expression_iff helse hhead hargs hfuel, String.ofList_toList]

theorem isHead_conditionName (negated : Bool) :
    Expression.IsHead (conditionName negated).toList := by
  cases negated with
  | false => exact ⟨by decide, by decide, by decide, by decide⟩
  | true => exact ⟨by decide, by decide, by decide, by decide⟩

theorem opensBranch_else {cs before after : List Char}
    (hbefore : ∀ c ∈ before, Text.isBlank c = true) (hafter : ∀ c ∈ after, Text.isBlank c = true) :
    opensBranch (Span.braced (before ++ "else".toList ++ after) cs) = true := by
  have htext : before ++ "else".toList ++ after ++ '}' :: '}' :: cs =
      before ++ 'e' :: 'l' :: 's' :: 'e' :: (after ++ '}' :: '}' :: cs) := by
    simp only [List.append_assoc]
    rfl
  have hends : (after ++ '}' :: '}' :: cs).head?.any Text.isWordChar = false := by
    cases after with
    | nil => rfl
    | cons c after =>
      have hblank := hafter c List.mem_cons_self
      rw [List.cons_append, List.head?_cons, Option.any_some, Bool.eq_false_iff]
      intro hword
      rw [isBlank_of_isPathChar (by rw [isPathChar, hword, Bool.true_or])] at hblank
      cases hblank
  have hlead : Text.afterLead? ['{', '{'] (Span.braced (before ++ "else".toList ++ after) cs) =
      some (before ++ 'e' :: 'l' :: 's' :: 'e' :: (after ++ '}' :: '}' :: cs)) := by
    rw [← htext]
    rfl
  -- No tilde comes first, so nothing is dropped before the word.
  have hmark : ∀ rest, before ++ 'e' :: 'l' :: 's' :: 'e' :: (after ++ '}' :: '}' :: cs) =
      '~' :: rest → False := by
    intro rest heq
    cases before with
    | nil => cases heq
    | cons c before =>
      cases heq
      cases hbefore '~' List.mem_cons_self
  have htrim : Text.trimStart (before ++ 'e' :: 'l' :: 's' :: 'e' :: (after ++ '}' :: '}' :: cs)) =
      'e' :: 'l' :: 's' :: 'e' :: (after ++ '}' :: '}' :: cs) :=
    List.dropWhile_append_of_pos hbefore
  have helse : Text.afterLead? ['e', 'l', 's', 'e']
      ('e' :: 'l' :: 's' :: 'e' :: (after ++ '}' :: '}' :: cs)) =
        some (after ++ '}' :: '}' :: cs) := rfl
  simp only [opensBranch, hlead, htrim]
  split
  · next heq => cases heq
  · rw [helse]
    dsimp only
    rw [hends]
    rfl

theorem hasBranch_append {before cs : List Char} (h : opensBranch cs = true) :
    hasBranch (before ++ cs) = true := by
  induction before with
  | nil =>
    cases cs with
    | nil => cases h
    | cons c cs =>
      rw [List.nil_append, hasBranch, h]
      rfl
  | cons c before ih => rw [List.cons_append, hasBranch, ih, Bool.or_true]

namespace ConditionalAttribute

variable {a : ConditionalAttribute}

theorem of_cut? (hfault : a.fault? = none) {before path rest : List Char}
    (hcut : a.cut? = some (before, path, rest)) : IsPathText path ∧ path ≠ "else".toList := by
  obtain ⟨cs, hbody, hmustache⟩ := Text.exists_of_cutAtFirst? hcut
  obtain ⟨blanks, blanks', rfl, hblanks, hblanks', hpath⟩ := exists_of_plainMustache? hmustache
  refine ⟨hpath, ?_⟩
  rintro rfl
  rw [fault?, hbody, hasBranch_append (opensBranch_else hblanks hblanks'), if_pos rfl] at hfault
  cases hfault

/-- What a call of a helper has to take: the argument of the opening of the block, which has no
other, and the mustache of its body as a value. -/
def Takes (a : ConditionalAttribute) (opening : List Char) (offset first : Nat)
    (params : List Expression) (last : Nat) : Prop :=
  ∃ condition middle,
    Tag.read opening false offset first =
      (.ok (.openBlock { path := .ofName first (conditionName a.negated), params := [condition],
                         hash := [] }), middle) ∧
    match a.cut? with
    | none => params = [condition] ∧ last = middle
    | some (_, path, _) => ∃ value, params = [condition, value] ∧
      Tag.read path false offset middle =
        (.ok (.expression { callee := value, params := [], hash := [], trusting := false }), last)

theorem read_opening_iff {opening : List Char}
    (hopening : IsOpening a.negated a.condition (Span.braced opening [])) {fuel offset first : Nat}
    (hfuel : a.condition.length + 1 < fuel) {params : List Expression} {middle : Nat} :
    Tag.read opening false offset first =
        (.ok (.openBlock { path := .ofName first (conditionName a.negated), params,
                           hash := [] }), middle) ↔
      outcome (Expression.readArguments fuel false a.condition) (first + 1) =
        some ((params, [], []), middle) := by
  obtain ⟨inner, htext, ⟨c, hc, hblank⟩, -, hcondition⟩ := hopening
  have hbraces : opening ++ ['}', '}'] =
      '#' :: ((conditionName a.negated).toList ++ inner) ++ ['}', '}'] :=
    (List.cons.inj (List.cons.inj htext).2).2
  have hhead : Expression.FollowsHead inner := by
    intro d hd
    cases hc.symm.trans hd
    exact hblank
  have hargs : Text.trim inner = Text.trimStart a.condition := by
    rw [hcondition, Text.trimStart_trim]
  rw [List.append_cancel_right hbraces,
    ← (isHead_conditionName a.negated).read_openBlock_iff hhead hargs hfuel, String.ofList_toList]

/-- The call of a helper has as many arguments as the helper has parameters, and no other, if and
only if it takes what it has to. -/
theorem read_call_iff (hfault : a.fault? = none) {name : String} (hname : IsHelperName name)
    {opening : List Char} (hopening : IsOpening a.negated a.condition (Span.braced opening []))
    {offset first last : Nat} {params : List Expression} :
    (Tag.read (a.call name) false offset first =
        (.ok (.expression { callee := .path (.ofName first name), params, hash := [],
                            trusting := false }), last) ∧
      params.length = a.arguments.length) ↔ a.Takes opening offset first params last := by
  rw [Takes, call, arguments]
  cases hcut : a.cut? with
  | none =>
    have hargs : Text.trim (' ' :: a.condition) = Text.trimStart a.condition := by
      obtain ⟨inner, -, -, -, hcondition⟩ := hopening
      have hskip : Text.trim (' ' :: a.condition) = Text.trim a.condition := rfl
      rw [hskip, hcondition, Text.trim_trim, Text.trimStart_trim]
    have hfuel : a.condition.length + 1 < a.condition.length + 2 := Nat.lt_succ_self _
    rw [Option.map_none, Option.toList_none, Text.joinWith, hname.read_expression_iff hargs _ hfuel]
    constructor
    · rintro ⟨hread, hlength⟩
      obtain ⟨condition, rfl⟩ := List.length_eq_one_iff.1 hlength
      exact ⟨condition, last, (read_opening_iff hopening hfuel).2 hread, rfl, rfl⟩
    · rintro ⟨condition, middle, hread, rfl, rfl⟩
      exact ⟨(read_opening_iff hopening hfuel).1 hread, rfl⟩
  | some cut =>
    obtain ⟨before, path, rest⟩ := cut
    obtain ⟨hpath, hword⟩ := of_cut? hfault hcut
    have hargs : Text.trim (' ' :: (a.condition ++ ' ' :: path)) =
        Text.trimStart (a.condition ++ ' ' :: path) := by
      have hends := Text.trim_append_blank_word hpath.1 hpath.isBlank (' ' :: a.condition ++ [' '])
      rw [List.append_assoc] at hends
      exact hends
    generalize hfuel : (a.condition ++ ' ' :: path).length + 2 = fuel
    have hlength : (a.condition ++ ' ' :: path).length = a.condition.length + path.length + 1 := by
      rw [List.length_append, List.length_cons]
      rfl
    have hpos := List.length_pos_iff.2 hpath.1
    have hjoin : Text.joinWith ' ' [a.condition, path] = a.condition ++ ' ' :: path := rfl
    rw [Option.map_some, Option.toList_some, hjoin, hname.read_expression_iff hargs fuel (by omega),
      Expression.outcome_readArguments_append hpath (by omega)]
    constructor
    · rintro ⟨⟨others, middle, value, hread, hvalue, rfl⟩, hlength⟩
      rw [List.length_append] at hlength
      obtain ⟨condition, rfl⟩ := List.length_eq_one_iff.1 (Nat.succ.inj hlength)
      exact ⟨condition, middle, (read_opening_iff hopening (by omega)).2 hread, value, rfl,
        (Expression.read_path_iff hpath hword).2 hvalue⟩
    · rintro ⟨condition, middle, hread, value, rfl, hvalue⟩
      exact ⟨⟨[condition], middle, value, (read_opening_iff hopening (by omega)).1 hread,
        (Expression.read_path_iff hpath hword).1 hvalue, rfl⟩, rfl⟩

end ConditionalAttribute

theorem BlockPass.Finds.exists_opening {pass : BlockPass} {template : List Char} {e : Rewriting}
    (h : pass.Finds template e) :
    ∃ opening, IsOpening e.conditional.negated e.conditional.condition opening := by
  obtain ⟨tag, -, found, -, h⟩ := h
  cases pass with
  | within =>
    obtain ⟨opening, -, hopening, -⟩ := h.value
    exact ⟨opening, hopening⟩
  | around =>
    obtain ⟨-, opening, -, -, -, -, hopening, -⟩ := h.text
    exact ⟨opening, hopening⟩

theorem ConditionalAttribute.length_params_helper (a : ConditionalAttribute) (name : String) :
    (a.helper name).1.params.length = a.arguments.length := by
  rw [helper.eq_def, arguments, cut?]
  cases Text.cutAtFirst? plainMustache? a.body with
  | none => rfl
  | some cut => rfl

/-- The attribute is a call of the helper. It is read as the name of the helper with one positional
argument for each parameter, and no other, if and only if the opening of the block is read with one
positional argument alone and the mustache of its body as a value; and these are the arguments. -/
def Rewriting.IsCalled (e : Rewriting) : Prop :=
  ∃ content, e.replacement.text = OpeningTag.bound e.conditional.name content ∧ '}' ∉ content ∧
    ∀ opening, IsOpening e.conditional.negated e.conditional.condition (Span.braced opening []) →
      ∀ offset first params last,
        (Tag.read content false offset first =
            (.ok (.expression { callee := .path (.ofName first e.helper.name), params, hash := [],
                                trusting := false }), last) ∧
          params.length = e.helper.params.length) ↔
          e.conditional.Takes opening offset first params last

/-- Every helper of a pass is called in the place of an attribute with a block, and takes what this
gives it. -/
theorem BlockPass.calls_take_arguments (pass : BlockPass) {template : List Char}
    {prepared : Prepared} {names names' : HelperNames}
    (h : (pass.extract template).run names = (.ok prepared, names')) :
    ∃ entries : List Rewriting, prepared.helpers = entries.map Rewriting.helper ∧
      splice template (entries.map Rewriting.replacement) = .ok prepared.template ∧
      ∀ e ∈ entries, pass.Finds template e ∧ e.IsCalled := by
  obtain ⟨entries, hhelpers, hsplice, hentries⟩ := pass.exists_entries h
  refine ⟨entries, hhelpers, hsplice, fun e he => ?_⟩
  obtain ⟨hfinds, -, names, names', hrun⟩ := hentries e he
  obtain ⟨hfault, name, hunique, hhelper, htext⟩ := ConditionalAttribute.of_extract hrun
  have hname : IsHelperName name := by
    have hfree := isHelperName_unique names e.conditional.name e.conditional.negated
    rwa [hunique] at hfree
  obtain ⟨opened, hopened⟩ := hfinds.exists_opening
  refine ⟨hfinds, e.conditional.call name, ?_,
    ConditionalAttribute.not_mem_call hopened.not_mem hname.chars,
    fun opening hopening offset first params last => ?_⟩
  · rw [htext, ConditionalAttribute.callText_eq]
  · rw [hhelper, ConditionalAttribute.name_helper, ConditionalAttribute.length_params_helper]
    exact ConditionalAttribute.read_call_iff hfault hname hopening

/-- A helper with two parameters is called. -/
theorem BlockPass.pathAndValue_are_taken :
    let template := ("<a class=\"x \x7b\x7b#if a.b\x7d\x7dy " ++
      "\x7b\x7bc\x7d\x7d\x7b\x7b/if\x7d\x7d\"></a>").toList
    ∃ prepared names', (within.extract template).run [] = (.ok prepared, names') ∧
      prepared.helpers = [classHelper "b" "c" [.text "x y ", .param "c"] "x "] ∧
      ∃ entries : List Rewriting, prepared.helpers = entries.map Rewriting.helper ∧
        splice template (entries.map Rewriting.replacement) = .ok prepared.template ∧
        ∀ e ∈ entries, within.Finds template e ∧ e.IsCalled := by
  intro template
  have hrun : ((within.extract template).run []).1.toOption.map Prepared.helpers =
      some [classHelper "b" "c" [.text "x y ", .param "c"] "x "] := by
    decide +kernel
  cases hresult : (within.extract template).run [] with
  | mk result names' =>
    rw [hresult] at hrun
    cases result with
    | error fault => cases hrun
    | ok prepared =>
      exact ⟨prepared, names', rfl, Option.some.inj hrun, calls_take_arguments within hresult⟩

/-- An opening without an argument lets the mustache of the body be taken for the condition. -/
theorem BlockPass.missingCondition_is_miscalled :
    let template := ("<a class=\"\x7b\x7b#if \x7d\x7dx " ++
      "\x7b\x7bc\x7d\x7d\x7b\x7b/if\x7d\x7d\"></a>").toList
    ((within.extract template).run []).1.toOption =
        some { template := "<a class=\"\x7b\x7bclassIfHelper  c\x7d\x7d\"></a>".toList
               helpers := [classHelper "condition" "c" [.text "x ", .param "c"] ""] } ∧
      ∃ call, (Tag.read "classIfHelper  c".toList false 0 0).1 = .ok (.expression call) ∧
        call.params = [.path (.ofName 1 "c")] :=
  ⟨by decide +kernel, _, rfl, rfl⟩

end MustacheJsx
