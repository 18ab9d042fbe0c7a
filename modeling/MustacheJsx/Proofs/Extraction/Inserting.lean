import MustacheJsx.Proofs.Extraction.Blocks
import MustacheJsx.Proofs.Extraction.Splicing
import MustacheJsx.Proofs.Printing.Path
import MustacheJsx.Proofs.Printing.Pieces
import MustacheJsx.Proofs.Reading.Unbraced

/-!
# Attributes that are put into tags

The passes put attributes into tags whose value is one mustache. Such an attribute stands alone if
its mustache ends where it is meant to end.
-/

namespace MustacheJsx

/-! ### The tags of blocks -/

namespace TagMustache

/-- The inside of a mustache after a tilde and blanks. -/
def front (m : TagMustache) : List Char :=
  Text.trimStart (Span.leadingTilde (m.text.drop 2)).2

/-- Whether text begins with `else` and nothing that would make it a longer name. -/
def beginsElse (cs : List Char) : Bool :=
  match Text.afterLead? ['e', 'l', 's', 'e'] cs with
  | some after => after.head?.any fun c => Text.isBlank c || c == '}' || c == '~'
  | none => false

/-- Whether a mustache opens a block, ends one or begins another branch of it. -/
def isBlockTag (m : TagMustache) : Bool :=
  m.front.head?.any (['#', '/', '^'].contains ·) || beginsElse m.front

end TagMustache

namespace OpeningTag

open MustacheJsx.Span (cutAtClose?)

variable {place next found : Place} {offset : Nat} {c : Char} {cs text before rest : List Char}
  {mustaches : List TagMustache}

/-! ### Plain mustaches -/

theorem mustacheText?_of_head {body : List Char} (h : ∀ c ∈ body.head?, c ≠ '!' ∧ c ≠ '{') :
    mustacheText? ('{' :: '{' :: body) =
      (cutAtClose? ['}', '}'] .outside body).map fun cut =>
        '{' :: '{' :: (cut.1 ++ ['}', '}']) := by
  have hbraces : bracesOf ('{' :: '{' :: body) = 2 := by
    rw [bracesOf, if_neg]
    intro hstarts
    obtain ⟨after, hafter⟩ := Text.startsWith_iff.1 hstarts
    have hbody : '{' :: after = body := (List.cons.inj (List.cons.inj hafter).2).2
    exact (h '{' (by rw [← hbody]; rfl)).2 rfl
  have hcomment : ∀ inner, body ≠ '!' :: inner := by
    rintro inner rfl
    exact (h '!' rfl).1 rfl
  rw [mustacheText?_eq, mustacheRest?_eq_of_not_comment hcomment, hbraces, Option.map_map]
  show Option.map _ (cutAtClose? ['}', '}'] .outside body) = _
  refine Option.map_congr fun cut hcut => ?_
  have hbody := Span.eq_append_of_cutAtClose? hcut
  have hsource : '{' :: '{' :: body = ('{' :: '{' :: (cut.1 ++ ['}', '}'])) ++ cut.2 := by
    rw [hbody]
    simp
  show ('{' :: '{' :: body).take (('{' :: '{' :: body).length - cut.2.length) = _
  rw [hsource, List.length_append, Nat.add_sub_cancel, List.take_left]

theorem step_braces (quote : Option Char) (last : Char) (body : List Char) :
    (Place.inside quote last).step '{' ('{' :: body) =
      (mustacheText? ('{' :: '{' :: body)).map fun text => (text.length, .inside quote '}') := by
  have hstarts : Text.startsWith ['{', '{'] ('{' :: '{' :: body) = true := rfl
  rw [Place.step, if_pos hstarts]

/-! ### Walks over attributes -/

theorem step_name (last : Char) (h : WrittenAttribute.isNameChar c = true) (cs : List Char) :
    (Place.inside none last).step c cs = some (1, .inside none c) := by
  obtain ⟨hbraces, hend, hquote, hblank⟩ := @after_nameChar c cs h
  have hstarts : ¬ Text.startsWith ['{', '{'] (c :: cs) = true :=
    fun hstarts => hbraces (Text.startsWith_iff.1 hstarts)
  rw [Place.step, if_neg hstarts, if_neg fun hboth => hend hboth.2, hquote, hblank]
  rfl

theorem Walks.char (next : Place) (hbraces : ¬ ['{', '{'] <+: c :: (before ++ rest))
    (hstep : place.step c (before ++ rest) = some (1, next))
    (h : Walks rest found next (offset + Text.utf8Length [c]) before mustaches) :
    Walks rest found place offset (c :: before) mustaches := by
  have hmustache : place.mustache? offset c (before ++ rest) = none := by
    cases place with
    | between => rfl
    | inside quote last => exact mustache?_of_not_braces hbraces
  have hwalks :=
    @Walks.step rest found place next offset c _ [c] before mustaches hstep rfl (by simp) h
  rw [hmustache] at hwalks
  exact hwalks

theorem Walks.name {name : List Char} (hname : ∀ c ∈ name, WrittenAttribute.isNameChar c = true)
    {last : Char}
    (h : ∀ last offset, Walks rest found (.inside none last) offset before mustaches) :
    Walks rest found (.inside none last) offset (name ++ before) mustaches := by
  induction name generalizing last offset with
  | nil => exact h last offset
  | cons c name ih =>
    have hc := hname c List.mem_cons_self
    exact .char _ (after_nameChar hc).1 (step_name last hc _)
      (ih fun d hd => hname d (List.mem_cons_of_mem c hd))

/-- An attribute whose value is one mustache. -/
def bound (name content : List Char) : List Char :=
  name ++ ['=', '"', '{', '{'] ++ content ++ ['}', '}', '"']

variable {name content : List Char}

theorem walks_opened (hname : ∀ c ∈ name, WrittenAttribute.isNameChar c = true)
    (rest : List Char) :
    Walks rest (.inside (some '"') '"') (.inside none ' ') 0 (name ++ ['=', '"']) [] := by
  refine .name hname fun last offset => ?_
  refine .char (.inside none '=') (by simp) rfl ?_
  exact .char (.inside (some '"') '"') (by simp) rfl (.here _)

theorem bound_eq (name content : List Char) :
    bound name content = (name ++ ['=', '"']) ++ '{' :: '{' :: (content ++ ['}', '}', '"']) := by
  simp [bound]

theorem mustachesWithin_bound (hname : ∀ c ∈ name, WrittenAttribute.isNameChar c = true)
    (content : List Char) :
    mustachesWithin (bound name content) =
      mustachesFrom (.inside (some '"') '"') (0 + Text.utf8Length (name ++ ['=', '"'])) 0
        ('{' :: '{' :: (content ++ ['}', '}', '"'])) := by
  rw [mustachesWithin, bound_eq, (walks_opened hname _).mustachesFrom, List.nil_append]

/-- An attribute stands alone whose mustache ends at its braces, or one brace before them. Its
mustache is the only one. -/
theorem standsAlone_bound (hne : name ≠ [])
    (hname : ∀ c ∈ name, WrittenAttribute.isNameChar c = true)
    (hhead : ∀ c ∈ (content ++ ['}', '}', '"']).head?, c ≠ '!' ∧ c ≠ '{')
    {inner tail : List Char} (htail : tail = [] ∨ tail = ['}'])
    (hcut : cutAtClose? ['}', '}'] .outside (content ++ ['}', '}', '"']) =
      some (inner, tail ++ ['"'])) :
    StandsAlone (bound name content) ∧
      ∀ m ∈ mustachesWithin (bound name content), m.text = '{' :: '{' :: (inner ++ ['}', '}']) := by
  have htext := mustacheText?_of_head hhead
  rw [hcut, Option.map_some] at htext
  have hsource : '{' :: '{' :: (content ++ ['}', '}', '"']) =
      '{' :: '{' :: (inner ++ ['}', '}']) ++ (tail ++ ['"'] ++ []) := by
    rw [Span.eq_append_of_cutAtClose? hcut]
    simp
  have hend : ∀ offset, Walks [] (.inside none '"') (.inside (some '"') '}') offset
      (tail ++ ['"']) [] := by
    intro offset
    have hquote : ∀ offset, Walks [] (.inside none '"') (.inside (some '"') '}') offset ['"'] [] :=
      fun offset => .char (.inside none '"') (by decide) rfl (.here _)
    rcases htail with rfl | rfl
    · exact hquote offset
    · exact .char (.inside (some '"') '}') (by decide) rfl (hquote _)
  have hstep : (Place.inside (some '"') '"').step '{' ('{' :: (content ++ ['}', '}', '"'])) =
      some (('{' :: '{' :: (inner ++ ['}', '}'])).length, .inside (some '"') '}') := by
    rw [step_braces, htext]
    rfl
  have hwalks := (walks_opened hname _).trans (Walks.step hstep hsource (by simp) (hend _))
  rw [List.append_nil] at hsource
  rw [← hsource, ← bound_eq, List.nil_append, List.append_nil] at hwalks
  have hmustaches := hwalks.mustachesFrom
  have hlength : 0 + Text.utf8Length (bound name content) ≤ Text.utf8Length (bound name content) :=
    Nat.le_of_eq (Nat.zero_add _)
  have hplace := hwalks.placeAt hlength
  rw [List.append_nil, Nat.zero_add] at hplace
  rw [List.append_nil, mustachesFrom.eq_1, List.append_nil] at hmustaches
  refine ⟨⟨?_, hplace.trans (placeAt_self [])⟩, fun m hm => ?_⟩
  · obtain ⟨c, name, rfl⟩ := List.exists_cons_of_ne_nil hne
    intro hbrace
    exact WrittenAttribute.ne_of_isNameChar (hname c List.mem_cons_self) (by decide)
      (Option.some.inj hbrace)
  · rw [mustachesWithin, hmustaches, Option.mem_toList, mustache?_of_braces rfl htext] at hm
    obtain rfl := Option.some.inj hm
    rfl

/-- Content without braces at its end is cut at the braces behind it, if it is cut at all. -/
theorem cutAtClose?_bound (hclear : Text.contains ['}', '}'] (content ++ ['}']) = false) :
    cutAtClose? ['}', '}'] .outside (content ++ ['}', '}', '"']) = none ∨
      cutAtClose? ['}', '}'] .outside (content ++ ['}', '}', '"']) = some (content, ['"']) := by
  cases hcut : cutAtClose? ['}', '}'] .outside (content ++ ['}', '}', '"']) with
  | none => exact .inl rfl
  | some cut =>
    obtain ⟨inner, after⟩ := cut
    have hthrough := Span.cutAtClose?_through hclear .outside ['}', '"']
    rw [hcut] at hthrough
    obtain ⟨⟨before, after'⟩, hclose, hpair⟩ := Option.map_eq_some_iff.1 hthrough.symm
    obtain ⟨rfl, rfl⟩ := Prod.mk.inj hpair
    -- One of three characters is left behind two braces, and it is no brace.
    have hthree := Span.eq_append_of_cutAtClose? hclose
    have hbefore : before = [] := by
      have hlength := congrArg List.length hthree
      simp only [List.length_append, List.length_cons, List.length_nil] at hlength
      cases before with
      | nil => rfl
      | cons c before =>
        obtain rfl : before = [] := List.length_eq_zero_iff.1 (by
          rw [List.length_cons] at hlength
          omega)
        have hquote := (List.cons.inj (List.cons.inj (List.cons.inj hthree).2).2).1
        exact absurd hquote (by decide)
    subst hbefore
    obtain rfl : ['"'] = after' := (List.cons.inj (List.cons.inj hthree).2).2
    rw [List.append_nil]
    exact .inr rfl

theorem step_bound_eq_none
    (hhead : ∀ c ∈ (content ++ ['}', '}', '"']).head?, c ≠ '!' ∧ c ≠ '{')
    (hcut : cutAtClose? ['}', '}'] .outside (content ++ ['}', '}', '"']) = none) :
    (Place.inside (some '"') '"').step '{' ('{' :: (content ++ ['}', '}', '"'])) = none := by
  rw [step_braces, mustacheText?_of_head hhead, hcut]
  rfl

/-- A mustache without braces at its end can only end at its braces. -/
theorem eq_of_mem_bound (hne : name ≠ [])
    (hname : ∀ c ∈ name, WrittenAttribute.isNameChar c = true)
    (hhead : ∀ c ∈ (content ++ ['}', '}', '"']).head?, c ≠ '!' ∧ c ≠ '{')
    (hclear : Text.contains ['}', '}'] (content ++ ['}']) = false) :
    ∀ m ∈ mustachesWithin (bound name content),
      m.text = '{' :: '{' :: (content ++ ['}', '}']) := by
  rcases cutAtClose?_bound hclear with hcut | hcut
  · intro m hm
    rw [mustachesWithin_bound hname, mustachesFrom, step_bound_eq_none hhead hcut] at hm
    cases hm
  · exact (standsAlone_bound hne hname hhead (.inl rfl) hcut).2

/-- The mustache of an attribute that stands alone is read as a whole. -/
theorem StandsAlone.mustacheText?_bound (h : StandsAlone (bound name content))
    (hname : ∀ c ∈ name, WrittenAttribute.isNameChar c = true)
    (hhead : ∀ c ∈ (content ++ ['}', '}', '"']).head?, c ≠ '!' ∧ c ≠ '{')
    (hclear : Text.contains ['}', '}'] (content ++ ['}']) = false) :
    mustacheText? ('{' :: '{' :: (content ++ ['}', '}'])) =
      some ('{' :: '{' :: (content ++ ['}', '}'])) := by
  rcases cutAtClose?_bound hclear with hcut | hcut
  · have hends := h.ends
    have hle : 0 + Text.utf8Length (name ++ ['=', '"']) ≤ Text.utf8Length (bound name content) := by
      rw [bound_eq, Text.utf8Length_append _ ('{' :: _)]
      omega
    have hne : 0 + Text.utf8Length (name ++ ['=', '"']) ≠ Text.utf8Length (bound name content) := by
      have hpos := utf8Length_pos (List.cons_ne_nil '{' ('{' :: (content ++ ['}', '}', '"'])))
      rw [bound_eq, Text.utf8Length_append _ ('{' :: _)]
      omega
    have hplace := (walks_opened hname ('{' :: '{' :: (content ++ ['}', '}', '"']))).placeAt hle
    rw [← bound_eq, hends, placeAt, if_neg hne, step_bound_eq_none hhead hcut] at hplace
    cases hplace
  · have htext := mustacheText?_of_head hhead
    rw [hcut, Option.map_some] at htext
    obtain ⟨-, -, -, -, hmore⟩ := exists_of_mustacheText? htext
    have hself := hmore []
    rw [List.append_nil] at hself
    exact hself

end OpeningTag

/-! ### Calls of helpers -/

def isHelperChar (c : Char) : Bool := Text.isAsciiAlphanumeric c || c == '_'

theorem isHelperChar_toUpper {c : Char} (h : Text.isAsciiAlphanumeric c = true) :
    isHelperChar c.toUpper = true := by
  have hall : ∀ n < 128, Text.isAsciiAlphanumeric (Char.ofNat n) = true →
      isHelperChar (Char.ofNat n).toUpper = true := by decide +kernel
  have hlt : c.toNat < 128 := by
    rcases Bool.or_eq_true_iff.1 h with hletter | hdigit
    · have := toNat_of_isAsciiLetter hletter
      omega
    · have := toNat_of_isAsciiDigit hdigit
      omega
  have hc := hall c.toNat hlt
  rw [Char.ofNat_toNat] at hc
  exact hc h

theorem isHelperChar_of_mem_camelName {capital : Bool} {cs : List Char} :
    ∀ c ∈ camelName capital cs, isHelperChar c = true := by
  induction cs generalizing capital with
  | nil =>
    intro c hc
    cases hc
  | cons d cs ih =>
    intro c hc
    rw [camelName] at hc
    split at hc
    · exact ih c hc
    · split at hc
      · next halpha =>
        rcases List.mem_cons.1 hc with rfl | hc
        · split
          · exact isHelperChar_toUpper halpha
          · rw [isHelperChar, halpha, Bool.true_or]
        · exact ih c hc
      · split at hc
        · next heq =>
          rcases List.mem_cons.1 hc with rfl | hc
          · rw [heq]
            rfl
          · exact ih c hc
        · exact ih c hc

theorem helperBase_chars (name : List Char) (negated : Bool) :
    5 < (helperBase name negated).toList.length ∧
      ∀ c ∈ (helperBase name negated).toList, isHelperChar c = true := by
  have htext : (helperBase name negated).toList = camelName false (name.flatMap Text.smallForm) ++
      (if negated then "UnlessHelper".toList else "IfHelper".toList) := by
    rw [helperBase, String.toList_append, String.toList_append, String.toList_ofList,
      List.append_assoc]
    cases negated <;> rfl
  rw [htext]
  constructor
  · rw [List.length_append]
    cases negated
    · exact Nat.lt_of_lt_of_le (by decide) (Nat.le_add_left "IfHelper".toList.length _)
    · exact Nat.lt_of_lt_of_le (by decide) (Nat.le_add_left "UnlessHelper".toList.length _)
  · intro c hc
    rcases List.mem_append.1 hc with hc | hc
    · exact isHelperChar_of_mem_camelName c hc
    · have hall : ∀ negated : Bool, ∀ c ∈ if negated then "UnlessHelper".toList
          else "IfHelper".toList, isHelperChar c = true := by decide
      exact hall negated c hc

theorem HelperNames.exists_candidate (taken : HelperNames) (base : String) (n fuel : Nat) :
    ∃ k, firstFree taken base n fuel = candidate base k := by
  induction fuel generalizing n with
  | zero => exact ⟨n, rfl⟩
  | succ fuel ih =>
    rw [firstFree]
    split
    · exact ih (n + 1)
    · exact ⟨n, rfl⟩

theorem unique_chars (taken : HelperNames) (name : List Char) (negated : Bool) :
    5 < (taken.unique (helperBase name negated)).1.toList.length ∧
      ∀ c ∈ (taken.unique (helperBase name negated)).1.toList, isHelperChar c = true := by
  obtain ⟨hlength, hchars⟩ := helperBase_chars name negated
  obtain ⟨k, hk⟩ := taken.exists_candidate (helperBase name negated) 0 taken.length
  rw [HelperNames.unique, hk]
  cases k with
  | zero => exact ⟨hlength, hchars⟩
  | succ k =>
    rw [HelperNames.candidate, String.toList_append, List.length_append]
    refine ⟨Nat.lt_of_lt_of_le hlength (Nat.le_add_right _ _), fun c hc => ?_⟩
    rcases List.mem_append.1 hc with hc | hc
    · exact hchars c hc
    · rw [Nat.repr, String.toList_ofList] at hc
      rw [isHelperChar, Text.isAsciiAlphanumeric, isAsciiDigit_of_mem_toDigits hc, Bool.or_true,
        Bool.true_or]

theorem isPathChar_of_isHelperChar {c : Char} (h : isHelperChar c = true) :
    isPathChar c = true := by
  simp only [isHelperChar, Text.isAsciiAlphanumeric, Bool.or_eq_true, beq_iff_eq] at h
  rcases h with (h | h) | h <;>
    simp [isPathChar, Text.isWordChar, Text.isAlphabetic, Text.isDecimal, h]

theorem ne_of_isPathChar {c d : Char} (hc : isPathChar c = true) (hd : isPathChar d = false) :
    c ≠ d := by
  rintro rfl
  rw [hc] at hd
  cases hd

theorem TagMustache.isBlockTag_of_helper {m : TagMustache} {helper rest : List Char}
    (hlength : 4 < helper.length) (hchars : ∀ c ∈ helper, isHelperChar c = true)
    (htext : m.text = '{' :: '{' :: (helper ++ rest)) : m.isBlockTag = false := by
  have hpath : ∀ c ∈ helper, isPathChar c = true :=
    fun c hc => isPathChar_of_isHelperChar (hchars c hc)
  obtain ⟨first, tail, hhelper⟩ :=
    List.exists_cons_of_length_pos (Nat.lt_trans (by decide) hlength)
  have hfirst := hpath first (hhelper ▸ List.mem_cons_self)
  have hfront : m.front = helper ++ rest := by
    have htilde : ∀ d ∈ (first :: (tail ++ rest)).head?, d ≠ '~' := by
      rintro d ⟨⟩
      exact ne_of_isPathChar hfirst (by decide)
    rw [front, htext, hhelper]
    show Text.trimStart (Span.leadingTilde (first :: (tail ++ rest))).2 = _
    rw [Span.leadingTilde_of_ne htilde, Text.trimStart,
      List.dropWhile_cons_of_neg (Bool.eq_false_iff.1 (isBlank_of_isPathChar hfirst))]
    rfl
  have hmark : ['#', '/', '^'].contains first = false := by
    simp [ne_of_isPathChar hfirst (by decide : isPathChar '#' = false),
      ne_of_isPathChar hfirst (by decide : isPathChar '/' = false),
      ne_of_isPathChar hfirst (by decide : isPathChar '^' = false)]
  -- The name goes on after its fourth character.
  have helse : beginsElse m.front = false := by
    rw [beginsElse, hfront]
    split
    · next after hafter =>
      have hdrop := congrArg (List.drop 4) (Text.afterLead?_eq_some_iff.1 hafter)
      rw [List.drop_append_of_le_length (Nat.le_of_lt hlength)] at hdrop
      obtain ⟨c, more, hmore⟩ := List.exists_cons_of_length_pos (l := helper.drop 4) (by
        rw [List.length_drop]
        omega)
      have hc := hpath c (List.mem_of_mem_drop (hmore ▸ List.mem_cons_self))
      rw [hmore] at hdrop
      have hhead : after.head? = some c := congrArg List.head? hdrop.symm
      simp [hhead, isBlank_of_isPathChar hc,
        ne_of_isPathChar hc (by decide : isPathChar '}' = false),
        ne_of_isPathChar hc (by decide : isPathChar '~' = false)]
    · rfl
  rw [isBlockTag, helse, hfront, Bool.or_false, hhelper]
  exact hmark

namespace ConditionalAttribute

theorem ne_of_mem_arguments {a : ConditionalAttribute} (hcondition : '}' ∉ a.condition) :
    ∀ argument ∈ a.arguments, '}' ∉ argument := by
  intro argument hargument hbrace
  rw [arguments, cut?] at hargument
  rcases List.mem_cons.1 hargument with rfl | hargument
  · exact hcondition hbrace
  · obtain ⟨⟨before, path, rest⟩, hcut, rfl⟩ :=
      Option.map_eq_some_iff.1 (Option.mem_toList.1 hargument)
    obtain ⟨cs, -, hmustache⟩ := Text.exists_of_cutAtFirst? hcut
    obtain ⟨-, -, -, -, -, -, hpath⟩ := exists_of_plainMustache? hmustache
    rcases hpath '}' hbrace with hmark | hchar
    · exact absurd hmark (by decide)
    · exact absurd hchar (by decide)

def call (a : ConditionalAttribute) (helper : String) : List Char :=
  helper.toList ++ ' ' :: Text.joinWith ' ' a.arguments

theorem callText_eq (a : ConditionalAttribute) (helper : String) :
    a.callText helper a.arguments = OpeningTag.bound a.name (a.call helper) := by
  simp [callText, OpeningTag.bound, call]

theorem not_mem_call {a : ConditionalAttribute} {helper : String} (hcondition : '}' ∉ a.condition)
    (hchars : ∀ c ∈ helper.toList, isHelperChar c = true) : '}' ∉ a.call helper := by
  intro hmem
  rcases List.mem_append.1 hmem with hmem | hmem
  · exact absurd (hchars '}' hmem) (by decide)
  · rcases List.mem_cons.1 hmem with hmem | hmem
    · exact absurd hmem (by decide)
    · rcases Lifting.mem_joinWith hmem with hmem | ⟨argument, hargument, hmem⟩
      · exact absurd hmem (by decide)
      · exact ne_of_mem_arguments hcondition argument hargument hmem

theorem call_clear {a : ConditionalAttribute} {helper : String} (hcondition : '}' ∉ a.condition)
    (hlength : 4 < helper.toList.length) (hchars : ∀ c ∈ helper.toList, isHelperChar c = true) :
    (∀ c ∈ (a.call helper ++ ['}', '}', '"']).head?, c ≠ '!' ∧ c ≠ '{') ∧
      Text.contains ['}', '}'] (a.call helper ++ ['}']) = false := by
  have hbrace := not_mem_call hcondition hchars
  constructor
  · obtain ⟨first, tail, hhelper⟩ :=
      List.exists_cons_of_length_pos (Nat.lt_trans (by decide) hlength)
    have hfirst := isPathChar_of_isHelperChar (hchars first (hhelper ▸ List.mem_cons_self))
    intro c hc
    rw [call, hhelper] at hc
    cases hc
    exact ⟨ne_of_isPathChar hfirst (by decide), ne_of_isPathChar hfirst (by decide)⟩
  · refine Text.contains_braces_append ?_ fun c hc => ?_
    · rw [Bool.eq_false_iff]
      intro hcontains
      exact hbrace ((Text.contains_iff.1 hcontains).subset (by simp))
    · rintro rfl
      exact hbrace (List.mem_of_getLast? hc)

/-- The attribute that stands for a block has no tag of a block. -/
theorem isBlockTag_of_call {a : ConditionalAttribute} {helper : String} (hne : a.name ≠ [])
    (hname : ∀ c ∈ a.name, WrittenAttribute.isNameChar c = true)
    (hcondition : '}' ∉ a.condition) (hlength : 4 < helper.toList.length)
    (hchars : ∀ c ∈ helper.toList, isHelperChar c = true) :
    ∀ m ∈ OpeningTag.mustachesWithin (a.callText helper a.arguments), m.isBlockTag = false := by
  intro m hm
  obtain ⟨hhead, hclear⟩ := call_clear hcondition hlength hchars
  rw [callText_eq] at hm
  have hm := OpeningTag.eq_of_mem_bound hne hname hhead hclear m hm
  rw [call, List.append_assoc] at hm
  exact TagMustache.isBlockTag_of_helper hlength hchars hm

end ConditionalAttribute

end MustacheJsx
