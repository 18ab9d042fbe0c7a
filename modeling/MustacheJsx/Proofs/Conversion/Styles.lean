import MustacheJsx.Proofs.Conversion.Pieces
import MustacheJsx.Proofs.Outcome

/-!
# What a style value declares

A style value that was written as declarations, with blanks around keys and values and with other
text between semicolons, becomes the object of these declarations: `ofValue_eq_ok_iff`. A key of
text is put in camel case, which `IsCamelized` says by the parts of the name; `camelize` does that
and nothing else (`isCamelized_iff`).
-/

namespace MustacheJsx.Style

/-! ### Declarations and how they are written -/

/-- A key or a value: there is something, no text is empty or beside another one, and there are no
blanks at either end. -/
structure IsTrimmed (pieces : List Piece) : Prop where
  ne_nil : pieces ≠ []
  apart : Apart pieces
  text_ne_nil : ∀ cs, .text cs ∈ pieces → cs ≠ []
  head_ink : ∀ s ∈ (signs pieces).head?, s.isBlank = false
  last_ink : ∀ s ∈ (signs pieces).getLast?, s.isBlank = false

/-- A declaration of a style. -/
structure Declaration where
  key : List Piece
  value : List Piece

/-- Only mustaches may bring semicolons, or colons into a key. -/
structure Declaration.IsProper (d : Declaration) : Prop where
  key : IsTrimmed d.key
  value : IsTrimmed d.value
  key_text : ∀ cs, .text cs ∈ d.key → ':' ∉ cs ∧ ';' ∉ cs
  value_text : ∀ cs, .text cs ∈ d.value → ';' ∉ cs

/-- What stands between two semicolons: a declaration with blanks around its key and its value, or
text that declares nothing. -/
inductive Segment where
  | declaration (d : Declaration) (beforeKey afterKey beforeValue afterValue : List Char)
  | filler (cs : List Char)

namespace Segment

/-- Whether a segment is written as it should be. -/
def IsProper : Segment → Prop
  | declaration d beforeKey afterKey beforeValue afterValue =>
    d.IsProper ∧ ∀ c ∈ beforeKey ++ afterKey ++ beforeValue ++ afterValue, Text.isBlank c = true
  | filler cs => ':' ∉ cs ∧ ';' ∉ cs

def signs : Segment → List Sign
  | declaration d beforeKey afterKey beforeValue afterValue =>
    beforeKey.map .char ++ (Style.signs d.key ++ afterKey.map .char) ++
      .char ':' :: (beforeValue.map .char ++ (Style.signs d.value ++ afterValue.map .char))
  | filler cs => cs.map .char

def declaration? : Segment → Option Declaration
  | declaration d _ _ _ _ => some d
  | filler _ => none

end Segment

/-- The signs of segments with semicolons between them. -/
def joined (segments : List Segment) : List Sign :=
  [Sign.char ';'].intercalate (segments.map Segment.signs)

/-- How signs stand in an attribute: as one text, or as parts with no text beside another. -/
inductive IsValueOf (sequence : List Sign) : AttributeValue → Prop
  | text (cs : List Char) (h : cs.map .char = sequence) :
    IsValueOf sequence (.text (String.ofList cs))
  | concat (pieces : List Piece) (hapart : Apart pieces) (h : signs pieces = sequence) :
      IsValueOf sequence (.concat (pieces.map Piece.toStatement))

/-! ### Names of properties -/

/-- No hyphen stands before a small letter. -/
def HasNoHump (cs : List Char) : Prop :=
  cs.IsChain fun c d => c = '-' → Text.isAsciiLower d = false

instance (cs : List Char) : Decidable (HasNoHump cs) :=
  inferInstanceAs (Decidable (List.IsChain _ cs))

/-- `key` is `name` in camel case: each hyphen before a small letter goes, the letter becomes a
capital, and all else stays. A hump is such a letter with what comes up to the next one. -/
def IsCamelized (name key : List Char) : Prop :=
  ∃ (head : List Char) (humps : List (Char × List Char)),
    name = head ++ humps.flatMap (fun hump => '-' :: hump.1 :: hump.2) ∧
      key = head ++ humps.flatMap (fun hump => hump.1.toUpper :: hump.2) ∧
      HasNoHump head ∧
      ∀ hump ∈ humps, Text.isAsciiLower hump.1 = true ∧ HasNoHump hump.2

theorem hasNoHump_cons {c : Char} {cs : List Char} :
    HasNoHump (c :: cs) ↔ (∀ d ∈ cs.head?, c = '-' → Text.isAsciiLower d = false) ∧ HasNoHump cs :=
  List.isChain_cons

theorem camelize_hump {c : Char} (h : Text.isAsciiLower c = true) (cs : List Char) :
    camelize ('-' :: c :: cs) = c.toUpper :: camelize cs := by
  rw [camelize, if_pos h]

theorem camelize_cons {c : Char} {cs : List Char}
    (h : ∀ d ∈ cs.head?, c = '-' → Text.isAsciiLower d = false) :
    camelize (c :: cs) = c :: camelize cs := by
  by_cases hc : c = '-'
  · subst hc
    cases cs with
    | nil => rfl
    | cons d cs =>
      rw [camelize, if_neg (by simpa using h d rfl rfl)]
  · rw [camelize]
    exact fun d ds heq => absurd heq hc

theorem camelize_append {head rest : List Char} (hhead : HasNoHump head)
    (hrest : ∀ d ∈ rest.head?, Text.isAsciiLower d = false) :
    camelize (head ++ rest) = head ++ camelize rest := by
  induction head with
  | nil => rfl
  | cons c head ih =>
    obtain ⟨hc, hhead⟩ := hasNoHump_cons.1 hhead
    have hstays : ∀ d ∈ (head ++ rest).head?, c = '-' → Text.isAsciiLower d = false := by
      intro d hd
      cases head with
      | nil => exact fun _ => hrest d hd
      | cons e head => exact hc d hd
    rw [List.cons_append, camelize_cons hstays, ih hhead, List.cons_append]

theorem head?_humps (humps : List (Char × List Char)) :
    ∀ d ∈ (humps.flatMap fun hump => '-' :: hump.1 :: hump.2).head?,
      Text.isAsciiLower d = false := by
  intro d hd
  cases humps with
  | nil => cases hd
  | cons hump humps =>
    cases hd
    rfl

theorem camelize_humps {humps : List (Char × List Char)}
    (h : ∀ hump ∈ humps, Text.isAsciiLower hump.1 = true ∧ HasNoHump hump.2) :
    camelize (humps.flatMap fun hump => '-' :: hump.1 :: hump.2) =
      humps.flatMap fun hump => hump.1.toUpper :: hump.2 := by
  induction humps with
  | nil => rfl
  | cons hump humps ih =>
    obtain ⟨⟨hletter, hstays⟩, hrest⟩ := List.forall_mem_cons.1 h
    rw [List.flatMap_cons, List.cons_append, List.cons_append, camelize_hump hletter,
      camelize_append hstays (head?_humps humps), ih hrest, List.flatMap_cons, List.cons_append]

theorem IsCamelized.cons {c : Char} {cs key : List Char}
    (hc : ∀ d ∈ cs.head?, c = '-' → Text.isAsciiLower d = false) (h : IsCamelized cs key) :
    IsCamelized (c :: cs) (c :: key) := by
  obtain ⟨head, humps, rfl, rfl, hhead, hhumps⟩ := h
  refine ⟨c :: head, humps, rfl, rfl, hasNoHump_cons.2 ⟨fun d hd => hc d ?_, hhead⟩, hhumps⟩
  rw [List.head?_append, hd]
  rfl

theorem IsCamelized.hump {c : Char} {cs key : List Char} (hc : Text.isAsciiLower c = true)
    (h : IsCamelized cs key) : IsCamelized ('-' :: c :: cs) (c.toUpper :: key) := by
  obtain ⟨head, humps, rfl, rfl, hhead, hhumps⟩ := h
  exact ⟨[], (c, head) :: humps, rfl, rfl, .nil, List.forall_mem_cons.2 ⟨⟨hc, hhead⟩, hhumps⟩⟩

/-- There is one way to write a name in camel case, and `camelize` does. -/
theorem isCamelized_iff {name key : List Char} : IsCamelized name key ↔ key = camelize name := by
  constructor
  · rintro ⟨head, humps, rfl, rfl, hhead, hhumps⟩
    rw [camelize_append hhead (head?_humps humps), camelize_humps hhumps]
  · rintro rfl
    induction name using camelize.induct with
    | case1 c cs hc ih =>
      rw [camelize_hump hc]
      exact ih.hump hc
    | case2 c cs hc ih =>
      have hstays : ∀ d ∈ (c :: cs).head?, '-' = '-' → Text.isAsciiLower d = false := by
        simpa using hc
      rw [camelize_cons hstays]
      exact ih.cons hstays
    | case3 c cs hc ih =>
      have hstays : ∀ d ∈ cs.head?, c = '-' → Text.isAsciiLower d = false := by
        intro d hd hdash
        obtain ⟨rest, rfl⟩ := List.head?_eq_some_iff.1 hd
        exact absurd rfl (hc d rest hdash)
      rw [camelize_cons hstays]
      exact ih.cons hstays
    | case4 => exact ⟨[], [], rfl, rfl, .nil, List.forall_mem_nil _⟩

example : camelize "-webkit-transition".toList = "WebkitTransition".toList := by decide

/-! ### What declarations give -/

/-- Pieces give the sum of their terms from the left. -/
def GivesSum (notes : Annotations) (pieces : List Piece) (term : Jsx.Term) : Prop :=
  ∃ first rest, List.Forall₂ (fun p t => p.toTerm notes = .ok t) pieces (first :: rest) ∧
    term = rest.foldl .add first

/-- A key of one text is that text in camel case, any other key is computed. -/
inductive GivesKey (notes : Annotations) : List Piece → Jsx.PropertyKey → Prop
  | text {cs key : List Char} (h : IsCamelized cs key) :
      GivesKey notes [.text cs] (.string (String.ofList key))
  | computed {pieces : List Piece} {term : Jsx.Term} (h : ∀ cs, pieces ≠ [.text cs])
      (hterm : GivesSum notes pieces term) : GivesKey notes pieces (.computed term)

/-- A declaration gives the property of its key and its value. -/
inductive Declaration.Gives (notes : Annotations) (d : Declaration) : Jsx.Property → Prop
  | mk {key : Jsx.PropertyKey} {value : Jsx.Term} (hkey : GivesKey notes d.key key)
      (hvalue : GivesSum notes d.value value) : d.Gives notes (.mk key value)

variable {notes : Annotations} {pieces : List Piece}

theorem sum_eq_ok_iff (hne : pieces ≠ []) {term : Jsx.Term} :
    sum notes pieces = .ok term ↔ GivesSum notes pieces term := by
  constructor
  · intro h
    obtain ⟨terms, hterms, h⟩ := bind_eq_ok h
    have hall := mapM_eq_ok_iff.1 hterms
    obtain ⟨p, pieces, rfl⟩ := List.exists_cons_of_ne_nil hne
    cases hall with
    | cons hfirst hrest =>
      cases h
      exact ⟨_, _, .cons hfirst hrest, rfl⟩
  · rintro ⟨first, rest, hall, rfl⟩
    rw [sum, mapM_eq_ok_iff.2 hall]
    rfl

theorem toKey_eq_ok_iff (hne : pieces ≠ []) {key : Jsx.PropertyKey} :
    toKey notes pieces = .ok key ↔ GivesKey notes pieces key := by
  by_cases htext : ∃ cs, pieces = [.text cs]
  · obtain ⟨cs, rfl⟩ := htext
    constructor
    · intro h
      cases h
      exact .text (isCamelized_iff.2 rfl)
    · rintro (hcamelized | ⟨h, -⟩)
      · rw [isCamelized_iff.1 hcamelized]
        rfl
      · exact absurd rfl (h cs)
  · have hkey : toKey notes pieces = (sum notes pieces >>= fun term => .ok (.computed term)) := by
      rw [toKey]
      · rfl
      · exact fun cs heq => htext ⟨cs, heq⟩
    rw [hkey]
    constructor
    · intro h
      obtain ⟨term, hterm, h⟩ := bind_eq_ok h
      cases h
      exact .computed (fun cs heq => htext ⟨cs, heq⟩) ((sum_eq_ok_iff hne).1 hterm)
    · rintro (hcamelized | ⟨-, hterm⟩)
      · exact absurd ⟨_, rfl⟩ htext
      · rw [(sum_eq_ok_iff hne).2 hterm]
        rfl

theorem toProperty_eq_ok_iff {d : Declaration} (hkey : d.key ≠ []) (hvalue : d.value ≠ [])
    {property : Jsx.Property} :
    toProperty notes d.key d.value = .ok property ↔ d.Gives notes property := by
  constructor
  · intro h
    obtain ⟨key, hfirst, h⟩ := bind_eq_ok h
    obtain ⟨value, hsecond, h⟩ := bind_eq_ok h
    cases h
    exact ⟨(toKey_eq_ok_iff hkey).1 hfirst, (sum_eq_ok_iff hvalue).1 hsecond⟩
  · rintro ⟨hfirst, hsecond⟩
    rw [toProperty, (toKey_eq_ok_iff hkey).2 hfirst, ok_bind, (sum_eq_ok_iff hvalue).2 hsecond]
    rfl

/-! ### Reading segments -/

theorem IsTrimmed.runs_eq (h : IsTrimmed pieces) : runs (signs pieces) = pieces := by
  rw [runs_signs h.apart, List.filter_eq_self]
  intro p hp
  cases p with
  | mustache m => rfl
  | text cs => simpa [Piece.isEmpty] using h.text_ne_nil cs hp

theorem IsTrimmed.signs_ne_nil (h : IsTrimmed pieces) : signs pieces ≠ [] := by
  intro hnil
  have hruns := h.runs_eq
  rw [hnil] at hruns
  exact h.ne_nil hruns.symm

/-- A key or a value is found between the blanks around it. -/
theorem IsTrimmed.trim_eq (h : IsTrimmed pieces) {found : List Piece} (hfound : Apart found)
    {before after : List Char} (hbefore : ∀ c ∈ before, Text.isBlank c = true)
    (hafter : ∀ c ∈ after, Text.isBlank c = true)
    (hsigns : signs found = before.map .char ++ (signs pieces ++ after.map .char)) :
    trim found = pieces := by
  have hblank : ∀ cs : List Char, (∀ c ∈ cs, Text.isBlank c = true) →
      ∀ s ∈ cs.map Sign.char, s.isBlank = true := by
    intro cs hcs s hs
    obtain ⟨c, hc, rfl⟩ := List.mem_map.1 hs
    exact hcs c hc
  rw [Style.trim_eq hfound, hsigns,
    strip_padded (hblank before hbefore) (hblank after hafter) h.head_ink h.last_ink h.signs_ne_nil,
    h.runs_eq]

theorem char_mem_signs {c : Char} (h : Sign.char c ∈ signs pieces) :
    ∃ cs, .text cs ∈ pieces ∧ c ∈ cs := by
  obtain ⟨p, hp, hc⟩ := List.mem_flatMap.1 h
  cases p with
  | mustache m => cases List.mem_singleton.1 hc
  | text cs => exact ⟨cs, hp, char_mem_map.1 hc⟩

theorem char_not_mem_map_blank {c : Char} (hc : Text.isBlank c = false) {cs : List Char}
    (h : ∀ c ∈ cs, Text.isBlank c = true) : Sign.char c ∉ cs.map Sign.char := fun hmem =>
  Bool.eq_false_iff.1 hc (h c (char_mem_map.1 hmem))

theorem semicolon_not_mem_signs {segment : Segment} (h : segment.IsProper) :
    Sign.char ';' ∉ segment.signs := by
  cases segment with
  | filler cs => exact fun hmem => h.2 (char_mem_map.1 hmem)
  | declaration d beforeKey afterKey beforeValue afterValue =>
    obtain ⟨hd, hblank⟩ := h
    simp only [List.forall_mem_append] at hblank
    obtain ⟨⟨⟨hbeforeKey, hafterKey⟩, hbeforeValue⟩, hafterValue⟩ := hblank
    have hsemicolon : Text.isBlank ';' = false := by decide
    have hkey : Sign.char ';' ∉ signs d.key := fun hmem => by
      obtain ⟨cs, hcs, hc⟩ := char_mem_signs hmem
      exact (hd.key_text cs hcs).2 hc
    have hvalue : Sign.char ';' ∉ signs d.value := fun hmem => by
      obtain ⟨cs, hcs, hc⟩ := char_mem_signs hmem
      exact hd.value_text cs hcs hc
    rw [Segment.signs]
    simp only [List.mem_append, List.mem_cons, not_or]
    exact ⟨⟨char_not_mem_map_blank hsemicolon hbeforeKey, hkey,
      char_not_mem_map_blank hsemicolon hafterKey⟩, by simp,
      char_not_mem_map_blank hsemicolon hbeforeValue, hvalue,
      char_not_mem_map_blank hsemicolon hafterValue⟩

theorem keyValue?_of_signs {segment : Segment} (h : segment.IsProper) {found : List Piece}
    (hfound : Apart found) (hsigns : signs found = segment.signs) :
    keyValue? found = segment.declaration?.map fun d => (d.key, d.value) := by
  rw [keyValue?]
  cases hcut : cutAtColon? found with
  | none =>
    have hcolon := colon_not_mem_of_cutAtColon? hcut
    cases segment with
    | filler cs => rfl
    | declaration d beforeKey afterKey beforeValue afterValue =>
      rw [hsigns, Segment.signs] at hcolon
      simp at hcolon
  | some cut =>
    obtain ⟨key, value⟩ := cut
    obtain ⟨hkey, hvalue, hparts, hcolon, -⟩ := exists_of_cutAtColon? hfound hcut
    rw [hsigns] at hparts
    cases segment with
    | filler cs =>
      have hmem : Sign.char ':' ∈ cs.map Sign.char := by
        rw [show cs.map Sign.char = _ from hparts]
        simp
      exact absurd (char_mem_map.1 hmem) h.1
    | declaration d beforeKey afterKey beforeValue afterValue =>
      obtain ⟨hd, hblank⟩ := h
      simp only [List.forall_mem_append] at hblank
      obtain ⟨⟨⟨hbeforeKey, hafterKey⟩, hbeforeValue⟩, hafterValue⟩ := hblank
      have hblankColon : Text.isBlank ':' = false := by decide
      -- The first colon of the segment is the one behind its key.
      have hfirst : Sign.char ':' ∉
          beforeKey.map Sign.char ++ (signs d.key ++ afterKey.map Sign.char) := by
        simp only [List.mem_append, not_or]
        refine ⟨char_not_mem_map_blank hblankColon hbeforeKey, fun hmem => ?_,
          char_not_mem_map_blank hblankColon hafterKey⟩
        obtain ⟨cs, hcs, hc⟩ := char_mem_signs hmem
        exact (hd.key_text cs hcs).1 hc
      obtain ⟨hkeySigns, hvalueSigns⟩ := Text.append_cons_inj hfirst hcolon hparts
      have hkeyTrim := hd.key.trim_eq hkey hbeforeKey hafterKey hkeySigns.symm
      have hvalueTrim := hd.value.trim_eq hvalue hbeforeValue hafterValue hvalueSigns.symm
      dsimp only
      rw [hkeyTrim, hvalueTrim, if_neg (by simp [hd.key.ne_nil, hd.value.ne_nil])]
      rfl

/-! ### The object -/

theorem eq_of_intercalate_eq {α : Type} {a : α} {xs ys : List (List α)} (hxs : ∀ l ∈ xs, a ∉ l)
    (hys : ∀ l ∈ ys, a ∉ l) (hxsNe : xs ≠ []) (hysNe : ys ≠ [])
    (h : [a].intercalate xs = [a].intercalate ys) : xs = ys := by
  classical
  rw [← List.splitOn_intercalate a hxs hxsNe, h, List.splitOn_intercalate a hys hysNe]

/-- Declarations that are read one by one are those of the segments. -/
theorem filterMap_keyValue? {segments : List Segment} {found : List (List Piece)}
    (hsegments : ∀ segment ∈ segments, segment.IsProper) (hfound : ∀ pieces ∈ found, Apart pieces)
    (h : found.map signs = segments.map Segment.signs) :
    found.filterMap keyValue? =
      (segments.filterMap Segment.declaration?).map fun d => (d.key, d.value) := by
  induction segments generalizing found with
  | nil =>
    rw [List.map_eq_nil_iff.1 h]
    rfl
  | cons segment segments ih =>
    obtain ⟨pieces, rest, rfl, hpieces, hrest⟩ := List.map_eq_cons_iff.1 h
    obtain ⟨hsegment, hsegments⟩ := List.forall_mem_cons.1 hsegments
    obtain ⟨hapart, hfound⟩ := List.forall_mem_cons.1 hfound
    have hkeyValue := keyValue?_of_signs hsegment hapart hpieces
    have htail := ih hsegments hfound hrest
    rw [List.filterMap_cons, List.filterMap_cons, hkeyValue, htail]
    cases segment.declaration? with
    | none => rfl
    | some d => rfl

/-- The pairs of keys and values of parts that were written as segments. -/
theorem pairs_of_parts {segments : List Segment} {parts : List Piece}
    (hsegments : ∀ segment ∈ segments, segment.IsProper) (hparts : Apart parts)
    (h : signs parts = joined segments) :
    (declarations (parts.flatMap Piece.marks)).filterMap keyValue? =
      (segments.filterMap Segment.declaration?).map fun d => (d.key, d.value) := by
  obtain ⟨hfound, hne, hsigns⟩ := declarations_of_parts hparts
  -- Without segments the value is empty, as with one that holds nothing.
  obtain ⟨shown, hshown, hshownNe, hjoined, hsame⟩ : ∃ shown : List Segment,
      (∀ segment ∈ shown, segment.IsProper) ∧ shown ≠ [] ∧ joined shown = joined segments ∧
        shown.filterMap Segment.declaration? = segments.filterMap Segment.declaration? := by
    by_cases hnil : segments = []
    · subst hnil
      exact ⟨[.filler []], by simp [Segment.IsProper], List.cons_ne_nil _ _, rfl, rfl⟩
    · exact ⟨segments, hsegments, hnil, rfl, rfl⟩
  rw [← hsame]
  refine filterMap_keyValue? hshown (fun pieces hpieces => (hfound pieces hpieces).1) ?_
  refine eq_of_intercalate_eq (fun l hl => ?_) (fun l hl => ?_) (by simpa using hne)
    (by simpa using hshownNe) ((hsigns.trans h).trans hjoined.symm)
  · obtain ⟨pieces, hpieces, rfl⟩ := List.mem_map.1 hl
    exact (hfound pieces hpieces).2
  · obtain ⟨segment, hsegment, rfl⟩ := List.mem_map.1 hl
    exact semicolon_not_mem_signs (hshown segment hsegment)

theorem ofParts_toStatement (parts : List Piece) :
    ofParts notes (parts.map Piece.toStatement) =
      (((declarations (parts.flatMap Piece.marks)).filterMap keyValue?).mapM
        fun (key, value) => toProperty notes key value) >>= fun properties =>
          .ok (.object properties) := by
  rw [ofParts, mapM_pieces, ok_bind, ← List.flatMap_def]
  rfl

/-- An attribute whose signs are declarations is converted as parts with no text beside another. -/
theorem IsValueOf.exists_parts {sequence : List Sign} {value : AttributeValue}
    (h : IsValueOf sequence value) :
    ∃ parts, Apart parts ∧ signs parts = sequence ∧
      ofValue notes value = ofParts notes (parts.map Piece.toStatement) := by
  cases h with
  | text cs h => exact ⟨[.text cs], List.isChain_singleton _, by simpa [Piece.signs] using h, rfl⟩
  | concat pieces hapart h => exact ⟨pieces, hapart, h, rfl⟩

/-- A style value that was written as declarations, with blanks around keys and values and with
other segments between them, becomes an object with one property for each declaration, in their
order. -/
theorem ofValue_eq_ok_iff {segments : List Segment} {value : AttributeValue}
    (hsegments : ∀ segment ∈ segments, segment.IsProper)
    (hvalue : IsValueOf (joined segments) value) (term : Jsx.Term) :
    ofValue notes value = .ok term ↔
      ∃ properties, term = .object properties ∧
        List.Forall₂ (Declaration.Gives notes) (segments.filterMap Segment.declaration?)
          properties := by
  obtain ⟨parts, hapart, hsigns, hparts⟩ : ∃ parts, Apart parts ∧ signs parts = joined segments ∧
      ofValue notes value = ofParts notes (parts.map Piece.toStatement) := hvalue.exists_parts
  have hproper : ∀ d ∈ segments.filterMap Segment.declaration?, d.IsProper := by
    intro d hd
    obtain ⟨segment, hsegment, hdeclaration⟩ := List.mem_filterMap.1 hd
    cases segment with
    | filler cs => cases hdeclaration
    | declaration d' _ _ _ _ =>
      cases hdeclaration
      exact (hsegments _ hsegment).1
  have hgives : ∀ properties,
      ((segments.filterMap Segment.declaration?).map fun d => (d.key, d.value)).mapM
          (fun (key, value) => toProperty notes key value) = .ok properties ↔
        List.Forall₂ (Declaration.Gives notes) (segments.filterMap Segment.declaration?)
          properties := by
    intro properties
    rw [mapM_eq_ok_iff, List.forall₂_map_left_iff]
    constructor
    · intro h
      exact ((List.forall₂_and_left _ _).2 ⟨hproper, h⟩).imp fun d _ hd =>
        (toProperty_eq_ok_iff hd.1.key.ne_nil hd.1.value.ne_nil).1 hd.2
    · intro h
      exact ((List.forall₂_and_left _ _).2 ⟨hproper, h⟩).imp fun d _ hd =>
        (toProperty_eq_ok_iff hd.1.key.ne_nil hd.1.value.ne_nil).2 hd.2
  rw [hparts, ofParts_toStatement, pairs_of_parts hsegments hapart hsigns]
  constructor
  · intro h
    obtain ⟨properties, hproperties, h⟩ := bind_eq_ok h
    cases h
    exact ⟨properties, rfl, (hgives properties).1 hproperties⟩
  · rintro ⟨properties, rfl, hall⟩
    rw [(hgives properties).2 hall]
    rfl

def nameMustache (name : String) : Mustache where
  callee := .path (.ofName 0 name)
  params := []
  hash := []
  trusting := false

/-- A key of text with a value of two pieces, and a key that is computed, after an empty segment. -/
def marginAndChoice : List Segment :=
  [.filler [],
    .declaration
      ⟨[.text "margin-left".toList], [.mustache (nameMustache "width"), .text "px".toList]⟩
      [' '] [' '] ['\t'] [],
    .declaration ⟨[.mustache (nameMustache "key")], [.text "red".toList]⟩ [] [] [' '] []]

/-- The pieces of these segments, in which blanks, colons and semicolons belong to the texts. -/
def marginAndChoicePieces : List Piece :=
  [.text "; margin-left :\t".toList, .mustache (nameMustache "width"), .text "px;".toList,
    .mustache (nameMustache "key"), .text ": red".toList]

theorem marginAndChoice_isProper : ∀ segment ∈ marginAndChoice, segment.IsProper := by
  have hname : ∀ name, IsTrimmed [.mustache (nameMustache name)] := fun name =>
    ⟨List.cons_ne_nil _ _, List.isChain_singleton _, by simp, by rintro s ⟨⟩; rfl,
      by rintro s ⟨⟩; rfl⟩
  have hmargin : IsTrimmed [.text "margin-left".toList] :=
    ⟨List.cons_ne_nil _ _, List.isChain_singleton _, by simp, by rintro s ⟨⟩; rfl,
      by rintro s ⟨⟩; rfl⟩
  have hred : IsTrimmed [.text "red".toList] :=
    ⟨List.cons_ne_nil _ _, List.isChain_singleton _, by simp, by rintro s ⟨⟩; rfl,
      by rintro s ⟨⟩; rfl⟩
  have hwidth : IsTrimmed [.mustache (nameMustache "width"), .text "px".toList] :=
    ⟨List.cons_ne_nil _ _, apart_mustache_cons.2 (List.isChain_singleton _), by simp,
      by rintro s ⟨⟩; rfl, by rintro s ⟨⟩; rfl⟩
  intro segment hsegment
  simp only [marginAndChoice, List.mem_cons, List.not_mem_nil, or_false] at hsegment
  rcases hsegment with rfl | rfl | rfl
  · exact ⟨List.not_mem_nil, List.not_mem_nil⟩
  · exact ⟨⟨hmargin, hwidth, by simp, by simp⟩, by decide⟩
  · exact ⟨⟨hname _, hred, by simp, by simp⟩, by decide⟩

theorem marginAndChoice_isValueOf :
    IsValueOf (joined marginAndChoice)
      (.concat (marginAndChoicePieces.map Piece.toStatement)) :=
  .concat _ (by
    simp [marginAndChoicePieces, Apart, Piece.isText]) rfl

theorem marginAndChoice_ofValue :
    ofValue {} (.concat (marginAndChoicePieces.map Piece.toStatement)) =
      .ok (.object
        [.mk (.string "marginLeft") (.add (.name "width") (.string "px")),
          .mk (.computed (.name "key")) (.string "red")]) := by
  refine (ofValue_eq_ok_iff marginAndChoice_isProper marginAndChoice_isValueOf _).2
    ⟨_, rfl, .cons ⟨?_, ?_⟩ (.cons ⟨?_, ?_⟩ .nil)⟩
  · exact .text ⟨"margin".toList, [('l', "eft".toList)], rfl, rfl, by decide, by decide⟩
  · exact ⟨_, _, .cons rfl (.cons rfl .nil), rfl⟩
  · exact .computed nofun ⟨_, _, .cons rfl .nil, rfl⟩
  · exact ⟨_, _, .cons rfl .nil, rfl⟩

end MustacheJsx.Style
