import MustacheJsx.Proofs.Opening.Lexing

/-!
# The token of an opening tag

An opening tag and the spellings that lifting adds to it are one start tag. The attributes of the
token are those that were written, between the attributes that carry spellings.
-/

namespace MustacheJsx

open Markup (valueText)

/-! ### Spellings as attributes -/

def spellingEntry (blanks : List Char) (key : String) (spelling : List Char) : SourceAttribute :=
  { blanks
    name := key.toList
    value := some { beforeEquals := [], afterEquals := [], quote := some '"',
                    parts := [.text spelling] } }

namespace SourceAttribute

theorem markup_spellingEntry (marker : Char) (first : Nat) (blanks : List Char) (key : String)
    (spelling : List Char) : (spellingEntry (blanks ++ [' ']) key spelling).markup marker first =
      blanks ++ spellingMarkup key spelling := by
  simp [spellingEntry, SourceAttribute.markup, SourceValue.markup, SourceValue.mark,
    SourceValue.lone?, ValuePart.pieces, Piece.rendered, spellingMarkup]

theorem markupOfAll_append (marker : Char) (first : Nat) (xs ys : List SourceAttribute) :
    markupOfAll marker first (xs ++ ys) = markupOfAll marker first xs ++
      markupOfAll marker (first + (xs.flatMap SourceAttribute.mustaches).length) ys := by
  induction xs generalizing first with
  | nil => rfl
  | cons entry xs ih =>
    rw [List.cons_append, markupOfAll, ih, markupOfAll, List.append_assoc, List.flatMap_cons,
      List.length_append, Nat.add_assoc]

theorem decodedOfAll_append (marker : Char) (first : Nat) (xs ys : List SourceAttribute) :
    decodedOfAll marker first (xs ++ ys) = decodedOfAll marker first xs ++
      decodedOfAll marker (first + (xs.flatMap SourceAttribute.mustaches).length) ys := by
  induction xs generalizing first with
  | nil => rfl
  | cons entry xs ih =>
    rw [List.cons_append, decodedOfAll, ih, decodedOfAll, List.cons_append, List.flatMap_cons,
      List.length_append, Nat.add_assoc]

theorem map_fst_decodedOfAll (marker : Char) (first : Nat) (attributes : List SourceAttribute) :
    (decodedOfAll marker first attributes).map Prod.fst =
      attributes.map fun entry => smallName entry.name := by
  induction attributes generalizing first with
  | nil => rfl
  | cons entry attributes ih =>
    rw [decodedOfAll, List.map_cons, ih]
    rfl

end SourceAttribute

namespace SourceTag

def nameEntries (tag : SourceTag) : List SourceAttribute :=
  if tag.name.any Text.isAsciiUpper then [spellingEntry [' '] tagSpelling tag.name] else []

def attributeEntries (tag : SourceTag) : List SourceAttribute :=
  if (casedNames tag.attributes).isEmpty then []
  else [spellingEntry (tag.blanks ++ [' ']) attributeSpellings
    (Text.joinWith ' ' (casedNames tag.attributes))]

def entries (tag : SourceTag) : List SourceAttribute :=
  tag.nameEntries ++ tag.attributes ++ tag.attributeEntries

/-- The start tag that a tag is read as, if its first mustache has the number `first`. -/
def token (marker : Char) (first : Nat) (tag : SourceTag) : Markup.StartTag :=
  { name := smallName tag.name
    attributes := SourceAttribute.decodedOfAll marker first tag.entries
    selfClosing := tag.selfClosing }

def lastBlanks (tag : SourceTag) : List Char :=
  if (casedNames tag.attributes).isEmpty then tag.blanks else []

theorem mustaches_nameEntries (tag : SourceTag) :
    tag.nameEntries.flatMap SourceAttribute.mustaches = [] := by
  rw [nameEntries]
  split <;> rfl

theorem markup_eq (marker : Char) (first : Nat) (tag : SourceTag) :
    tag.markup marker first = '<' :: (tag.name ++ (SourceAttribute.markupOfAll marker first
      tag.entries ++ (tag.lastBlanks ++ tagEnd tag.selfClosing))) := by
  have hname : SourceAttribute.markupOfAll marker first tag.nameEntries = tag.nameSpelling := by
    rw [nameEntries, nameSpelling]
    split
    · have hentry := SourceAttribute.markup_spellingEntry marker first [] tagSpelling tag.name
      rw [SourceAttribute.markupOfAll, SourceAttribute.markupOfAll, List.append_nil]
      exact hentry
    · rfl
  have hlast : ∀ n, SourceAttribute.markupOfAll marker n tag.attributeEntries ++ tag.lastBlanks =
      tag.blanks ++ tag.attributeSpelling := by
    intro n
    rw [attributeEntries, lastBlanks, attributeSpelling, spellingsMarkup]
    split
    · exact (List.append_nil _).symm
    · rw [SourceAttribute.markupOfAll, SourceAttribute.markupOfAll, List.append_nil,
        List.append_nil]
      exact SourceAttribute.markup_spellingEntry marker n tag.blanks _ _
  rw [entries, SourceAttribute.markupOfAll_append, SourceAttribute.markupOfAll_append, hname,
    mustaches_nameEntries, markup]
  simp only [List.append_assoc]
  rw [← List.append_assoc (SourceAttribute.markupOfAll marker _ tag.attributeEntries), hlast,
    List.append_assoc]
  rfl

end SourceTag

/-! ### Reading attributes -/

namespace Markup.Lexer

open Reference (IsStop)

variable {m : Machine} {text name : List Char} {attributes : List (String × String)} {marker : Char}

theorem isStop_of_isMarkupBlank {c : Char} (h : Text.isMarkupBlank c = true) : IsStop c := by
  simp only [Text.isMarkupBlank, Bool.or_eq_true, beq_iff_eq] at h
  rcases h with ((rfl | rfl) | rfl) | rfl <;> decide

theorem exists_unifyLineEnds_blanks {blanks : List Char} (hne : blanks ≠ [])
    (h : ∀ c ∈ blanks, Text.isAsciiBlank c = true) (rest : List Char) :
    ∃ stop more, IsStop stop ∧ unifyLineEnds (blanks ++ rest) = stop :: more := by
  obtain ⟨c, cs, rfl⟩ := List.exists_cons_of_ne_nil hne
  by_cases hreturn : c = '\r'
  · subst hreturn
    refine ⟨'\n', ?_⟩
    rw [List.cons_append, unifyLineEnds.eq_def]
    split
    · exact absurd ‹_› (List.cons_ne_nil _ _)
    · exact ⟨_, isStop_of_isMarkupBlank (by decide), rfl⟩
    · exact ⟨_, isStop_of_isMarkupBlank (by decide), rfl⟩
    · next hsingle heq => exact (hsingle (List.cons.inj heq).1.symm).elim
  · refine ⟨c, _, isStop_of_isMarkupBlank ?_, unifyLineEnds_cons hreturn _⟩
    have hblank := h c List.mem_cons_self
    simpa [Text.isAsciiBlank, Text.isMarkupBlank, hreturn] using hblank

theorem head?_valueMarkup_ne (hmarker : IsMarker marker) {written : SourceValue}
    (hwritten : written.IsWritten) (first : Nat) (rest : List Char) :
    (written.markup marker first ++ rest).head? ≠ some '\n' := by
  intro hhead
  rw [SourceValue.markup] at hhead
  cases hmark : written.mark with
  | some q =>
    rw [hmark] at hhead
    cases hhead
    rcases hwritten.mark hmark with heq | heq <;> cases heq
  | none =>
    obtain ⟨c, cs, hfirst, -, -, -, hblank⟩ :=
      exists_cons_of_isWritten hmarker hwritten (SourceValue.mark_eq_none hmark).1 first
    rw [hmark, hfirst] at hhead
    cases hhead
    cases hblank

/-- One attribute adds itself to the tag. -/
theorem Collects.leads_attribute (hmarker : IsMarker marker)
    (hm : Collects m text name attributes) (hstate : IsBetween m.state) {entry : SourceAttribute}
    (hentry : entry.IsWritten) (hnew : smallName entry.name ∉ attributes.map Prod.fst) (first : Nat)
    {stop : Char} (hstop : IsStop stop) {rest more : List Char}
    (hmore : unifyLineEnds rest = stop :: more) :
    ∃ m', Leads m (entry.markup marker first ++ rest) m' rest ∧ IsBetween m'.state ∧
      (m'.state = .value none → ∃ value ∈ entry.value, value.mark = none) ∧
      Collects m' text name (attributes ++ [entry.decoded marker first]) := by
  obtain ⟨hne, hchars⟩ := hentry.name
  have hname : ∀ c ∈ entry.name, IsNamePart c :=
    fun c hc => isNamePart_of_isTagNameChar (hchars c hc)
  have hkey : entry.name.map Text.lowerAscii ≠ [] := fun h => hne (List.map_eq_nil_iff.1 h)
  obtain ⟨d, ds, hd⟩ := List.exists_cons_of_ne_nil hne
  have hhead : ∀ tail, (entry.name ++ tail).head? ≠ some '\n' := by
    intro tail h
    rw [hd] at h
    cases h
    exact absurd (hname '\n' (by rw [hd]; exact List.mem_cons_self)).blank (by decide)
  cases hvalue : entry.value with
  | none =>
    obtain ⟨first', hblanks, hbefore, hin⟩ :=
      hm.leads_blanks hstate hentry.blanks.1 hentry.blanks.2 (hhead rest)
    obtain ⟨m', hleads, hstate', hm'⟩ := hin.leads_name hbefore hne hname rest
    refine ⟨m', ?_, ?_, ?_, ?_⟩
    · have hall := hblanks.trans hleads
      simpa [SourceAttribute.markup, hvalue] using hall
    · rw [hstate']
      exact .attributeName
    · intro h
      rw [hstate'] at h
      cases h
    · have hcollects := hm'.collects hkey hnew
      simpa [SourceAttribute.decoded, smallName, hvalue] using hcollects
  | some written =>
    have hwritten := hentry.value written hvalue
    obtain ⟨first', hblanks, hbefore, hin⟩ :=
      hm.leads_blanks hstate hentry.blanks.1 hentry.blanks.2 (hhead _)
    obtain ⟨named, hleads, hnamed, hkeyed⟩ := hin.leads_name hbefore hne hname _
    obtain ⟨before, hequals, hbeforeValue, hinside⟩ := hkeyed.leads_equals hnamed
      hwritten.beforeEquals hwritten.afterEquals (head?_valueMarkup_ne hmarker hwritten first rest)
    obtain ⟨m', hread, hstate', hm'⟩ :=
      hinside.leads_value hmarker hbeforeValue hwritten first hstop hmore
    refine ⟨m', ?_, ?_, ?_, ?_⟩
    · have hall := hblanks.trans (hleads.trans (hequals.trans hread))
      simpa [SourceAttribute.markup, hvalue] using hall
    · rw [hstate']
      split
      · exact .afterValue
      · exact .value
    · intro h
      refine ⟨written, rfl, ?_⟩
      rw [hstate'] at h
      split at h
      · cases h
      · next hnone => exact Option.not_isSome_iff_eq_none.1 hnone
    · have hcollects := hm'.collects hkey hnew
      simpa [SourceAttribute.decoded, smallName, hvalue] using hcollects

/-- Attributes of different names all add themselves. -/
theorem Collects.leads_attributes (hmarker : IsMarker marker)
    (hm : Collects m text name attributes) (hstate : IsBetween m.state)
    {entries : List SourceAttribute} (hentries : ∀ entry ∈ entries, entry.IsWritten)
    (hnew : (attributes.map Prod.fst ++ entries.map fun entry => smallName entry.name).Nodup)
    (first : Nat) {stop : Char} (hstop : IsStop stop) {rest more : List Char}
    (hmore : unifyLineEnds rest = stop :: more) :
    ∃ m', Leads m (SourceAttribute.markupOfAll marker first entries ++ rest) m' rest ∧
      IsBetween m'.state ∧
      (m'.state = .value none → entries = [] ∧ m.state = .value none ∨
        ∃ entry ∈ entries.getLast?, ∃ value ∈ entry.value, value.mark = none) ∧
      Collects m' text name
        (attributes ++ SourceAttribute.decodedOfAll marker first entries) := by
  induction entries generalizing m attributes first with
  | nil => exact ⟨m, rfl, hstate, fun h => .inl ⟨rfl, h⟩, by rwa [SourceAttribute.decodedOfAll,
      List.append_nil]⟩
  | cons entry entries ih =>
    have hrest : ∀ entry ∈ entries, entry.IsWritten :=
      fun other hmem => hentries other (List.mem_cons_of_mem entry hmem)
    have hfirst : smallName entry.name ∉ attributes.map Prod.fst := fun hmem =>
      (List.nodup_append.1 hnew).2.2 _ hmem _ List.mem_cons_self rfl
    have hends : ∀ n, ∃ stop more, IsStop stop ∧
        unifyLineEnds (SourceAttribute.markupOfAll marker n entries ++ rest) = stop :: more := by
      intro n
      cases entries with
      | nil => exact ⟨stop, more, hstop, hmore⟩
      | cons next entries =>
        obtain ⟨hne, hblanks⟩ := (hrest next List.mem_cons_self).blanks
        rw [SourceAttribute.markupOfAll, SourceAttribute.markup]
        simp only [List.append_assoc]
        exact exists_unifyLineEnds_blanks hne hblanks _
    obtain ⟨next, behind, hnext, hbehind⟩ := hends (first + entry.mustaches.length)
    obtain ⟨middle, hleads, hmiddle, hlast, hcollects⟩ := hm.leads_attribute hmarker hstate
      (hentries entry List.mem_cons_self) hfirst first hnext hbehind
    have hlater : ((attributes ++ [entry.decoded marker first]).map Prod.fst ++
        entries.map fun entry => smallName entry.name).Nodup := by
      rw [List.map_append, List.append_assoc]
      exact hnew
    obtain ⟨m', hall, hstate', hvalue, hm'⟩ :=
      ih hcollects hmiddle hrest hlater (first + entry.mustaches.length)
    refine ⟨m', ?_, hstate', fun h => .inr ?_, ?_⟩
    · rw [SourceAttribute.markupOfAll, List.append_assoc]
      exact hleads.trans hall
    · rcases hvalue h with ⟨rfl, hunquoted⟩ | ⟨last, hmem, hunquoted⟩
      · exact ⟨entry, rfl, hlast hunquoted⟩
      · exact ⟨last, Lifting.getLast?_of_tail hmem, hunquoted⟩
    · rw [SourceAttribute.decodedOfAll]
      rwa [List.append_assoc] at hm'

/-! ### The name and the end of a tag -/

theorem lexes_namePart (hstate : m.state = .tagName) {c : Char} (hc : IsNamePart c) :
    Lexes [c] m [] { m with name := Text.lowerAscii c :: m.name } := by
  obtain ⟨hblank, -, -⟩ := isMarkupBlank_of_isBlank hc.blank
  have hstep := lexes_nameChar hstate hblank hc.slash hc.greater
  rwa [visible_of_ne hc.nul] at hstep

theorem Collects.lexes_name (hm : Collects m text name []) (hkey : m.key = [])
    (hstate : m.state = .tagName) {letters : List Char} (h : ∀ c ∈ letters, IsNamePart c) :
    ∃ m', Lexes letters m [] m' ∧ m'.state = .tagName ∧
      Collects m' text (name ++ letters.map Text.lowerAscii) [] := by
  induction letters generalizing m name with
  | nil => exact ⟨m, lexes_nil m, hstate, by rwa [List.map_nil, List.append_nil]⟩
  | cons c letters ih =>
    have hc := h c List.mem_cons_self
    have hstep := lexes_namePart hstate hc
    have hnamed : Collects { m with name := Text.lowerAscii c :: m.name } text
        (name ++ [Text.lowerAscii c]) [] := by
      refine ⟨hm.text, hm.isEndTag, ?_, hm.attributes, hm.selfClosing⟩
      simp [hm.name]
    obtain ⟨m', hlexes, hstate', hm'⟩ :=
      ih hnamed hkey hstate fun d hd => h d (List.mem_cons_of_mem c hd)
    refine ⟨m', hstep.cons hlexes, hstate', ?_⟩
    rwa [List.append_assoc] at hm'

/-- The opening of a tag, from text on. -/
theorem InText.leads_name (hm : InText m text) {letters : List Char}
    (hhead : ∀ c ∈ letters.head?, Text.isAsciiLetter c = true) (hletters : IsTagName letters)
    (rest : List Char) :
    ∃ m', Leads m ('<' :: (letters ++ rest)) m' rest ∧ m'.state = .tagName ∧
      Collects m' text (letters.map Text.lowerAscii) [] := by
  obtain ⟨hne, hchars⟩ := hletters
  have hname : ∀ c ∈ letters, IsNamePart c := fun c hc => isNamePart_of_isTagNameChar (hchars c hc)
  obtain ⟨c, cs, rfl⟩ := List.exists_cons_of_ne_nil hne
  have hletter := hm.lexes_startLetter (hhead c rfl)
  have hkey : (namingTag m false c).key = [] := hm.key
  have hopened : Collects (namingTag m false c) text [Text.lowerAscii c] [] := by
    refine ⟨hm.text, rfl, rfl, ?_, rfl⟩
    rw [attributes_namingTag hm.key]
    rfl
  obtain ⟨m', hlexes, hstate', hm'⟩ := hopened.lexes_name hkey rfl
    fun d hd => hname d (List.mem_cons_of_mem c hd)
  have hreturn : '\r' ∉ '<' :: c :: cs := by
    rw [List.mem_cons, not_or]
    exact ⟨by decide, not_mem_return_of_isBlank fun d hd => (hname d hd).blank⟩
  exact ⟨m', leads_of_lexes (hletter.append hlexes) hreturn rest, hstate', hm'⟩

theorem step_greater (hstate : IsBetween m.state) (rest : List Char) :
    step m '>' rest = finish m.endTag := by
  generalize hs : m.state = state at hstate
  cases hstate with
  | value =>
    have hsame : m.goTo (.value none) = m := by
      rw [← hs]
      rfl
    rw [step, hs]
    show finish (m.goTo (.value none)).endTag = _
    rw [hsame]
  | _ =>
    rw [step, hs]
    rfl

theorem step_slash (hstate : IsBetween m.state) (hvalue : m.state ≠ .value none)
    (rest : List Char) : step m '/' rest = keep (m.goTo .selfClosing) := by
  generalize hs : m.state = state at hstate
  cases hstate with
  | value => exact absurd hs hvalue
  | _ =>
    rw [step, hs]
    rfl

theorem Collects.lexes_end (hm : Collects m text name attributes) (hstate : IsBetween m.state)
    {selfClosing : Bool} (hslash : selfClosing = true → m.state ≠ .value none) :
    ∃ line m', Lexes (tagEnd selfClosing) m (textTokens text ++
        [.startTag { name := String.ofList name, attributes, selfClosing } line]) m' ∧
      HasOpened m' selfClosing (String.ofList name) := by
  obtain ⟨m', hend, hm'⟩ := lexes_startTagEnd hm.text hm.isEndTag hm.name hm.attributes
    hm.selfClosing (step_greater hstate) fun h => step_slash hstate (hslash h)
  exact ⟨m.line, m', hend, hm'⟩

/-- The end of a start tag gives its token, after the text before it. -/
theorem Collects.run_end (hm : Collects m text name attributes) (hstate : IsBetween m.state)
    {blanks : List Char} (hblanks : ∀ c ∈ blanks, Text.isAsciiBlank c = true) {selfClosing : Bool}
    (hslash : selfClosing = true → blanks = [] → m.state ≠ .value none) (rest : List Char) :
    ∃ line m', run 0 m (unifyLineEnds (blanks ++ (tagEnd selfClosing ++ rest))) = textTokens text ++
        .startTag { name := String.ofList name, attributes, selfClosing } line ::
          run 0 m' (unifyLineEnds rest) ∧
      HasOpened m' selfClosing (String.ofList name) := by
  have hreturn : '\r' ∉ tagEnd selfClosing := by cases selfClosing <;> decide
  have hnewline : (tagEnd selfClosing ++ rest).head? ≠ some '\n' := by
    cases selfClosing <;> exact fun h => absurd (Option.some.inj h) (by decide)
  have hbefore : ∃ middle, Leads m (blanks ++ (tagEnd selfClosing ++ rest)) middle
      (tagEnd selfClosing ++ rest) ∧ IsBetween middle.state ∧
      (selfClosing = true → middle.state ≠ .value none) ∧
      Collects middle text name attributes := by
    by_cases hnil : blanks = []
    · rw [hnil]
      exact ⟨m, rfl, hstate, fun h => hslash h hnil, hm⟩
    · obtain ⟨middle, hleads, hmiddle, hin⟩ := hm.leads_blanks hstate hnil hblanks hnewline
      refine ⟨middle, hleads, hmiddle.isBetween, fun _ heq => ?_, hin⟩
      rw [heq] at hmiddle
      cases hmiddle
  obtain ⟨middle, hleads, hmiddle, hvalue, hin⟩ := hbefore
  obtain ⟨line, m', hlexes, hm'⟩ := hin.lexes_end hmiddle hvalue
  have hunified : unifyLineEnds (tagEnd selfClosing) = tagEnd selfClosing := by
    cases selfClosing <;> rfl
  refine ⟨line, m', ?_, hm'⟩
  rw [hleads, unifyLineEnds_append fun _ => hreturn, hunified, hlexes, List.append_assoc]
  rfl

end Markup.Lexer

/-! ### The whole tag -/

theorem isWritten_spellingEntry {blanks spelling : List Char} {key : String}
    (hne : blanks ≠ []) (hblanks : ∀ c ∈ blanks, Text.isAsciiBlank c = true)
    (hkey : IsTagName key.toList) (hspelling : spelling ≠ [])
    (hchars : ∀ c ∈ spelling, c = ' ' ∨ IsNamePart c) :
    (spellingEntry blanks key spelling).IsWritten := by
  have hbrace : '{' ∉ spelling := fun hmem => (hchars _ hmem).elim nofun fun h => h.brace rfl
  refine ⟨⟨hne, hblanks⟩, hkey, ?_⟩
  rintro value ⟨⟩
  refine ⟨nofun, nofun, ?_, nofun, ?_, List.isChain_singleton _⟩
  · rintro q ⟨⟩
    exact .inl rfl
  · intro part hmem
    cases List.mem_singleton.1 hmem
    refine ⟨hspelling, ?_, fun c hc => ?_⟩
    · rintro ⟨before, after, heq⟩
      exact hbrace (heq ▸ by simp)
    · exact bne_iff_ne.2 ((hchars c hc).elim (fun heq => by rw [heq]; decide) IsNamePart.double)

namespace SourceTag

theorem isNamePart_of_mem_casedNames {tag : SourceTag} (htag : tag.IsWritten) :
    ∀ name ∈ casedNames tag.attributes, name ≠ [] ∧ ∀ c ∈ name, IsNamePart c := by
  intro name hmem
  obtain ⟨entry, hentry, rfl⟩ := List.mem_map.1 (List.mem_filter.1 hmem).1
  obtain ⟨hne, hchars⟩ := (htag.attributes entry hentry).name
  exact ⟨hne, fun c hc => isNamePart_of_isTagNameChar (hchars c hc)⟩

theorem isWritten_entries {tag : SourceTag} (htag : tag.IsWritten) :
    ∀ entry ∈ tag.entries, entry.IsWritten := by
  intro entry hmem
  rw [entries, List.mem_append, List.mem_append] at hmem
  rcases hmem with (hmem | hmem) | hmem
  · rw [nameEntries] at hmem
    split at hmem
    · cases List.mem_singleton.1 hmem
      exact isWritten_spellingEntry (by decide) (by decide) ⟨by decide, by decide⟩ htag.name.1
        fun c hc => .inr (isNamePart_of_isTagNameChar (htag.name.2 c hc))
    · cases hmem
  · exact htag.attributes entry hmem
  · rw [attributeEntries] at hmem
    split at hmem
    · cases hmem
    · next hcased =>
      cases List.mem_singleton.1 hmem
      have hnames := isNamePart_of_mem_casedNames htag
      refine isWritten_spellingEntry (by simp) ?_ ⟨by decide, by decide⟩ ?_ fun c hc => ?_
      · intro c hc
        rcases List.mem_append.1 hc with hc | hc
        · exact htag.blanks c hc
        · cases List.mem_singleton.1 hc
          rfl
      · cases hnames' : casedNames tag.attributes with
        | nil => exact absurd (by rw [hnames']; rfl) hcased
        | cons first others =>
          have hne := (hnames first (by rw [hnames']; exact List.mem_cons_self)).1
          cases others with
          | nil => exact hne
          | cons => exact List.append_ne_nil_of_left_ne_nil hne _
      · rcases Lifting.mem_joinWith hc with rfl | ⟨name, hmem, hc⟩
        · exact .inl rfl
        · exact .inr ((hnames name hmem).2 c hc)

theorem nodup_entries {tag : SourceTag} (htag : tag.IsWritten) :
    (tag.entries.map fun entry => smallName entry.name).Nodup := by
  have hfirst : (tag.nameEntries.map fun entry => smallName entry.name) =
      if tag.name.any Text.isAsciiUpper then [tagSpelling] else [] := by
    rw [nameEntries]
    split <;> rfl
  have hlast : (tag.attributeEntries.map fun entry => smallName entry.name) =
      if !(casedNames tag.attributes).isEmpty then [attributeSpellings] else [] := by
    rw [attributeEntries]
    cases (casedNames tag.attributes).isEmpty <;> rfl
  have hown : ∀ name ∈ tag.attributes.map fun entry => smallName entry.name,
      name ≠ tagSpelling ∧ name ≠ attributeSpellings := by
    intro name hmem
    obtain ⟨entry, hentry, rfl⟩ := List.mem_map.1 hmem
    exact htag.own entry hentry
  have hsome : ∀ {p : Prop} [Decidable p] {name other : String},
      name ∈ (if p then [other] else []) → name = other := by
    intro p _ name other hmem
    split at hmem
    · exact List.mem_singleton.1 hmem
    · cases hmem
  rw [entries, List.map_append, List.map_append, hfirst, hlast, List.nodup_append,
    List.nodup_append]
  refine ⟨⟨by split <;> simp, htag.distinct, ?_⟩, by split <;> simp, ?_⟩
  · intro name hmem other hother heq
    exact (hown other hother).1 (heq ▸ hsome hmem)
  · intro name hmem other hother heq
    have hother := hsome hother
    rcases List.mem_append.1 hmem with hmem | hmem
    · exact absurd ((hsome hmem).symm.trans (heq.trans hother)) (by decide)
    · exact (hown name hmem).2 (heq.trans hother)

/-- A tag that is closed on its own does not end in a value without quotes. -/
theorem mark_getLast?_entries {tag : SourceTag} (htracked : tag.IsTracked)
    (hclosing : tag.selfClosing = true) (hblanks : tag.lastBlanks = []) :
    ∀ entry ∈ tag.entries.getLast?, ∀ value ∈ entry.value, value.mark ≠ none := by
  intro entry hentry value hvalue hmark
  have hspelled : ∀ blanks key spelling, entry ≠ spellingEntry blanks key spelling := by
    rintro blanks key spelling rfl
    cases hvalue
    cases hmark
  rw [entries, attributeEntries] at hentry
  rw [lastBlanks] at hblanks
  split at hentry
  · next hcased =>
    rw [if_pos hcased] at hblanks
    rw [List.append_nil, List.getLast?_append] at hentry
    cases hattributes : tag.attributes.getLast? with
    | some last =>
      rw [hattributes] at hentry
      cases hentry
      obtain ⟨hquote, hlone⟩ := SourceValue.mark_eq_none hmark
      have hopen := (htracked.ending hblanks entry hattributes value hvalue hquote hlone).1
      rw [hclosing] at hopen
      cases hopen
    | none =>
      rw [hattributes, nameEntries] at hentry
      split at hentry
      · cases hentry
        exact hspelled _ _ _ rfl
      · cases hentry
  · rw [List.getLast?_concat] at hentry
    cases hentry
    exact hspelled _ _ _ rfl

end SourceTag

namespace Markup.Lexer

open Reference (IsStop)

variable {m : Machine} {text : List Char} {marker : Char}

/-- An opening tag is read as its start tag. -/
theorem InText.run_tag (hmarker : IsMarker marker) (hm : InText m text) {tag : SourceTag}
    (htag : tag.IsWritten) (htracked : tag.IsTracked) (first : Nat) (rest : List Char) :
    ∃ line m', run 0 m (unifyLineEnds (tag.markup marker first ++ rest)) = textTokens text ++
        .startTag (tag.token marker first) line :: run 0 m' (unifyLineEnds rest) ∧
      HasOpened m' tag.selfClosing (smallName tag.name) := by
  have hblanks : ∀ c ∈ tag.lastBlanks, Text.isAsciiBlank c = true := by
    rw [SourceTag.lastBlanks]
    split
    · exact htag.blanks
    · nofun
  have hstop : ∃ stop more, IsStop stop ∧ unifyLineEnds (tag.lastBlanks ++
      (tagEnd tag.selfClosing ++ rest)) = stop :: more := by
    by_cases hnil : tag.lastBlanks = []
    · rw [hnil]
      cases tag.selfClosing with
      | false => exact ⟨'>', _, by decide, unifyLineEnds_cons (by decide) _⟩
      | true => exact ⟨'/', _, by decide, unifyLineEnds_cons (by decide) _⟩
    · exact exists_unifyLineEnds_blanks hnil hblanks _
  obtain ⟨stop, more, hstop, hmore⟩ := hstop
  obtain ⟨named, hname, hnamed, hin⟩ := hm.leads_name htag.head htag.name
    (SourceAttribute.markupOfAll marker first tag.entries ++
      (tag.lastBlanks ++ (tagEnd tag.selfClosing ++ rest)))
  have hbetween : IsBetween named.state := by
    rw [hnamed]
    exact .tagName
  obtain ⟨last, hattributes, hlast, hvalue, hcollects⟩ := hin.leads_attributes hmarker hbetween
    (SourceTag.isWritten_entries htag) (SourceTag.nodup_entries htag) first hstop hmore
  obtain ⟨line, m', hrun, hm'⟩ := hcollects.run_end hlast hblanks (fun hclosing hnil hstate => by
    rcases hvalue hstate with ⟨-, heq⟩ | ⟨entry, hentry, value, hmem, hmark⟩
    · rw [hnamed] at heq
      cases heq
    · exact SourceTag.mark_getLast?_entries htracked hclosing hnil entry hentry value hmem hmark)
    rest
  refine ⟨line, m', ?_, hm'⟩
  have hall : Leads m (tag.markup marker first ++ rest) last
      (tag.lastBlanks ++ (tagEnd tag.selfClosing ++ rest)) := by
    rw [SourceTag.markup_eq]
    simpa using hname.trans hattributes
  exact Eq.trans hall hrun

end Markup.Lexer

end MustacheJsx
