import MustacheJsx.Proofs.Extraction.Layout
import MustacheJsx.Proofs.Extraction.Preparation

/-!
# What stays outside of tags

Each of the three passes that prepare a template records replacements that stay between the angle
brackets of a tag. `TagPass.touches_tags_only` says that everything else is left in its place: the
result is the template with its opening tags rewritten, and those in which nothing was recorded are
the same.
-/

namespace MustacheJsx

open OpeningTag

/-! ### The text of an attribute -/

namespace WrittenAttribute

variable {quote : Char} {cs : List Char} {written : WrittenAttribute}

theorem exists_of_mustacheLength? {n : Nat} (h : mustacheLength? quote cs = some n) :
    ∃ content rest, cs = content ++ rest ∧ content.length = n ∧ 0 < n ∧ quote ∈ rest := by
  rw [mustacheLength?] at h
  split at h
  · cases h
  · next inner hinner =>
    split at h
    · cases h
    · next content rest hcut =>
      split at h
      · cases h
      · next hkeeps =>
        rw [Bool.or_eq_true, not_or, Bool.not_eq_true', Bool.not_eq_false] at hkeeps
        cases h
        refine ⟨['{', '{'] ++ content ++ ['}', '}'], rest, ?_, by simp, by omega, by
          simpa using hkeeps.2⟩
        rw [Text.afterLead?_eq_some_iff.1 hinner, Text.eq_append_of_cutAt? hcut]
        simp

theorem quotedValue_append (skip : Nat) (h : quote ∈ cs.drop skip) :
    ∃ rest, cs = quotedValue quote skip cs ++ quote :: rest := by
  induction cs generalizing skip with
  | nil => simp at h
  | cons c cs ih =>
    cases skip with
    | succ skip =>
      obtain ⟨rest, hrest⟩ := ih skip (by simpa using h)
      exact ⟨rest, by rw [quotedValue, List.cons_append, ← hrest]⟩
    | zero =>
      rw [quotedValue]
      split
      · next n hlength =>
        obtain ⟨content, rest, hcs, hcontent, hpos, hquote⟩ := exists_of_mustacheLength? hlength
        have hdrop : cs.drop (n - 1) = rest := by
          have hwhole : (c :: cs).drop n = rest := by rw [hcs, List.drop_left' hcontent]
          rwa [← Nat.sub_add_cancel hpos, List.drop_succ_cons] at hwhole
        obtain ⟨rest', hrest'⟩ := ih (n - 1) (by rw [hdrop]; exact hquote)
        exact ⟨rest', by rw [List.cons_append, ← hrest']⟩
      · split
        · next hc => exact ⟨cs, by rw [hc]; rfl⟩
        · next hc =>
          obtain ⟨rest, hrest⟩ := ih 0 ((List.mem_cons.1 h).resolve_left (Ne.symm hc))
          exact ⟨rest, by rw [List.cons_append, ← hrest]⟩

theorem exists_of_dropBlank (cs : List Char) :
    ∃ blanks, cs = blanks ++ dropBlank cs ∧ ∀ c ∈ blanks, Text.isBlank c = true := by
  cases cs with
  | nil => exact ⟨[], rfl, nofun⟩
  | cons c cs =>
    rw [dropBlank]
    split
    · next hc => exact ⟨[c], rfl, by simpa using hc⟩
    · exact ⟨[], rfl, nofun⟩

/-- A value as it is written, in quotes or as a run of plain characters. -/
def IsWritten (value text : List Char) : Prop :=
  (∃ quote, (quote = '"' ∨ quote = '\'') ∧ text = quote :: (value ++ [quote])) ∨
    (text = value ∧ value ≠ [] ∧ ∀ c ∈ value, isPlainChar c = true)

theorem exists_of_valueAt? {value : List Char} {count : Nat}
    (h : valueAt? cs = some (value, count)) :
    ∃ text rest, cs = text ++ rest ∧ text.length = count ∧ IsWritten value text := by
  cases cs with
  | nil => cases h
  | cons c cs =>
    rw [valueAt?] at h
    split at h
    · next hquote =>
      split at h
      · next hcontains =>
        cases h
        have hmem : c ∈ cs.drop 0 := by simpa using hcontains
        obtain ⟨rest, hrest⟩ := quotedValue_append 0 hmem
        refine ⟨c :: (quotedValue c 0 cs ++ [c]), rest, ?_, by simp, .inl ⟨c, hquote, rfl⟩⟩
        rw [List.cons_append, List.append_assoc, List.singleton_append, ← hrest]
      · cases h
    · dsimp only at h
      split at h
      · cases h
      · next hempty =>
        cases h
        refine ⟨(c :: cs).takeWhile isPlainChar, (c :: cs).dropWhile isPlainChar,
          List.takeWhile_append_dropWhile.symm, rfl, .inr ⟨rfl, ?_, fun d hd => ?_⟩⟩
        · exact fun hnil => hempty (List.isEmpty_iff.2 hnil)
        · exact List.mem_takeWhile_imp hd

/-- The parts of an attribute. -/
structure Parts (written : WrittenAttribute) (gap gap' valueText : List Char) : Prop where
  text : written.text = written.name ++ (gap ++ '=' :: (gap' ++ valueText))
  blanks : ∀ c ∈ gap ++ gap', Text.isBlank c = true
  value : IsWritten written.value valueText

theorem exists_of_at? (h : at? cs = some written) :
    ∃ gap gap' valueText rest, cs = written.text ++ rest ∧ written.Parts gap gap' valueText := by
  rw [at?] at h
  dsimp only at h
  split at h
  · cases h
  · split at h
    · next behind hbehind =>
      obtain ⟨⟨value, count⟩, hvalue, rfl⟩ := Option.map_eq_some_iff.1 h
      obtain ⟨gap, hgap, hblank⟩ := exists_of_dropBlank (cs.dropWhile isNameChar)
      obtain ⟨gap', hgap', hblank'⟩ := exists_of_dropBlank behind
      obtain ⟨valueText, rest, hrest, rfl, hwritten⟩ := exists_of_valueAt? hvalue
      have hcs : cs = cs.takeWhile isNameChar ++ (gap ++ '=' :: (gap' ++ valueText)) ++ rest := by
        have hsplit := (List.takeWhile_append_dropWhile (p := isNameChar) (l := cs)).symm
        rw [hgap, hbehind, hgap', hrest] at hsplit
        simpa using hsplit
      have htake : cs.take (cs.length - (dropBlank behind).length + valueText.length) =
          cs.takeWhile isNameChar ++ (gap ++ '=' :: (gap' ++ valueText)) := by
        have hlength := congrArg List.length hcs
        rw [List.length_append] at hlength
        rw [hrest, List.length_append]
        have hcount : cs.length - (valueText.length + rest.length) + valueText.length =
            (cs.takeWhile isNameChar ++ (gap ++ '=' :: (gap' ++ valueText))).length := by
          simp only [List.length_append, List.length_cons] at hlength ⊢
          omega
        rw [hcount]
        exact (congrArg (List.take _) hcs).trans (List.take_left' rfl)
      refine ⟨gap, gap', valueText, rest, ?_, htake, ?_, hwritten⟩
      · rw [htake]
        exact hcs
      · exact List.forall_mem_append.2 ⟨hblank, hblank'⟩
    · cases h

theorem IsWritten.getLast? {value text : List Char} (h : IsWritten value text) :
    ∃ c, text.getLast? = some c ∧ c ≠ '>' := by
  rcases h with ⟨quote, hquote, rfl⟩ | ⟨rfl, hne, hplain⟩
  · refine ⟨quote, by simp [List.getLast?_cons], ?_⟩
    rintro rfl
    rcases hquote with hquote | hquote <;> cases hquote
  · refine ⟨text.getLast hne, List.getLast?_eq_some_getLast hne, fun heq => ?_⟩
    have hlast := hplain _ (List.getLast_mem hne)
    rw [heq] at hlast
    cases hlast

theorem getLast?_of_at? (h : at? cs = some written) :
    ∃ c, written.text.getLast? = some c ∧ c ≠ '>' := by
  obtain ⟨gap, gap', valueText, rest, -, hparts⟩ := exists_of_at? h
  obtain ⟨c, hlast, hne⟩ := hparts.value.getLast?
  refine ⟨c, ?_, hne⟩
  simp [hparts.text, List.getLast?_append, List.getLast?_cons, hlast]

theorem exists_of_mem_attributes {tag : OpeningTag} (hread : tag.IsRead) {offset : Nat}
    (h : (offset, written) ∈ tag.attributes) :
    ∃ before behind, tag.text = before ++ (written.text ++ behind) ∧ before ≠ [] ∧
      written.text ≠ [] ∧ behind ≠ [] ∧ offset = Text.utf8Length before := by
  obtain ⟨before, rest, htext, hoffset, hat⟩ := exists_of_mem_allFrom (List.mem_of_mem_filter h)
  obtain ⟨gap, gap', valueText, behind, rfl, hparts⟩ := exists_of_at? hat
  obtain ⟨hname, hchars⟩ := name_of_at? hat
  obtain ⟨c, hlast, hc⟩ := getLast?_of_at? hat
  refine ⟨before, behind, htext, ?_, ?_, ?_, by rw [hoffset, Nat.zero_add]⟩
  · rintro rfl
    obtain ⟨d, name, hd⟩ := List.exists_cons_of_ne_nil hname
    have hhead := hread.head?_text
    rw [htext, hparts.text, hd] at hhead
    obtain rfl : d = '<' := Option.some.inj hhead
    have hletter := hchars '<' (by rw [hd]; exact List.mem_cons_self)
    cases hletter
  · rintro hnil
    rw [hnil] at hlast
    cases hlast
  · rintro rfl
    have hend := hread.getLast?_text
    rw [htext, List.append_nil, List.getLast?_append, hlast] at hend
    exact hc (Option.some.inj hend)

end WrittenAttribute

/-! ### Where replacements are recorded -/

theorem IsOpening.exists_cons {negated : Bool} {condition text : List Char}
    (h : IsOpening negated condition text) : ∃ rest, text = '{' :: '{' :: '#' :: rest := by
  obtain ⟨inner, rfl, -⟩ := h
  exact ⟨_, rfl⟩

theorem IsEnding.getLast? {negated : Bool} {text : List Char} (h : IsEnding negated text) :
    text.getLast? = some '}' := by
  obtain ⟨blanks, rfl, -⟩ := h
  have hclose : "\x7d\x7d".toList = ['}', '}'] := rfl
  rw [hclose, List.getLast?_append]
  rfl

variable {template : List Char} {tag : OpeningTag}

theorem Rewriting.IsWithin.liesIn {e : Rewriting} {offset : Nat} {written : WrittenAttribute}
    (h : e.IsWithin tag offset written) (htag : tag ∈ all template)
    (hwritten : (offset, written) ∈ tag.attributes) : e.replacement.LiesIn tag := by
  obtain ⟨before, behind, htext, hbefore, hspan, hbehind, hoffset⟩ :=
    WrittenAttribute.exists_of_mem_attributes (isRead_of_mem htag) hwritten
  have hpos := utf8Length_pos hbefore
  have hstart : e.replacement.start = tag.start + Text.utf8Length before := by
    rw [h.start, hoffset]
  exact ⟨⟨before, written.text, behind, htext, hspan, hbehind, hstart.symm, h.length⟩, by omega⟩

theorem Rewriting.IsAround.liesIn {e : Rewriting} {written : WrittenAttribute}
    (h : e.IsAround tag written) (htag : tag ∈ all template) : e.replacement.LiesIn tag := by
  obtain ⟨before, opening, blanks, blanks', ending, behind, hopening, hending, -, htext, hstart,
    hlength⟩ := h.text
  have hread := isRead_of_mem htag
  obtain ⟨rest, rfl⟩ := hopening.exists_cons
  have hlast := hending.getLast?
  rw [List.append_assoc before] at htext
  have hbefore : before ≠ [] := by
    rintro rfl
    have hhead := hread.head?_text
    rw [htext] at hhead
    exact absurd (Option.some.inj hhead) (by decide)
  have hbehind : behind ≠ [] := by
    rintro rfl
    have hend := hread.getLast?_text
    rw [htext, List.append_nil, List.getLast?_append, List.getLast?_append, hlast] at hend
    exact absurd (Option.some.inj hend) (by decide)
  have hpos := utf8Length_pos hbefore
  exact ⟨⟨before, _, behind, htext, by simp, hbehind, hstart.symm, hlength⟩, by omega⟩

theorem TagMustache.liesIn_bind {m : TagMustache} (htag : tag ∈ all template)
    (hm : m ∈ tag.mustaches) (n : Nat) : (m.bind (tag.start + m.start) n).LiesIn tag := by
  obtain ⟨before, behind, htext, hbefore, hbehind, hstart, ⟨rest, hbraces⟩, -⟩ :=
    (isRead_of_mem htag).exists_of_mem hm
  have hpos := utf8Length_pos hbefore
  have hne : m.text ≠ [] := by
    rw [← hbraces]
    exact List.cons_ne_nil _ _
  refine ⟨⟨before, m.text, behind, htext, hne, hbehind, by rw [← hstart]; rfl, rfl⟩, ?_⟩
  show tag.start < tag.start + m.start
  omega

/-- A pass over the opening tags of a template. -/
inductive TagPass where
  /-- The passes that take out blocks. -/
  | blocks (pass : BlockPass)
  /-- The pass that binds calls. -/
  | generators

namespace TagPass

def run : TagPass → List Char → ExtractM Prepared
  | blocks pass => pass.extract
  | generators => bindGenerators

def find : TagPass → List Char → ExtractM Extraction
  | blocks pass, template => pass.find template
  | generators, template => pure { replacements := generatorBindings template }

variable {pass : TagPass} {names names' : HelperNames} {found : Extraction}

theorem run_eq (pass : TagPass) (template : List Char) :
    pass.run template =
      pass.find template >>= fun found => ExceptT.mk (pure (found.applyTo template)) := by
  cases pass with
  | blocks pass => exact pass.extract_eq template
  | generators => rfl

theorem exists_liesIn (h : (pass.find template).run names = (.ok found, names')) :
    ∀ r ∈ found.replacements, ∃ tag ∈ all template, r.LiesIn tag := by
  intro r hr
  cases pass with
  | blocks pass =>
    obtain ⟨entries, hreplacements, -, hentries⟩ := BlockPass.keeps_of_find h
    rw [hreplacements] at hr
    obtain ⟨e, he, rfl⟩ := List.mem_map.1 hr
    obtain ⟨⟨tag, htag, entry, hentry, hfinds⟩, -⟩ := hentries e he
    cases pass with
    | within => exact ⟨tag, htag, Rewriting.IsWithin.liesIn hfinds htag hentry⟩
    | around => exact ⟨tag, htag, Rewriting.IsAround.liesIn hfinds htag⟩
  | generators =>
    cases h
    obtain ⟨tag, htag, hr⟩ := List.mem_flatMap.1 hr
    obtain ⟨m, hm, -, -, n, rfl⟩ := exists_of_mem_bindGenerators hr
    exact ⟨tag, htag, TagMustache.liesIn_bind htag hm n⟩

end TagPass

/-! ### Templates with other tags -/

/-- A text that begins at the byte `offset`, and what is left of it when each of its tags gives way
to a text that is allowed for it. What stands before, between and behind the tags is the same. -/
inductive Retags (allowed : OpeningTag → List Char → Prop) :
    Nat → List OpeningTag → List Char → List Char → Prop
  | rest (offset : Nat) (text : List Char) : Retags allowed offset [] text text
  | tag {offset : Nat} {tag : OpeningTag} {tags : List OpeningTag} {gap text rest rest' : List Char}
      (hstart : tag.start = offset + Text.utf8Length gap) (hallowed : allowed tag text)
      (h : Retags allowed tag.stop tags rest rest') :
      Retags allowed offset (tag :: tags) (gap ++ (tag.text ++ rest)) (gap ++ (text ++ rest'))

namespace Retags

variable {allowed allowed' : OpeningTag → List Char → Prop} {offset : Nat} {tags : List OpeningTag}
  {cs cs' : List Char}

theorem pass {text : List Char} (h : Retags allowed (offset + Text.utf8Length text) tags cs cs') :
    Retags allowed offset tags (text ++ cs) (text ++ cs') := by
  cases h with
  | rest => exact .rest _ _
  | tag hstart hallowed h =>
    rw [← List.append_assoc, ← List.append_assoc text]
    refine .tag ?_ hallowed h
    rw [hstart, Text.utf8Length_append, Nat.add_assoc]

theorem imp (himp : ∀ tag text, allowed tag text → allowed' tag text)
    (h : Retags allowed offset tags cs cs') : Retags allowed' offset tags cs cs' := by
  induction h with
  | rest => exact .rest _ _
  | tag hstart hallowed _ ih => exact .tag hstart (himp _ _ hallowed) ih

end Retags

/-- What may become of a tag: it still begins and ends with its angle brackets, and is the same if
no replacement begins in it. -/
structure OpeningTag.Becomes (rs : List Replacement) (tag : OpeningTag) (text : List Char) :
    Prop where
  first : text.head? = some '<'
  last : text.getLast? = some '>'
  same : (∀ r ∈ rs, ¬ (tag.start ≤ r.start ∧ r.start < tag.stop)) → text = tag.text

namespace Replacement

variable {rs : List Replacement} {offset : Nat} {cs out result : List Char}

theorem retags_of_applyAll (h : applyAll offset cs out rs = .ok result)
    (hrs : ∀ r ∈ rs, ∃ tag ∈ allFrom offset 0 cs, r.LiesIn tag) :
    ∃ tail, result = out.reverse ++ tail ∧
      Retags (OpeningTag.Becomes rs) offset (allFrom offset 0 cs) cs tail := by
  have hall := allFrom_induction (motive := fun offset cs tags => ∀ rs out,
    rs.Pairwise (fun r s : Replacement => r.stop ≤ s.start) →
    (∀ r ∈ rs, ∃ tag ∈ tags, r.LiesIn tag) → applyAll offset cs out rs = .ok result →
    ∃ tail, result = out.reverse ++ tail ∧ Retags (OpeningTag.Becomes rs) offset tags cs tail)
    ?_ ?_ ?_ offset cs
  · exact hall rs out (pairwise_of_applyAll h) hrs h
  · intro offset cs rs out _ hrs happly
    obtain rfl : rs = [] := by
      refine List.eq_nil_iff_forall_not_mem.2 fun r hr => ?_
      obtain ⟨tag, htag, -⟩ := hrs r hr
      cases htag
    cases happly
    exact ⟨cs, rfl, .rest _ _⟩
  · intro offset text cs tags hbehind ih rs out hsorted hrs happly
    have hlater : ∀ r ∈ rs, offset + Text.utf8Length text ≤ r.start := by
      intro r hr
      obtain ⟨tag, htag, hlies⟩ := hrs r hr
      exact Nat.le_trans (hbehind tag htag) (Nat.le_of_lt hlies.start)
    rw [applyAll_append hlater] at happly
    obtain ⟨tail, rfl, htail⟩ := ih rs _ hsorted hrs happly
    exact ⟨text ++ tail, by simp, htail.pass⟩
  · intro tag cs tags hread hbehind ih rs out hsorted hrs happly
    -- What begins in the tag stays in it, and the rest is in later tags.
    have hwithin : ∀ {r tag}, LiesIn r tag → tag.start ≤ r.start ∧ r.start < tag.stop := by
      intro r tag hlies
      have hbounds := hlies.bounds
      omega
    obtain ⟨near, far, rfl, hnear, hfar, hstop⟩ :=
      exists_append_of_within hwithin hsorted hbehind hrs
    obtain ⟨hsortedNear, hsortedFar, -⟩ := List.pairwise_append.1 hsorted
    obtain ⟨text, hlast, hfirst, hsame, happlied⟩ :=
      exists_applied (fun r hr => (hnear r hr).amid) hsortedNear out
    rw [happlied cs far hstop] at happly
    obtain ⟨tail, rfl, htail⟩ := ih far _ hsortedFar hfar happly
    refine ⟨text ++ tail, by simp, ?_⟩
    have hbecomes : tag.Becomes (near ++ far) text := by
      refine ⟨?_, hlast.trans hread.getLast?_text, fun hnone => hsame ?_⟩
      · exact (hfirst fun r hr => (hnear r hr).start).trans hread.head?_text
      · refine List.eq_nil_iff_forall_not_mem.2 fun r hr => ?_
        have hbounds := (hnear r hr).bounds
        exact hnone r (List.mem_append_left _ hr) ⟨Nat.le_of_lt hbounds.1, by omega⟩
    refine @Retags.tag _ _ _ _ [] _ _ _ rfl hbecomes (htail.imp fun other text h => ?_)
    exact ⟨h.first, h.last, fun hnone => h.same fun r hr =>
      hnone r (List.mem_append_right _ hr)⟩

end Replacement

/-- A pass that succeeds rewrites the opening tags of its template and nothing else. Every
replacement that it records stays between the angle brackets of a tag; every tag still begins and
ends with them, and is the same if no replacement was recorded in it. -/
theorem TagPass.touches_tags_only (pass : TagPass) {template : List Char} {prepared : Prepared}
    {names names' : HelperNames}
    (h : (pass.run template).run names = (.ok prepared, names')) :
    ∃ found, (pass.find template).run names = (.ok found, names') ∧
      prepared.helpers = found.helpers ∧
      (∀ r ∈ found.replacements, ∃ tag ∈ all template, tag.start < r.start ∧ r.stop < tag.stop) ∧
      Retags (OpeningTag.Becomes found.replacements) 0 (all template) template
        prepared.template := by
  rw [run_eq] at h
  obtain ⟨found, middle, hfind, h⟩ := exists_of_run_bind h
  obtain ⟨happly, rfl⟩ := Prod.mk.inj h
  obtain ⟨result, hsplice, rfl⟩ := exists_of_map_eq_ok happly
  have hlies := exists_liesIn hfind
  refine ⟨found, hfind, rfl, fun r hr => ?_, ?_⟩
  · obtain ⟨tag, htag, hin⟩ := hlies r hr
    have hbounds := hin.bounds
    exact ⟨tag, htag, hbounds.1, hbounds.2.2⟩
  · have hmem : ∀ {r}, r ∈ found.replacements.mergeSort (fun r s => r.start ≤ s.start) ↔
        r ∈ found.replacements := List.mem_mergeSort
    obtain ⟨tail, rfl, htail⟩ := Replacement.retags_of_applyAll hsplice
      fun r hr => hlies r (hmem.1 hr)
    exact htail.imp fun tag text hbecomes => ⟨hbecomes.first, hbecomes.last, fun hnone =>
      hbecomes.same fun r hr => hnone r (hmem.1 hr)⟩

def blockAndText : List Char :=
  "x<a class=\"\x7b\x7b#if b\x7d\x7dc\x7b\x7b/if\x7d\x7d\">\x7b\x7bd\x7d\x7d</a><b>".toList

theorem TagPass.blockAndText_is_retagged :
    ∃ prepared names', ((blocks .within).run blockAndText).run [] = (.ok prepared, names') ∧
      prepared.template =
        "x<a class=\"\x7b\x7bclassIfHelper b\x7d\x7d\">\x7b\x7bd\x7d\x7d</a><b>".toList ∧
      ∃ found, ((blocks .within).find blockAndText).run [] = (.ok found, names') ∧
        prepared.helpers = found.helpers ∧
        (∀ r ∈ found.replacements,
          ∃ tag ∈ all blockAndText, tag.start < r.start ∧ r.stop < tag.stop) ∧
        Retags (OpeningTag.Becomes found.replacements) 0 (all blockAndText) blockAndText
          prepared.template := by
  have hrun : (((blocks .within).run blockAndText).run []).1.toOption.map Prepared.template =
      some "x<a class=\"\x7b\x7bclassIfHelper b\x7d\x7d\">\x7b\x7bd\x7d\x7d</a><b>".toList := by
    decide +kernel
  cases hresult : ((blocks .within).run blockAndText).run [] with
  | mk result names' =>
    rw [hresult] at hrun
    cases result with
    | error fault => cases hrun
    | ok prepared =>
      exact ⟨prepared, names', rfl, Option.some.inj hrun, touches_tags_only _ hresult⟩

end MustacheJsx
