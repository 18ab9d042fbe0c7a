import MustacheJsx.Extraction.Splice
import MustacheJsx.Proofs.Extraction.Places

/-!
# Replacing parts of tags

A part of a tag that begins and ends outside quotes and mustaches can give way to any other text
that does so: the reader of opening tags reads what is around it as before, and loses no more than
what it would have read in a tag that no longer ends.
-/

namespace MustacheJsx

theorem Text.startsWith_of_mem {lead text : List Char} {c : Char} (hc : c ∈ text) (hnone : c ∉ lead)
    (rest : List Char) : startsWith lead (text ++ rest) = startsWith lead text := by
  by_cases hlength : lead.length ≤ text.length
  · exact startsWith_append hlength rest
  · have hshort : ∀ rest, startsWith lead (text ++ rest) = false := by
      intro rest
      rw [Bool.eq_false_iff, ne_eq, startsWith_iff]
      intro hlead
      have htext : text <+: lead :=
        List.prefix_of_prefix_length_le (List.prefix_append text rest) hlead (by omega)
      exact hnone (htext.subset hc)
    have hnil := hshort []
    rw [List.append_nil] at hnil
    rw [hshort rest, hnil]

namespace OpeningTag

variable {place place' next found : Place} {offset offset' : Nat} {c : Char}
  {cs cs' text before rest more : List Char}

/-! ### Steps before another text -/

theorem startsWith_cons (d : Char) (lead : List Char) (c : Char) (cs : List Char) :
    Text.startsWith (d :: lead) (c :: cs) = (d == c && Text.startsWith lead cs) := by
  rw [Text.startsWith, Text.afterLead?]
  by_cases h : d = c
  · simp [h, Text.startsWith]
  · simp [h]

theorem landmark_exchange (h : landmark 0 c cs = .pass text.length)
    (hcs : c :: cs = text ++ (before ++ rest)) (hcs' : c :: cs' = text ++ (before ++ more))
    (hless : '<' ∈ before) : landmark 0 c cs' = .pass text.length := by
  rw [landmark] at h
  split at h
  · next hcomment =>
    split at h
    · next content after hcut =>
      have hcontent := Text.eq_append_of_cutAt? hcut
      have hlength : (content ++ ['-', '-', '>']).length = text.length := by
        simpa using h
      obtain ⟨rfl, -⟩ := List.append_inj (hcontent.symm.trans hcs) hlength
      have hbegins : ['<', '!'].length ≤ content.length := Text.length_of_cutAt? (c := '-') rfl
        (List.IsPrefix.trans (by decide) (Text.startsWith_iff.1 hcomment)) (by decide) hcut
      have hlong : ['<', '!', '-', '-'].length ≤ (content ++ ['-', '-', '>']).length := by
        simp only [List.length_append, List.length_cons, List.length_nil] at hbegins ⊢
        omega
      rw [hcs, Text.startsWith_append hlong] at hcomment
      rw [landmark, hcs', Text.startsWith_append hlong, if_pos hcomment,
        Text.cutAt?_append (by simp) hcut]
      simp
    · cases h
  · next hcomment =>
    split at h
    · next hbraces =>
      split at h
      · next found hfound =>
        obtain ⟨after, hafter, hlong, -, hmore⟩ := exists_of_mustacheText? hfound
        have hlength : found.length = text.length := by
          simpa using h
        obtain ⟨rfl, -⟩ := List.append_inj (hafter.symm.trans hcs) hlength
        have hshort : ['{', '{'].length ≤ found.length := Nat.le_trans (by decide) hlong
        have hcomment' : Text.startsWith ['<', '!', '-', '-'] (c :: cs') = false := by
          rw [hcs, Text.startsWith_append (Nat.le_trans (by decide) hlong)] at hcomment
          rw [hcs', Text.startsWith_append (Nat.le_trans (by decide) hlong)]
          exact Bool.eq_false_iff.2 hcomment
        rw [hcs, Text.startsWith_append hshort] at hbraces
        rw [landmark, hcomment', if_neg Bool.false_ne_true, hcs', Text.startsWith_append hshort,
          if_pos hbraces, hmore]
      · cases h
    · next hbraces =>
      split at h
      · split at h <;> cases h
      · next hopens =>
        have hlength : 1 = text.length := by
          simpa using h
        obtain ⟨d, rfl⟩ := List.length_eq_one_iff.1 hlength.symm
        have hbehind : cs = before ++ rest := (List.cons.inj hcs).2
        have hbehind' : cs' = before ++ more := (List.cons.inj hcs').2
        subst hbehind hbehind'
        -- What decides between the forms stands in front of the next tag.
        have hdashes : ∀ rest, Text.startsWith ['!', '-', '-'] (before ++ rest) =
            Text.startsWith ['!', '-', '-'] before := Text.startsWith_of_mem hless (by decide)
        have hbrace : ∀ rest, Text.startsWith ['{'] (before ++ rest) =
            Text.startsWith ['{'] before := Text.startsWith_of_mem hless (by decide)
        rw [startsWith_cons, hdashes] at hcomment
        rw [startsWith_cons, hbrace] at hbraces
        have hname : mayOpen (before ++ more) = mayOpen (before ++ rest) := by
          obtain ⟨d, before, rfl⟩ := List.exists_cons_of_ne_nil (List.ne_nil_of_mem hless)
          rfl
        rw [landmark, startsWith_cons, hdashes, if_neg hcomment, startsWith_cons, hbrace,
          if_neg hbraces, hname, if_neg hopens]
        rfl

theorem step_open {d : Char} (hletter : Text.isAsciiLetter d = true) (cs : List Char) :
    Place.between.step '<' (d :: cs) = none ∨
      Place.between.step '<' (d :: cs) = some (2, .inside none d) := by
  have hbang : '!' ≠ d := (WrittenAttribute.ne_of_isNameChar
    (WrittenAttribute.isNameChar_of_isAsciiLetter hletter) (by decide)).symm
  have hcomment : Text.startsWith ['<', '!', '-', '-'] ('<' :: d :: cs) = false := by
    simp [Text.startsWith, Text.afterLead?, hbang]
  have hbraces : Text.startsWith ['{', '{'] ('<' :: d :: cs) = false := rfl
  have hopens : mayOpen (d :: cs) = true := hletter
  rw [Place.step, landmark, hcomment, hbraces, if_neg Bool.false_ne_true,
    if_neg Bool.false_ne_true, if_pos ⟨rfl, hopens⟩]
  rcases at?_cases 0 ('<' :: d :: cs) with ⟨tag, htag, -⟩ | ⟨htag, -⟩
  · rw [htag]
    exact .inr rfl
  · rw [htag]
    exact .inl rfl

/-- What a step reads does not depend on what comes after the next stop inside a tag, as long as no
new mustache comes about there. Only a tag may no longer end. -/
theorem step_exchange (offset : Nat) (h : place.step c cs = some (text.length, next))
    (hcs : c :: cs = text ++ (before ++ rest)) (hcs' : c :: cs' = text ++ (before ++ more))
    (hless : next = .between → '<' ∈ before)
    (hmore : before = [] → (∃ quote, next = .inside quote '{') → more.head? ≠ some '{') :
    place.step c cs' = none ∨
      (place.step c cs' = some (text.length, next) ∧
        place.mustache? offset c cs' = place.mustache? offset c cs) := by
  cases place with
  | between =>
    rcases between_cases 0 c cs with ⟨found, after, hfound, -, hpass, hread⟩ |
      ⟨d, after, rfl, rfl, hletter, -, hread⟩ | ⟨-, hread⟩
    · rw [hread] at h
      obtain ⟨hlength, rfl⟩ := Prod.mk.inj (Option.some.inj h)
      rw [hlength] at hpass
      refine .inr ⟨?_, rfl⟩
      rw [Place.step, landmark_exchange hpass hcs hcs' (hless rfl)]
    · rw [hread] at h
      obtain ⟨hlength, rfl⟩ := Prod.mk.inj (Option.some.inj h)
      obtain ⟨rfl, -⟩ := List.append_inj (show ['<', d] ++ _ = _ from hcs) hlength
      obtain ⟨-, rfl⟩ := List.cons.inj hcs'
      exact (step_open hletter _).imp_right fun hstep => ⟨hstep, rfl⟩
    · rw [hread] at h
      cases h
  | inside quote last =>
    refine .inr ?_
    rcases inside_cases quote last c cs with ⟨body, hbody, ⟨-, hread⟩ | ⟨found, hfound, hread⟩⟩ |
      ⟨hbraces, rfl, rfl, hread⟩ | ⟨hbraces, hend, hread⟩
    · rw [hread] at h
      cases h
    · rw [hread] at h
      obtain ⟨hlength, rfl⟩ := Prod.mk.inj (Option.some.inj h)
      obtain ⟨after, hafter, hlong, -, hexchange⟩ := exists_of_mustacheText? hfound
      obtain ⟨rfl, -⟩ := List.append_inj (hafter.symm.trans hcs) hlength
      have hshort : ['{', '{'].length ≤ found.length := Nat.le_trans (by decide) hlong
      have hbraces : Text.startsWith ['{', '{'] (c :: cs) = true :=
        Text.startsWith_iff.2 ⟨body, hbody.symm⟩
      have hbraces' : Text.startsWith ['{', '{'] (c :: cs') = true := by
        rw [hcs, Text.startsWith_append hshort] at hbraces
        rw [hcs', Text.startsWith_append hshort, hbraces]
      have hfound' : mustacheText? (c :: cs') = some found := by
        rw [hcs', hexchange]
      constructor
      · rw [Place.step, if_pos hbraces', hfound']
        rfl
      · rw [Place.mustache?, Place.mustache?, if_pos hbraces, if_pos hbraces', hfound, hfound']
    · rw [hread] at h
      obtain ⟨hlength, rfl⟩ := Prod.mk.inj (Option.some.inj h)
      rw [← hlength]
      exact ⟨rfl, rfl⟩
    · rw [hread] at h
      obtain ⟨hlength, rfl⟩ := Prod.mk.inj (Option.some.inj h)
      obtain ⟨d, rfl⟩ := List.length_eq_one_iff.1 hlength.symm
      obtain ⟨rfl, hbehind⟩ := List.cons.inj hcs
      have hbraces' : ¬ ['{', '{'] <+: c :: cs' := by
        rintro ⟨after, hafter⟩
        obtain ⟨rfl, hnext⟩ := List.cons.inj hafter
        rw [(List.cons.inj hcs').2] at hnext
        cases before with
        | nil => exact hmore rfl ⟨_, rfl⟩ (congrArg List.head? hnext).symm
        | cons d before =>
          obtain rfl := (List.cons.inj hnext).1
          exact hbraces ⟨before ++ rest, by rw [hbehind]; rfl⟩
      have hstarts : ¬ Text.startsWith ['{', '{'] (c :: cs') = true :=
        fun hstarts => hbraces' (Text.startsWith_iff.1 hstarts)
      constructor
      · rw [Place.step, if_neg hstarts, if_neg hend]
        rfl
      · rw [mustache?_of_not_braces hbraces', mustache?_of_not_braces hbraces]

/-! ### Places alike -/

/-- Two places from which the reader goes on in the same way: the last character counts only as the
sign before a value. -/
inductive Place.Alike : Place → Place → Prop
  | between : Place.Alike .between .between
  | inside {quote : Option Char} {last last' : Char} (h : last = '=' ↔ last' = '=') :
      Place.Alike (.inside quote last) (.inside quote last')

theorem Place.Alike.refl (place : Place) : place.Alike place := by
  cases place with
  | between => exact .between
  | inside quote last => exact .inside Iff.rfl

theorem Place.Alike.step (h : place.Alike place') (c : Char) (cs : List Char) :
    (place.step c cs = none ∧ place'.step c cs = none) ∨
      ∃ count next next', place.step c cs = some (count, next) ∧
        place'.step c cs = some (count, next') ∧ next.Alike next' := by
  cases h with
  | between =>
    cases hstep : Place.between.step c cs with
    | none => exact .inl ⟨rfl, rfl⟩
    | some found => exact .inr ⟨found.1, found.2, found.2, rfl, rfl, .refl _⟩
  | @inside quote last last' h =>
    rw [Place.step, Place.step]
    split
    · cases mustacheText? (c :: cs) with
      | none => exact .inl ⟨rfl, rfl⟩
      | some found => exact .inr ⟨_, _, _, rfl, rfl, .refl _⟩
    · split
      · exact .inr ⟨_, _, _, rfl, rfl, .between⟩
      · refine .inr ⟨_, _, _, rfl, rfl, .inside ?_⟩
        split
        · exact h
        · exact Iff.rfl

end OpeningTag

/-- Two mustaches that are the same except for their positions. -/
structure TagMustache.Alike (m m' : TagMustache) : Prop where
  text : m.text = m'.text
  inValue : m.inValue = m'.inValue

namespace OpeningTag

variable {place place' next found : Place} {offset offset' target : Nat} {c : Char}
  {cs cs' text before rest more : List Char} {m' : TagMustache} {mustaches : List TagMustache}

theorem Place.Alike.mustache? (h : place.Alike place') (hm : m' ∈ place'.mustache? offset' c cs) :
    ∃ m ∈ place.mustache? offset c cs, m.Alike m' := by
  cases h with
  | between => cases hm
  | @inside quote last last' h =>
    rw [Place.mustache?] at hm ⊢
    split at hm
    · next hbraces =>
      obtain ⟨text, htext, rfl⟩ := Option.map_eq_some_iff.1 hm
      rw [if_pos hbraces, htext]
      refine ⟨_, rfl, rfl, ?_⟩
      rw [Bool.eq_iff_iff]
      simp [h]
    · cases hm

theorem exists_of_alike (h : place.Alike place') (offset : Nat)
    (hm : m' ∈ mustachesFrom place' offset' 0 cs) :
    ∃ m ∈ mustachesFrom place offset 0 cs, m.Alike m' := by
  induction place, offset, cs using place_induction generalizing place' offset' with
  | done place offset => cases hm
  | stuck place offset c cs hstep =>
    rcases h.step c cs with ⟨-, hstep'⟩ | ⟨count, next, next', hread, -, -⟩
    · rw [mustachesFrom, hstep'] at hm
      cases hm
    · rw [hread] at hstep
      cases hstep
  | step place next offset c cs text rest hstep hcs hne ih =>
    rcases h.step c cs with ⟨hread, -⟩ | ⟨count, next₀, next', hread, hread', halike⟩
    · rw [hread] at hstep
      cases hstep
    · rw [hread] at hstep
      obtain ⟨rfl, rfl⟩ := Prod.mk.inj (Option.some.inj hstep)
      rw [mustachesFrom_step hread' hcs hne, List.mem_append, Option.mem_toList] at hm
      rw [mustachesFrom_step hread hcs hne]
      rcases hm with hm | hm
      · obtain ⟨m, hm, hsame⟩ := h.mustache? hm
        exact ⟨m, List.mem_append_left _ (Option.mem_toList.2 hm), hsame⟩
      · obtain ⟨m, hm, hsame⟩ := ih halike hm
        exact ⟨m, List.mem_append_right _ hm, hsame⟩

/-! ### Walks -/

/-- The reader comes from a place to another one over a text, before `rest`, and meets mustaches. -/
inductive Walks (rest : List Char) (found : Place) :
    Place → Nat → List Char → List TagMustache → Prop
  | here (offset : Nat) : Walks rest found found offset [] []
  | step {place next : Place} {offset : Nat} {c : Char} {cs text before : List Char}
      {mustaches : List TagMustache} (hstep : place.step c cs = some (text.length, next))
      (hcs : c :: cs = text ++ (before ++ rest)) (hne : text ≠ [])
      (h : Walks rest found next (offset + Text.utf8Length text) before mustaches) :
      Walks rest found place offset (text ++ before)
        ((place.mustache? offset c cs).toList ++ mustaches)

theorem exists_walk (h : placeAt target place offset 0 cs = some found) :
    ∃ before rest mustaches, cs = before ++ rest ∧ offset + Text.utf8Length before = target ∧
      Walks rest found place offset before mustaches := by
  have of_self : ∀ {place : Place} {offset : Nat} (cs : List Char), offset = target →
      placeAt target place offset 0 cs = some found →
      ∃ before rest mustaches, cs = before ++ rest ∧ offset + Text.utf8Length before = target ∧
        Walks rest found place offset before mustaches := by
    rintro place offset cs rfl h
    rw [placeAt_self] at h
    cases h
    exact ⟨[], cs, [], rfl, rfl, .here _⟩
  induction place, offset, cs using place_induction with
  | done place offset =>
    refine of_self [] ?_ h
    rw [placeAt] at h
    split at h
    · next heq => exact heq.2
    · cases h
  | stuck place offset c cs hstep =>
    refine of_self (c :: cs) ?_ h
    rw [placeAt, hstep] at h
    split at h
    · next heq => exact heq
    · cases h
  | step place next offset c cs text rest hstep hcs hne ih =>
    by_cases htarget : offset = target
    · exact of_self (c :: cs) htarget h
    · rw [placeAt_step hstep hcs hne htarget] at h
      obtain ⟨before, after, mustaches, rfl, hbytes, hwalks⟩ := ih h
      refine ⟨text ++ before, after, _, ?_, ?_, .step hstep hcs hne hwalks⟩
      · rw [hcs, List.append_assoc]
      · rw [Text.utf8Length_append]
        omega

theorem utf8Length_pos (h : text ≠ []) : 0 < Text.utf8Length text := by
  obtain ⟨c, cs, rfl⟩ := List.exists_cons_of_ne_nil h
  exact Nat.add_pos_left c.utf8Size_pos _

namespace Walks

theorem trans {middle : Place} {before' : List Char} {mustaches' : List TagMustache}
    (h : Walks (before' ++ rest) middle place offset before mustaches)
    (h' : Walks rest found middle (offset + Text.utf8Length before) before' mustaches') :
    Walks rest found place offset (before ++ before') (mustaches ++ mustaches') := by
  induction h with
  | here offset => exact h'
  | step hstep hcs hne h ih =>
    rw [Text.utf8Length_append, ← Nat.add_assoc] at h'
    rw [List.append_assoc, List.append_assoc]
    refine .step hstep ?_ hne (ih h')
    rw [hcs, List.append_assoc]

theorem mustachesFrom (h : Walks rest found place offset before mustaches) :
    mustachesFrom place offset 0 (before ++ rest) =
      mustaches ++ OpeningTag.mustachesFrom found (offset + Text.utf8Length before) 0 rest := by
  induction h with
  | here offset => rfl
  | step hstep hcs hne h ih =>
    rw [List.append_assoc, ← hcs, mustachesFrom_step hstep hcs hne, ih, Text.utf8Length_append,
      List.append_assoc, Nat.add_assoc]

theorem placeAt (h : Walks rest found place offset before mustaches)
    (hle : offset + Text.utf8Length before ≤ target) :
    placeAt target place offset 0 (before ++ rest) =
      OpeningTag.placeAt target found (offset + Text.utf8Length before) 0 rest := by
  induction h with
  | here offset => rfl
  | step hstep hcs hne h ih =>
    have hpos := utf8Length_pos hne
    rw [Text.utf8Length_append] at hle ⊢
    rw [List.append_assoc, ← hcs, placeAt_step hstep hcs hne (by omega), ih (by omega),
      Nat.add_assoc]

theorem start_lt (h : Walks rest found place offset before mustaches) :
    ∀ m ∈ mustaches, m.start < offset + Text.utf8Length before := by
  induction h with
  | here offset =>
    intro m hm
    cases hm
  | step hstep hcs hne h ih =>
    intro m hm
    have hpos := utf8Length_pos hne
    rw [Text.utf8Length_append]
    rcases List.mem_append.1 hm with hm | hm
    · have := Place.start_of_mem (Option.mem_toList.1 hm)
      omega
    · have := ih m hm
      omega

theorem eq_of_nil (h : Walks rest found place offset before mustaches) (hnil : before = []) :
    place = found := by
  cases h with
  | here offset => rfl
  | step hstep hcs hne h => exact absurd (List.append_eq_nil_iff.1 hnil).1 hne

theorem mem_less (h : Walks rest found place offset before mustaches) (hplace : place = .between)
    (hfound : found ≠ .between) : '<' ∈ before := by
  induction h with
  | here offset => exact absurd hplace hfound
  | @step place next offset c cs text before mustaches hstep hcs hne h ih =>
    subst hplace
    rcases between_cases 0 c cs with ⟨passed, after, -, -, -, hread⟩ |
      ⟨d, after, rfl, rfl, -, -, hread⟩ | ⟨-, hread⟩
    · rw [hread] at hstep
      obtain ⟨-, rfl⟩ := Prod.mk.inj (Option.some.inj hstep)
      exact List.mem_append_right text (ih rfl)
    · rw [hread] at hstep
      obtain ⟨hlength, -⟩ := Prod.mk.inj (Option.some.inj hstep)
      obtain ⟨rfl, -⟩ := List.append_inj (show ['<', d] ++ _ = _ from hcs) hlength
      exact List.mem_cons_self
    · rw [hread] at hstep
      cases hstep

/-- Before another text the reader comes to a place alike, or no further than to a tag that does not
end. It meets no other mustaches on its way. -/
theorem exchange (h : Walks rest found place offset before mustaches) (hfound : found ≠ .between)
    (hmore : (∃ quote, found = .inside quote '{') → more.head? ≠ some '{')
    (halike : place.Alike place') (offset' : Nat) :
    ∃ found', found.Alike found' ∧
      ∀ m' ∈ OpeningTag.mustachesFrom place' offset' 0 (before ++ more),
      (∃ m ∈ mustaches, m.Alike m') ∨
        m' ∈ OpeningTag.mustachesFrom found' (offset' + Text.utf8Length before) 0 more := by
  induction h generalizing place' offset' with
  | here offset => exact ⟨place', halike, fun m' hm => .inr hm⟩
  | @step place next offset c cs text before mustaches hstep hcs hne h ih =>
    obtain ⟨d, tail, rfl⟩ := List.exists_cons_of_ne_nil hne
    obtain rfl := (List.cons.inj hcs).1
    have hcs' : c :: (tail ++ (before ++ more)) = c :: tail ++ (before ++ more) := rfl
    have hexchange := step_exchange offset hstep hcs hcs'
      (fun hnext => h.mem_less hnext hfound)
      (fun hnil hbrace => hmore (h.eq_of_nil hnil ▸ hbrace))
    rw [List.append_assoc, ← hcs', Text.utf8Length_append, ← Nat.add_assoc]
    rcases halike.step c (tail ++ (before ++ more)) with ⟨-, hnone⟩ |
      ⟨count, next₀, next', hread, hread', hnext⟩
    · refine ⟨found, .refl _, fun m' hm => ?_⟩
      rw [OpeningTag.mustachesFrom, hnone] at hm
      cases hm
    · rcases hexchange with hnone | ⟨hsame, hmustache⟩
      · rw [hnone] at hread
        cases hread
      · rw [hread] at hsame
        obtain ⟨rfl, rfl⟩ := Prod.mk.inj (Option.some.inj hsame)
        obtain ⟨found', hfound', hmustaches⟩ :=
          ih hnext (offset' + Text.utf8Length (c :: tail))
        refine ⟨found', hfound', fun m' hm => ?_⟩
        rw [mustachesFrom_step hread' hcs' hne, List.mem_append, Option.mem_toList] at hm
        rcases hm with hm | hm
        · obtain ⟨m, hm, hsame⟩ := halike.mustache? hm
          rw [hmustache] at hm
          exact .inl ⟨m, List.mem_append_left _ (Option.mem_toList.2 hm), hsame⟩
        · rcases hmustaches m' hm with ⟨m, hm, hsame⟩ | hm
          · exact .inl ⟨m, List.mem_append_right _ hm, hsame⟩
          · exact .inr hm

end Walks

/-! ### Replacements -/

theorem Place.exists_of_isOutside (h : place.isOutside = true) :
    ∃ last, place = .inside none last ∧ last ≠ '=' := by
  cases place with
  | between => cases h
  | inside quote last =>
    cases quote with
    | none => exact ⟨last, rfl, bne_iff_ne.1 h⟩
    | some quote => cases h

theorem Place.ne_of_isOutside (h : place.isOutside = true) : place ≠ .between := by
  rintro rfl
  cases h

theorem Place.Alike.isOutside (h : place.Alike place') (houtside : place.isOutside = true) :
    place'.isOutside = true := by
  obtain ⟨last, rfl, hlast⟩ := Place.exists_of_isOutside houtside
  cases h with
  | inside h => exact bne_iff_ne.2 fun hequals => hlast (h.2 hequals)

theorem Place.alike_of_isOutside (h : place.isOutside = true) (h' : place'.isOutside = true) :
    place.Alike place' := by
  obtain ⟨last, rfl, hlast⟩ := Place.exists_of_isOutside h
  obtain ⟨last', rfl, hlast'⟩ := Place.exists_of_isOutside h'
  exact .inside (iff_of_false hlast hlast')

/-- Whether the byte `target` of a template is in a tag outside quotes, mustaches and values. -/
def isOutsideAt (template : List Char) (target : Nat) : Bool :=
  (placeAt target .between 0 0 template).any Place.isOutside

def mustachesWithin (text : List Char) : List TagMustache :=
  mustachesFrom (.inside none ' ') 0 0 text

/-- A text that can be put between attributes: the reader comes to its last quote and is outside
again. -/
structure StandsAlone (text : List Char) : Prop where
  head : text.head? ≠ some '{'
  ends : placeAt (Text.utf8Length text) (.inside none ' ') 0 0 text = some (.inside none '"')

theorem StandsAlone.ne_nil (h : StandsAlone text) : text ≠ [] := by
  rintro rfl
  cases h.ends

theorem eq_nil_of_utf8Length (h : Text.utf8Length text = 0) : text = [] := by
  by_contra hne
  exact absurd h (Nat.pos_iff_ne_zero.1 (utf8Length_pos hne))

theorem StandsAlone.walks (h : StandsAlone text) :
    Walks [] (.inside none '"') (.inside none ' ') 0 text (mustachesWithin text) := by
  obtain ⟨before, rest, mustaches, htext, hbytes, hwalks⟩ := exists_walk h.ends
  have hlength := congrArg Text.utf8Length htext
  rw [Text.utf8Length_append] at hlength
  obtain rfl := @eq_nil_of_utf8Length rest (by omega)
  have hmustaches := hwalks.mustachesFrom
  rw [← htext] at hmustaches
  rw [List.append_nil] at htext
  subst htext
  rw [mustachesWithin, hmustaches, mustachesFrom.eq_1, List.append_nil]
  exact hwalks

/-- Where such a text is put, the reader meets its mustaches and is outside again. -/
theorem StandsAlone.exists_of_inserted (h : StandsAlone text) {gap : List Char}
    (hgap : gap = [] ∨ gap = [' ']) (hplace : place.isOutside = true) (offset : Nat)
    (rest : List Char) :
    ∃ place' offset', place'.isOutside = true ∧
      ∀ m' ∈ mustachesFrom place offset 0 (gap ++ (text ++ rest)),
        (∃ m ∈ mustachesWithin text, m.Alike m') ∨ m' ∈ mustachesFrom place' offset' 0 rest := by
  obtain ⟨last, rfl, hlast⟩ := Place.exists_of_isOutside hplace
  have hskip : ∃ middle, mustachesFrom (.inside none last) offset 0 (gap ++ (text ++ rest)) =
      mustachesFrom (.inside none last) middle 0 (text ++ rest) := by
    rcases hgap with rfl | rfl
    · exact ⟨offset, rfl⟩
    · exact ⟨_, @mustachesFrom_step _ _ _ _ _ [' '] _ rfl rfl (by simp)⟩
  obtain ⟨middle, hskip⟩ := hskip
  have halike : (Place.inside none ' ').Alike (.inside none last) :=
    Place.alike_of_isOutside rfl hplace
  obtain ⟨place', hplace', hmustaches⟩ := h.walks.exchange (Place.ne_of_isOutside rfl)
    (by rintro ⟨quote, hquote⟩; cases hquote) halike middle
  rw [hskip]
  exact ⟨place', _, hplace'.isOutside rfl, hmustaches⟩

end OpeningTag

theorem Text.exists_of_append_eq {before behind before' behind' : List Char}
    (h : before ++ behind = before' ++ behind') (hle : utf8Length before ≤ utf8Length before') :
    ∃ middle, before' = before ++ middle ∧ behind = middle ++ behind' := by
  rcases List.append_eq_append_iff.1 h with ⟨middle, rfl, rfl⟩ | ⟨middle, rfl, rfl⟩
  · exact ⟨middle, rfl, rfl⟩
  · rw [utf8Length_append] at hle
    have hnil : utf8Length middle = 0 := by omega
    obtain rfl := OpeningTag.eq_nil_of_utf8Length hnil
    exact ⟨[], by simp, rfl⟩

theorem Text.splitAtByte_add (before rest : List Char) (n : Nat) :
    splitAtByte (utf8Length before + n) (before ++ rest) =
      (before ++ (splitAtByte n rest).1, (splitAtByte n rest).2) := by
  induction before with
  | nil => rw [utf8Length, Nat.zero_add, List.nil_append, List.nil_append]
  | cons c before ih =>
    have hpos := c.utf8Size_pos
    obtain ⟨k, hk⟩ : ∃ k, utf8Length (c :: before) + n = k + 1 :=
      Nat.exists_eq_succ_of_ne_zero (by rw [utf8Length]; omega)
    have hrest : k + 1 - c.utf8Size = utf8Length before + n := by
      rw [utf8Length] at hk
      omega
    rw [hk, List.cons_append, splitAtByte, hrest, ih]
    rfl

theorem Text.splitAtByte_utf8Length (before rest : List Char) :
    splitAtByte (utf8Length before) (before ++ rest) = (before, rest) := by
  have hsplit := splitAtByte_add before rest 0
  rw [splitAtByte, List.append_nil] at hsplit
  exact hsplit

namespace Replacement

open OpeningTag

/-- Whether a byte gives way. -/
def Covers (r : Replacement) (offset : Nat) : Prop := r.start ≤ offset ∧ offset < r.stop

theorem start_le_stop (r : Replacement) : r.start ≤ r.stop := Nat.le_add_right _ _

theorem le_start_of_applyAll {rs : List Replacement} {cursor : Nat} {cs out result : List Char}
    (h : applyAll cursor cs out rs = .ok result) : ∀ r ∈ rs, cursor ≤ r.start := by
  induction rs generalizing cursor cs out with
  | nil =>
    intro r hr
    cases hr
  | cons r rs ih =>
    rw [applyAll] at h
    split at h
    · cases h
    · next hplace =>
      rw [not_or, Nat.not_lt] at hplace
      intro r' hr'
      rcases List.mem_cons.1 hr' with rfl | hr'
      · exact hplace.1
      · have hstop := ih h r' hr'
        rw [stop] at hstop
        omega

theorem pairwise_of_applyAll {rs : List Replacement} {cursor : Nat} {cs out result : List Char}
    (h : applyAll cursor cs out rs = .ok result) : rs.Pairwise fun r s => r.stop ≤ s.start := by
  induction rs generalizing cursor cs out with
  | nil => exact .nil
  | cons r rs ih =>
    rw [applyAll] at h
    split at h
    · cases h
    · exact .cons (le_start_of_applyAll h) (ih h)

variable {place p q : OpeningTag.Place} {r : Replacement} {rs : List Replacement} {cursor : Nat}
  {cs out result : List Char}

theorem applyAll_append {before : List Char}
    (h : ∀ r ∈ rs, cursor + Text.utf8Length before ≤ r.start) (rest out : List Char) :
    applyAll cursor (before ++ rest) out rs =
      applyAll (cursor + Text.utf8Length before) rest (before.reverse ++ out) rs := by
  cases rs with
  | nil => rw [applyAll, applyAll, List.reverse_append, List.reverse_reverse, List.append_assoc]
  | cons r rs =>
    have hstart := h r List.mem_cons_self
    have hsplit := Text.splitAtByte_add before rest (r.start - (cursor + Text.utf8Length before))
    have hfrom : Text.utf8Length before + (r.start - (cursor + Text.utf8Length before)) =
        r.start - cursor := by
      omega
    rw [hfrom] at hsplit
    have hfits : (r.start < cursor ∨ cursor + Text.utf8Length (before ++ rest) < r.stop) ↔
        (r.start < cursor + Text.utf8Length before ∨
          cursor + Text.utf8Length before + Text.utf8Length rest < r.stop) := by
      rw [Text.utf8Length_append]
      omega
    rw [applyAll, applyAll, hsplit]
    simp only [hfits, List.reverse_append, List.append_assoc]

/-- A replacement is applied where it is, and the rest of the replacements to what follows it. -/
theorem applyAll_cons {before span : List Char}
    (hbefore : cursor + Text.utf8Length before = r.start)
    (hspan : r.start + Text.utf8Length span = r.stop) (rest out : List Char)
    (rs : List Replacement) :
    applyAll cursor (before ++ (span ++ rest)) out (r :: rs) =
      applyAll r.stop rest (r.text.reverse ++
        (if 0 < r.start ∧ ¬ (before.reverse ++ out).head?.any Text.isBlank = true then
          ' ' :: (before.reverse ++ out) else before.reverse ++ out)) rs := by
  have hlength : r.length = Text.utf8Length span := by
    rw [stop] at hspan
    omega
  have hsplit : r.start - cursor = Text.utf8Length before := by
    omega
  have hfits : ¬ (r.start < cursor ∨
      cursor + Text.utf8Length (before ++ (span ++ rest)) < r.stop) := by
    rw [Text.utf8Length_append, Text.utf8Length_append]
    omega
  rw [applyAll, if_neg hfits, hsplit, Text.splitAtByte_utf8Length]
  dsimp only
  rw [hlength, Text.splitAtByte_utf8Length]

/-- What a replacement leaves between the text before it and its own is a space at most. -/
theorem exists_gap_of_applyAll {before span : List Char}
    (hbefore : cursor + Text.utf8Length before = r.start)
    (hspan : r.start + Text.utf8Length span = r.stop) (out : List Char) :
    ∃ gap, (gap = [] ∨ gap = [' ']) ∧ ∀ rest rs,
      applyAll cursor (before ++ (span ++ rest)) out (r :: rs) =
        applyAll r.stop rest (r.text.reverse ++ (gap ++ (before.reverse ++ out))) rs := by
  by_cases hspace : 0 < r.start ∧ ¬ (before.reverse ++ out).head?.any Text.isBlank = true
  · refine ⟨[' '], .inr rfl, fun rest rs => ?_⟩
    rw [applyAll_cons hbefore hspan, if_pos hspace]
    rfl
  · refine ⟨[], .inl rfl, fun rest rs => ?_⟩
    rw [applyAll_cons hbefore hspan, if_neg hspace]
    rfl

/-- A replacement between two stops of the reader is applied, and the rest of the replacements to
what follows it. -/
theorem exists_of_applyAll_cons (hp : placeAt r.start place cursor 0 cs = some p)
    (hq : placeAt r.stop place cursor 0 cs = some q) (out : List Char)
    (rs : List Replacement) :
    ∃ before span rest gap mustaches replaced,
      cs = before ++ (span ++ rest) ∧ (gap = [] ∨ gap = [' ']) ∧
      cursor + Text.utf8Length before = r.start ∧ r.start + Text.utf8Length span = r.stop ∧
      Walks (span ++ rest) p place cursor before mustaches ∧ Walks rest q p r.start span replaced ∧
      applyAll cursor cs out (r :: rs) =
        applyAll r.stop rest (r.text.reverse ++ (gap ++ (before.reverse ++ out))) rs := by
  obtain ⟨before, behind, mustaches, rfl, hbefore, hwalks⟩ := exists_walk hp
  rw [hwalks.placeAt (by rw [hbefore]; exact r.start_le_stop), hbefore] at hq
  obtain ⟨span, rest, replaced, rfl, hspan, hspans⟩ := exists_walk hq
  obtain ⟨gap, hgap, happly⟩ := exists_gap_of_applyAll hbefore hspan out
  exact ⟨before, span, rest, gap, mustaches, replaced, rfl, hgap, hbefore, hspan, hwalks, hspans,
    happly rest rs⟩

/-- Where the reader stops behind a replaced part, it does not matter where it comes from. -/
theorem placeAt_behind {before span rest : List Char} {mustaches replaced : List TagMustache}
    (hbefore : cursor + Text.utf8Length before = r.start)
    (hspan : r.start + Text.utf8Length span = r.stop)
    (hwalks : Walks (span ++ rest) p place cursor before mustaches)
    (hspans : Walks rest q p r.start span replaced) {target : Nat} (h : r.stop ≤ target) :
    placeAt target place cursor 0 (before ++ (span ++ rest)) =
      placeAt target q r.stop 0 rest := by
  rw [hwalks.placeAt (by rw [hbefore]; exact Nat.le_trans r.start_le_stop h), hbefore,
    hspans.placeAt (by rw [hspan]; exact h), hspan]

/-- What replacements in tags leave behind: a mustache of the result is one that was not replaced,
or comes with the text of a replacement. -/
theorem exists_of_applyAll (h : applyAll cursor cs out rs = .ok result)
    (hstart : ∀ r ∈ rs, (placeAt r.start place cursor 0 cs).any OpeningTag.Place.isOutside = true)
    (hstop : ∀ r ∈ rs, (placeAt r.stop place cursor 0 cs).any OpeningTag.Place.isOutside = true)
    (htexts : ∀ r ∈ rs, StandsAlone r.text) :
    ∃ tail, result = out.reverse ++ tail ∧ ∀ place', place.Alike place' → ∀ offset',
      ∀ m' ∈ mustachesFrom place' offset' 0 tail,
        (∃ m ∈ mustachesFrom place cursor 0 cs, m.Alike m' ∧ ∀ r ∈ rs, ¬ r.Covers m.start) ∨
          ∃ r ∈ rs, ∃ m ∈ mustachesWithin r.text, m.Alike m' := by
  induction rs generalizing cursor cs out place with
  | nil =>
    cases h
    refine ⟨cs, rfl, fun place' halike offset' m' hm => .inl ?_⟩
    obtain ⟨m, hm, hsame⟩ := exists_of_alike halike cursor hm
    exact ⟨m, hm, hsame, fun r hr => absurd hr List.not_mem_nil⟩
  | cons r rs ih =>
    obtain ⟨hfirst, hstart⟩ := List.forall_mem_cons.1 hstart
    obtain ⟨hlast, hstop⟩ := List.forall_mem_cons.1 hstop
    obtain ⟨htext, htexts⟩ := List.forall_mem_cons.1 htexts
    obtain ⟨p, hp, hpOutside⟩ := (Option.any_eq_true _ _).1 hfirst
    obtain ⟨q, hq, hqOutside⟩ := (Option.any_eq_true _ _).1 hlast
    obtain ⟨before, span, rest, gap, mustaches, replaced, rfl, hgap, hbefore, hspan, hwalks, hspans,
      happly⟩ := exists_of_applyAll_cons hp hq out rs
    rw [happly] at h
    have hlater := le_start_of_applyAll h
    have hbehind : ∀ {target}, r.stop ≤ target →
        placeAt target place cursor 0 (before ++ (span ++ rest)) =
          placeAt target q r.stop 0 rest := placeAt_behind hbefore hspan hwalks hspans
    have hstart' : ∀ r' ∈ rs,
        (placeAt r'.start q r.stop 0 rest).any OpeningTag.Place.isOutside = true := by
      intro r' hr'
      rw [← hbehind (hlater r' hr')]
      exact hstart r' hr'
    have hstop' : ∀ r' ∈ rs,
        (placeAt r'.stop q r.stop 0 rest).any OpeningTag.Place.isOutside = true := by
      intro r' hr'
      rw [← hbehind (Nat.le_trans (hlater r' hr') r'.start_le_stop)]
      exact hstop r' hr'
    obtain ⟨tail, rfl, htail⟩ := ih h hstart' hstop' htexts
    refine ⟨before ++ (gap ++ (r.text ++ tail)), ?_, fun place' halike offset' m' hm => ?_⟩
    · rcases hgap with rfl | rfl <;> simp
    · have hhead : (gap ++ (r.text ++ tail)).head? ≠ some '{' := by
        rcases hgap with rfl | rfl
        · rw [List.nil_append, List.head?_append_of_ne_nil _ htext.ne_nil]
          exact htext.head
        · simp
      obtain ⟨p', hp', hmustaches⟩ :=
        hwalks.exchange (OpeningTag.Place.ne_of_isOutside hpOutside) (fun _ => hhead) halike offset'
      rcases hmustaches m' hm with ⟨m, hm, hsame⟩ | hm
      -- The mustache stands before the replaced part.
      · have hlt := hwalks.start_lt m hm
        refine .inl ⟨m, ?_, hsame, fun r' hr' hcovers => ?_⟩
        · rw [hwalks.mustachesFrom]
          exact List.mem_append_left _ hm
        · have hle : r.start ≤ r'.start := by
            rcases List.mem_cons.1 hr' with rfl | hr'
            · exact Nat.le_refl _
            · exact Nat.le_trans r.start_le_stop (hlater r' hr')
          have := hcovers.1
          omega
      · obtain ⟨q', offset'', hq', hmustaches⟩ :=
          htext.exists_of_inserted hgap (hp'.isOutside hpOutside) _ tail
        rcases hmustaches m' hm with ⟨m, hm, hsame⟩ | hm
        -- It comes with the text.
        · exact .inr ⟨r, List.mem_cons_self, m, hm, hsame⟩
        -- It stands behind the replaced part.
        · rcases htail q' (OpeningTag.Place.alike_of_isOutside hqOutside hq') offset'' m' hm with
            ⟨m, hm, hsame, hkept⟩ | ⟨r', hr', hinserted⟩
          · have hle := le_of_mem_mustachesFrom hm
            refine .inl ⟨m, ?_, hsame, fun r' hr' hcovers => ?_⟩
            · rw [hwalks.mustachesFrom, hbefore, hspans.mustachesFrom, hspan]
              exact List.mem_append_right _ (List.mem_append_right _ hm)
            · rcases List.mem_cons.1 hr' with rfl | hr'
              · have := hcovers.2
                omega
              · exact hkept r' hr' hcovers
          · exact .inr ⟨r', List.mem_cons_of_mem r hr', hinserted⟩

/-- Replacements one behind the other are applied. -/
theorem exists_applyAll
    (hstart : ∀ r ∈ rs, (placeAt r.start place cursor 0 cs).any OpeningTag.Place.isOutside = true)
    (hstop : ∀ r ∈ rs, (placeAt r.stop place cursor 0 cs).any OpeningTag.Place.isOutside = true)
    (hsorted : rs.Pairwise fun r s => r.stop ≤ s.start) (out : List Char) :
    ∃ result, applyAll cursor cs out rs = .ok result := by
  induction rs generalizing cursor cs out place with
  | nil => exact ⟨_, rfl⟩
  | cons r rs ih =>
    obtain ⟨hfirst, hstart⟩ := List.forall_mem_cons.1 hstart
    obtain ⟨hlast, hstop⟩ := List.forall_mem_cons.1 hstop
    obtain ⟨hlater, hsorted⟩ := List.pairwise_cons.1 hsorted
    obtain ⟨p, hp, -⟩ := (Option.any_eq_true _ _).1 hfirst
    obtain ⟨q, hq, -⟩ := (Option.any_eq_true _ _).1 hlast
    obtain ⟨before, span, rest, gap, mustaches, replaced, rfl, -, hbefore, hspan, hwalks, hspans,
      happly⟩ := exists_of_applyAll_cons hp hq out rs
    have hbehind : ∀ {target}, r.stop ≤ target →
        placeAt target place cursor 0 (before ++ (span ++ rest)) =
          placeAt target q r.stop 0 rest := placeAt_behind hbefore hspan hwalks hspans
    rw [happly]
    exact ih (fun r' hr' => by rw [← hbehind (hlater r' hr')]; exact hstart r' hr')
      (fun r' hr' => by
        rw [← hbehind (Nat.le_trans (hlater r' hr') r'.start_le_stop)]
        exact hstop r' hr')
      hsorted _

/-! ### The order of positions -/

theorem start_trans (r s t : Replacement) (hrs : decide (r.start ≤ s.start) = true)
    (hst : decide (s.start ≤ t.start) = true) : decide (r.start ≤ t.start) = true :=
  decide_eq_true (Nat.le_trans (of_decide_eq_true hrs) (of_decide_eq_true hst))

theorem start_total (r s : Replacement) :
    (decide (r.start ≤ s.start) || decide (s.start ≤ r.start)) = true := by
  simp [Nat.le_total]

theorem pairwise_start (rs : List Replacement) :
    (rs.mergeSort fun r s => r.start ≤ s.start).Pairwise fun r s => r.start ≤ s.start :=
  (List.pairwise_mergeSort start_trans start_total rs).imp of_decide_eq_true

end Replacement

open OpeningTag Replacement

variable {template result : List Char} {rs : List Replacement}

/-- The mustaches of the tags of a template after parts of tags have given way to texts: those that
were not replaced, and those of the texts. -/
theorem exists_of_splice (h : splice template rs = .ok result)
    (hstart : ∀ r ∈ rs, isOutsideAt template r.start = true)
    (hstop : ∀ r ∈ rs, isOutsideAt template r.stop = true)
    (htexts : ∀ r ∈ rs, StandsAlone r.text) :
    ∀ m' ∈ mustachesOf (all result),
      (∃ m ∈ mustachesOf (all template), m.Alike m' ∧ ∀ r ∈ rs, ¬ r.Covers m.start) ∨
        ∃ r ∈ rs, ∃ m ∈ mustachesWithin r.text, m.Alike m' := by
  intro m' hm
  have hmem : ∀ {r}, r ∈ rs.mergeSort (fun r s => r.start ≤ s.start) ↔ r ∈ rs :=
    List.mem_mergeSort
  obtain ⟨tail, rfl, htail⟩ := @exists_of_applyAll .between _ _ _ _ _ h
    (fun r hr => hstart r (hmem.1 hr)) (fun r hr => hstop r (hmem.1 hr))
    (fun r hr => htexts r (hmem.1 hr))
  rw [mustachesOf_all] at hm
  rw [mustachesOf_all]
  rcases htail .between (.refl _) 0 m' hm with ⟨m, hm, hsame, hkept⟩ | ⟨r, hr, hinserted⟩
  · exact .inl ⟨m, hm, hsame, fun r hr => hkept r (hmem.2 hr)⟩
  · exact .inr ⟨r, hmem.1 hr, hinserted⟩

theorem pairwise_mergeSort (hlength : ∀ r ∈ rs, 0 < r.length)
    (hdisjoint : rs.Pairwise fun r s => r.stop ≤ s.start ∨ s.stop ≤ r.start) :
    (rs.mergeSort fun r s => r.start ≤ s.start).Pairwise fun r s => r.stop ≤ s.start := by
  have hordered := pairwise_start rs
  have hapart := (List.Perm.pairwise_iff Or.symm
    (List.mergeSort_perm rs fun r s => r.start ≤ s.start)).2 hdisjoint
  refine (hordered.and hapart).imp_of_mem fun {r s} hr hs h => ?_
  obtain ⟨hle, hbehind | hfront⟩ := h
  · exact hbehind
  · have hpos := hlength s (List.mem_mergeSort.1 hs)
    rw [Replacement.stop] at hfront
    omega

theorem exists_splice (hstart : ∀ r ∈ rs, isOutsideAt template r.start = true)
    (hstop : ∀ r ∈ rs, isOutsideAt template r.stop = true)
    (hdisjoint : rs.Pairwise fun r s => r.stop ≤ s.start ∨ s.stop ≤ r.start)
    (hlength : ∀ r ∈ rs, 0 < r.length) : ∃ result, splice template rs = .ok result := by
  have hmem : ∀ {r}, r ∈ rs.mergeSort (fun r s => r.start ≤ s.start) ↔ r ∈ rs :=
    List.mem_mergeSort
  exact @exists_applyAll .between _ _ _ (fun r hr => hstart r (hmem.1 hr))
    (fun r hr => hstop r (hmem.1 hr)) (pairwise_mergeSort hlength hdisjoint) []

end MustacheJsx
