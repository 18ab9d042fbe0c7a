import MustacheJsx.Proofs.Mustache.Tidying
import MustacheJsx.Proofs.Opening.Span

/-!
# Tags whose blanks differ

Between the tokens of a tag one run of blanks is as good as another. Two texts that differ in such
runs and in blanks at their ends are read alike, but for the two places where a single character
decides how a tag begins: the mark of a comment stands before all blanks, and a chain goes on with
`else` and a space. `Tag.read_respaced` says so.
-/

namespace MustacheJsx

namespace Echoes

variable {α : Type}

theorem refl (reader : ReadM α) : Echoes id reader reader := by
  intro first
  cases hverdict : verdict reader first with
  | mk result last => cases result <;> rfl

theorem of_common {reader reader' common : ReadM α} (h : Echoes id reader common)
    (h' : Echoes id reader' common) : Echoes id reader reader' := by
  intro first
  rw [← h first, h' first]
  exact refl reader' first

theorem verdict_eq {reader reader' : ReadM α} (h : Echoes id reader reader') (first : Nat) :
    verdict reader' first = verdict reader first := by
  rw [h first]
  exact (refl reader first).symm

end Echoes

namespace Expression

/-! ### Texts that differ in blanks -/

/-- Texts that differ only in runs of blanks outside strings and brackets, with a run of one for
each run of the other. -/
inductive Respaced : Spot → List Char → List Char → Prop
  | nil (spot : Spot) : Respaced spot [] []
  | char {spot : Spot} (c : Char) {cs cs' : List Char} (rest : Respaced (spot.after c) cs cs') :
      Respaced spot (c :: cs) (c :: cs')
  | blanks {spot : Spot} {run run' cs cs' : List Char} (outside : spot.isInside = false)
      (ne : run ≠ []) (ne' : run' ≠ []) (blank : ∀ c ∈ run, Text.isBlank c = true)
      (blank' : ∀ c ∈ run', Text.isBlank c = true) (rest : Respaced .between cs cs') :
      Respaced spot (run ++ cs) (run' ++ cs')

theorem tidy_run {spot : Spot} {run : List Char} (hspot : spot.isInside = false) (hne : run ≠ [])
    (hrun : ∀ c ∈ run, Text.isBlank c = true) (cs : List Char) :
    tidy spot (run ++ cs) = ' ' :: Text.trimStart (tidy .between cs) := by
  obtain ⟨c, more, rfl⟩ := List.exists_cons_of_ne_nil hne
  obtain ⟨hc, hmore⟩ := List.forall_mem_cons.1 hrun
  rw [List.cons_append, tidy_blank hspot hc, trimStart_tidy, Text.trimStart,
    List.dropWhile_append_of_pos hmore, Text.trimStart]

theorem Respaced.tidy_eq {spot : Spot} {cs cs' : List Char} (h : Respaced spot cs cs') :
    tidy spot cs = tidy spot cs' := by
  induction h with
  | nil spot => rfl
  | @char spot c cs cs' _ ih =>
    by_cases hblank : spot.isInside = false ∧ Text.isBlank c = true
    · have hafter : spot.after c = .between := by
        have hbetween := Spot.after_blank hblank.2
        have htoken : Spot.token.after c = .between := by
          rw [← hbetween, Spot.after, Spot.after, if_neg]
          rintro (rfl | rfl)
          · exact absurd hblank.2 (by decide)
          · exact absurd hblank.2 (by decide)
        cases spot <;> first | exact hbetween | exact htoken | cases hblank.1
      have hrun : ∀ d ∈ [c], Text.isBlank d = true := by simp [hblank.2]
      have hsplit := fun ds => tidy_run hblank.1 (List.cons_ne_nil c []) hrun ds
      rw [hafter] at ih
      rw [← List.singleton_append, hsplit, ih, ← hsplit, List.singleton_append]
    · rw [tidy_cons, tidy_cons, if_neg hblank, if_neg hblank, ih]
  | blanks outside ne ne' blank blank' _ ih =>
    rw [tidy_run outside ne blank, tidy_run outside ne' blank', ih]

theorem tidy_word {word : List Char} (hword : ∀ c ∈ word, Text.isBlank c = false) (spot : Spot)
    (cs : List Char) :
    tidy spot (word ++ cs) = word ++ tidy (word.foldl (fun spot c => spot.after c) spot) cs := by
  induction word generalizing spot with
  | nil => rfl
  | cons c word ih =>
    obtain ⟨hc, hmore⟩ := List.forall_mem_cons.1 hword
    rw [List.cons_append, tidy_char hc, ih hmore]
    rfl

theorem exists_of_tidy_word {word : List Char} (hword : ∀ c ∈ word, Text.isBlank c = false)
    {spot : Spot} {cs ds : List Char} (h : tidy spot cs = word ++ ds) :
    ∃ more, cs = word ++ more ∧ tidy (word.foldl (fun spot c => spot.after c) spot) more = ds := by
  induction word generalizing spot cs with
  | nil => exact ⟨cs, rfl, h⟩
  | cons c word ih =>
    obtain ⟨hc, hmore⟩ := List.forall_mem_cons.1 hword
    obtain ⟨more, rfl, htail⟩ := exists_of_tidy hc h
    obtain ⟨rest, rfl, hrest⟩ := ih hmore htail
    exact ⟨rest, rfl, hrest⟩

theorem eq_nil_of_tidy {spot : Spot} {cs : List Char} (h : tidy spot cs = []) :
    cs = [] := by
  cases cs with
  | nil => rfl
  | cons c cs =>
    by_cases hblank : spot.isInside = false ∧ Text.isBlank c = true
    · rw [tidy_blank hblank.1 hblank.2] at h
      cases h
    · rw [tidy_cons, if_neg hblank] at h
      cases h

/-- Texts that are the same when they are tidied, but for blanks at the start. -/
def Alike (cs cs' : List Char) : Prop :=
  tidy .between (Text.trimStart cs) = tidy .between (Text.trimStart cs')

theorem Alike.of_tidy {cs cs' : List Char} (h : tidy .between cs = tidy .between cs') :
    Alike cs cs' := by
  rw [Alike, ← trimStart_tidy, h, trimStart_tidy]

theorem run_readCall_trimStart (cs : List Char) (first : Nat) :
    (readCall cs).run first = (readCall (Text.trimStart cs)).run first := by
  have hlength := Text.length_trimStart_le cs
  have henough : (Text.trimStart cs).length < cs.length + 1 := Nat.lt_succ_of_le hlength
  rw [run_readCall (Nat.lt_succ_self _), run_readCall henough, readCallWith, readCallWith,
    Text.trimStart_trimStart]

theorem Alike.readCall {cs cs' : List Char} (h : Alike cs cs') :
    Echoes id (readCall cs) (readCall cs') := by
  have htidied : ∀ ds, Echoes id (Expression.readCall ds)
      (Expression.readCall (tidy .between (Text.trimStart ds))) := fun ds =>
    (readCall_tidy (Text.trimStart ds)).of_run (run_readCall_trimStart ds) fun _ => rfl
  have htidied' := htidied cs'
  rw [← h] at htidied'
  exact (htidied cs).of_common htidied'

end Expression

namespace Tag

open Expression

/-! ### Values, blocks and partials -/

variable {cs cs' : List Char}

theorem readMustache_alike (h : Alike cs cs') (trusting : Bool) :
    Echoes id (readMustache trusting cs) (readMustache trusting cs') :=
  h.readCall.bind fun _ => .refl _

theorem readBlockHead_alike (h : Alike cs cs') :
    Echoes id (readBlockHead cs) (readBlockHead cs') :=
  h.readCall.bind fun _ => .refl _

theorem readPartialName_of_bare {c : Char} {rest : List Char}
    (hcs : Text.trimStart cs = c :: rest) (hc : c ∉ ['(', '"', '\'']) :
    readPartialName cs =
      pure (String.ofList (takeToken false (c :: rest)).1, (takeToken false (c :: rest)).2) := by
  rw [readPartialName.eq_def, hcs]
  split
  · next heq => exact absurd (by simp [(List.cons.inj heq).1]) hc
  · next heq => exact absurd (by simp [(List.cons.inj heq).1]) hc
  · next heq => exact absurd (by simp [(List.cons.inj heq).1]) hc
  · rfl

theorem readPartialName_tidy (cs : List Char) :
    Echoes tidyRest (readPartialName cs)
      (readPartialName (tidy .between (Text.trimStart cs))) := by
  have htrim : Text.trimStart (tidy .between (Text.trimStart cs)) =
      tidy .between (Text.trimStart cs) := by
    rw [trimStart_tidy, Text.trimStart_trimStart]
  rcases Text.trimStart_cases cs with hcs | ⟨c, rest, hc, hcs⟩
  · rw [readPartialName.eq_def, readPartialName.eq_def, htrim, hcs]
    exact .pure _
  · by_cases hbare : c ∉ ['(', '"', '\'']
    · have hquote : ∀ d ∈ (c :: rest).head?, d ≠ '"' ∧ d ≠ '\'' := by
        rintro d ⟨⟩
        simpa using (not_or.1 (mt List.mem_cons.2 hbare)).2
      have htoken := takeToken_tidy false (c :: rest)
      rw [Spot.ofBracket, if_neg Bool.false_ne_true, tidy_token hquote] at htoken
      have htrim' := htrim
      rw [hcs, tidy_char hc] at htrim'
      rw [readPartialName_of_bare hcs hbare, hcs, tidy_char hc,
        readPartialName_of_bare htrim' hbare, ← tidy_char hc, htoken]
      exact .pure _
    · rw [readPartialName.eq_def, readPartialName.eq_def, htrim, hcs, tidy_char hc]
      simp only [List.mem_cons, List.not_mem_nil, or_false, not_not] at hbare
      rcases hbare with rfl | rfl | rfl
      · exact .halt _ _ _
      · exact readString_tidy (.inl rfl) rest
      · exact readString_tidy (.inr rfl) rest

theorem readPartial_alike (h : Alike cs cs') : Echoes id (readPartial cs) (readPartial cs') := by
  have htidied : ∀ ds, Echoes id (readPartial ds)
      (readPartial (tidy .between (Text.trimStart ds))) := by
    intro ds
    refine (readPartialName_tidy ds).bind ?_
    rintro ⟨name, rest⟩
    dsimp only [tidyRest]
    split
    · exact .halt _ _ _
    · refine (readArguments_tidy false rest).bind_of_yields (readArguments_stops _ false rest) ?_
      rintro ⟨params, hash, rest'⟩ hstop
      dsimp only [tidyArguments]
      cases rest' with
      | nil => exact .pure _
      | cons c more =>
        rw [tidy_char (hstop c rfl)]
        exact .halt _ _ _
  have htidied' := htidied cs'
  rw [← h] at htidied'
  exact (htidied cs).of_common htidied'

/-! ### Tags -/

/-- The characters that tell the kind of a tag whose expression begins behind them. -/
def marks : List Char := ['#', '>', '^', '&']

/-- The mark of a tag, and what is behind it. Trusting tags have none. -/
def splitMark (trusting : Bool) : List Char → Option Char × List Char
  | [] => (none, [])
  | c :: cs => if trusting = false ∧ c ∈ marks then (some c, cs) else (none, c :: cs)

/-- Contents of tags that differ only in blanks at their ends, and in runs of blanks outside strings
and brackets. -/
def Respaced (trusting : Bool) (content content' : List Char) : Prop :=
  (splitMark trusting (Text.trim content)).1 = (splitMark trusting (Text.trim content')).1 ∧
    Expression.Respaced .between (splitMark trusting (Text.trim content)).2
      (splitMark trusting (Text.trim content')).2

def opensChain (content : List Char) : Bool :=
  (Text.afterLead? "else ".toList (Text.trim content)).isSome

theorem exists_of_splitMark {cs rest : List Char} {c : Char}
    (h : splitMark false cs = (some c, rest)) : c ∈ marks ∧ cs = c :: rest := by
  cases cs with
  | nil => cases h
  | cons d cs =>
    rw [splitMark] at h
    split at h
    · next hmark =>
      cases h
      exact ⟨hmark.2, rfl⟩
    · cases h

theorem splitMark_trusting (cs : List Char) : splitMark true cs = (none, cs) := by
  cases cs with
  | nil => rfl
  | cons c cs =>
    have hnot : ¬ (true = false ∧ c ∈ marks) := fun hmark => Bool.noConfusion hmark.1
    rw [splitMark, if_neg hnot]

theorem eq_of_splitMark {trusting : Bool} {cs rest : List Char}
    (h : splitMark trusting cs = (none, rest)) :
    cs = rest ∧ (trusting = false → ∀ c ∈ cs.head?, c ∉ marks) := by
  cases cs with
  | nil =>
    cases h
    exact ⟨rfl, fun _ => nofun⟩
  | cons d cs =>
    rw [splitMark] at h
    split at h
    · cases h
    · next hmark =>
      cases h
      refine ⟨rfl, fun htrusting => ?_⟩
      rintro c ⟨⟩ hc
      exact hmark ⟨htrusting, hc⟩

theorem readTrimmed_block_alike (h : tidy .between cs = tidy .between cs') :
    Echoes id (readTrimmed ('#' :: cs)) (readTrimmed ('#' :: cs')) := by
  have hhead : ∀ {ds ds' : List Char} {c : Char}, tidy .between ds = tidy .between ds' →
      Text.isBlank c = false → ∀ rest, ds = c :: rest → ∃ rest', ds' = c :: rest' := by
    rintro ds ds' c hsame hc rest rfl
    rw [tidy_char hc] at hsame
    obtain ⟨rest', hrest', -⟩ := exists_of_tidy hc hsame.symm
    exact ⟨rest', hrest'⟩
  by_cases hpartial : ∃ c rest, (c = '>' ∨ c = '*') ∧ cs = c :: rest
  · obtain ⟨c, rest, hc, rfl⟩ := hpartial
    have hblank : Text.isBlank c = false := by
      rcases hc with rfl | rfl <;> decide
    obtain ⟨rest', rfl⟩ := hhead h hblank rest rfl
    rcases hc with rfl | rfl <;> exact .halt _ _ _
  · have hblock : ∀ ds, (¬∃ c rest, (c = '>' ∨ c = '*') ∧ ds = c :: rest) →
        readTrimmed ('#' :: ds) = do return .openBlock (← readBlockHead ds) := by
      intro ds hds
      rw [readTrimmed]
      · rintro rest rfl
        exact hds ⟨'>', rest, .inl rfl, rfl⟩
      · rintro rest rfl
        exact hds ⟨'*', rest, .inr rfl, rfl⟩
    have hpartial' : ¬∃ c rest, (c = '>' ∨ c = '*') ∧ cs' = c :: rest := by
      rintro ⟨c, rest, hc, hcs'⟩
      have hblank : Text.isBlank c = false := by
        rcases hc with rfl | rfl <;> decide
      obtain ⟨rest', hcs⟩ := hhead h.symm hblank rest hcs'
      exact hpartial ⟨c, rest', hc, hcs⟩
    rw [hblock cs hpartial, hblock cs' hpartial']
    exact (readBlockHead_alike (.of_tidy h)).bind fun _ => .refl _

theorem isEmpty_trim (cs : List Char) :
    (Text.trim cs).isEmpty = (Text.trimStart cs).isEmpty := by
  rcases Text.trimStart_cases cs with hcs | ⟨c, rest, hc, hcs⟩
  · rw [Text.trim, hcs]
    rfl
  · have hword : ∀ d ∈ [c], Text.isBlank d = false := by simp [hc]
    rw [Text.trim, hcs, ← List.singleton_append, Text.trimEnd_append_word hword]
    rfl

theorem isEmpty_trim_alike (h : Alike cs cs') :
    (Text.trim cs).isEmpty = (Text.trim cs').isEmpty := by
  rw [isEmpty_trim, isEmpty_trim, Bool.eq_iff_iff, List.isEmpty_iff, List.isEmpty_iff]
  constructor
  · intro hnil
    rw [Alike, hnil] at h
    exact eq_nil_of_tidy h.symm
  · intro hnil
    rw [Alike, hnil] at h
    exact eq_nil_of_tidy h

theorem readTrimmed_of_unmarked {c : Char} (hmark : c ∉ '/' :: marks) (cs : List Char) :
    readTrimmed (c :: cs) =
      if c :: cs = "else".toList then pure (.elseBranch none)
      else
        match Text.afterLead? "else ".toList (c :: cs) with
        | some rest => do return .elseBranch (some (← readBlockHead rest))
        | none => readMustache false (c :: cs) := by
  simp only [marks, List.mem_cons, List.not_mem_nil, or_false, not_or] at hmark
  rw [readTrimmed.eq_def]
  split
  · next heq => cases heq
  · next heq => exact absurd (List.cons.inj heq).1 hmark.2.1
  · next heq => exact absurd (List.cons.inj heq).1 hmark.1
  · next heq => exact absurd (List.cons.inj heq).1 hmark.2.2.1
  · next heq => exact absurd (List.cons.inj heq).1 hmark.2.2.2.1
  · next heq => exact absurd (List.cons.inj heq).1 hmark.2.2.2.2
  · rfl

theorem eq_else_of_tidy (h : tidy .between cs = tidy .between cs') (hcs : cs = "else".toList) :
    cs' = "else".toList := by
  have hword : ∀ c ∈ "else".toList, Text.isBlank c = false := by decide
  have helse : tidy .between cs' = "else".toList ++ [] := by
    rw [← h, hcs]
    rfl
  obtain ⟨more, rfl, hmore⟩ := exists_of_tidy_word hword helse
  rw [eq_nil_of_tidy hmore, List.append_nil]

theorem alike_of_else {rest rest' : List Char}
    (h : tidy .between ("else ".toList ++ rest) = tidy .between ("else ".toList ++ rest')) :
    Alike rest rest' := by
  have hword : ∀ c ∈ "else".toList, Text.isBlank c = false := by decide
  have hspace : Text.isBlank ' ' = true := by decide
  have hsplit : ∀ ds, tidy .between ("else ".toList ++ ds) =
      "else".toList ++ ' ' :: tidy .between (Text.trimStart ds) := by
    intro ds
    have hlead : "else ".toList ++ ds = "else".toList ++ ' ' :: ds := rfl
    have hspot : "else".toList.foldl (fun spot c => spot.after c) Spot.between = .token := rfl
    rw [hlead, tidy_word hword, hspot, tidy_blank rfl hspace]
  rw [hsplit, hsplit] at h
  exact (List.cons.inj (List.append_cancel_left h)).2

theorem readTrimmed_unmarked_alike {c : Char} (hmark : c ∉ '/' :: marks)
    (h : tidy .between (c :: cs) = tidy .between (c :: cs'))
    (hchain : (Text.afterLead? "else ".toList (c :: cs)).isSome =
      (Text.afterLead? "else ".toList (c :: cs')).isSome) :
    Echoes id (readTrimmed (c :: cs)) (readTrimmed (c :: cs')) := by
  rw [readTrimmed_of_unmarked hmark, readTrimmed_of_unmarked hmark]
  by_cases helse : c :: cs = "else".toList
  · rw [if_pos helse, if_pos (eq_else_of_tidy h helse)]
    exact .refl _
  · rw [if_neg helse, if_neg fun helse' => helse (eq_else_of_tidy h.symm helse')]
    cases hlead : Text.afterLead? "else ".toList (c :: cs) with
    | none =>
      rw [hlead, Option.isSome_none, eq_comm, Option.isSome_eq_false_iff, Option.isNone_iff_eq_none]
        at hchain
      rw [hchain]
      exact readMustache_alike (.of_tidy h) false
    | some rest =>
      rw [hlead, Option.isSome_some, eq_comm, Option.isSome_iff_exists] at hchain
      obtain ⟨rest', hlead'⟩ := hchain
      rw [Text.afterLead?_eq_some_iff.1 hlead, Text.afterLead?_eq_some_iff.1 hlead'] at h
      rw [hlead']
      exact (readBlockHead_alike (alike_of_else h)).bind fun _ => .refl _

/-! ### Contents -/

/-- A content reads alike as another one if neither is a comment and both or none of them is the
beginning of a chain. -/
def StartsAlike (trusting : Bool) (content content' : List Char) : Prop :=
  content'.head? ≠ some '!' ∧ (trusting = true ∨ opensChain content = opensChain content')

def readerOf (trusting : Bool) (trimmed : List Char) : ReadM Tag :=
  if trusting then readMustache true trimmed else readTrimmed trimmed

theorem readTrimmed_inverted (cs : List Char) :
    readTrimmed ('^' :: cs) =
      if (Text.trim cs).isEmpty then pure (.elseBranch none)
      else halt .invertedSection ('^' :: cs) := by
  rw [readTrimmed]

theorem readTrimmed_marked_alike {c : Char} (hmark : c ∈ marks)
    (h : tidy .between cs = tidy .between cs') :
    Echoes id (readTrimmed (c :: cs)) (readTrimmed (c :: cs')) := by
  have halike := Alike.of_tidy h
  simp only [marks, List.mem_cons, List.not_mem_nil, or_false] at hmark
  rcases hmark with rfl | rfl | rfl | rfl
  · exact readTrimmed_block_alike h
  · exact readPartial_alike halike
  · rw [readTrimmed_inverted, readTrimmed_inverted, isEmpty_trim_alike halike]
    split
    · exact .refl _
    · exact .halt _ _ _
  · exact readMustache_alike halike true

theorem readTrimmed_alike (hclose : cs.head? ≠ some '/')
    (hhead : ∀ c ∈ cs.head?, Text.isBlank c = false)
    (hmark : (splitMark false cs).1 = (splitMark false cs').1)
    (htidy : tidy .between (splitMark false cs).2 = tidy .between (splitMark false cs').2)
    (hchain : (Text.afterLead? "else ".toList cs).isSome =
      (Text.afterLead? "else ".toList cs').isSome) :
    Echoes id (readTrimmed cs) (readTrimmed cs') := by
  cases hsplit : splitMark false cs with
  | mk mark rest =>
    cases hsplit' : splitMark false cs' with
    | mk mark' rest' =>
      rw [hsplit, hsplit'] at hmark htidy
      dsimp only at hmark htidy
      subst hmark
      cases mark with
      | some c =>
        obtain ⟨hc, rfl⟩ := exists_of_splitMark hsplit
        obtain ⟨-, rfl⟩ := exists_of_splitMark hsplit'
        exact readTrimmed_marked_alike hc htidy
      | none =>
        obtain ⟨rfl, hunmarked⟩ := eq_of_splitMark hsplit
        obtain ⟨rfl, -⟩ := eq_of_splitMark hsplit'
        cases cs with
        | nil =>
          obtain rfl := eq_nil_of_tidy htidy.symm
          exact .refl _
        | cons c cs =>
          have hstart := htidy
          rw [tidy_char (hhead c rfl)] at hstart
          obtain ⟨more, rfl, -⟩ := exists_of_tidy (hhead c rfl) hstart.symm
          refine readTrimmed_unmarked_alike (fun hmem => ?_) htidy hchain
          rcases List.mem_cons.1 hmem with rfl | hmem
          · exact hclose rfl
          · exact hunmarked rfl c rfl hmem

theorem readerOf_respaced {trusting : Bool} {content content' : List Char}
    (hclose : trusting = false → (Text.trim content).head? ≠ some '/')
    (h : Respaced trusting content content')
    (hchain : trusting = true ∨ opensChain content = opensChain content') :
    Echoes id (readerOf trusting (Text.trim content)) (readerOf trusting (Text.trim content')) := by
  have htidy := h.2.tidy_eq
  cases trusting with
  | true =>
    rw [splitMark_trusting, splitMark_trusting] at htidy
    exact readMustache_alike (.of_tidy htidy) true
  | false =>
    exact readTrimmed_alike (hclose rfl) (Text.head?_trim content) h.1 htidy
      (hchain.resolve_left Bool.false_ne_true)

def unplaced (read : Except CompileError Tag × Nat) : Except CompileError Tag × Nat :=
  (read.1.mapError fun e =>
    match e with
    | .parse fault _ => .parse fault 0
    | _ => e, read.2)

theorem unplaced_read {content : List Char} (h : content.head? ≠ some '!') (trusting : Bool)
    (offset next : Nat) :
    unplaced (Tag.read content trusting offset next) =
      ((verdict (readerOf trusting (Text.trim content)) next).1.mapError fun fault =>
          .parse fault 0,
        (verdict (readerOf trusting (Text.trim content)) next).2) := by
  rw [Tag.read.eq_def]
  split
  · exact absurd rfl h
  · dsimp only
    rw [verdict, readerOf]
    cases (if trusting = true then readMustache true (Text.trim content)
      else readTrimmed (Text.trim content)).run next with
    | mk result last => cases result <;> rfl

theorem readTrimmed_of_chain {rest : List Char}
    (h : Text.afterLead? "else ".toList cs = some rest) :
    readTrimmed cs = do return .elseBranch (some (← readBlockHead rest)) := by
  have hcs := Text.afterLead?_eq_some_iff.1 h
  have hlead : "else ".toList ++ rest = 'e' :: ("lse ".toList ++ rest) := rfl
  rw [hcs, hlead] at h ⊢
  rw [readTrimmed_of_unmarked (by decide), if_neg (by simp), h]

/-- What a content without blanks at its ends is read as, by how it begins. -/
inductive TrimmedRead (first last : Nat) : List Char → Tag → Prop
  | block {rest : List Char} {head : BlockHead}
      (read : outcome (readBlockHead rest) first = some (head, last)) :
      TrimmedRead first last ('#' :: rest) (.openBlock head)
  | close (rest : List Char) (name : String) :
      TrimmedRead first last ('/' :: rest) (.closeBlock name)
  | partialCall {rest : List Char} {call : PartialCall}
      (read : outcome (readPartial rest) first = some (.partialCall call, last)) :
      TrimmedRead first last ('>' :: rest) (.partialCall call)
  | inverse (cs : List Char) : TrimmedRead first last cs (.elseBranch none)
  | trusting {rest : List Char} {call : Mustache}
      (read : outcome (readMustache true rest) first = some (.expression call, last)) :
      TrimmedRead first last ('&' :: rest) (.expression call)
  | chain {rest : List Char} {head : BlockHead}
      (read : outcome (readBlockHead rest) first = some (head, last)) :
      TrimmedRead first last ("else ".toList ++ rest) (.elseBranch (some head))
  | value {cs : List Char} {call : Mustache} (plain : ∀ rest, cs ≠ '&' :: rest)
      (read : outcome (readMustache false cs) first = some (.expression call, last)) :
      TrimmedRead first last cs (.expression call)

theorem exists_of_readMustache {trusting : Bool} {first last : Nat} {tag : Tag}
    (h : outcome (readMustache trusting cs) first = some (tag, last)) :
    ∃ call, tag = .expression call := by
  rw [outcome_readMustache] at h
  obtain ⟨read, -, hpair⟩ := Option.map_eq_some_iff.1 h
  cases hpair
  exact ⟨_, rfl⟩

theorem exists_of_readPartial {first last : Nat} {tag : Tag}
    (h : outcome (readPartial cs) first = some (tag, last)) : ∃ call, tag = .partialCall call := by
  rw [readPartial, outcome_bind] at h
  obtain ⟨⟨⟨name, rest⟩, middle⟩, -, h⟩ := Option.bind_eq_some_iff.1 h
  dsimp only at h
  split at h
  · cases h
  · rw [outcome_bind] at h
    obtain ⟨⟨⟨params, hash, rest'⟩, last'⟩, -, h⟩ := Option.bind_eq_some_iff.1 h
    cases rest' with
    | nil =>
      cases h
      exact ⟨_, rfl⟩
    | cons c more => cases h

theorem trimmedRead_of_outcome {first last : Nat} {tag : Tag}
    (h : outcome (readTrimmed cs) first = some (tag, last)) : TrimmedRead first last cs tag := by
  have hblock : ∀ {rest : List Char} {make : BlockHead → Tag},
      outcome (do return make (← readBlockHead rest)) first = some (tag, last) →
        ∃ head, outcome (readBlockHead rest) first = some (head, last) ∧ tag = make head := by
    intro rest make hread
    rw [outcome_bind] at hread
    obtain ⟨⟨head, last'⟩, hhead, hpair⟩ := Option.bind_eq_some_iff.1 hread
    cases hpair
    exact ⟨head, hhead, rfl⟩
  rw [readTrimmed.eq_def] at h
  split at h
  · cases h
  · split at h
    · cases h
    · cases h
    · obtain ⟨head, hhead, rfl⟩ := hblock h
      exact .block hhead
  · dsimp only at h
    split at h
    · cases h
    · cases h
      exact .close _ _
  · obtain ⟨call, rfl⟩ := exists_of_readPartial h
    exact .partialCall h
  · split at h
    · cases h
      exact .inverse _
    · cases h
  · obtain ⟨call, rfl⟩ := exists_of_readMustache h
    exact .trusting h
  · next hplain =>
    split at h
    · cases h
      exact .inverse _
    · split at h
      · next rest hlead =>
        obtain ⟨head, hhead, rfl⟩ := hblock h
        rw [Text.afterLead?_eq_some_iff.1 hlead]
        exact .chain hhead
      · obtain ⟨call, rfl⟩ := exists_of_readMustache h
        exact .value hplain h

/-- Only a content that goes on after `else` and a space is read as a chain. -/
theorem ne_chain_of_outcome (h : Text.afterLead? "else ".toList cs = none) {first last : Nat}
    {tag : Tag} (hread : outcome (readTrimmed cs) first = some (tag, last)) (head : BlockHead) :
    tag ≠ .elseBranch (some head) := by
  rintro rfl
  cases trimmedRead_of_outcome hread with
  | @chain rest _ _ =>
    rw [Text.afterLead?_eq_some_iff.2 rfl] at h
    cases h

/-- A chain and another tag are not the same. -/
theorem ne_of_opensChain {content content' : List Char} (hcomment : content.head? ≠ some '!')
    (hcomment' : content'.head? ≠ some '!') (hchain : opensChain content = true)
    (hchain' : opensChain content' = false) {offset offset' next last last' : Nat} {tag tag' : Tag}
    (hread : Tag.read content false offset next = (.ok tag, last))
    (hread' : Tag.read content' false offset' next = (.ok tag', last')) : tag ≠ tag' := by
  have hplain : ∀ {cs : List Char}, cs.head? ≠ some '!' → ∀ rest, cs ≠ '!' :: rest := by
    rintro cs hcs rest rfl
    exact hcs rfl
  rw [read_eq_ok_iff (hplain hcomment)] at hread
  rw [read_eq_ok_iff (hplain hcomment')] at hread'
  obtain ⟨rest, hrest⟩ := Option.isSome_iff_exists.1 hchain
  rw [opensChain, Option.isSome_eq_false_iff, Option.isNone_iff_eq_none] at hchain'
  rw [readTrimmed_of_chain hrest, outcome_bind] at hread
  obtain ⟨⟨head, middle⟩, -, hpair⟩ := Option.bind_eq_some_iff.1 hread
  cases hpair
  exact (ne_chain_of_outcome hchain' hread' head).symm

/-- Contents that differ only in blanks between tokens and at their ends are read alike, with the
same numbers taken and faults that differ in their places only, if they start alike; otherwise they
are never read as the same tag. -/
theorem read_respaced {trusting : Bool} {content content' : List Char}
    (hcomment : content.head? ≠ some '!')
    (hclose : trusting = false → (Text.trim content).head? ≠ some '/')
    (h : Respaced trusting content content') (offset offset' next : Nat) :
    (StartsAlike trusting content content' →
      unplaced (Tag.read content' trusting offset' next) =
        unplaced (Tag.read content trusting offset next)) ∧
    (¬StartsAlike trusting content content' → ∀ tag tag' last last',
      Tag.read content trusting offset next = (.ok tag, last) →
        Tag.read content' trusting offset' next = (.ok tag', last') → tag ≠ tag') := by
  constructor
  · rintro ⟨hcomment', hchain⟩
    have hread := (readerOf_respaced hclose h hchain).verdict_eq next
    rw [unplaced_read hcomment, unplaced_read hcomment', hread]
  · intro hstart tag tag' last last' hread hread'
    by_cases hcomment' : content'.head? = some '!'
    · obtain ⟨rest, rfl⟩ := List.head?_eq_some_iff.1 hcomment'
      rw [read_comment] at hread'
      cases hread'
      exact ne_comment_of_read hcomment hread _
    · obtain ⟨htrusting, hchain⟩ := not_or.1 fun halike => hstart ⟨hcomment', halike⟩
      obtain rfl := Bool.eq_false_iff.2 htrusting
      cases hopens : opensChain content with
      | true =>
        rw [hopens, eq_comm, Bool.not_eq_true] at hchain
        exact ne_of_opensChain hcomment hcomment' hopens hchain hread hread'
      | false =>
        rw [hopens, eq_comm, Bool.not_eq_false] at hchain
        exact (ne_of_opensChain hcomment' hcomment hchain hopens hread' hread).symm

theorem tabbedBlock_read_respaced :
    Respaced false "#if\ta".toList " #if  a ".toList ∧
      unplaced (Tag.read " #if  a ".toList false 7 0) =
        unplaced (Tag.read "#if\ta".toList false 3 0) := by
  have htab : Expression.Respaced .between "if\ta".toList "if  a".toList := by
    have htail : Expression.Respaced .token (['\t'] ++ ['a']) ([' ', ' '] ++ ['a']) :=
      .blanks rfl (by decide) (by decide) (by decide) (by decide) (.char 'a' (.nil _))
    exact .char 'i' (.char 'f' htail)
  have hrespaced : Respaced false "#if\ta".toList " #if  a ".toList := ⟨by decide, htab⟩
  refine ⟨hrespaced, (read_respaced (by decide) (fun _ => by decide) hrespaced 3 7 0).1 ?_⟩
  exact ⟨by decide, .inr (by decide)⟩

/-- A tab between `else` and `if` makes a value of the chain. -/
theorem tabbedChain_is_value :
    Respaced false "else if x".toList "else\tif x".toList ∧
      (∃ head, Tag.read "else if x".toList false 0 0 = (.ok (.elseBranch (some head)), 2)) ∧
      ∃ m, Tag.read "else\tif x".toList false 0 0 = (.ok (.expression m), 3) := by
  have htab : Expression.Respaced .between "else if x".toList "else\tif x".toList := by
    have htail : Expression.Respaced .token ([' '] ++ "if x".toList) (['\t'] ++ "if x".toList) :=
      .blanks rfl (by decide) (by decide) (by decide) (by decide)
        (.char 'i' (.char 'f' (.char ' ' (.char 'x' (.nil _)))))
    exact .char 'e' (.char 'l' (.char 's' (.char 'e' htail)))
  exact ⟨⟨by decide, htab⟩, ⟨_, rfl⟩, ⟨_, rfl⟩⟩

end Tag

end MustacheJsx
