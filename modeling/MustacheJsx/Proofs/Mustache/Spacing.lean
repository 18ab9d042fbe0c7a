import MustacheJsx.Proofs.Extraction.Calls
import MustacheJsx.Proofs.Extraction.Generators

/-!
# Readers of expressions and blanks

Between expressions a run of blanks is read as one space is. In strings and brackets it is text, so
an expression whose blanks are squeezed is read as another one, which is the same if every blank in
its strings and brackets is a lone space: `IsSingleSpaced`. Both are read step by step alike, so
what is left over after one is what is left over after the other, with its blanks squeezed.
-/

namespace MustacheJsx

namespace Text

/-! ### Runs of blanks -/

/-- The first blank of a run is put in front of what is left of the run, or dropped. -/
theorem squeeze_run {c : Char} (hc : isBlank c = true) {cs : List Char} (hne : squeeze cs ≠ []) :
    (squeeze (c :: cs) = ' ' :: squeeze cs ∧ ∀ d ∈ cs.head?, isBlank d = false) ∨
      ∃ rest, squeeze (c :: cs) = ' ' :: rest ∧ squeeze cs = ' ' :: rest ∧
        ¬ ∀ d ∈ cs.head?, isBlank d = false := by
  rcases squeeze_blank hc cs with ⟨hnil, -⟩ | ⟨d, rest, -, h, h'⟩ | ⟨d, rest, hd, h, h'⟩
  · exact absurd hnil hne
  · refine .inr ⟨d :: rest, h', h, fun hhead => ?_⟩
    cases cs with
    | nil => cases h
    | cons e more =>
      have he := hhead e rfl
      rw [squeeze_char he] at h
      rw [(List.cons.inj h).1] at he
      exact absurd he (by decide)
  · obtain ⟨more, rfl, -⟩ := exists_of_squeeze h hd
    refine .inl ⟨by rw [h, h'], ?_⟩
    rintro e ⟨⟩
    exact hd

theorem head?_squeeze {cs : List Char} : ∀ c ∈ (squeeze cs).head?, c ∈ cs.head? ∨ c = ' ' := by
  cases cs with
  | nil => nofun
  | cons d cs =>
    intro c hc
    cases hd : isBlank d with
    | false =>
      rw [squeeze_char hd] at hc
      exact .inl hc
    | true =>
      rcases squeeze_blank hd cs with ⟨-, h⟩ | ⟨e, rest, -, -, h⟩ | ⟨e, rest, -, -, h⟩
      · rw [h] at hc
        cases hc
      · rw [h] at hc
        exact .inr (Option.some.inj hc).symm
      · rw [h] at hc
        exact .inr (Option.some.inj hc).symm

theorem length_squeeze_le (cs : List Char) : (squeeze cs).length ≤ cs.length := by
  induction cs with
  | nil => exact Nat.le_refl 0
  | cons c cs ih =>
    rw [squeeze]
    split
    · split
      · exact Nat.le_succ_of_le ih
      · exact Nat.succ_le_succ ih
    · exact Nat.succ_le_succ ih

theorem mem_squeeze {c : Char} (hc : isBlank c = false) {cs : List Char} (h : c ∈ cs) :
    c ∈ squeeze cs := by
  induction cs with
  | nil => exact h
  | cons d cs ih =>
    rw [squeeze]
    rcases List.mem_cons.1 h with rfl | h
    · rw [if_neg (Bool.eq_false_iff.1 hc)]
      exact List.mem_cons_self
    · split
      · split
        · exact ih h
        · exact List.mem_cons_of_mem _ (ih h)
      · exact List.mem_cons_of_mem _ (ih h)

theorem squeeze_eq_self {cs : List Char} (h : ∀ c ∈ cs, isBlank c = false) : squeeze cs = cs := by
  induction cs with
  | nil => rfl
  | cons c cs ih =>
    obtain ⟨hc, hcs⟩ := List.forall_mem_cons.1 h
    rw [squeeze_char hc, ih hcs]

theorem squeeze_append {word : List Char} (hword : ∀ c ∈ word, isBlank c = false)
    (cs : List Char) : squeeze (word ++ cs) = word ++ squeeze cs := by
  induction word with
  | nil => rfl
  | cons c word ih =>
    obtain ⟨hc, hmore⟩ := List.forall_mem_cons.1 hword
    rw [List.cons_append, squeeze_char hc, ih hmore]
    rfl

theorem exists_of_squeeze_append {word cs rest : List Char}
    (hword : ∀ c ∈ word, isBlank c = false) (h : squeeze cs = word ++ rest) :
    ∃ more, cs = word ++ more ∧ squeeze more = rest := by
  obtain ⟨more, rfl⟩ := isPrefix_of_squeeze hword ⟨rest, h.symm⟩
  rw [squeeze_append hword] at h
  exact ⟨more, rfl, List.append_cancel_left h⟩

end Text

namespace Expression

open Text (squeeze)

/-! ### Blanks that are text -/

/-- Where the next character stands in the text of an expression. -/
inductive Spot where
  | between
  | token
  | bracket
  | string (quote : Char)
  /-- After a backslash in a string. -/
  | escaped (quote : Char)

namespace Spot

def afterBare (c : Char) : Spot :=
  if c = '[' then .bracket else if endsToken c then .between else .token

def after (c : Char) : Spot → Spot
  | .between => if c = '"' ∨ c = '\'' then .string c else afterBare c
  | .token => afterBare c
  | .bracket => if c = ']' then .token else .bracket
  | .string quote =>
    if c = '\\' then .escaped quote else if c = quote then .between else .string quote
  | .escaped quote => .string quote

def isInside : Spot → Bool
  | .between | .token => false
  | .bracket | .string _ | .escaped _ => true

end Spot

/-- Every blank in strings and brackets is a lone space. -/
def IsSingleSpaced : Spot → List Char → Prop
  | _, [] => True
  | spot, c :: cs =>
    (spot.isInside = true → Text.isBlank c = true →
      c = ' ' ∧ ∀ d ∈ cs.head?, Text.isBlank d = false) ∧ IsSingleSpaced (spot.after c) cs

instance decidableIsSingleSpaced : (spot : Spot) → (cs : List Char) →
    Decidable (IsSingleSpaced spot cs)
  | _, [] => isTrue trivial
  | spot, c :: cs =>
    have : Decidable (IsSingleSpaced (spot.after c) cs) := decidableIsSingleSpaced (spot.after c) cs
    inferInstanceAs (Decidable (_ ∧ _))

theorem isSingleSpaced_char {c : Char} (h : Text.isBlank c = false) (spot : Spot)
    (cs : List Char) : IsSingleSpaced spot (c :: cs) ↔ IsSingleSpaced (spot.after c) cs := by
  refine and_iff_right fun _ hblank => ?_
  rw [h] at hblank
  cases hblank

theorem isSingleSpaced_outside {spot : Spot} (h : spot.isInside = false) (c : Char)
    (cs : List Char) : IsSingleSpaced spot (c :: cs) ↔ IsSingleSpaced (spot.after c) cs := by
  refine and_iff_right fun hinside _ => ?_
  rw [h] at hinside
  cases hinside

theorem isSingleSpaced_inside {spot : Spot} (h : spot.isInside = true) {c : Char}
    (hc : Text.isBlank c = true) (cs : List Char) :
    IsSingleSpaced spot (c :: cs) ↔
      (c = ' ' ∧ ∀ d ∈ cs.head?, Text.isBlank d = false) ∧ IsSingleSpaced (spot.after c) cs :=
  and_congr_left' ⟨fun hlone => hlone h hc, fun hlone _ _ => hlone⟩

theorem Spot.after_blank {c : Char} (h : Text.isBlank c = true) :
    Spot.between.after c = .between := by
  have hne : ∀ {d : Char}, Text.isBlank d = false → c ≠ d := by
    rintro d hd rfl
    rw [h] at hd
    cases hd
  have hquote : ¬ (c = '"' ∨ c = '\'') := not_or.2 ⟨hne (by decide), hne (by decide)⟩
  have hends : endsToken c = true := by
    rw [endsToken, h]
    rfl
  rw [Spot.after, if_neg hquote, Spot.afterBare, if_neg (hne (by decide)), if_pos hends]

theorem isSingleSpaced_trimStart (cs : List Char) :
    IsSingleSpaced .between (Text.trimStart cs) ↔ IsSingleSpaced .between cs := by
  induction cs with
  | nil => exact Iff.rfl
  | cons c cs ih =>
    cases hc : Text.isBlank c with
    | false => rw [Text.trimStart_cons_of_not_blank cs hc]
    | true =>
      rw [isSingleSpaced_outside rfl, Spot.after_blank hc, ← ih, Text.trimStart,
        List.dropWhile_cons_of_pos hc]
      rfl

/-- A blank that no blank follows stays if it is a space. -/
theorem isSingleSpaced_last_blank {spot : Spot} (h : spot.isInside = true) {c : Char}
    (hc : Text.isBlank c = true) {cs value value' : List Char} {more : Prop}
    (hhead : ∀ d ∈ cs.head?, Text.isBlank d = false)
    (hcs : IsSingleSpaced (spot.after c) cs ↔ value' = value ∧ more) :
    IsSingleSpaced spot (c :: cs) ↔ ' ' :: value' = c :: value ∧ more := by
  rw [isSingleSpaced_inside h hc, and_iff_left hhead, hcs, List.cons.injEq, and_assoc,
    eq_comm (a := ' ')]

theorem isSingleSpaced_first_blank {spot : Spot} (h : spot.isInside = true) {c : Char}
    (hc : Text.isBlank c = true) {cs value value' : List Char} {more : Prop}
    (hhead : ¬ ∀ d ∈ cs.head?, Text.isBlank d = false) (hlength : value'.length ≤ value.length) :
    IsSingleSpaced spot (c :: cs) ↔ value' = c :: value ∧ more := by
  rw [isSingleSpaced_inside h hc]
  refine iff_of_false (fun hlone => hhead hlone.1.2) ?_
  rintro ⟨rfl, -⟩
  exact Nat.not_succ_le_self _ hlength

/-! ### Strings -/

theorem takeString_escape (quote c : Char) (cs : List Char) :
    takeString quote ('\\' :: c :: cs) =
      (takeString quote cs).map fun read => (c :: read.1, read.2) := by
  rw [takeString]

/-- A string reads one more character where each character is read by itself, as `take` does. -/
theorem exists_of_takeString_step {quote c : Char} (hquote : ' ' ≠ quote) {spot : Spot}
    (hspot : spot.isInside = true) {take : List Char → Option (List Char × List Char)}
    (htake : ∀ d ds, d = c ∨ d = ' ' →
      take (d :: ds) = (takeString quote ds).map fun read => (d :: read.1, read.2))
    {cs value value' rest : List Char} {more : Prop}
    (hstring : takeString quote (squeeze cs) = some (value', rest))
    (hlength : value'.length ≤ value.length)
    (hiff : IsSingleSpaced (spot.after c) cs ↔ value' = value ∧ more) :
    ∃ value'', take (squeeze (c :: cs)) = some (value'', rest) ∧
      value''.length ≤ (c :: value).length ∧
      (IsSingleSpaced spot (c :: cs) ↔ value'' = c :: value ∧ more) := by
  cases hc : Text.isBlank c with
  | false =>
    rw [Text.squeeze_char hc, htake c _ (.inl rfl), hstring, isSingleSpaced_char hc]
    refine ⟨c :: value', rfl, Nat.succ_le_succ hlength, hiff.trans ?_⟩
    rw [List.cons.injEq, and_iff_right rfl]
  | true =>
    have hne : squeeze cs ≠ [] := by
      intro hnil
      rw [hnil] at hstring
      cases hstring
    rcases Text.squeeze_run hc hne with ⟨hrun, hhead⟩ | ⟨ds, hrun, hds, hhead⟩
    · rw [hrun, htake ' ' _ (.inr rfl), hstring]
      exact ⟨' ' :: value', rfl, Nat.succ_le_succ hlength,
        isSingleSpaced_last_blank hspot hc hhead hiff⟩
    -- The string itself reads the space that is left of both blanks.
    · have hspace : takeString quote (' ' :: ds) =
          (takeString quote ds).map fun read => (' ' :: read.1, read.2) := by
        rw [takeString_cons (by decide), if_neg hquote]
      rw [hrun, htake ' ' _ (.inr rfl), ← hspace, ← hds, hstring]
      exact ⟨value', rfl, Nat.le_succ_of_le hlength,
        isSingleSpaced_first_blank hspot hc hhead hlength⟩

/-- Where a string ends does not change, and its text is the same if its blanks are lone spaces. -/
theorem takeString_squeeze {quote : Char} (hquote : quote = '"' ∨ quote = '\'')
    {cs value rest : List Char} (h : takeString quote cs = some (value, rest)) :
    ∃ value', takeString quote (squeeze cs) = some (value', squeeze rest) ∧
      value'.length ≤ value.length ∧
      (IsSingleSpaced (.string quote) cs ↔ value' = value ∧ IsSingleSpaced .between rest) := by
  have hslash : quote ≠ '\\' := by
    rcases hquote with rfl | rfl <;> decide
  have hblank : Text.isBlank quote = false := by
    rcases hquote with rfl | rfl <;> decide
  have hspace : ' ' ≠ quote := by
    rcases hquote with rfl | rfl <;> decide
  fun_induction takeString quote cs generalizing value with
  | case1 => cases h
  | case2 => cases h
  | case3 c cs ih =>
    obtain ⟨⟨value, rest⟩, hstring, hpair⟩ := Option.map_eq_some_iff.1 h
    cases hpair
    obtain ⟨value', hstring', hlength, hiff⟩ := ih hstring
    have hescaped : (Spot.string quote).after '\\' = .escaped quote := by
      rw [Spot.after, if_pos rfl]
    rw [Text.squeeze_char (by decide), isSingleSpaced_char (by decide), hescaped]
    exact @exists_of_takeString_step quote c hspace (.escaped quote) rfl
      (fun ds => takeString quote ('\\' :: ds)) (fun d ds _ => takeString_escape quote d ds)
      _ _ _ _ _ hstring' hlength hiff
  | case4 cs =>
    cases h
    have hends : (Spot.string quote).after quote = .between := by
      rw [Spot.after, if_neg hslash, if_pos rfl]
    rw [Text.squeeze_char hblank, takeString_cons hslash, if_pos rfl, isSingleSpaced_char hblank,
      hends]
    exact ⟨[], rfl, Nat.le_refl 0, (and_iff_right rfl).symm⟩
  | case5 c cs hlast hescape hc ih =>
    obtain ⟨⟨value, rest⟩, hstring, hpair⟩ := Option.map_eq_some_iff.1 h
    cases hpair
    obtain ⟨value', hstring', hlength, hiff⟩ := ih hstring
    have hplain := ne_slash hlast hescape
    have hstays : (Spot.string quote).after c = .string quote := by
      rw [Spot.after, if_neg hplain, if_neg hc]
    rw [← hstays] at hiff
    refine exists_of_takeString_step hspace rfl (fun d ds hd => ?_) hstring' hlength hiff
    rcases hd with rfl | rfl
    · rw [takeString_cons hplain, if_neg hc]
    · rw [takeString_cons (by decide), if_neg hspace]

/-! ### Tokens -/

def Spot.ofBracket (bracket : Bool) : Spot := if bracket then .bracket else .token

theorem isSingleSpaced_token_iff {cs : List Char} (h : ∀ c ∈ cs.head?, c ≠ '"' ∧ c ≠ '\'') :
    IsSingleSpaced .token cs ↔ IsSingleSpaced .between cs := by
  cases cs with
  | nil => exact Iff.rfl
  | cons c cs =>
    obtain ⟨hdouble, hsingle⟩ := h c rfl
    rw [isSingleSpaced_outside rfl, isSingleSpaced_outside rfl, Spot.after, Spot.after,
      if_neg (not_or.2 ⟨hdouble, hsingle⟩)]

theorem ne_quote_of_endsToken {c : Char} (h : endsToken c = true) : c ≠ '"' ∧ c ≠ '\'' := by
  constructor <;>
  · rintro rfl
    exact absurd h (by decide)

theorem takeToken_of_endsToken {cs : List Char} (h : ∀ c ∈ cs.head?, endsToken c = true) :
    takeToken false cs = ([], cs) := by
  cases cs with
  | nil => rfl
  | cons c cs =>
    have hc := h c rfl
    have hbracket : c ≠ '[' := by
      rintro rfl
      exact absurd hc (by decide)
    rw [takeToken, if_neg Bool.false_ne_true, if_neg hbracket, if_pos hc]

theorem endsToken_of_isBlank {c : Char} (h : Text.isBlank c = true) : endsToken c = true := by
  rw [endsToken, h]
  rfl

theorem endsToken_head?_squeeze {cs : List Char} (h : ∀ c ∈ cs.head?, endsToken c = true) :
    ∀ c ∈ (squeeze cs).head?, endsToken c = true := by
  intro c hc
  rcases Text.head?_squeeze c hc with hc | rfl
  · exact h c hc
  · rfl

/-- A character of a token, after which a bracket is open or not. -/
theorem exists_takeToken_cons {bracket : Bool} {c : Char}
    (h : ¬ (bracket = false ∧ endsToken c = true)) :
    ∃ bracket',
      (∀ ds, takeToken bracket (c :: ds) =
        (c :: (takeToken bracket' ds).1, (takeToken bracket' ds).2)) ∧
      (∀ ds, isOpenAfter bracket (c :: ds) = isOpenAfter bracket' ds) ∧
      (Spot.ofBracket bracket).after c = .ofBracket bracket' := by
  cases bracket with
  | true =>
    refine ⟨c != ']', fun ds => rfl, fun ds => rfl, ?_⟩
    by_cases hc : c = ']'
    · subst hc
      rfl
    · rw [bne_iff_ne.2 hc]
      exact if_neg hc
  | false =>
    have hends : ¬ endsToken c = true := fun hc => h ⟨rfl, hc⟩
    by_cases hc : c = '['
    · subst hc
      exact ⟨true, fun ds => rfl, fun ds => rfl, rfl⟩
    · refine ⟨false, fun ds => ?_, fun ds => ?_, ?_⟩
      · rw [takeToken, if_neg Bool.false_ne_true, if_neg hc, if_neg hends]
      · rw [isOpenAfter, if_neg Bool.false_ne_true, beq_eq_false_iff_ne.2 hc]
      · exact (if_neg hc).trans (if_neg hends)

/-- A blank in a bracket that is closed later. -/
theorem takeToken_squeeze_blank {c : Char} {cs : List Char} (hc : Text.isBlank c = true)
    (hclosed : ']' ∈ (takeToken true cs).1)
    (htoken : takeToken true (squeeze cs) =
      (squeeze (takeToken true cs).1, squeeze (takeToken true cs).2))
    (hiff : IsSingleSpaced (Spot.bracket.after c) cs ↔
      squeeze (takeToken true cs).1 = (takeToken true cs).1 ∧
        IsSingleSpaced .between (takeToken true cs).2) :
    takeToken true (squeeze (c :: cs)) =
        (squeeze (c :: (takeToken true cs).1), squeeze (takeToken true cs).2) ∧
      (IsSingleSpaced .bracket (c :: cs) ↔
        squeeze (c :: (takeToken true cs).1) = c :: (takeToken true cs).1 ∧
          IsSingleSpaced .between (takeToken true cs).2) := by
  have happend := takeToken_append true cs
  have hhead : (takeToken true cs).1.head? = cs.head? := by
    conv_rhs => rw [← happend, List.head?_append_of_ne_nil _ (List.ne_nil_of_mem hclosed)]
  have hne := List.ne_nil_of_mem (Text.mem_squeeze (by decide) hclosed)
  have hne' : squeeze cs ≠ [] := by
    refine List.ne_nil_of_mem (Text.mem_squeeze (c := ']') (by decide) ?_)
    rw [← happend]
    exact List.mem_append_left _ hclosed
  have hspace : ∀ ds, takeToken true (' ' :: ds) =
      (' ' :: (takeToken true ds).1, (takeToken true ds).2) := fun ds => rfl
  have hruns := Text.squeeze_run hc hne
  rw [hhead] at hruns
  rcases Text.squeeze_run hc hne' with ⟨hrun, hlast⟩ | ⟨ds, hrun, hds, hlast⟩
  · rcases hruns with ⟨hrun', -⟩ | ⟨es, -, -, hmore⟩
    · rw [hrun, hrun', hspace, htoken]
      exact ⟨rfl, isSingleSpaced_last_blank rfl hc hlast hiff⟩
    · exact absurd hlast hmore
  · rcases hruns with ⟨-, hlone⟩ | ⟨es, hrun', hes, -⟩
    · exact absurd hlone hlast
    · rw [hrun, hrun', ← hds, ← hes, htoken]
      exact ⟨rfl, isSingleSpaced_first_blank rfl hc hlast (Text.length_squeeze_le _)⟩

/-- Where a token ends does not change if its brackets are closed, and its text is the same if the
blanks in them are lone spaces. -/
theorem takeToken_squeeze {bracket : Bool} {cs : List Char}
    (h : isOpenAfter bracket (takeToken bracket cs).1 = false) :
    takeToken bracket (squeeze cs) =
        (squeeze (takeToken bracket cs).1, squeeze (takeToken bracket cs).2) ∧
      (IsSingleSpaced (.ofBracket bracket) cs ↔
        squeeze (takeToken bracket cs).1 = (takeToken bracket cs).1 ∧
          IsSingleSpaced .between (takeToken bracket cs).2) := by
  induction cs generalizing bracket with
  | nil =>
    have hnil : takeToken bracket [] = ([], []) := rfl
    rw [hnil]
    exact ⟨rfl, iff_of_true trivial ⟨rfl, trivial⟩⟩
  | cons c cs ih =>
    by_cases hends : bracket = false ∧ endsToken c = true
    · obtain ⟨rfl, hends⟩ := hends
      have hhead : ∀ d ∈ (c :: cs).head?, endsToken d = true := by
        rintro d ⟨⟩
        exact hends
      rw [takeToken_of_endsToken hhead, takeToken_of_endsToken (endsToken_head?_squeeze hhead)]
      refine ⟨rfl, Iff.trans ?_ (and_iff_right rfl).symm⟩
      refine isSingleSpaced_token_iff ?_
      rintro d ⟨⟩
      exact ne_quote_of_endsToken hends
    · obtain ⟨bracket', htake, hopen, hafter⟩ := exists_takeToken_cons hends
      rw [htake] at h ⊢
      dsimp only at h ⊢
      rw [hopen] at h
      obtain ⟨htoken, hiff⟩ := ih h
      rw [← hafter] at hiff
      cases hc : Text.isBlank c with
      | false =>
        rw [Text.squeeze_char hc, Text.squeeze_char hc, htake, htoken, isSingleSpaced_char hc]
        refine ⟨rfl, hiff.trans ?_⟩
        rw [List.cons.injEq, and_iff_right rfl]
      -- A blank of a token stands in a bracket, which stays open.
      | true =>
        obtain rfl : bracket = true :=
          eq_true_of_ne_false fun hout => hends ⟨hout, endsToken_of_isBlank hc⟩
        obtain rfl : bracket' = true := by
          have hclose : c ≠ ']' := by
            rintro rfl
            exact absurd hc (by decide)
          cases bracket' with
          | true => rfl
          | false =>
            have hsame := (if_neg hclose).symm.trans hafter
            cases hsame
        refine takeToken_squeeze_blank hc ?_ htoken hiff
        by_contra hnot
        rw [isOpenAfter_of_not_mem hnot] at h
        cases h

end Expression

end MustacheJsx
