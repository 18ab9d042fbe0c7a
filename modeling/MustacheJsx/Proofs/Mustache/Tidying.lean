import MustacheJsx.Proofs.Mustache.Respacing

/-!
# Runs of blanks between tokens

Readers of expressions pass over a run of blanks between tokens, whatever its length. `tidy` puts
one space for each run outside strings and brackets, and a tidied text is read with the same answer,
up to the place of a failure; what is left behind is what is left of the text, tidied:
`readCall_tidy`.
-/

namespace MustacheJsx

/-! ### Answers without places -/

/-- What a reader answers, without the text that is left when it fails. -/
def verdict {α : Type} (reader : ReadM α) (first : Nat) : Except SyntaxFault α × Nat :=
  match reader.run first with
  | (.ok a, last) => (.ok a, last)
  | (.error stop, last) => (.error stop.fault, last)

/-- The second reader answers as the first one does, after a change of what is read. -/
def Echoes {α β : Type} (change : α → β) (reader : ReadM α) (reader' : ReadM β) : Prop :=
  ∀ first, verdict reader' first =
    ((verdict reader first).1.map change, (verdict reader first).2)

namespace Echoes

variable {α α' β β' : Type} {change : α → α'} {change' : β → β'}

theorem pure (a : α) : Echoes change (Pure.pure a) (Pure.pure (change a)) := fun _ => rfl

theorem halt (fault : SyntaxFault) (rest rest' : List Char) :
    Echoes change (halt fault rest) (halt fault rest') := fun _ => rfl

theorem of_run {first second : ReadM α} {first' second' : ReadM α'}
    (h : Echoes change second second') (hrun : ∀ number, first.run number = second.run number)
    (hrun' : ∀ number, first'.run number = second'.run number) :
    Echoes change first first' := by
  intro number
  have hverdict := h number
  rw [verdict, verdict] at hverdict
  rw [verdict, verdict, hrun, hrun', hverdict]

/-- Readers that go on alike after all that the first one can read. -/
theorem bind_of_yields {reader : ReadM α} {reader' : ReadM α'} {next : α → ReadM β}
    {next' : α' → ReadM β'} {post : α → Prop} (h : Echoes change reader reader')
    (hpost : Yields reader post)
    (hnext : ∀ a, post a → Echoes change' (next a) (next' (change a))) :
    Echoes change' (reader >>= next) (reader' >>= next') := by
  intro first
  have hverdict := h first
  rw [verdict, verdict] at hverdict
  rw [verdict, verdict, run_bind, run_bind]
  cases hrun : reader.run first with
  | mk result middle =>
    cases hrun' : reader'.run first with
    | mk result' middle' =>
      rw [hrun, hrun'] at hverdict
      cases result with
      | error stop =>
        cases result' with
        | error stop' =>
          obtain ⟨hfault, rfl⟩ := Prod.mk.inj hverdict
          exact Prod.ext (congrArg Except.error (Except.error.inj hfault)) rfl
        | ok a' => cases (Prod.mk.inj hverdict).1
      | ok a =>
        cases result' with
        | error stop' => cases (Prod.mk.inj hverdict).1
        | ok a' =>
          obtain ⟨hread, rfl⟩ := Prod.mk.inj hverdict
          obtain rfl := Except.ok.inj hread
          exact hnext a (hpost first a _ hrun) _

theorem bind {reader : ReadM α} {reader' : ReadM α'} {next : α → ReadM β} {next' : α' → ReadM β'}
    (h : Echoes change reader reader')
    (hnext : ∀ a, Echoes change' (next a) (next' (change a))) :
    Echoes change' (reader >>= next) (reader' >>= next') :=
  have hany : Yields reader fun _ => True := fun _ _ _ _ => trivial
  h.bind_of_yields hany fun a _ => hnext a

end Echoes

namespace Expression

/-! ### Tidied texts -/

/-- A text with one space for each run of blanks outside strings and brackets. -/
def tidy (spot : Spot) : List Char → List Char
  | [] => []
  | c :: cs =>
    if spot.isInside = false ∧ Text.isBlank c = true then
      if cs.head?.any Text.isBlank then tidy .between cs else ' ' :: tidy .between cs
    else c :: tidy (spot.after c) cs

variable {spot : Spot} {c : Char} {cs : List Char}

theorem tidy_cons (spot : Spot) (c : Char) (cs : List Char) :
    tidy spot (c :: cs) =
      if spot.isInside = false ∧ Text.isBlank c = true then
        if cs.head?.any Text.isBlank then tidy .between cs else ' ' :: tidy .between cs
      else c :: tidy (spot.after c) cs := rfl

theorem tidy_inside (h : spot.isInside = true) (c : Char) (cs : List Char) :
    tidy spot (c :: cs) = c :: tidy (spot.after c) cs := by
  rw [tidy_cons, if_neg fun hout => Bool.false_ne_true (hout.1.symm.trans h)]

theorem tidy_char (h : Text.isBlank c = false) (spot : Spot) (cs : List Char) :
    tidy spot (c :: cs) = c :: tidy (spot.after c) cs := by
  rw [tidy_cons, if_neg fun hblank => Bool.false_ne_true (h.symm.trans hblank.2)]

theorem tidy_blank (hspot : spot.isInside = false) (h : Text.isBlank c = true) (cs : List Char) :
    tidy spot (c :: cs) = ' ' :: tidy .between (Text.trimStart cs) := by
  rw [tidy_cons, if_pos ⟨hspot, h⟩]
  induction cs with
  | nil => rfl
  | cons d cs ih =>
    cases hd : Text.isBlank d with
    | false =>
      have hhead : (d :: cs).head?.any Text.isBlank = false := hd
      rw [hhead, if_neg Bool.false_ne_true, Text.trimStart_cons_of_not_blank cs hd]
    | true =>
      have hhead : (d :: cs).head?.any Text.isBlank = true := hd
      rw [hhead, if_pos rfl, tidy_cons, if_pos ⟨rfl, hd⟩, ih, Text.trimStart_cons_of_blank hd]

theorem length_tidy_le (spot : Spot) (cs : List Char) : (tidy spot cs).length ≤ cs.length := by
  induction cs generalizing spot with
  | nil => exact Nat.le_refl 0
  | cons c cs ih =>
    rw [tidy_cons]
    split
    · split
      · exact Nat.le_succ_of_le (ih .between)
      · exact Nat.succ_le_succ (ih .between)
    · exact Nat.succ_le_succ (ih _)

theorem exists_of_tidy {d : Char} {ds : List Char} (hd : Text.isBlank d = false)
    (h : tidy spot cs = d :: ds) : ∃ more, cs = d :: more ∧ tidy (spot.after d) more = ds := by
  cases cs with
  | nil => cases h
  | cons c cs =>
    by_cases hblank : spot.isInside = false ∧ Text.isBlank c = true
    · rw [tidy_blank hblank.1 hblank.2] at h
      rw [← (List.cons.inj h).1] at hd
      cases hd
    · rw [tidy_cons, if_neg hblank] at h
      obtain ⟨rfl, rfl⟩ := List.cons.inj h
      exact ⟨cs, rfl, rfl⟩

theorem head?_tidy (spot : Spot) : ∀ d ∈ (tidy spot cs).head?, d ∈ cs.head? ∨ d = ' ' := by
  cases cs with
  | nil => nofun
  | cons c cs =>
    intro d hd
    by_cases hblank : spot.isInside = false ∧ Text.isBlank c = true
    · rw [tidy_blank hblank.1 hblank.2] at hd
      exact .inr (Option.some.inj hd).symm
    · rw [tidy_cons, if_neg hblank] at hd
      exact .inl hd

theorem exists_trimStart_tidy (hspot : spot.isInside = false) (cs : List Char) :
    ∃ spot', spot'.isInside = false ∧
      Text.trimStart (tidy spot cs) = tidy spot' (Text.trimStart cs) ∧
      (spot = .between → spot' = .between) := by
  cases cs with
  | nil => exact ⟨.between, rfl, rfl, fun _ => rfl⟩
  | cons c cs =>
    cases hc : Text.isBlank c with
    | false =>
      refine ⟨spot, hspot, ?_, id⟩
      rw [Text.trimStart_cons_of_not_blank cs hc, tidy_char hc,
        Text.trimStart_cons_of_not_blank _ hc]
    | true =>
      have hspace : Text.isBlank ' ' = true := by decide
      refine ⟨.between, rfl, ?_, fun _ => rfl⟩
      rw [tidy_blank hspot hc, Text.trimStart_cons_of_blank hspace, Text.trimStart_cons_of_blank hc]
      rcases Text.trimStart_cases cs with hcs | ⟨d, rest, hd, hcs⟩
      · rw [hcs]
        rfl
      · rw [hcs, tidy_char hd, Text.trimStart_cons_of_not_blank _ hd]

theorem trimStart_tidy (cs : List Char) :
    Text.trimStart (tidy .between cs) = tidy .between (Text.trimStart cs) := by
  have houtside : Spot.between.isInside = false := rfl
  obtain ⟨spot, -, htrim, hspot⟩ := exists_trimStart_tidy houtside cs
  rw [htrim, hspot rfl]

theorem tidy_token {cs : List Char} (h : ∀ c ∈ cs.head?, c ≠ '"' ∧ c ≠ '\'') :
    tidy .token cs = tidy .between cs := by
  cases cs with
  | nil => rfl
  | cons c cs =>
    obtain ⟨hdouble, hsingle⟩ := h c rfl
    have hafter : Spot.between.after c = Spot.token.after c :=
      if_neg (not_or.2 ⟨hdouble, hsingle⟩)
    rw [tidy_cons, tidy_cons, hafter]
    rfl

/-! ### Strings and tokens -/

theorem takeString_tidy {quote : Char} (hquote : quote = '"' ∨ quote = '\'') (cs : List Char) :
    takeString quote (tidy (.string quote) cs) =
      (takeString quote cs).map fun read => (read.1, tidy .between read.2) := by
  have hslash : quote ≠ '\\' := by
    rcases hquote with rfl | rfl <;> decide
  fun_induction takeString quote cs with
  | case1 => rfl
  | case2 => rfl
  | case3 c cs ih =>
    have hescaped : (Spot.string quote).after '\\' = .escaped quote := by
      rw [Spot.after, if_pos rfl]
    have hstring : (Spot.escaped quote).after c = .string quote := rfl
    rw [tidy_inside rfl, hescaped, tidy_inside rfl, hstring, takeString_escape, ih, Option.map_map,
      Option.map_map]
    rfl
  | case4 cs =>
    have hends : (Spot.string quote).after quote = .between := by
      rw [Spot.after, if_neg hslash, if_pos rfl]
    rw [tidy_inside rfl, hends, takeString_cons hslash, if_pos rfl]
    rfl
  | case5 c cs hlast hescape hc ih =>
    have hplain := ne_slash hlast hescape
    have hstays : (Spot.string quote).after c = .string quote := by
      rw [Spot.after, if_neg hplain, if_neg hc]
    rw [tidy_inside rfl, hstays, takeString_cons hplain, if_neg hc, ih, Option.map_map,
      Option.map_map]
    rfl

theorem takeToken_tidy (bracket : Bool) (cs : List Char) :
    takeToken bracket (tidy (.ofBracket bracket) cs) =
      ((takeToken bracket cs).1, tidy .between (takeToken bracket cs).2) := by
  induction cs generalizing bracket with
  | nil => rfl
  | cons c cs ih =>
    by_cases hends : bracket = false ∧ endsToken c = true
    · obtain ⟨rfl, hends⟩ := hends
      have hhead : ∀ d ∈ (c :: cs).head?, endsToken d = true := by
        rintro d ⟨⟩
        exact hends
      have hspot : tidy (.ofBracket false) (c :: cs) = tidy .between (c :: cs) := by
        refine tidy_token ?_
        rintro d ⟨⟩
        exact ne_quote_of_endsToken hends
      have hhead' : ∀ d ∈ (tidy .between (c :: cs)).head?, endsToken d = true := by
        intro d hd
        rcases head?_tidy .between d hd with hd | rfl
        · exact hhead d hd
        · rfl
      rw [hspot, takeToken_of_endsToken hhead, takeToken_of_endsToken hhead']
    · obtain ⟨bracket', htake, -, hafter⟩ := exists_takeToken_cons hends
      have hkept : tidy (.ofBracket bracket) (c :: cs) = c :: tidy (.ofBracket bracket') cs := by
        rw [← hafter]
        cases bracket with
        | true => exact tidy_inside rfl c cs
        | false =>
          refine tidy_char (Bool.eq_false_iff.2 fun hblank => ?_) _ cs
          exact hends ⟨rfl, endsToken_of_isBlank hblank⟩
      rw [hkept, htake, htake, ih]

/-! ### Named arguments and block parameters -/

theorem after_isKeyChar_of_outside (hspot : spot.isInside = false) (hc : isKeyChar c = true) :
    spot.after c = .token := by
  have hne : ∀ {d : Char}, isKeyChar d = false → c ≠ d := by
    rintro d hd rfl
    rw [hc] at hd
    cases hd
  have hbetween : Spot.between.after c = Spot.token.after c :=
    if_neg (not_or.2 ⟨hne (by decide), hne (by decide)⟩)
  cases spot with
  | between => rw [hbetween, after_isKeyChar hc]
  | token => exact after_isKeyChar hc
  | bracket => cases hspot
  | string quote => cases hspot
  | escaped quote => cases hspot

theorem tidy_isKeyChar (hspot : spot.isInside = false) (cs : List Char) :
    (tidy spot cs).takeWhile isKeyChar = cs.takeWhile isKeyChar ∧
      ∃ spot', spot'.isInside = false ∧
        (tidy spot cs).dropWhile isKeyChar = tidy spot' (cs.dropWhile isKeyChar) := by
  induction cs generalizing spot with
  | nil => exact ⟨rfl, spot, hspot, rfl⟩
  | cons c cs ih =>
    by_cases hkey : isKeyChar c = true
    · have hafter := after_isKeyChar_of_outside hspot hkey
      have htoken : Spot.token.isInside = false := rfl
      obtain ⟨htake, spot', hspot', hdrop⟩ := ih htoken
      rw [tidy_char (isBlank_of_isKeyChar hkey), hafter, List.takeWhile_cons_of_pos hkey,
        List.takeWhile_cons_of_pos hkey, List.dropWhile_cons_of_pos hkey,
        List.dropWhile_cons_of_pos hkey, htake]
      exact ⟨rfl, spot', hspot', hdrop⟩
    · have hhead : ∀ d ∈ (tidy spot (c :: cs)).head?, ¬ isKeyChar d = true := by
        intro d hd
        rcases head?_tidy spot d hd with hd | rfl
        · exact Option.some.inj hd ▸ hkey
        · decide
      obtain ⟨d, ds, hds⟩ : ∃ d ds, tidy spot (c :: cs) = d :: ds := by
        by_cases hblank : spot.isInside = false ∧ Text.isBlank c = true
        · exact ⟨_, _, tidy_blank hblank.1 hblank.2 cs⟩
        · exact ⟨c, _, by rw [tidy_cons, if_neg hblank]⟩
      have hd : ¬ isKeyChar d = true := hhead d (by rw [hds]; rfl)
      refine ⟨?_, spot, hspot, ?_⟩
      · rw [hds, List.takeWhile_cons_of_neg hd, List.takeWhile_cons_of_neg hkey]
      · rw [List.dropWhile_cons_of_neg hkey, hds, List.dropWhile_cons_of_neg hd]

theorem takeKey?_tidy (cs : List Char) :
    takeKey? (tidy .between cs) =
      (takeKey? cs).map fun named => (named.1, tidy .between named.2) := by
  have houtside : Spot.between.isInside = false := rfl
  obtain ⟨htake, spot, hspot, hdrop⟩ := tidy_isKeyChar houtside cs
  obtain ⟨spot', hspot', htrim, -⟩ := exists_trimStart_tidy hspot (cs.dropWhile isKeyChar)
  rw [← hdrop] at htrim
  by_cases hvalue : ∃ rest, Text.trimStart (cs.dropWhile isKeyChar) = '=' :: rest
  · obtain ⟨rest, hrest⟩ := hvalue
    have hafter : spot'.after '=' = .between := by
      cases spot' <;> first | rfl | cases hspot'
    rw [hrest, tidy_char (by decide), hafter] at htrim
    rw [takeKey?_of_equals hrest, takeKey?_of_equals htrim, htake, trimStart_tidy]
    split <;> rfl
  · rw [takeKey?_of_not_equals fun rest heq => hvalue ⟨rest, heq⟩, takeKey?_of_not_equals]
    · rfl
    · intro rest heq
      rw [htrim] at heq
      obtain ⟨more, hmore, -⟩ := exists_of_tidy (by decide) heq
      exact hvalue ⟨more, hmore⟩

theorem atBlockParameters_eq_true_iff :
    atBlockParameters cs = true ↔ ∃ c rest rest', cs = 'a' :: 's' :: c :: rest ∧
      Text.isBlank c = true ∧ Text.trimStart rest = '|' :: rest' := by
  rw [atBlockParameters.eq_def]
  split
  · next c rest =>
    rw [Bool.and_eq_true, beq_iff_eq, List.head?_eq_some_iff]
    constructor
    · rintro ⟨hc, rest', hrest⟩
      exact ⟨c, rest, rest', rfl, hc, hrest⟩
    · rintro ⟨d, more, rest', heq, hd, hmore⟩
      cases heq
      exact ⟨hd, rest', hmore⟩
  · next hnot =>
    refine iff_of_false Bool.false_ne_true ?_
    rintro ⟨c, rest, -, rfl, -⟩
    exact hnot c rest rfl

theorem atBlockParameters_tidy (cs : List Char) :
    atBlockParameters (tidy .between cs) = atBlockParameters cs := by
  rw [Bool.eq_iff_iff, atBlockParameters_eq_true_iff, atBlockParameters_eq_true_iff]
  have ha : Spot.between.after 'a' = .token := rfl
  have hs : Spot.token.after 's' = .token := rfl
  have hspace : Text.isBlank ' ' = true := by decide
  have hbar : Spot.between.after '|' = .between := rfl
  constructor
  · rintro ⟨c, rest, rest', htext, hc, hrest⟩
    obtain ⟨more, rfl, hmore⟩ := exists_of_tidy (by decide) htext
    rw [ha] at hmore
    obtain ⟨more, rfl, hbehind⟩ := exists_of_tidy (by decide) hmore
    rw [hs] at hbehind
    cases more with
    | nil => cases hbehind
    | cons d more =>
      cases hd : Text.isBlank d with
      | false =>
        rw [tidy_char hd] at hbehind
        rw [(List.cons.inj hbehind).1, hc] at hd
        cases hd
      | true =>
        rw [tidy_blank rfl hd] at hbehind
        obtain ⟨-, rfl⟩ := List.cons.inj hbehind
        rw [trimStart_tidy] at hrest
        obtain ⟨after, hafter, -⟩ := exists_of_tidy (by decide) hrest
        rw [Text.trimStart_trimStart] at hafter
        exact ⟨d, more, after, rfl, hd, hafter⟩
  · rintro ⟨c, rest, rest', rfl, hc, hrest⟩
    rw [tidy_char (by decide), ha, tidy_char (by decide), hs, tidy_blank rfl hc, hrest,
      tidy_char (by decide), hbar]
    exact ⟨' ', _, _, rfl, hspace, Text.trimStart_cons_of_not_blank _ (by decide)⟩

/-! ### Expressions and arguments -/

def tidyRest {α : Type} (read : α × List Char) : α × List Char := (read.1, tidy .between read.2)

def tidyArguments (read : List Expression × Hash × List Char) :
    List Expression × Hash × List Char :=
  (read.1, read.2.1, tidy .between read.2.2)

theorem readString_tidy {quote : Char} (hquote : quote = '"' ∨ quote = '\'') (cs : List Char) :
    Echoes tidyRest (readString quote cs) (readString quote (tidy (.string quote) cs)) := by
  rw [readString, readString, takeString_tidy hquote]
  cases takeString quote cs with
  | none => exact .halt _ _ _
  | some read => exact .pure _

theorem readBare_tidy {cs : List Char} (h : ∀ c ∈ cs.head?, c ≠ '"' ∧ c ≠ '\'') :
    Echoes tidyRest (readBare cs) (readBare (tidy .between cs)) := by
  have htoken := takeToken_tidy false cs
  rw [Spot.ofBracket, if_neg Bool.false_ne_true, tidy_token h] at htoken
  rw [readBare, readBare, htoken]
  generalize takeToken false cs = cut
  obtain ⟨token, rest⟩ := cut
  dsimp only
  split
  · exact .halt _ _ _
  · cases literal? token with
    | some value => exact .pure _
    | none =>
      have hnumber : Echoes id nextId nextId := fun first => rfl
      refine hnumber.bind fun number => ?_
      rw [id_eq]
      cases Path.ofToken? number token with
      | some path => exact .pure _
      | none => exact .halt _ _ _

def closeCall (callee : Expression) (params : List Expression) (hash : Hash) :
    List Char → ReadM (Expression × List Char)
  | ')' :: rest => pure (.call callee params hash, rest)
  | _ :: rest => halt .unterminatedCall rest
  | [] => halt .unterminatedCall []

theorem closeCall_of_ne {c : Char} (h : c ≠ ')') (callee : Expression) (params : List Expression)
    (hash : Hash) (rest : List Char) :
    closeCall callee params hash (c :: rest) = halt .unterminatedCall rest := by
  rw [closeCall.eq_def]
  split
  · next heq => exact absurd (List.cons.inj heq).1 h
  · next heq => rw [(List.cons.inj heq).2]
  · next heq => cases heq

theorem readWith_paren (fuel : Nat) (cs : List Char) :
    readWith (fuel + 1) ('(' :: cs) = (do
      let (callee, rest) ← readWith fuel (Text.trimStart cs)
      let (params, hash, rest) ← readArguments fuel false rest
      closeCall callee params hash (Text.trimStart rest)) := by
  rw [readWith.eq_def]
  rfl

def readArgument (fuel : Nat) (named : Bool) (cs : List Char) :
    ReadM (List Expression × Hash × List Char) :=
  if atBlockParameters cs then halt .blockParameters cs
  else
    match takeKey? cs with
    | some (key, rest) => do
      let (value, rest) ← readWith fuel rest
      let (params, hash, rest) ← readArguments fuel true rest
      pure (params, (key, value) :: hash, rest)
    | none =>
      if named then halt .positionalAfterHash cs
      else do
        let (param, rest) ← readWith fuel cs
        let (params, hash, rest) ← readArguments fuel false rest
        pure (param :: params, hash, rest)

theorem readArguments_of_nil {cs : List Char} (h : Text.trimStart cs = []) (fuel : Nat)
    (named : Bool) : readArguments (fuel + 1) named cs = pure ([], [], []) := by
  rw [readArguments.eq_def]
  dsimp only
  rw [h]

theorem readArguments_of_close {cs rest : List Char} (h : Text.trimStart cs = ')' :: rest)
    (fuel : Nat) (named : Bool) :
    readArguments (fuel + 1) named cs = pure ([], [], ')' :: rest) := by
  rw [readArguments.eq_def]
  dsimp only
  rw [h]
  rfl

theorem readArguments_of_argument {c : Char} {cs rest : List Char}
    (h : Text.trimStart cs = c :: rest) (hc : c ≠ ')') (fuel : Nat) (named : Bool) :
    readArguments (fuel + 1) named cs = readArgument fuel named (c :: rest) := by
  rw [readArguments.eq_def]
  dsimp only
  rw [h, readArgument]
  split
  · next heq => cases heq
  · next heq => exact absurd (List.cons.inj heq).1 hc
  · rfl

/-- With some fuel the readers of expressions and arguments read tidied texts alike. -/
structure ReadsTidied (fuel : Nat) : Prop where
  one : ∀ cs, Echoes tidyRest (readWith fuel cs) (readWith fuel (tidy .between cs))
  many : ∀ named cs,
    Echoes tidyArguments (readArguments fuel named cs) (readArguments fuel named (tidy .between cs))

namespace ReadsTidied

variable {fuel : Nat}

theorem close (callee : Expression) (params : List Expression) (hash : Hash) (cs : List Char) :
    Echoes tidyRest (closeCall callee params hash (Text.trimStart cs))
      (closeCall callee params hash (tidy .between (Text.trimStart cs))) := by
  have hafter : Spot.between.after ')' = .between := rfl
  rcases Text.trimStart_cases cs with hcs | ⟨c, rest, hc, hcs⟩
  · rw [hcs]
    exact .halt _ _ _
  · rw [hcs, tidy_char hc]
    by_cases hclose : c = ')'
    · subst hclose
      rw [hafter]
      exact .pure _
    · rw [closeCall_of_ne hclose, closeCall_of_ne hclose]
      exact .halt _ _ _

theorem quoted {quote : Char} (hquote : quote = '"' ∨ quote = '\'') (cs : List Char) :
    Echoes tidyRest (readWith (fuel + 1) (quote :: cs))
      (readWith (fuel + 1) (tidy .between (quote :: cs))) := by
  have hblank : Text.isBlank quote = false := by
    rcases hquote with rfl | rfl <;> decide
  have hafter : Spot.between.after quote = .string quote := if_pos hquote
  rw [tidy_char hblank, hafter]
  have hread := readString_tidy hquote cs
  rcases hquote with rfl | rfl
  · rw [readWith.eq_def, readWith.eq_def]
    refine hread.bind ?_
    rintro ⟨value, rest⟩
    exact .pure _
  · rw [readWith.eq_def, readWith.eq_def]
    refine hread.bind ?_
    rintro ⟨value, rest⟩
    exact .pure _

theorem call (ih : ReadsTidied fuel) (cs : List Char) :
    Echoes tidyRest (readWith (fuel + 1) ('(' :: cs))
      (readWith (fuel + 1) (tidy .between ('(' :: cs))) := by
  have hafter : Spot.between.after '(' = .between := rfl
  rw [tidy_char (by decide), hafter, readWith_paren, readWith_paren, trimStart_tidy]
  refine (ih.one _).bind ?_
  rintro ⟨callee, rest⟩
  refine (ih.many false rest).bind ?_
  rintro ⟨params, hash, rest'⟩
  dsimp only [tidyArguments]
  rw [trimStart_tidy]
  exact close callee params hash rest'

theorem of_expression (ih : ReadsTidied fuel) (cs : List Char) :
    Echoes tidyRest (readWith (fuel + 1) cs) (readWith (fuel + 1) (tidy .between cs)) := by
  by_cases hparen : ∃ ds, cs = '(' :: ds
  · obtain ⟨ds, rfl⟩ := hparen
    exact ih.call ds
  · by_cases hquoted : ∃ quote ds, cs = quote :: ds ∧ (quote = '"' ∨ quote = '\'')
    · obtain ⟨quote, ds, rfl, hquote⟩ := hquoted
      exact quoted hquote ds
    · have hhead : ∀ c ∈ cs.head?, c ≠ '(' ∧ c ≠ '"' ∧ c ≠ '\'' := by
        intro c hc
        obtain ⟨ds, rfl⟩ := List.head?_eq_some_iff.1 hc
        exact ⟨fun hc => hparen ⟨ds, by rw [hc]⟩, fun hc => hquoted ⟨c, ds, rfl, .inl hc⟩,
          fun hc => hquoted ⟨c, ds, rfl, .inr hc⟩⟩
      have hhead' : ∀ c ∈ (tidy .between cs).head?, c ≠ '(' ∧ c ≠ '"' ∧ c ≠ '\'' := by
        intro c hc
        rcases head?_tidy .between c hc with hc | rfl
        · exact hhead c hc
        · decide
      rw [readWith_eq_readBare hhead, readWith_eq_readBare hhead']
      exact readBare_tidy fun c hc => (hhead c hc).2

theorem argument (ih : ReadsTidied fuel) (named : Bool) (cs : List Char) :
    Echoes tidyArguments (readArgument fuel named cs)
      (readArgument fuel named (tidy .between cs)) := by
  rw [readArgument, readArgument, atBlockParameters_tidy, takeKey?_tidy]
  split
  · exact .halt _ _ _
  · cases takeKey? cs with
    | some found =>
      obtain ⟨key, rest⟩ := found
      refine (ih.one rest).bind ?_
      rintro ⟨value, rest'⟩
      refine (ih.many true rest').bind ?_
      rintro ⟨params, hash, rest''⟩
      exact .pure _
    | none =>
      rw [Option.map_none]
      dsimp only
      split
      · exact .halt _ _ _
      · refine (ih.one cs).bind ?_
        rintro ⟨param, rest⟩
        refine (ih.many false rest).bind ?_
        rintro ⟨params, hash, rest'⟩
        exact .pure _

theorem of_arguments (ih : ReadsTidied fuel) (named : Bool) (cs : List Char) :
    Echoes tidyArguments (readArguments (fuel + 1) named cs)
      (readArguments (fuel + 1) named (tidy .between cs)) := by
  have htrim := trimStart_tidy cs
  rcases Text.trimStart_cases cs with hcs | ⟨c, rest, hc, hcs⟩
  · rw [hcs] at htrim
    rw [readArguments_of_nil hcs, readArguments_of_nil htrim]
    exact .pure _
  · rw [hcs, tidy_char hc] at htrim
    by_cases hclose : c = ')'
    · subst hclose
      rw [readArguments_of_close hcs, readArguments_of_close htrim, ← tidy_char hc]
      exact .pure _
    · rw [readArguments_of_argument hcs hclose, readArguments_of_argument htrim hclose,
        ← tidy_char hc]
      exact ih.argument named (c :: rest)

end ReadsTidied

theorem readsTidied (fuel : Nat) : ReadsTidied fuel := by
  induction fuel with
  | zero =>
    exact ⟨fun cs => .halt _ _ _, fun named cs => .halt _ _ _⟩
  | succ fuel ih => exact ⟨ih.of_expression, ih.of_arguments⟩

/-! ### Calls -/

theorem readArguments_tidy (named : Bool) (cs : List Char) :
    Echoes tidyArguments (readArguments (fuelFor cs) named cs)
      (readArguments (fuelFor (tidy .between cs)) named (tidy .between cs)) := by
  have hlength := length_tidy_le .between cs
  refine ((readsTidied (fuelFor cs)).many named cs).of_run (fun _ => rfl) fun first => ?_
  exact run_readArguments_fuel (by rw [fuelFor]; omega) (by rw [fuelFor]; omega) named first

theorem readArguments_stops (fuel : Nat) (named : Bool) (cs : List Char) :
    Yields (readArguments fuel named cs) fun read =>
      ∀ c ∈ read.2.2.head?, Text.isBlank c = false := by
  have steps : ReadSteps (fun _ _ _ => True)
      (fun _ _ _ rest => ∀ c ∈ rest.head?, Text.isBlank c = false) :=
    { call := fun _ _ _ => trivial
      string := fun _ _ _ _ _ _ => trivial
      bare := fun _ _ _ _ _ => trivial
      stop := fun cs => by
        rcases Text.trimStart_cases cs with hcs | ⟨c, rest, hc, hcs⟩
        · rw [hcs]
          nofun
        · rw [hcs]
          rintro d ⟨⟩
          exact hc
      named := fun _ _ hmore => hmore
      positional := fun _ hmore => hmore }
  exact steps.yields_readArguments fuel named cs

/-- A reader that answers at the end of the text only. -/
def atEnd {α : Type} (answer : α) : List Char → ReadM α
  | [] => pure answer
  | c :: rest => halt (.unexpected c) (c :: rest)

theorem atEnd_tidy {α : Type} (answer : α) {cs : List Char}
    (h : ∀ c ∈ cs.head?, Text.isBlank c = false) :
    Echoes id (atEnd answer cs) (atEnd answer (tidy .between cs)) := by
  cases cs with
  | nil => exact .pure _
  | cons c cs =>
    rw [tidy_char (h c rfl)]
    exact .halt _ _ _

def readCallWith (fuel : Nat) (cs : List Char) : ReadM (Expression × List Expression × Hash) := do
  let (head, rest) ← readWith fuel (Text.trimStart cs)
  let (params, hash, rest) ← readArguments (fuelFor rest) false rest
  atEnd (head, params, hash) rest

theorem run_readCall {fuel : Nat} {cs : List Char} (h : cs.length < fuel) (first : Nat) :
    (readCall cs).run first = (readCallWith fuel cs).run first := by
  have htrim := Text.length_trimStart_le cs
  have hlarge : (Text.trimStart cs).length < fuelFor cs := by
    rw [fuelFor]
    omega
  refine run_bind_congr (run_readWith_fuel hlarge (by omega) first)
    (readWith_shortens (fuelFor cs) _) ?_
  rintro ⟨head, rest⟩ hshorter middle
  dsimp only at hshorter ⊢
  have henough : rest.length + 1 < fuelFor cs := by
    rw [fuelFor]
    omega
  have hown : rest.length + 1 < fuelFor rest := Nat.lt_succ_self _
  have hany : Yields (readArguments (fuelFor cs) false rest) fun _ => True := fun _ _ _ _ => trivial
  refine run_bind_congr (run_readArguments_fuel henough hown false middle) hany ?_
  rintro ⟨params, hash, rest'⟩ - last
  cases rest' <;> rfl

theorem readCall_tidy (cs : List Char) :
    Echoes id (readCall cs) (readCall (tidy .between cs)) := by
  have hlength := length_tidy_le .between cs
  have htidied : Echoes id (readCallWith (cs.length + 1) cs)
      (readCallWith (cs.length + 1) (tidy .between cs)) := by
    rw [readCallWith, readCallWith, trimStart_tidy]
    refine ((readsTidied _).one _).bind ?_
    rintro ⟨head, rest⟩
    refine (readArguments_tidy false rest).bind_of_yields (readArguments_stops _ false rest) ?_
    rintro ⟨params, hash, rest'⟩ hstop
    exact atEnd_tidy _ hstop
  exact htidied.of_run (run_readCall (Nat.lt_succ_self _)) (run_readCall (by omega))

end Expression

end MustacheJsx
