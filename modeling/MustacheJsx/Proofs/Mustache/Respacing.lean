import MustacheJsx.Proofs.Mustache.Spacing

/-!
# Calls with squeezed blanks

A call whose blanks are squeezed is read step by step as the call itself is. It has as many
arguments, of the same names and shapes, and it is the same call exactly if the blanks in its
strings and brackets are lone spaces: `readCall_squeeze`.
-/

namespace MustacheJsx

namespace Expression

open Text (squeeze)

/-! ### Paths -/

theorem takeToken_takeToken (bracket : Bool) (cs : List Char) :
    takeToken bracket (takeToken bracket cs).1 = ((takeToken bracket cs).1, []) := by
  induction cs generalizing bracket with
  | nil => rfl
  | cons c cs ih =>
    rw [takeToken]
    split
    · next hbracket =>
      rw [takeToken, if_pos hbracket, ih]
    · split
      · next hbracket hopen =>
        rw [takeToken, if_neg hbracket, if_pos hopen, ih]
      · split
        · next hbracket hopen hends =>
          rfl
        · next hbracket hopen hends =>
          rw [takeToken, if_neg hbracket, if_neg hopen, if_neg hends, ih]

/-- A text that is a token as a whole. -/
def IsToken (bracket : Bool) (cs : List Char) : Prop := takeToken bracket cs = (cs, [])

namespace IsToken

variable {bracket : Bool} {c : Char} {cs : List Char}

theorem of_bracket (h : IsToken true (c :: cs)) : IsToken (c != ']') cs := by
  rw [IsToken, takeToken, if_pos rfl] at h
  exact Prod.ext (List.cons.inj (Prod.mk.inj h).1).2 (Prod.mk.inj h).2

theorem of_open (h : IsToken false ('[' :: cs)) : IsToken true cs := by
  rw [IsToken, takeToken, if_neg Bool.false_ne_true, if_pos rfl] at h
  exact Prod.ext (List.cons.inj (Prod.mk.inj h).1).2 (Prod.mk.inj h).2

theorem of_char (h : IsToken false (c :: cs)) (hc : c ≠ '[') :
    endsToken c = false ∧ IsToken false cs := by
  rw [IsToken, takeToken, if_neg Bool.false_ne_true, if_neg hc] at h
  split at h
  · cases h
  · next hends =>
    exact ⟨Bool.eq_false_iff.2 hends,
      Prod.ext (List.cons.inj (Prod.mk.inj h).1).2 (Prod.mk.inj h).2⟩

theorem of_append (before : List Char) (h : IsToken false (before ++ cs))
    (hbefore : '[' ∉ before) : IsToken false cs := by
  induction before with
  | nil => exact h
  | cons c before ih =>
    obtain ⟨hc, hmore⟩ := not_or.1 (mt List.mem_cons.2 hbefore)
    exact ih (h.of_char (Ne.symm hc)).2 hmore

theorem isBlank (h : IsToken false (c :: cs)) : Text.isBlank c = false := by
  by_cases hc : c = '['
  · rw [hc]
    rfl
  · rw [Bool.eq_false_iff]
    intro hblank
    have hends := (h.of_char hc).1
    rw [endsToken_of_isBlank hblank] at hends
    cases hends

end IsToken

theorem IsToken.not_endsToken {cs : List Char} (h : IsToken false cs) (hopen : '[' ∉ cs) :
    ∀ c ∈ cs, endsToken c = false := by
  induction cs with
  | nil => nofun
  | cons c cs ih =>
    obtain ⟨hc, hmore⟩ := not_or.1 (mt List.mem_cons.2 hopen)
    obtain ⟨hends, hcs⟩ := h.of_char (Ne.symm hc)
    exact List.forall_mem_cons.2 ⟨hends, ih hcs hmore⟩

theorem IsToken.eq_nil_of_squeeze {cs : List Char} (h : IsToken false cs)
    (hnil : squeeze cs = []) : cs = [] := by
  cases cs with
  | nil => rfl
  | cons c cs =>
    rw [Text.squeeze_char h.isBlank] at hnil
    cases hnil

theorem IsToken.exists_of_squeeze {cs rest : List Char} (h : IsToken false cs) (word : List Char)
    (hword : ∀ c ∈ word, Text.isBlank c = false ∧ c ≠ '[') (hsqueeze : squeeze cs = word ++ rest) :
    ∃ more, cs = word ++ more ∧ squeeze more = rest ∧ IsToken false more := by
  obtain ⟨more, rfl, hmore⟩ :=
    Text.exists_of_squeeze_append (fun c hc => (hword c hc).1) hsqueeze
  exact ⟨more, rfl, hmore, h.of_append word fun hmem => (hword _ hmem).2 rfl⟩

theorem IsToken.eq_of_squeeze {cs word : List Char} (h : IsToken false cs)
    (hword : ∀ c ∈ word, Text.isBlank c = false ∧ c ≠ '[') (hsqueeze : squeeze cs = word) :
    cs = word := by
  obtain ⟨more, rfl, hmore, htoken⟩ :=
    h.exists_of_squeeze word hword (hsqueeze.trans (List.append_nil word).symm)
  rw [htoken.eq_nil_of_squeeze hmore, List.append_nil]

theorem IsToken.of_unbracketed {cs rest : List Char} (h : IsToken false cs)
    (hrest : Unbracketed cs rest) : IsToken false rest := by
  obtain ⟨before, rfl, hbefore⟩ := hrest
  exact h.of_append before hbefore

theorem dataMark_squeeze {cs : List Char} (h : IsToken false cs) :
    (Path.dataMark (squeeze cs)).2 = squeeze (Path.dataMark cs).2 := by
  cases cs with
  | nil => rfl
  | cons c cs =>
    rw [Text.squeeze_char h.isBlank]
    by_cases hc : c = '@'
    · subst hc
      rfl
    · have hne : ∀ {more : List Char}, ∀ d ∈ (c :: more).head?, d ≠ '@' := by
        rintro more d ⟨⟩
        exact hc
      rw [Path.dataMark_of_ne hne, Path.dataMark_of_ne hne]
      exact (Text.squeeze_char h.isBlank cs).symm

theorem parentSteps_squeeze {cs : List Char} (h : IsToken false cs) :
    (Path.parentSteps (squeeze cs)).2 = squeeze (Path.parentSteps cs).2 := by
  fun_induction Path.parentSteps cs with
  | case1 cs depth rest hrest ih =>
    have htoken : IsToken false cs := h.of_append ['.', '.', '/'] (by decide)
    rw [Text.squeeze_char (by decide), Text.squeeze_char (by decide), Text.squeeze_char (by decide),
      Path.parentSteps]
    rw [hrest] at ih
    exact ih htoken
  | case2 => rfl
  | case3 cs hmore hlast =>
    rw [Path.parentSteps.eq_def]
    split
    · next rest heq =>
      obtain ⟨more, rfl, -⟩ := h.exists_of_squeeze ['.', '.', '/'] (by decide) heq
      exact absurd rfl (hmore more)
    · next heq => exact absurd (h.eq_of_squeeze (by decide) heq) hlast
    · rfl

theorem afterThis_squeeze {cs : List Char} (h : IsToken false cs) :
    Path.afterThis (squeeze cs) = squeeze (Path.afterThis cs) := by
  rw [Path.afterThis.eq_def cs]
  split
  · rfl
  · rfl
  · rfl
  · rfl
  · rfl
  · next hdot hthis hslash hthisDot hthisSlash =>
    rw [Path.afterThis.eq_def]
    split
    · next heq => exact absurd (h.eq_of_squeeze (by decide) heq) hdot
    · next heq => exact absurd (h.eq_of_squeeze (by decide) heq) hthis
    · next rest heq =>
      obtain ⟨more, rfl, -⟩ := h.exists_of_squeeze ['.', '/'] (by decide) heq
      exact absurd rfl (hslash more)
    · next rest heq =>
      obtain ⟨more, rfl, -⟩ :=
        h.exists_of_squeeze ['t', 'h', 'i', 's', '.'] (by decide) heq
      exact absurd rfl (hthisDot more)
    · next rest heq =>
      obtain ⟨more, rfl, -⟩ :=
        h.exists_of_squeeze ['t', 'h', 'i', 's', '/'] (by decide) heq
      exact absurd rfl (hthisSlash more)
    · rfl

/-- Whether segments can be read does not depend on the text of the unfinished one. -/
theorem isSome_segmentsAfter_congr {current current' : List Char}
    (h : current.isEmpty = current'.isEmpty) (bracket : Bool) (cs : List Char) :
    (Path.segmentsAfter current bracket cs).isSome =
      (Path.segmentsAfter current' bracket cs).isSome := by
  induction cs generalizing current current' bracket with
  | nil =>
    rw [Path.segmentsAfter, Path.segmentsAfter, h]
    split <;> rfl
  | cons c cs ih =>
    have hcons : (c :: current).isEmpty = (c :: current').isEmpty := rfl
    rw [Path.segmentsAfter, Path.segmentsAfter, h]
    split
    · split
      · exact ih h false
      · exact ih hcons true
    · split
      · exact ih h true
      · split
        · split
          · rfl
          · rw [Option.isSome_map, Option.isSome_map]
        · exact ih hcons false

theorem isSome_segmentsAfter_blank {c : Char} {cs current : List Char}
    (hc : Text.isBlank c = true)
    (h : ∀ current, (Path.segmentsAfter (' ' :: current) true (squeeze cs)).isSome = true) :
    (Path.segmentsAfter current true (squeeze (c :: cs))).isSome = true := by
  have hne : squeeze cs ≠ [] := by
    intro hnil
    have hsome := h current
    rw [hnil] at hsome
    cases hsome
  have hspace : ∀ current ds, Path.segmentsAfter current true (' ' :: ds) =
      Path.segmentsAfter (' ' :: current) true ds := fun current ds => by
    rw [Path.segmentsAfter, if_pos rfl, if_neg (by decide)]
  rcases Text.squeeze_run hc hne with ⟨hrun, -⟩ | ⟨ds, hrun, hds, -⟩
  · rw [hrun, hspace]
    exact h current
  · have hspaces : (' ' :: current).isEmpty = (' ' :: ' ' :: current).isEmpty := rfl
    have hsome := h current
    rw [hds, hspace] at hsome
    rw [hrun, hspace, isSome_segmentsAfter_congr hspaces]
    exact hsome

theorem isSome_segmentsAfter_squeeze {bracket : Bool} {cs : List Char} (hcs : IsToken bracket cs)
    {current current' : List Char} (hcurrent : current.isEmpty = current'.isEmpty)
    (h : (Path.segmentsAfter current bracket cs).isSome = true) :
    (Path.segmentsAfter current' bracket (squeeze cs)).isSome = true := by
  induction cs generalizing bracket current current' with
  | nil =>
    rw [isSome_segmentsAfter_congr hcurrent] at h
    exact h
  | cons c cs ih =>
    have hcons : ∀ {d : Char} {current'}, (c :: current).isEmpty = (d :: current').isEmpty := rfl
    rw [Path.segmentsAfter] at h
    cases bracket with
    | true =>
      have hmore := hcs.of_bracket
      rw [if_pos rfl] at h
      by_cases hclose : c = ']'
      · subst hclose
        rw [if_pos rfl] at h
        rw [Text.squeeze_char (by decide), Path.segmentsAfter, if_pos rfl, if_pos rfl]
        exact ih hmore hcurrent h
      · rw [if_neg hclose] at h
        rw [bne_iff_ne.2 hclose] at hmore
        cases hc : Text.isBlank c with
        | false =>
          rw [Text.squeeze_char hc, Path.segmentsAfter, if_pos rfl, if_neg hclose]
          exact ih hmore hcons h
        | true => exact isSome_segmentsAfter_blank hc fun current => ih hmore hcons h
    | false =>
      rw [if_neg Bool.false_ne_true] at h
      rw [Text.squeeze_char hcs.isBlank, Path.segmentsAfter, if_neg Bool.false_ne_true]
      split
      · next hopen =>
        subst hopen
        exact ih hcs.of_open hcurrent h
      · next hopen =>
        rw [if_neg hopen] at h
        have hmore := (hcs.of_char hopen).2
        split
        · next hmark =>
          rw [if_pos hmark] at h
          rw [← hcurrent]
          split
          · next hempty =>
            rw [if_pos hempty] at h
            cases h
          · next hempty =>
            rw [if_neg hempty, Option.isSome_map] at h
            rw [Option.isSome_map]
            exact ih hmore rfl h
        · next hmark =>
          rw [if_neg hmark] at h
          exact ih hmore hcons h

theorem isSome_pathOfToken?_squeeze {token : List Char} (htoken : IsToken false token) {id : Nat}
    (h : (Path.ofToken? id token).isSome = true) :
    (Path.ofToken? id (squeeze token)).isSome = true := by
  have hdata := htoken.of_unbracketed (unbracketed_dataMark token)
  have hsteps := hdata.of_unbracketed (unbracketed_parentSteps _)
  have hparts := hsteps.of_unbracketed (unbracketed_afterThis _)
  rw [Path.ofToken?, Option.isSome_map] at h ⊢
  rw [dataMark_squeeze htoken, parentSteps_squeeze hdata, afterThis_squeeze hsteps]
  cases hcs : Path.afterThis (Path.parentSteps (Path.dataMark token).2).2 with
  | nil => rfl
  | cons c cs =>
    rw [hcs] at h hparts
    have hsome := isSome_segmentsAfter_squeeze hparts rfl h
    rw [Text.squeeze_char hparts.isBlank] at hsome ⊢
    exact hsome

/-- A token is read as the same expression only if it is the same token. -/
theorem ofToken?_squeeze {token : List Char} (htoken : IsToken false token) {first last : Nat}
    {e : Expression} (h : ofToken? token first = some (e, last)) :
    ∃ e', ofToken? (squeeze token) first = some (e', last) ∧ (e' = e ↔ squeeze token = token) := by
  by_cases hsame : squeeze token = token
  · exact ⟨e, by rw [hsame, h], iff_of_true rfl hsame⟩
  -- A blank that was dropped stood in a bracket, so the token is a path.
  · obtain ⟨c, hc, hblank⟩ : ∃ c ∈ token, Text.isBlank c = true := by
      by_contra hnone
      refine hsame (Text.squeeze_eq_self fun c hc => ?_)
      rw [Bool.eq_false_iff]
      exact fun hblank => hnone ⟨c, hc, hblank⟩
    have hopen : '[' ∈ token := by
      by_contra hnot
      have hends := htoken.not_endsToken hnot c hc
      rw [endsToken_of_isBlank hblank] at hends
      cases hends
    have hliteral : ∀ {token}, '[' ∈ token → literal? token = none :=
      literal?_of_mem (by decide) (by decide)
    have hpath : ∀ {token}, '[' ∈ token → ofToken? token first =
        (Path.ofToken? first token).map fun path => (.path path, first + 1) := by
      intro token hmem
      have hempty : ¬ token.isEmpty = true := fun hnil => by
        rw [List.isEmpty_iff.1 hnil] at hmem
        cases hmem
      rw [ofToken?, if_neg hempty, hliteral hmem]
    rw [hpath hopen] at h
    obtain ⟨path, hread, hpair⟩ := Option.map_eq_some_iff.1 h
    cases hpair
    obtain ⟨path', hread'⟩ := Option.isSome_iff_exists.1
      (isSome_pathOfToken?_squeeze htoken (by rw [hread]; rfl))
    refine ⟨.path path', by rw [hpath (Text.mem_squeeze (by decide) hopen), hread']; rfl, ?_⟩
    refine iff_of_false (fun heq => hsame ?_) hsame
    obtain rfl := Expression.path.inj heq
    have hspelling := (Path.spelling_of_ofToken? hread').1.symm.trans
      (Path.spelling_of_ofToken? hread).1
    exact String.ofList_injective hspelling

/-! ### Named arguments and block parameters -/

theorem squeeze_isKeyChar (cs : List Char) :
    (squeeze cs).takeWhile isKeyChar = cs.takeWhile isKeyChar ∧
      (squeeze cs).dropWhile isKeyChar = squeeze (cs.dropWhile isKeyChar) := by
  have hspace : ¬ isKeyChar ' ' = true := by decide
  induction cs with
  | nil => exact ⟨rfl, rfl⟩
  | cons c cs ih =>
    by_cases hkey : isKeyChar c = true
    · rw [Text.squeeze_char (isBlank_of_isKeyChar hkey), List.takeWhile_cons_of_pos hkey,
        List.takeWhile_cons_of_pos hkey, List.dropWhile_cons_of_pos hkey,
        List.dropWhile_cons_of_pos hkey]
      exact ⟨congrArg (c :: ·) ih.1, ih.2⟩
    · rw [List.takeWhile_cons_of_neg hkey, List.dropWhile_cons_of_neg hkey]
      cases hc : Text.isBlank c with
      | false =>
        rw [Text.squeeze_char hc, List.takeWhile_cons_of_neg hkey,
          List.dropWhile_cons_of_neg hkey]
        exact ⟨rfl, rfl⟩
      | true =>
        rcases Text.squeeze_blank hc cs with ⟨-, h⟩ | ⟨d, rest, -, -, h⟩ | ⟨d, rest, -, -, h⟩
        · rw [h]
          exact ⟨rfl, rfl⟩
        · rw [h, List.takeWhile_cons_of_neg hspace, List.dropWhile_cons_of_neg hspace]
          exact ⟨rfl, rfl⟩
        · rw [h, List.takeWhile_cons_of_neg hspace, List.dropWhile_cons_of_neg hspace]
          exact ⟨rfl, rfl⟩

theorem takeKey?_squeeze (cs : List Char) :
    takeKey? (squeeze cs) = (takeKey? cs).map fun named => (named.1, squeeze named.2) := by
  obtain ⟨htake, hdrop⟩ := squeeze_isKeyChar cs
  have htrim : Text.trimStart ((squeeze cs).dropWhile isKeyChar) =
      squeeze (Text.trimStart (cs.dropWhile isKeyChar)) := by
    rw [hdrop, Text.trimStart_squeeze]
  by_cases hvalue : ∃ rest, Text.trimStart (cs.dropWhile isKeyChar) = '=' :: rest
  · obtain ⟨rest, hrest⟩ := hvalue
    rw [hrest, Text.squeeze_char (by decide)] at htrim
    rw [takeKey?_of_equals hrest, takeKey?_of_equals htrim, htake, Text.trimStart_squeeze]
    split <;> rfl
  · rw [takeKey?_of_not_equals fun rest heq => hvalue ⟨rest, heq⟩, takeKey?_of_not_equals]
    · rfl
    · intro rest heq
      rw [htrim] at heq
      obtain ⟨more, hmore, -⟩ := Text.exists_of_squeeze heq (by decide)
      exact hvalue ⟨more, hmore⟩

theorem after_isKeyChar {c : Char} (h : isKeyChar c = true) : Spot.token.after c = .token := by
  have hne : ∀ {d : Char}, isKeyChar d = false → c ≠ d := by
    rintro d hd rfl
    rw [h] at hd
    cases hd
  have hends : ¬ endsToken c = true := by
    simp [endsToken, isBlank_of_isKeyChar h, hne (d := '(') (by decide),
      hne (d := ')') (by decide), hne (d := '=') (by decide), hne (d := '|') (by decide),
      hne (d := '}') (by decide)]
  rw [Spot.after, Spot.afterBare, if_neg (hne (by decide)), if_neg hends]

theorem isSingleSpaced_dropWhile_isKeyChar (cs : List Char) :
    IsSingleSpaced .token (cs.dropWhile isKeyChar) ↔ IsSingleSpaced .token cs := by
  induction cs with
  | nil => exact Iff.rfl
  | cons c cs ih =>
    by_cases hc : isKeyChar c = true
    · rw [List.dropWhile_cons_of_pos hc, ih, isSingleSpaced_outside rfl, after_isKeyChar hc]
    · rw [List.dropWhile_cons_of_neg hc]

theorem isSingleSpaced_of_takeKey? {cs rest : List Char} {key : String}
    (h : takeKey? cs = some (key, rest)) :
    IsSingleSpaced .between cs ↔ IsSingleSpaced .between rest := by
  rw [takeKey?] at h
  split at h
  · next after hequals =>
    split at h
    · cases h
    · next hkey =>
      cases h
      have hfirst : ∀ c ∈ cs.head?, c ≠ '"' ∧ c ≠ '\'' := by
        cases cs with
        | nil =>
          intro c hc
          cases hc
        | cons c cs =>
          rintro d ⟨⟩
          constructor <;>
          · rintro rfl
            exact hkey rfl
      have hbehind : ∀ c ∈ (cs.dropWhile isKeyChar).head?, c ≠ '"' ∧ c ≠ '\'' := by
        cases hcs : cs.dropWhile isKeyChar with
        | nil =>
          intro c hc
          cases hc
        | cons c more =>
          rw [hcs] at hequals
          rintro d ⟨⟩
          constructor <;>
          · rintro rfl
            cases hequals
      have hmark : Spot.between.after '=' = .between := rfl
      rw [← isSingleSpaced_token_iff hfirst, ← isSingleSpaced_dropWhile_isKeyChar,
        isSingleSpaced_token_iff hbehind, ← isSingleSpaced_trimStart, hequals,
        isSingleSpaced_outside rfl, hmark, isSingleSpaced_trimStart]
  · cases h

theorem atBlockParameters_squeeze {cs : List Char} (h : atBlockParameters cs = false) :
    atBlockParameters (squeeze cs) = false := by
  rw [Bool.eq_false_iff]
  intro hblock
  rw [atBlockParameters.eq_def] at hblock
  split at hblock
  · next c rest heq =>
    obtain ⟨more, rfl, hmore⟩ :=
      Text.exists_of_squeeze_append (by decide : ∀ c ∈ ['a', 's'], Text.isBlank c = false) heq
    obtain ⟨hblank, hbar⟩ := Bool.and_eq_true_iff.1 hblock
    cases more with
    | nil => cases hmore
    | cons d more =>
      cases hd : Text.isBlank d with
      | false =>
        rw [Text.squeeze_char hd] at hmore
        rw [(List.cons.inj hmore).1, hblank] at hd
        cases hd
      | true =>
        -- The bar stands behind blanks in both texts.
        have htrim := Text.trimStart_squeeze (d :: more)
        rw [hmore, Text.trimStart, List.dropWhile_cons_of_pos hblank, ← Text.trimStart,
          Text.trimStart, Text.trimStart, List.dropWhile_cons_of_pos hd, ← Text.trimStart,
          ← Text.trimStart] at htrim
        obtain ⟨after, hafter⟩ := List.head?_eq_some_iff.1 (beq_iff_eq.1 hbar)
        rw [hafter] at htrim
        obtain ⟨behind, hbehind, -⟩ := Text.exists_of_squeeze htrim.symm (by decide)
        have hblock' : atBlockParameters (['a', 's'] ++ d :: more) = true := by
          show (Text.isBlank d && (Text.trimStart more).head? == some '|') = true
          rw [hd, hbehind]
          rfl
        rw [h] at hblock'
        cases hblock'
  · cases hblock

/-! ### Expressions and arguments -/

theorem eq_of_closing? {cs rest : List Char} (h : closing? cs = some rest) : cs = ')' :: rest := by
  rw [closing?.eq_def] at h
  split at h
  · cases h
    rfl
  · cases h

theorem readBare_squeeze {cs rest : List Char} {first last : Nat} {e : Expression}
    (hhead : ∀ c ∈ cs.head?, c ≠ '"' ∧ c ≠ '\'')
    (h : outcome (readBare cs) first = some ((e, rest), last)) :
    ∃ e', outcome (readBare (squeeze cs)) first = some ((e', squeeze rest), last) ∧
      (IsSingleSpaced .between cs ↔ e' = e ∧ IsSingleSpaced .between rest) := by
  rw [outcome_readBare] at h
  obtain ⟨⟨e, last⟩, htoken, hpair⟩ := Option.map_eq_some_iff.1 h
  cases hpair
  have hclosed : isOpenAfter false (takeToken false cs).1 = false := by
    rw [Bool.eq_false_iff]
    intro hopen
    rw [ofToken?_of_isOpenAfter hopen] at htoken
    cases htoken
  obtain ⟨htake, hiff⟩ := takeToken_squeeze hclosed
  obtain ⟨e', htoken', hsame⟩ := ofToken?_squeeze (takeToken_takeToken false cs) htoken
  refine ⟨e', ?_, ?_⟩
  · rw [outcome_readBare, htake]
    dsimp only
    rw [htoken']
    rfl
  · rw [← isSingleSpaced_token_iff hhead, hsame]
    exact hiff

theorem readWith_quote_squeeze {quote : Char} (hquote : quote = '"' ∨ quote = '\'') {fuel : Nat}
    {cs rest : List Char} {first last : Nat} {e : Expression}
    (h : outcome (readWith (fuel + 1) (quote :: cs)) first = some ((e, rest), last)) :
    ∃ e', outcome (readWith (fuel + 1) (squeeze (quote :: cs))) first =
        some ((e', squeeze rest), last) ∧
      (IsSingleSpaced .between (quote :: cs) ↔ e' = e ∧ IsSingleSpaced .between rest) := by
  have hblank : Text.isBlank quote = false := by
    rcases hquote with rfl | rfl <;> decide
  rw [outcome_readWith_quote hquote, outcome_readString] at h
  obtain ⟨read, hread, hpair⟩ := Option.map_eq_some_iff.1 h
  cases hpair
  obtain ⟨⟨value, rest⟩, hstring, hpair⟩ := Option.map_eq_some_iff.1 hread
  cases hpair
  obtain ⟨value', hstring', -, hiff⟩ := takeString_squeeze hquote hstring
  refine ⟨.literal (.string (String.ofList value')), ?_, ?_⟩
  · rw [Text.squeeze_char hblank, outcome_readWith_quote hquote, outcome_readString, hstring']
    rfl
  · rw [isSingleSpaced_outside rfl, Spot.after, if_pos hquote, hiff, Expression.literal.injEq,
      Literal.string.injEq, String.ofList_inj]

theorem readWith_bare_squeeze {fuel : Nat} {cs rest : List Char} {first last : Nat}
    {e : Expression} (hhead : ∀ c ∈ cs.head?, c ≠ '(' ∧ c ≠ '"' ∧ c ≠ '\'')
    (h : outcome (readWith (fuel + 1) cs) first = some ((e, rest), last)) :
    ∃ e', outcome (readWith (fuel + 1) (squeeze cs)) first = some ((e', squeeze rest), last) ∧
      (IsSingleSpaced .between cs ↔ e' = e ∧ IsSingleSpaced .between rest) := by
  have hhead' : ∀ c ∈ (squeeze cs).head?, c ≠ '(' ∧ c ≠ '"' ∧ c ≠ '\'' := by
    intro c hc
    rcases Text.head?_squeeze c hc with hc | rfl
    · exact hhead c hc
    · decide
  rw [readWith_eq_readBare hhead] at h
  rw [readWith_eq_readBare hhead']
  exact readBare_squeeze (fun c hc => (hhead c hc).2) h

/-- With some fuel the readers read expressions and arguments of the same names and shapes when
blanks are squeezed, and the same ones if the blanks that are text are lone spaces. -/
structure ReadsSqueezed (fuel : Nat) : Prop where
  one : ∀ {cs rest first last e},
    outcome (readWith fuel cs) first = some ((e, rest), last) →
    ∃ e', outcome (readWith fuel (squeeze cs)) first = some ((e', squeeze rest), last) ∧
      (IsSingleSpaced .between cs ↔ e' = e ∧ IsSingleSpaced .between rest)
  many : ∀ {named cs rest first last params hash},
    outcome (readArguments fuel named cs) first = some ((params, hash, rest), last) →
    ∃ params' hash', outcome (readArguments fuel named (squeeze cs)) first =
        some ((params', hash', squeeze rest), last) ∧
      (IsSingleSpaced .between cs ↔
        params' = params ∧ hash' = hash ∧ IsSingleSpaced .between rest)

namespace ReadsSqueezed

variable {fuel first last : Nat} {cs rest : List Char} {e : Expression}
  {params : List Expression} {hash : Hash}

theorem call (ih : ReadsSqueezed fuel)
    (h : outcome (readWith (fuel + 1) ('(' :: cs)) first = some ((e, rest), last)) :
    ∃ e', outcome (readWith (fuel + 1) (squeeze ('(' :: cs))) first =
        some ((e', squeeze rest), last) ∧
      (IsSingleSpaced .between ('(' :: cs) ↔ e' = e ∧ IsSingleSpaced .between rest) := by
  rw [outcome_readWith_paren] at h
  obtain ⟨⟨⟨callee, rest₁⟩, middle⟩, hcallee, h⟩ := Option.bind_eq_some_iff.1 h
  obtain ⟨⟨⟨params, hash, rest₂⟩, last'⟩, harguments, h⟩ := Option.bind_eq_some_iff.1 h
  obtain ⟨rest', hclose, hpair⟩ := Option.map_eq_some_iff.1 h
  cases hpair
  have hclose := eq_of_closing? hclose
  dsimp only at harguments hclose
  obtain ⟨callee', hcallee', hcalleeIff⟩ := ih.one hcallee
  obtain ⟨params', hash', harguments', hargumentsIff⟩ := ih.many harguments
  refine ⟨.call callee' params' hash', ?_, ?_⟩
  · rw [Text.squeeze_char (by decide), outcome_readWith_paren, Text.trimStart_squeeze, hcallee',
      Option.bind_some]
    dsimp only
    rw [harguments', Option.bind_some, closed]
    dsimp only
    rw [Text.trimStart_squeeze, hclose, Text.squeeze_char (by decide)]
    rfl
  · have hopening : Spot.between.after '(' = .between := rfl
    have hclosing : Spot.between.after ')' = .between := rfl
    rw [isSingleSpaced_outside rfl, hopening, ← isSingleSpaced_trimStart, hcalleeIff,
      hargumentsIff, ← isSingleSpaced_trimStart rest₂, hclose, isSingleSpaced_outside rfl,
      hclosing, Expression.call.injEq, and_assoc, and_assoc]

theorem named (ih : ReadsSqueezed fuel) {key : String} {after : List Char}
    (hkey : takeKey? cs = some (key, after))
    (h : ((outcome (readWith fuel after) first).bind fun value =>
      (outcome (readArguments fuel true value.1.2) value.2).map (withNamed key value.1.1)) =
      some ((params, hash, rest), last)) :
    ∃ params' hash', ((outcome (readWith fuel (squeeze after)) first).bind fun value =>
        (outcome (readArguments fuel true value.1.2) value.2).map (withNamed key value.1.1)) =
        some ((params', hash', squeeze rest), last) ∧
      (IsSingleSpaced .between cs ↔
        params' = params ∧ hash' = hash ∧ IsSingleSpaced .between rest) := by
  obtain ⟨⟨⟨value, rest₁⟩, middle⟩, hvalue, h⟩ := Option.bind_eq_some_iff.1 h
  obtain ⟨⟨⟨params, hash, rest₂⟩, last'⟩, hmore, hpair⟩ := Option.map_eq_some_iff.1 h
  cases hpair
  obtain ⟨value', hvalue', hvalueIff⟩ := ih.one hvalue
  obtain ⟨params', hash', hmore', hmoreIff⟩ := ih.many hmore
  refine ⟨params', (key, value') :: hash', ?_, ?_⟩
  · rw [hvalue', Option.bind_some]
    dsimp only
    rw [hmore']
    rfl
  · rw [isSingleSpaced_of_takeKey? hkey, hvalueIff, hmoreIff, List.cons.injEq, Prod.mk.injEq,
      and_iff_right rfl]
    constructor
    · rintro ⟨hsame, hparams, hhash, hrest⟩
      exact ⟨hparams, ⟨hsame, hhash⟩, hrest⟩
    · rintro ⟨hparams, ⟨hsame, hhash⟩, hrest⟩
      exact ⟨hsame, hparams, hhash, hrest⟩

theorem positional (ih : ReadsSqueezed fuel)
    (h : ((outcome (readWith fuel cs) first).bind fun param =>
      (outcome (readArguments fuel false param.1.2) param.2).map (withParam param.1.1)) =
      some ((params, hash, rest), last)) :
    ∃ params' hash', ((outcome (readWith fuel (squeeze cs)) first).bind fun param =>
        (outcome (readArguments fuel false param.1.2) param.2).map (withParam param.1.1)) =
        some ((params', hash', squeeze rest), last) ∧
      (IsSingleSpaced .between cs ↔
        params' = params ∧ hash' = hash ∧ IsSingleSpaced .between rest) := by
  obtain ⟨⟨⟨param, rest₁⟩, middle⟩, hparam, h⟩ := Option.bind_eq_some_iff.1 h
  obtain ⟨⟨⟨params, hash, rest₂⟩, last'⟩, hmore, hpair⟩ := Option.map_eq_some_iff.1 h
  cases hpair
  obtain ⟨param', hparam', hparamIff⟩ := ih.one hparam
  obtain ⟨params', hash', hmore', hmoreIff⟩ := ih.many hmore
  refine ⟨param' :: params', hash', ?_, ?_⟩
  · rw [hparam', Option.bind_some]
    dsimp only
    rw [hmore']
    rfl
  · rw [hparamIff, hmoreIff, List.cons.injEq, and_assoc]

theorem argument (ih : ReadsSqueezed fuel) {named : Bool}
    (h : outcomeOfArgument fuel named cs first = some ((params, hash, rest), last)) :
    ∃ params' hash', outcomeOfArgument fuel named (squeeze cs) first =
        some ((params', hash', squeeze rest), last) ∧
      (IsSingleSpaced .between cs ↔
        params' = params ∧ hash' = hash ∧ IsSingleSpaced .between rest) := by
  rw [outcomeOfArgument] at h
  rw [outcomeOfArgument, takeKey?_squeeze]
  split at h
  · cases h
  · next hblock =>
    rw [atBlockParameters_squeeze (Bool.eq_false_iff.2 hblock), if_neg Bool.false_ne_true]
    cases hkey : takeKey? cs with
    | some found =>
      rw [hkey] at h
      exact ih.named hkey h
    | none =>
      rw [hkey] at h
      dsimp only at h
      split at h
      · cases h
      · next hnamed =>
        rw [Option.map_none]
        dsimp only
        rw [if_neg hnamed]
        exact ih.positional h

theorem of_expression (ih : ReadsSqueezed fuel)
    (h : outcome (readWith (fuel + 1) cs) first = some ((e, rest), last)) :
    ∃ e', outcome (readWith (fuel + 1) (squeeze cs)) first = some ((e', squeeze rest), last) ∧
      (IsSingleSpaced .between cs ↔ e' = e ∧ IsSingleSpaced .between rest) := by
  by_cases hparen : ∃ ds, cs = '(' :: ds
  · obtain ⟨ds, rfl⟩ := hparen
    exact ih.call h
  · by_cases hquoted : ∃ quote ds, cs = quote :: ds ∧ (quote = '"' ∨ quote = '\'')
    · obtain ⟨quote, ds, rfl, hquote⟩ := hquoted
      exact readWith_quote_squeeze hquote h
    · refine readWith_bare_squeeze (fun c hc => ?_) h
      obtain ⟨ds, rfl⟩ := List.head?_eq_some_iff.1 hc
      exact ⟨fun hc => hparen ⟨ds, by rw [hc]⟩, fun hc => hquoted ⟨c, ds, rfl, .inl hc⟩,
        fun hc => hquoted ⟨c, ds, rfl, .inr hc⟩⟩

theorem of_arguments (ih : ReadsSqueezed fuel) {named : Bool}
    (h : outcome (readArguments (fuel + 1) named cs) first = some ((params, hash, rest), last)) :
    ∃ params' hash', outcome (readArguments (fuel + 1) named (squeeze cs)) first =
        some ((params', hash', squeeze rest), last) ∧
      (IsSingleSpaced .between cs ↔
        params' = params ∧ hash' = hash ∧ IsSingleSpaced .between rest) := by
  have htrim := Text.trimStart_squeeze cs
  rw [← isSingleSpaced_trimStart]
  rcases Text.trimStart_cases cs with hcs | ⟨c, ds, hc, hcs⟩
  · rw [hcs] at htrim ⊢
    rw [outcome_readArguments_nil hcs] at h
    cases h
    refine ⟨[], [], ?_, iff_of_true trivial ⟨rfl, rfl, trivial⟩⟩
    exact outcome_readArguments_nil htrim fuel named first
  · rw [hcs] at htrim ⊢
    rw [Text.squeeze_char hc] at htrim
    by_cases hclose : c = ')'
    · subst hclose
      rw [outcome_readArguments_close hcs] at h
      cases h
      refine ⟨[], [], ?_, ?_⟩
      · rw [outcome_readArguments_close htrim, Text.squeeze_char hc]
      · rw [and_iff_right rfl, and_iff_right rfl]
    · rw [outcome_readArguments_argument hcs hclose] at h
      rw [outcome_readArguments_argument htrim hclose, ← Text.squeeze_char hc]
      exact ih.argument h

end ReadsSqueezed

theorem readsSqueezed (fuel : Nat) : ReadsSqueezed fuel := by
  induction fuel with
  | zero =>
    constructor <;>
    · intros
      contradiction
  | succ fuel ih => exact ⟨ih.of_expression, ih.of_arguments⟩

/-- A call is read as one of the same shape when blanks are squeezed, and as the same one if its
blanks that are text are lone spaces. -/
theorem readCall_squeeze {cs : List Char} {first last : Nat} {callee : Expression}
    {params : List Expression} {hash : Hash}
    (h : outcome (readCall cs) first = some ((callee, params, hash), last)) :
    ∃ callee' params' hash',
      outcome (readCall (squeeze cs)) first = some ((callee', params', hash'), last) ∧
        (IsSingleSpaced .between cs ↔ callee' = callee ∧ params' = params ∧ hash' = hash) := by
  obtain ⟨rest, middle, hhead, harguments⟩ := exists_of_readCall h
  obtain ⟨callee', hhead', hheadIff⟩ := (readsSqueezed _).one hhead
  obtain ⟨params', hash', harguments', hargumentsIff⟩ := (readsSqueezed _).many harguments
  refine ⟨callee', params', hash', ?_, ?_⟩
  -- The fuel of either text is enough for the squeezed one.
  · have hlength := Text.length_squeeze_le cs
    have htrim := Text.length_trimStart_le (squeeze cs)
    rw [← Text.trimStart_squeeze] at hhead'
    have hshorter := (readWith_shortens _ _).of_outcome hhead'
    dsimp only at hshorter
    rw [outcome_readCall,
      @outcome_readWith_fuel _ (fuelFor cs) _ (by rw [fuelFor]; omega) (by rw [fuelFor]; omega),
      hhead', Option.bind_some]
    dsimp only
    rw [@outcome_readArguments_fuel _ (fuelFor cs) _ (by rw [fuelFor]; omega)
      (by rw [fuelFor]; omega), harguments']
    rfl
  · rw [← isSingleSpaced_trimStart, hheadIff, hargumentsIff]
    refine and_congr_right' (and_congr_right' ?_)
    exact and_iff_left trivial

end Expression

end MustacheJsx
