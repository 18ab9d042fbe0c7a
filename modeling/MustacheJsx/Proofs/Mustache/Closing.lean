import MustacheJsx.Proofs.Mustache.Appending

/-!
# Calls and the braces behind them

A brace outside strings and brackets is no part of a call, so a call that is read does not end with
one: `getLast?_of_readCall`.
-/

namespace MustacheJsx

namespace Expression

/-! ### Braces at the end -/

/-- A reader that goes from `cs` to `rest` does not go past a brace at the end. -/
def Spares (cs rest : List Char) : Prop := cs.getLast? = some '}' → rest.getLast? = some '}'

namespace Spares

variable {cs ds rest : List Char}

theorem trans (h : Spares cs ds) (h' : Spares ds rest) : Spares cs rest := fun hlast => h' (h hlast)

theorem of_append {before : List Char} (h : before.getLast? ≠ some '}') (rest : List Char) :
    Spares (before ++ rest) rest := by
  intro hlast
  cases rest with
  | nil =>
    rw [List.append_nil] at hlast
    exact absurd hlast h
  | cons c rest =>
    rw [List.getLast?_append_of_ne_nil _ (List.cons_ne_nil c rest)] at hlast
    exact hlast

theorem cons {c : Char} (h : c ≠ '}') (rest : List Char) : Spares (c :: rest) rest :=
  @of_append [c] (fun hlast => h (Option.some.inj hlast)) rest

theorem dropWhile {p : Char → Bool} (h : p '}' = false) (cs : List Char) :
    Spares cs (cs.dropWhile p) := by
  have happend := List.takeWhile_append_dropWhile (p := p) (l := cs)
  have hspares := @of_append (cs.takeWhile p) (fun hlast => ?_) (cs.dropWhile p)
  · rw [happend] at hspares
    exact hspares
  · have hp := List.mem_takeWhile_imp (List.mem_of_getLast? hlast)
    rw [h] at hp
    cases hp

theorem trimStart (cs : List Char) : Spares cs (Text.trimStart cs) := dropWhile rfl cs

end Spares

theorem readString_spares {quote : Char} (hquote : quote = '"' ∨ quote = '\'') (cs : List Char) :
    Yields (readString quote cs) fun read => Spares (quote :: cs) read.2 := by
  rw [readString]
  split
  · next value rest hstring =>
    obtain ⟨before, rfl⟩ := exists_of_takeString_append hstring
    have hbrace : quote ≠ '}' := by
      rcases hquote with rfl | rfl <;> decide
    have hbefore := @Spares.of_append (quote :: (before ++ [quote])) (fun hlast => ?_) rest
    · rw [List.cons_append, List.append_assoc] at hbefore
      exact .pure hbefore
    · rw [← List.cons_append, List.getLast?_concat] at hlast
      exact hbrace (Option.some.inj hlast)
  · exact .halt

theorem getLast?_takeToken {bracket : Bool} {cs : List Char}
    (h : (takeToken bracket cs).1.getLast? = some '}') :
    isOpenAfter bracket (takeToken bracket cs).1 = true := by
  induction cs generalizing bracket with
  | nil => cases h
  | cons c cs ih =>
    have hcons : ∀ {bracket}, (c :: (takeToken bracket cs).1).getLast? = some '}' →
        (takeToken bracket cs).1 = [] ∧ c = '}' ∨
          isOpenAfter bracket (takeToken bracket cs).1 = true := by
      intro bracket hlast
      cases htoken : (takeToken bracket cs).1 with
      | nil =>
        rw [htoken] at hlast
        exact .inl ⟨rfl, Option.some.inj hlast⟩
      | cons d ds =>
        rw [htoken, List.getLast?_cons_cons, ← htoken] at hlast
        rw [← htoken]
        exact .inr (ih hlast)
    rw [takeToken] at h ⊢
    cases bracket with
    | true =>
      rw [if_pos rfl] at h ⊢
      rcases hcons h with ⟨hnil, rfl⟩ | hopen
      · dsimp only
        rw [hnil]
        rfl
      · exact hopen
    | false =>
      rw [if_neg Bool.false_ne_true] at h ⊢
      by_cases hbracket : c = '['
      · rw [if_pos hbracket] at h ⊢
        rcases hcons h with ⟨-, rfl⟩ | hopen
        · cases hbracket
        · dsimp only
          rw [isOpenAfter, if_neg Bool.false_ne_true, beq_iff_eq.2 hbracket]
          exact hopen
      · rw [if_neg hbracket] at h ⊢
        by_cases hends : endsToken c = true
        · rw [if_pos hends] at h
          cases h
        · rw [if_neg hends] at h ⊢
          rcases hcons h with ⟨-, rfl⟩ | hopen
          · exact absurd rfl hends
          · dsimp only
            rw [isOpenAfter, if_neg Bool.false_ne_true, beq_eq_false_iff_ne.2 hbracket]
            exact hopen

theorem readBare_spares (cs : List Char) :
    Yields (readBare cs) fun read => Spares cs read.2 := by
  intro first read last hrun
  have hread := outcome_eq_some_iff.2 hrun
  rw [outcome_readBare] at hread
  obtain ⟨⟨e, last⟩, htoken, hpair⟩ := Option.map_eq_some_iff.1 hread
  cases hpair
  have hspares := @Spares.of_append (takeToken false cs).1 (fun hlast => ?_) (takeToken false cs).2
  · rw [takeToken_append] at hspares
    exact hspares
  · rw [ofToken?_of_isOpenAfter (getLast?_takeToken hlast)] at htoken
    cases htoken

theorem takeKey?_spares {cs rest : List Char} {key : String}
    (h : takeKey? cs = some (key, rest)) : Spares cs rest := by
  rw [takeKey?] at h
  have hblanks := (Spares.dropWhile (p := isKeyChar) (by decide) cs).trans (.trimStart _)
  split at h
  · next after hequals =>
    rw [hequals] at hblanks
    split at h
    · cases h
    · cases h
      exact (hblanks.trans (.cons (by decide) after)).trans (.trimStart after)
  · cases h

theorem spares_readSteps : ReadSteps (fun _ cs rest => Spares cs rest)
    (fun _ _ cs rest => Spares cs rest) where
  call {callee params hash cs rest rest' rest''} hcallee harguments hclose := by
    have hopen : Spares ('(' :: cs) (Text.trimStart cs) :=
      (Spares.cons (by decide) cs).trans (.trimStart cs)
    have hend : Spares rest' rest'' := by
      have htrim := Spares.trimStart rest'
      rw [hclose] at htrim
      exact htrim.trans (.cons (by decide) rest'')
    exact ((hopen.trans hcallee).trans harguments).trans hend
  string := readString_spares
  bare := readBare_spares
  stop := .trimStart
  named {key value params hash cs rest rest' rest''} hkey hvalue hmore := by
    have hpast := (Spares.trimStart cs).trans (takeKey?_spares hkey)
    exact (hpast.trans hvalue).trans hmore
  positional {param params hash cs rest rest'} hparam hmore :=
    ((Spares.trimStart cs).trans hparam).trans hmore

theorem getLast?_of_readCall {cs : List Char} {first last : Nat}
    {call : Expression × List Expression × Hash}
    (h : outcome (readCall cs) first = some (call, last)) : cs.getLast? ≠ some '}' := by
  obtain ⟨head, params, hash⟩ := call
  obtain ⟨rest, middle, hhead, harguments⟩ := exists_of_readCall h
  have hpast := (spares_readSteps.yields_readWith _ _).of_outcome hhead
  have hend := (spares_readSteps.yields_readArguments _ _ _).of_outcome harguments
  have hspares := ((Spares.trimStart cs).trans hpast).trans hend
  exact fun hbrace => nomatch hspares hbrace

end Expression

end MustacheJsx
