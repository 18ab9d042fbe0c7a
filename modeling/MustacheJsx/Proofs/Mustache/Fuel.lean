import MustacheJsx.Proofs.Extraction.Filling

/-!
# Readers with enough fuel

The fuel of a reader is bookkeeping: with more steps than characters it reads the same. `outcome` is
what a reader answers if it succeeds, without the text of its failure.
-/

namespace MustacheJsx

/-! ### Outcomes -/

def outcome {α : Type} (reader : ReadM α) (first : Nat) : Option (α × Nat) :=
  match reader.run first with
  | (.ok a, last) => some (a, last)
  | (.error _, _) => none

section Outcomes

variable {α β : Type} {first : Nat}

theorem outcome_eq_some_iff {reader : ReadM α} {a : α} {last : Nat} :
    outcome reader first = some (a, last) ↔ reader.run first = (.ok a, last) := by
  rw [outcome]
  cases reader.run first with
  | mk result last' =>
    cases result with
    | error e => exact ⟨nofun, nofun⟩
    | ok b =>
      constructor <;>
      · intro h
        cases h
        rfl

theorem outcome_bind (reader : ReadM α) (next : α → ReadM β) :
    outcome (reader >>= next) first =
      (outcome reader first).bind fun read => outcome (next read.1) read.2 := by
  rw [outcome, outcome, run_bind]
  cases reader.run first with
  | mk result middle => cases result <;> rfl

theorem Yields.of_outcome {reader : ReadM α} {post : α → Prop} (h : Yields reader post) {a : α}
    {last : Nat} (hread : outcome reader first = some (a, last)) : post a :=
  h first a last (outcome_eq_some_iff.1 hread)

/-- A reader that reads the same and goes on the same with what it can read. -/
theorem run_bind_congr {reader reader' : ReadM α} {next next' : α → ReadM β} {post : α → Prop}
    (h : reader.run first = reader'.run first) (hpost : Yields reader post)
    (hnext : ∀ a, post a → ∀ middle, (next a).run middle = (next' a).run middle) :
    (reader >>= next).run first = (reader' >>= next').run first := by
  rw [run_bind, run_bind, ← h]
  cases hread : reader.run first with
  | mk result middle =>
    cases result with
    | error e => rfl
    | ok a => exact hnext a (hpost first a middle hread) middle

end Outcomes

namespace Expression

/-! ### Fuel -/

theorem length_takeToken (bracket : Bool) (cs : List Char) :
    (takeToken bracket cs).1.length + (takeToken bracket cs).2.length = cs.length := by
  rw [← List.length_append, takeToken_append]

theorem exists_of_takeString_append {quote : Char} {cs value rest : List Char}
    (h : takeString quote cs = some (value, rest)) : ∃ before, cs = before ++ quote :: rest := by
  fun_induction takeString quote cs generalizing value with
  | case1 => cases h
  | case2 => cases h
  | case3 c cs ih =>
    obtain ⟨read, hread, hpair⟩ := Option.map_eq_some_iff.1 h
    cases hpair
    obtain ⟨before, rfl⟩ := ih hread
    exact ⟨'\\' :: c :: before, rfl⟩
  | case4 cs =>
    cases h
    exact ⟨[], rfl⟩
  | case5 c cs _ _ _ ih =>
    obtain ⟨read, hread, hpair⟩ := Option.map_eq_some_iff.1 h
    cases hpair
    obtain ⟨before, rfl⟩ := ih hread
    exact ⟨c :: before, rfl⟩

theorem length_of_takeString {quote : Char} {cs value rest : List Char}
    (h : takeString quote cs = some (value, rest)) : rest.length < cs.length := by
  obtain ⟨before, rfl⟩ := exists_of_takeString_append h
  rw [List.length_append, List.length_cons]
  omega

theorem readString_shortens (quote : Char) (cs : List Char) :
    Yields (readString quote cs) fun read => read.2.length < cs.length := by
  rw [readString]
  split
  · next hstring => exact .pure (length_of_takeString hstring)
  · exact .halt

theorem readBare_shortens (cs : List Char) :
    Yields (readBare cs) fun read => read.2.length < cs.length := by
  rw [readBare]
  have hlength := length_takeToken false cs
  generalize takeToken false cs = cut at hlength
  obtain ⟨token, rest⟩ := cut
  dsimp only at hlength ⊢
  split
  · exact .halt
  · next hempty =>
    have hshorter : rest.length < cs.length := by
      have hpos : 0 < token.length := List.length_pos_iff.2 fun hnil => hempty (by rw [hnil]; rfl)
      omega
    split
    · exact .pure hshorter
    · have hid : Yields nextId fun _ => True := fun _ _ _ _ => trivial
      refine hid.bind fun id _ => ?_
      split
      · exact .pure hshorter
      · exact .halt

theorem length_of_takeKey? {cs rest : List Char} {key : String}
    (h : takeKey? cs = some (key, rest)) : rest.length < cs.length := by
  rw [takeKey?] at h
  split at h
  · next after hequals =>
    split at h
    · cases h
    · cases h
      have hblanks := Text.length_trimStart_le (cs.dropWhile isKeyChar)
      have hkey := Text.length_dropWhile_le isKeyChar cs
      have hafter := Text.length_trimStart_le after
      rw [hequals, List.length_cons] at hblanks
      omega
  · cases h

theorem shortens_readSteps : ReadSteps (fun _ cs rest => rest.length < cs.length)
    (fun _ _ cs rest => rest.length ≤ cs.length) where
  call {callee params hash cs rest rest' rest''} hcallee harguments hclose := by
    have htrim := Text.length_trimStart_le cs
    have htrim' := Text.length_trimStart_le rest'
    rw [hclose] at htrim'
    simp only [List.length_cons] at htrim' ⊢
    omega
  string {quote} _ cs first read last hrun :=
    Nat.lt_succ_of_lt (readString_shortens quote cs first read last hrun)
  bare := readBare_shortens
  stop := Text.length_trimStart_le
  named {key value params hash cs rest rest' rest''} hkey hvalue hmore := by
    have htrim := Text.length_trimStart_le cs
    have hpast := length_of_takeKey? hkey
    omega
  positional {param params hash cs rest rest'} hparam hmore := by
    have htrim := Text.length_trimStart_le cs
    omega

theorem readWith_shortens (fuel : Nat) (cs : List Char) :
    Yields (readWith fuel cs) fun read => read.2.length < cs.length :=
  shortens_readSteps.yields_readWith fuel cs

mutual

theorem run_readWith_fuel {fuel fuel' : Nat} {cs : List Char} (h : cs.length < fuel)
    (h' : cs.length < fuel') (first : Nat) :
    (readWith fuel cs).run first = (readWith fuel' cs).run first := by
  match fuel, fuel' with
  | 0, _ => exact absurd h (Nat.not_lt_zero _)
  | _, 0 => exact absurd h' (Nat.not_lt_zero _)
  | fuel + 1, fuel' + 1 =>
    rw [readWith.eq_def, readWith.eq_def]
    dsimp only
    split
    · next cs =>
      rw [List.length_cons] at h h'
      have htrim := Text.length_trimStart_le cs
      refine run_bind_congr (run_readWith_fuel (by omega) (by omega) first)
        (readWith_shortens fuel _) ?_
      rintro ⟨callee, rest⟩ hshorter middle
      dsimp only at hshorter ⊢
      rw [run_bind, run_bind, @run_readArguments_fuel fuel fuel' _ (by omega) (by omega)]
    · rfl
    · rfl
    · rfl

theorem run_readArguments_fuel {fuel fuel' : Nat} {cs : List Char} (h : cs.length + 1 < fuel)
    (h' : cs.length + 1 < fuel') (named : Bool) (first : Nat) :
    (readArguments fuel named cs).run first = (readArguments fuel' named cs).run first := by
  match fuel, fuel' with
  | 0, _ => exact absurd h (Nat.not_lt_zero _)
  | _, 0 => exact absurd h' (Nat.not_lt_zero _)
  | fuel + 1, fuel' + 1 =>
    rw [readArguments.eq_def, readArguments.eq_def]
    dsimp only
    have htrim := Text.length_trimStart_le cs
    split
    · rfl
    · rfl
    · split
      · rfl
      · split
        · next key rest hkey =>
          have hpast := length_of_takeKey? hkey
          refine run_bind_congr (run_readWith_fuel (by omega) (by omega) first)
            (readWith_shortens fuel _) ?_
          rintro ⟨value, rest'⟩ hshorter middle
          dsimp only at hshorter ⊢
          rw [run_bind, run_bind, @run_readArguments_fuel fuel fuel' _ (by omega) (by omega)]
        · split
          · rfl
          · refine run_bind_congr (run_readWith_fuel (by omega) (by omega) first)
              (readWith_shortens fuel _) ?_
            rintro ⟨param, rest'⟩ hshorter middle
            dsimp only at hshorter ⊢
            rw [run_bind, run_bind, @run_readArguments_fuel fuel fuel' _ (by omega) (by omega)]

end

theorem outcome_readWith_fuel {fuel fuel' : Nat} {cs : List Char} (h : cs.length < fuel)
    (h' : cs.length < fuel') (first : Nat) :
    outcome (readWith fuel cs) first = outcome (readWith fuel' cs) first := by
  rw [outcome, run_readWith_fuel h h', outcome]

theorem outcome_readArguments_fuel {fuel fuel' : Nat} {cs : List Char} (h : cs.length + 1 < fuel)
    (h' : cs.length + 1 < fuel') (named : Bool) (first : Nat) :
    outcome (readArguments fuel named cs) first = outcome (readArguments fuel' named cs) first := by
  rw [outcome, run_readArguments_fuel h h', outcome]

end Expression

end MustacheJsx
