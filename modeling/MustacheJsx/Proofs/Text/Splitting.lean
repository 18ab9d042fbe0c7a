import MustacheJsx.Text.Blank

/-!
# Splitting text at separators

A text that holds a separator is split there, and joining undoes splitting. A piece in the middle of
a text stands in one of the pieces of the text, between what surrounds it.
-/

namespace MustacheJsx.Text

variable {sep : Char}

theorem append_cons_inj {α : Type} {a : α} {xs ys zs ws : List α} (hxs : a ∉ xs) (hys : a ∉ ys)
    (h : xs ++ a :: zs = ys ++ a :: ws) : xs = ys ∧ zs = ws := by
  rcases List.append_eq_append_iff.1 h with ⟨between, rfl, hrest⟩ | ⟨between, rfl, hrest⟩
  · cases between with
    | nil => exact ⟨(List.append_nil xs).symm, (List.cons.inj hrest).2⟩
    | cons b between =>
      obtain ⟨rfl, -⟩ := List.cons.inj hrest
      exact absurd (List.mem_append_right xs List.mem_cons_self) hys
  · cases between with
    | nil => exact ⟨List.append_nil ys, (List.cons.inj hrest).2.symm⟩
    | cons b between =>
      obtain ⟨rfl, -⟩ := List.cons.inj hrest
      exact absurd (List.mem_append_right ys List.mem_cons_self) hxs

theorem splitOn_sep (sep : Char) (cs : List Char) :
    splitOn sep (sep :: cs) = [] :: splitOn sep cs := by
  obtain ⟨piece, pieces, hcs⟩ := List.exists_cons_of_ne_nil (splitOn_ne_nil sep cs)
  rw [splitOn, hcs]
  exact if_pos rfl

theorem splitOn_append (sep : Char) (before rest : List Char) :
    splitOn sep (before ++ sep :: rest) = splitOn sep before ++ splitOn sep rest := by
  induction before with
  | nil => exact splitOn_sep sep rest
  | cons c before ih =>
    obtain ⟨piece, pieces, hbefore⟩ := List.exists_cons_of_ne_nil (splitOn_ne_nil sep before)
    rw [List.cons_append, splitOn, ih, splitOn, hbefore]
    dsimp only [List.cons_append]
    split <;> rfl

theorem splitOn_of_not_mem {cs : List Char} (h : sep ∉ cs) : splitOn sep cs = [cs] := by
  induction cs with
  | nil => rfl
  | cons c cs ih =>
    obtain ⟨hc, hcs⟩ := not_or.1 (mt List.mem_cons.2 h)
    rw [splitOn, ih hcs]
    exact if_neg (Ne.symm hc)

theorem joinWith_cons_of_ne_nil {pieces : List (List Char)} (hne : pieces ≠ []) (sep : Char)
    (piece : List Char) : joinWith sep (piece :: pieces) = piece ++ sep :: joinWith sep pieces := by
  obtain ⟨next, pieces, rfl⟩ := List.exists_cons_of_ne_nil hne
  rfl

theorem joinWith_concat {pieces : List (List Char)} (hne : pieces ≠ []) (sep : Char)
    (piece : List Char) :
    joinWith sep (pieces ++ [piece]) = joinWith sep pieces ++ sep :: piece := by
  induction pieces with
  | nil => exact absurd rfl hne
  | cons first pieces ih =>
    rw [List.cons_append, joinWith_cons_of_ne_nil (List.concat_ne_nil piece pieces)]
    by_cases hpieces : pieces = []
    · subst hpieces
      rfl
    · rw [ih hpieces, joinWith_cons_of_ne_nil hpieces, List.append_assoc, List.cons_append]

theorem splitOn_joinWith {pieces : List (List Char)} (hne : pieces ≠ [])
    (h : ∀ piece ∈ pieces, sep ∉ piece) : splitOn sep (joinWith sep pieces) = pieces := by
  induction pieces with
  | nil => exact absurd rfl hne
  | cons piece pieces ih =>
    obtain ⟨hpiece, hpieces⟩ := List.forall_mem_cons.1 h
    cases pieces with
    | nil => exact splitOn_of_not_mem hpiece
    | cons next pieces =>
      rw [joinWith_cons_of_ne_nil (List.cons_ne_nil next pieces), splitOn_append,
        splitOn_of_not_mem hpiece, ih (List.cons_ne_nil _ _) hpieces]
      rfl

theorem exists_splitOn_append (sep : Char) (cs ds : List Char) :
    ∃ front last first back, splitOn sep cs = front ++ [last] ∧ splitOn sep ds = first :: back ∧
      splitOn sep (cs ++ ds) = front ++ (last ++ first) :: back := by
  obtain ⟨first, back, hds⟩ := List.exists_cons_of_ne_nil (splitOn_ne_nil sep ds)
  induction cs with
  | nil => exact ⟨[], [], first, back, rfl, hds, hds⟩
  | cons c cs ih =>
    obtain ⟨front, last, first', back', hcs, hds', happend⟩ := ih
    by_cases hc : c = sep
    · subst hc
      refine ⟨[] :: front, last, first', back', ?_, hds', ?_⟩
      · rw [splitOn_sep, hcs]
        rfl
      · rw [List.cons_append, splitOn_sep, happend]
        rfl
    · cases front with
      | nil =>
        refine ⟨[], c :: last, first', back', ?_, hds', ?_⟩
        · rw [splitOn, hcs]
          exact if_neg hc
        · rw [List.cons_append, splitOn, happend]
          exact if_neg hc
      | cons piece front =>
        refine ⟨(c :: piece) :: front, last, first', back', ?_, hds', ?_⟩
        · rw [splitOn, hcs]
          exact if_neg hc
        · rw [List.cons_append, splitOn, happend]
          exact if_neg hc

theorem not_mem_of_mem_splitOn {piece cs : List Char} (h : piece ∈ splitOn sep cs) :
    sep ∉ piece := by
  induction cs generalizing piece with
  | nil =>
    obtain rfl := List.mem_singleton.1 h
    exact List.not_mem_nil
  | cons c cs ih =>
    by_cases hc : c = sep
    · subst hc
      rw [splitOn_sep] at h
      rcases List.mem_cons.1 h with rfl | h
      · exact List.not_mem_nil
      · exact ih h
    · have hsingle : splitOn sep [c] = [[c]] :=
        splitOn_of_not_mem fun hmem => hc (List.mem_singleton.1 hmem).symm
      -- The character belongs to the first piece of what is behind it.
      obtain ⟨front, last, first, back, hfront, hcs, happend⟩ := exists_splitOn_append sep [c] cs
      rw [hsingle, ← List.nil_append [[c]]] at hfront
      obtain ⟨rfl, hlast⟩ := List.append_inj' hfront rfl
      obtain rfl := (List.cons.inj hlast).1
      rw [List.singleton_append, List.nil_append] at happend
      rw [happend] at h
      rcases List.mem_cons.1 h with rfl | h
      · rw [List.singleton_append, List.mem_cons, not_or]
        exact ⟨fun heq => hc heq.symm, ih (hcs ▸ List.mem_cons_self)⟩
      · exact ih (hcs ▸ List.mem_cons_of_mem _ h)

end MustacheJsx.Text
