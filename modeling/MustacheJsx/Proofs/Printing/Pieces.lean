import Mathlib.Data.List.Chain
import MustacheJsx.Lifted.Basic

/-!
# Placeholders in a text

A text is put together of pieces: characters, and placeholders between markers that occur in none of
the characters. Splitting it gives the pieces back: `Piece.split_rendered`.
-/

namespace MustacheJsx

/-! ### Markers -/

/-- A character of the private area, from which markers are taken. -/
def IsMarker (c : Char) : Prop := 0xE000 ≤ c.toNat ∧ c.toNat ≤ 0xF8FF

theorem IsMarker.ne {c d : Char} (h : IsMarker c) (hd : d.toNat < 0xE000) : c ≠ d := by
  rintro rfl
  obtain ⟨hlow, -⟩ := h
  omega

theorem isMarker_ofNat {n : Nat} (h : n < 0xF8FF - 0xE000 + 1) :
    IsMarker (Char.ofNat (0xE000 + n)) := by
  have hvalid : (0xE000 + n).isValidChar := by
    right
    omega
  have hval : (Char.ofNat (0xE000 + n)).toNat = 0xE000 + n := by
    rw [Char.ofNat, dif_pos hvalid]
    rfl
  rw [IsMarker, hval]
  omega

theorem isMarker_of_freeMarker? {source : List Char} {marker : Char}
    (h : freeMarker? source = some marker) : IsMarker marker := by
  have hmem := List.mem_of_find?_eq_some h
  obtain ⟨n, hn, rfl⟩ := List.mem_map.1 hmem
  exact isMarker_ofNat (List.mem_range.1 hn)

theorem insideAfter_eq {inside : Bool} {m n : Nat} {edges : List Nat}
    (h : ∀ edge ∈ edges, (m < edge ↔ n < edge)) :
    Text.insideAfter inside m edges = Text.insideAfter inside n edges := by
  induction edges generalizing inside with
  | nil => rfl
  | cons edge edges ih =>
    have hedge := h edge List.mem_cons_self
    rw [Text.insideAfter, Text.insideAfter, ih fun e he => h e (List.mem_cons_of_mem _ he)]
    by_cases hm : m < edge
    · rw [if_pos hm, if_pos (hedge.1 hm)]
    · rw [if_neg hm, if_neg fun hn => hm (hedge.2 hn)]

theorem IsMarker.isDecimal {c : Char} (h : IsMarker c) : Text.isDecimal c = false := by
  obtain ⟨hlow, hhigh⟩ := h
  have hedges : ∀ edge ∈ Text.decimalEdges, edge ≤ 0xE000 ∨ 0xF8FF < edge := by decide +kernel
  have hfirst : Text.insideAfter false 0xE000 Text.decimalEdges = false := by decide +kernel
  have hinside : Text.insideAfter false c.toNat Text.decimalEdges = false := by
    rw [← hfirst]
    refine insideAfter_eq fun edge hedge => ?_
    have := hedges edge hedge
    omega
  have hdigit : Text.isAsciiDigit c = false := by
    simp only [Text.isAsciiDigit, Bool.and_eq_false_iff, decide_eq_false_iff_not, Char.le_def,
      UInt32.le_iff_toNat_le]
    right
    intro hnine
    have hle : c.toNat ≤ 57 := hnine
    omega
  rw [Text.isDecimal, hdigit, hinside]
  simp

/-! ### Indexes -/

theorem isAsciiDigit_of_mem_toDigits {n : Nat} {c : Char} (h : c ∈ Nat.toDigits 10 n) :
    Text.isAsciiDigit c = true := by
  have hdigit := Nat.isDigit_of_mem_toDigits (by decide) (by decide) h
  simpa [Char.isDigit, Text.isAsciiDigit, Char.le_def] using hdigit

theorem index?_toDigits {n : Nat} (h : n < Nat.pow 2 64) : index? (Nat.toDigits 10 n) = some n := by
  have hall : (Nat.toDigits 10 n).all Text.isAsciiDigit = true :=
    List.all_eq_true.2 fun c hc => isAsciiDigit_of_mem_toDigits hc
  have hempty : (Nat.toDigits 10 n).isEmpty = false :=
    List.isEmpty_eq_false_iff.2 Nat.toDigits_ne_nil
  have hvalue : Double.digitsValue (Nat.toDigits 10 n) = n := Nat.ofDigitChars_ten_toDigits
  rw [index?, hall, hempty, hvalue]
  simp [h]

theorem signedIndex?_toDigits {n : Nat} (h : n < Nat.pow 2 64) :
    signedIndex? (Nat.toDigits 10 n) = some n := by
  have hindex := index?_toDigits h
  have hdigits : ∀ c ∈ Nat.toDigits 10 n, Text.isAsciiDigit c = true :=
    fun c hc => isAsciiDigit_of_mem_toDigits hc
  generalize Nat.toDigits 10 n = digits at hindex hdigits
  unfold signedIndex?
  split
  · exact absurd (hdigits '+' List.mem_cons_self) (by decide)
  · exact hindex

/-! ### Placeholders -/

section

variable {marker : Char}

theorem placeholderAt?_placeholderText (hmarker : IsMarker marker) (n : Nat) (rest : List Char) :
    placeholderAt? marker (placeholderText marker n ++ rest) =
      some (Nat.toDigits 10 n, rest) := by
  have hdigits : ∀ c ∈ Nat.toDigits 10 n, Text.isDecimal c = true := by
    intro c hc
    simp [Text.isDecimal, isAsciiDigit_of_mem_toDigits hc]
  have htake : (Nat.toDigits 10 n ++ marker :: rest).takeWhile Text.isDecimal =
      Nat.toDigits 10 n := by
    rw [List.takeWhile_append_of_pos hdigits]
    simp [hmarker.isDecimal]
  have hdrop : (Nat.toDigits 10 n ++ marker :: rest).dropWhile Text.isDecimal =
      marker :: rest := by
    rw [List.dropWhile_append_of_pos hdigits]
    simp [hmarker.isDecimal]
  have hempty : (Nat.toDigits 10 n).isEmpty = false :=
    List.isEmpty_eq_false_iff.2 Nat.toDigits_ne_nil
  have htext : placeholderText marker n ++ rest =
      marker :: (Nat.toDigits 10 n ++ marker :: rest) := by
    simp [placeholderText]
  rw [htext, placeholderAt?]
  simp [htake, hdrop, hempty]

theorem placeholderAt?_of_ne {c : Char} (h : c ≠ marker) (cs : List Char) :
    placeholderAt? marker (c :: cs) = none := by
  rw [placeholderAt?, if_pos h]

end

namespace Piece

/-- A piece of a text as markup holds it. -/
def rendered (marker : Char) : Piece → List Char
  | .text chars => chars
  | .hole (some index) => placeholderText marker index
  | .hole none => []

def isText : Piece → Bool
  | .text _ => true
  | .hole _ => false

/-- A piece that can be found again: characters without the marker, or the hole of an index. -/
def IsGood (marker : Char) : Piece → Prop
  | .text chars => chars ≠ [] ∧ marker ∉ chars
  | .hole index => ∃ n < Nat.pow 2 64, index = some n

/-- Pieces that can be told apart. -/
structure Separated (marker : Char) (pieces : List Piece) : Prop where
  good : ∀ piece ∈ pieces, piece.IsGood marker
  apart : pieces.IsChain fun first second => ¬(first.isText = true ∧ second.isText = true)

variable {marker : Char}

theorem Separated.tail {piece : Piece} {pieces : List Piece}
    (h : Separated marker (piece :: pieces)) : Separated marker pieces :=
  ⟨fun p hp => h.good p (List.mem_cons_of_mem _ hp), (List.isChain_cons.1 h.apart).2⟩

/-- A piece is added to others, unless both it and the last of them are characters. -/
theorem Separated.concat {pieces : List Piece} (h : Separated marker pieces) {piece : Piece}
    (hgood : piece.IsGood marker)
    (hlast : ∀ last ∈ pieces.getLast?, ¬(last.isText = true ∧ piece.isText = true)) :
    Separated marker (pieces ++ [piece]) := by
  refine ⟨fun p hp => ?_, ?_⟩
  · rcases List.mem_append.1 hp with hp | hp
    · exact h.good p hp
    · cases List.mem_singleton.1 hp
      exact hgood
  · rw [List.isChain_append]
    refine ⟨h.apart, List.isChain_singleton _, fun last hl next hn => ?_⟩
    cases hn
    exact hlast last hl

theorem splitAfter_skip (cs rest text : List Char) :
    splitAfter marker cs.length text (cs ++ rest) = splitAfter marker 0 text rest := by
  induction cs with
  | nil => rfl
  | cons c cs ih => rw [List.length_cons, List.cons_append, splitAfter, ih]

theorem splitAfter_text {chars : List Char} (h : marker ∉ chars) (text rest : List Char) :
    splitAfter marker 0 text (chars ++ rest) =
      splitAfter marker 0 (chars.reverse ++ text) rest := by
  induction chars generalizing text with
  | nil => rfl
  | cons c chars ih =>
    have hc : c ≠ marker := fun heq => h (by rw [heq]; exact List.mem_cons_self)
    have hrest : marker ∉ chars := fun hm => h (List.mem_cons_of_mem _ hm)
    rw [List.cons_append, splitAfter, placeholderAt?_of_ne hc]
    dsimp only
    rw [ih hrest, List.reverse_cons, List.append_assoc, List.singleton_append]

theorem splitAfter_hole (hmarker : IsMarker marker) {n : Nat} (hn : n < Nat.pow 2 64)
    (text rest : List Char) :
    splitAfter marker 0 text (placeholderText marker n ++ rest) =
      pending text ++ .hole (some n) :: splitAfter marker 0 [] rest := by
  have hplaceholder := placeholderAt?_placeholderText hmarker n rest
  have htext : placeholderText marker n ++ rest =
      marker :: ((Nat.toDigits 10 n ++ [marker]) ++ rest) := by
    simp [placeholderText]
  have hskip := @splitAfter_skip marker (Nat.toDigits 10 n ++ [marker]) rest []
  rw [List.length_append, List.length_singleton] at hskip
  rw [htext] at hplaceholder ⊢
  rw [splitAfter, hplaceholder]
  dsimp only
  rw [index?_toDigits hn, hskip]

theorem splitAfter_rendered (hmarker : IsMarker marker) {pieces : List Piece}
    (h : Separated marker pieces) (text : List Char)
    (htext : ∀ piece ∈ pieces.head?, piece.isText = true → text = []) :
    splitAfter marker 0 text (pieces.flatMap (rendered marker)) = pending text ++ pieces := by
  induction pieces generalizing text with
  | nil =>
    rw [List.append_nil]
    rfl
  | cons piece pieces ih =>
    have hgood := h.good piece List.mem_cons_self
    have hapart := (List.isChain_cons.1 h.apart).1
    cases piece with
    | text chars =>
      obtain ⟨hne, hnot⟩ := hgood
      have hnil : text = [] := htext _ rfl rfl
      have hrest := ih h.tail chars.reverse (by
        intro piece hp hpiece
        exact absurd ⟨rfl, hpiece⟩ (hapart piece hp))
      have hempty : chars.reverse.isEmpty = false := by
        simp [hne]
      rw [List.flatMap_cons, rendered, splitAfter_text hnot, hnil, List.append_nil, hrest]
      simp [pending, hne]
    | hole index =>
      obtain ⟨n, hn, rfl⟩ := hgood
      have hrest := ih h.tail [] (fun _ _ _ => rfl)
      rw [List.flatMap_cons, rendered, splitAfter_hole hmarker hn, hrest]
      rfl

theorem split_rendered (hmarker : IsMarker marker) {pieces : List Piece}
    (h : Separated marker pieces) : split marker (pieces.flatMap (rendered marker)) = pieces :=
  splitAfter_rendered hmarker h [] fun _ _ _ => rfl

/-! ### A text that is a placeholder as a whole -/

theorem whole?_placeholderText (hmarker : IsMarker marker) {n : Nat} (hn : n < Nat.pow 2 64) :
    whole? marker (placeholderText marker n) = some n := by
  have hplaceholder := placeholderAt?_placeholderText hmarker n []
  rw [List.append_nil] at hplaceholder
  rw [whole?, hplaceholder]
  exact index?_toDigits hn

theorem whole?_of_not_mem {chars : List Char} (h : marker ∉ chars) :
    whole? marker chars = none := by
  cases chars with
  | nil => rfl
  | cons c cs =>
    have hc : c ≠ marker := fun heq => h (by rw [heq]; exact List.mem_cons_self)
    rw [whole?, placeholderAt?_of_ne hc]

theorem eq_append_of_placeholderAt? {cs digits rest : List Char}
    (h : placeholderAt? marker cs = some (digits, rest)) :
    cs = marker :: (digits ++ marker :: rest) := by
  cases cs with
  | nil => cases h
  | cons c cs =>
    rw [placeholderAt?] at h
    split at h
    · cases h
    · next hc =>
      simp only [ne_eq, Decidable.not_not] at hc
      split at h
      · next d after hdrop =>
        dsimp only at h
        split at h
        · next hd =>
          cases h
          have happend := List.takeWhile_append_dropWhile (p := Text.isDecimal) (l := cs)
          rw [hdrop, hd.1] at happend
          rw [hc, happend]
        · cases h
      · cases h

/-- A text that is a placeholder as a whole has no other piece. -/
theorem split_of_whole? {cs : List Char} {n : Nat} (h : whole? marker cs = some n) :
    split marker cs = [.hole (some n)] := by
  rw [whole?] at h
  split at h
  · next digits hplaceholder =>
    have hcs := eq_append_of_placeholderAt? hplaceholder
    have hskip := @splitAfter_skip marker (digits ++ [marker]) [] []
    rw [List.length_append, List.length_singleton, List.append_nil] at hskip
    rw [hcs] at hplaceholder ⊢
    rw [split, splitAfter, hplaceholder]
    dsimp only
    rw [h, hskip]
    rfl
  · cases h

theorem eq_singleton_of_whole? (hmarker : IsMarker marker) {pieces : List Piece}
    (h : Separated marker pieces) {n : Nat}
    (hwhole : whole? marker (pieces.flatMap (rendered marker)) = some n) :
    pieces = [.hole (some n)] := by
  have hsplit := split_rendered hmarker h
  rw [← hsplit, split_of_whole? hwhole]

end Piece

end MustacheJsx
