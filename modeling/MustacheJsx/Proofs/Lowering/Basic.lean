import Mathlib.Data.List.Find
import MustacheJsx.Proofs.Document.Lifting

/-!
# Documents whose names are written small

`SourceTag.lowered` writes the name of an opening tag and the names of its attributes in small
letters and leaves everything else as it is. A document stays a document, and nothing in it moves.
-/

namespace MustacheJsx

/-! ### Outcomes that agree -/

/-- Both computations fail, or both succeed with values in a relation. -/
inductive Agree {ε α β : Type} (R : α → β → Prop) : Except ε α → Except ε β → Prop where
  | ok {a : α} {b : β} : R a b → Agree R (.ok a) (.ok b)
  | error (e e' : ε) : Agree R (.error e) (.error e')

namespace Agree

variable {ε α β α' β' : Type} {R : α → β → Prop} {S : α' → β' → Prop} {x : Except ε α}
  {y : Except ε β}

theorem bind (h : Agree R x y) {f : α → Except ε α'} {g : β → Except ε β'}
    (hnext : ∀ a b, R a b → Agree S (f a) (g b)) : Agree S (x >>= f) (y >>= g) := by
  cases h with
  | ok hab => exact hnext _ _ hab
  | error e e' => exact .error e e'

theorem mapError {ε' : Type} (h : Agree R x y) (f g : ε → ε') :
    Agree R (x.mapError f) (y.mapError g) := by
  cases h with
  | ok hab => exact .ok hab
  | error e e' => exact .error (f e) (g e')

theorem of_map {f : α → β} (h : y = x.map f) : Agree (fun a b => b = f a) x y := by
  subst h
  cases x with
  | ok a => exact .ok rfl
  | error e => exact .error e e

theorem imp {T : α → β → Prop} (h : Agree R x y) (himp : ∀ a b, R a b → T a b) :
    Agree T x y := by
  cases h with
  | ok hab => exact .ok (himp _ _ hab)
  | error e e' => exact .error e e'

theorem map (h : Agree R x y) {f : α → α'} {g : β → β'} (himp : ∀ a b, R a b → S (f a) (g b)) :
    Agree S (x.map f) (y.map g) := by
  cases h with
  | ok hab => exact .ok (himp _ _ hab)
  | error e e' => exact .error e e'

theorem refl (x : Except ε α) : Agree Eq x x := by
  cases x with
  | ok a => exact .ok rfl
  | error e => exact .error e e

theorem symm {x y : Except ε α} (h : Agree Eq x y) : Agree Eq y x := by
  cases h with
  | ok hab => exact .ok hab.symm
  | error e e' => exact .error e' e

theorem trans {x y z : Except ε α} (h : Agree Eq x y) (h' : Agree Eq y z) : Agree Eq x z := by
  cases h with
  | ok hab => exact hab ▸ h'
  | error e e' =>
    cases h' with
    | error _ e'' => exact .error e e''

theorem attach (h : Agree R x y) : Agree (fun a b => R a b ∧ x = .ok a ∧ y = .ok b) x y := by
  cases h with
  | ok hab => exact .ok ⟨hab, rfl, rfl⟩
  | error e e' => exact .error e e'

end Agree

/-! ### Letters -/

def asciiCapitals : List Char := (List.range 26).map fun i => Char.ofNat (65 + i)

theorem mem_asciiCapitals {c : Char} (h : Text.isAsciiUpper c = true) : c ∈ asciiCapitals := by
  simp only [Text.isAsciiUpper, Bool.and_eq_true, decide_eq_true_eq, Char.le_def,
    UInt32.le_iff_toNat_le] at h
  have hlow : 65 ≤ c.toNat := h.1
  have hhigh : c.toNat ≤ 90 := h.2
  refine List.mem_map.2 ⟨c.toNat - 65, List.mem_range.2 (by omega), ?_⟩
  rw [Nat.add_sub_cancel' hlow, Char.ofNat_toNat]

theorem lowerAscii_keeps {α : Type} (f : Char → α)
    (h : ∀ c ∈ asciiCapitals, f (Text.lowerAscii c) = f c) (c : Char) :
    f (Text.lowerAscii c) = f c := by
  cases hupper : Text.isAsciiUpper c with
  | true => exact h c (mem_asciiCapitals hupper)
  | false => rw [Markup.Lexer.lowerAscii_of_not_upper hupper]

def loweredName (name : List Char) : List Char := name.map Text.lowerAscii

theorem smallName_loweredName (name : List Char) :
    smallName (loweredName name) = smallName name := by
  rw [smallName, loweredName, List.map_map, smallName]
  exact congrArg String.ofList (List.map_congr_left fun c _ => lowerAscii_lowerAscii c)

theorem IsTagName.lowered {name : List Char} (h : IsTagName name) :
    IsTagName (loweredName name) := by
  refine ⟨fun hnil => h.1 (List.map_eq_nil_iff.1 hnil), fun c hc => ?_⟩
  obtain ⟨d, hd, rfl⟩ := List.mem_map.1 hc
  rw [lowerAscii_keeps isTagNameChar (by decide)]
  exact h.2 d hd

/-! ### Tags and documents -/

def SourceAttribute.lowered (entry : SourceAttribute) : SourceAttribute :=
  { entry with name := loweredName entry.name }

def SourceTag.lowered (tag : SourceTag) : SourceTag :=
  { tag with
    name := loweredName tag.name
    attributes := tag.attributes.map SourceAttribute.lowered }

/-- Closing tags are left as they are. -/
def Segment.lowered : Segment → Segment
  | .opening tag => .opening tag.lowered
  | segment => segment

theorem SourceAttribute.IsWritten.lowered {entry : SourceAttribute} (h : entry.IsWritten) :
    entry.lowered.IsWritten :=
  ⟨h.blanks, h.name.lowered, h.value⟩

theorem SourceTag.IsWritten.lowered {tag : SourceTag} (h : tag.IsWritten) :
    tag.lowered.IsWritten where
  head c hc := by
    rw [SourceTag.lowered, loweredName, List.head?_map] at hc
    obtain ⟨d, hd, rfl⟩ := Option.map_eq_some_iff.1 hc
    rw [lowerAscii_keeps Text.isAsciiLetter (by decide)]
    exact h.head d hd
  name := h.name.lowered
  element := by
    rw [SourceTag.lowered, smallName_loweredName]
    exact h.element
  attributes entry hentry := by
    obtain ⟨other, hother, rfl⟩ := List.mem_map.1 hentry
    exact (h.attributes other hother).lowered
  own entry hentry := by
    obtain ⟨other, hother, rfl⟩ := List.mem_map.1 hentry
    rw [SourceAttribute.lowered, smallName_loweredName]
    exact h.own other hother
  distinct := by
    rw [SourceTag.lowered, List.map_map]
    have hnames : (fun entry : SourceAttribute => smallName entry.name) ∘ SourceAttribute.lowered =
        fun entry => smallName entry.name :=
      funext fun entry => smallName_loweredName entry.name
    rw [hnames]
    exact h.distinct
  blanks := h.blanks

theorem SourceTag.IsTracked.lowered {tag : SourceTag} (h : tag.IsTracked) :
    tag.lowered.IsTracked where
  values entry hentry := by
    obtain ⟨other, hother, rfl⟩ := List.mem_map.1 hentry
    exact h.values other hother
  ending hblanks entry hentry := by
    rw [SourceTag.lowered, List.getLast?_map] at hentry
    obtain ⟨other, hother, rfl⟩ := Option.map_eq_some_iff.1 hentry
    exact h.ending hblanks other hother

theorem SourceTag.rawElement?_lowered (tag : SourceTag) :
    tag.lowered.rawElement? = tag.rawElement? := by
  rw [SourceTag.rawElement?, SourceTag.rawElement?, SourceTag.lowered, smallName_loweredName]

namespace Segment

variable {segment other : Segment}

theorem IsWritten.lowered (h : segment.IsWritten) : segment.lowered.IsWritten := by
  cases segment with
  | opening tag => exact ⟨h.1.lowered, h.2.lowered⟩
  | _ => exact h

theorem head?_source_lowered (h : segment.IsWritten) :
    ∃ c, segment.source.head? = some c ∧ segment.lowered.source.head? = some c := by
  cases segment with
  | opening tag => exact ⟨'<', rfl, rfl⟩
  | _ =>
    obtain ⟨c, cs, hsource⟩ := List.exists_cons_of_ne_nil (Lifting.source_ne_nil h)
    have hhead := congrArg List.head? hsource
    exact ⟨c, hhead, hhead⟩

theorem Before.of_head? {rest rest' : List Char} (h : segment.Before rest)
    (hhead : rest'.head? = rest.head?) : segment.lowered.Before rest' := by
  cases segment with
  | text chars =>
    intro hbrace
    rw [hhead] at hbrace
    exact h hbrace
  | mustache before source after =>
    intro hstrips
    rw [hhead]
    exact h hstrips
  | _ => trivial

theorem Apart.lowered (h : segment.Apart other) (hother : other.IsWritten) :
    segment.lowered.Apart other.lowered := by
  obtain ⟨c, hhead, hlowered⟩ := head?_source_lowered hother
  refine ⟨h.1.of_head? (hlowered.trans hhead.symm), ?_⟩
  have hafter := h.2
  cases segment <;> cases other <;> exact hafter

theorem FitsIn.lowered {raw : Option String} (h : segment.FitsIn raw) :
    segment.lowered.FitsIn raw := by
  cases segment <;> exact h

theorem rawAfter_lowered (segment : Segment) (raw : Option String) :
    segment.lowered.rawAfter raw = segment.rawAfter raw := by
  cases segment with
  | opening tag => exact tag.rawElement?_lowered
  | _ => rfl

end Segment

theorem fitAll_lowered {raw : Option String} {document : List Segment} (h : FitAll raw document) :
    FitAll raw (document.map Segment.lowered) := by
  induction document generalizing raw with
  | nil => trivial
  | cons segment document ih =>
    refine ⟨h.1.lowered, ?_⟩
    rw [segment.rawAfter_lowered]
    exact ih h.2

theorem IsDocument.lowered {raw : Option String} {document : List Segment}
    (h : IsDocument raw document) : IsDocument raw (document.map Segment.lowered) where
  written segment hsegment := by
    obtain ⟨other, hother, rfl⟩ := List.mem_map.1 hsegment
    exact (h.written other hother).lowered
  apart := by
    obtain ⟨hwritten, hapart, -⟩ := h
    induction document with
    | nil => exact List.isChain_nil
    | cons segment document ih =>
      obtain ⟨-, hlater⟩ := List.forall_mem_cons.1 hwritten
      obtain ⟨hnext, hrest⟩ := List.isChain_cons.1 hapart
      refine List.isChain_cons.2 ⟨fun other hother => ?_, ih hlater hrest⟩
      rw [List.head?_map] at hother
      obtain ⟨next, hhead, rfl⟩ := Option.map_eq_some_iff.1 hother
      exact (hnext next hhead).lowered (hlater next (List.mem_of_mem_head? hhead))
  fits := fitAll_lowered h.fits

/-! ### Markers -/

theorem mem_loweredName {c : Char} (hc : Text.isAsciiLetter c = false) {name : List Char} :
    c ∈ loweredName name ↔ c ∈ name := by
  have hletter : ∀ d, Text.lowerAscii d = c ↔ d = c := by
    intro d
    cases hupper : Text.isAsciiUpper d with
    | false => rw [Markup.Lexer.lowerAscii_of_not_upper hupper]
    | true =>
      have hletters : ∀ d ∈ asciiCapitals,
          Text.isAsciiLetter d = true ∧ Text.isAsciiLetter (Text.lowerAscii d) = true := by decide
      obtain ⟨hd, hlower⟩ := hletters d (mem_asciiCapitals hupper)
      constructor
      · rintro rfl
        exact absurd hlower (Bool.eq_false_iff.1 hc)
      · rintro rfl
        exact absurd hd (Bool.eq_false_iff.1 hc)
  rw [loweredName, List.mem_map]
  simp only [hletter, exists_eq_right]

theorem SourceAttribute.mem_source_lowered {c : Char} (hc : Text.isAsciiLetter c = false)
    (entry : SourceAttribute) : c ∈ entry.lowered.source ↔ c ∈ entry.source := by
  rw [SourceAttribute.source, SourceAttribute.source, SourceAttribute.lowered]
  simp only [List.mem_append, mem_loweredName hc]

theorem SourceTag.mem_source_lowered {c : Char} (hc : Text.isAsciiLetter c = false)
    (tag : SourceTag) : c ∈ tag.lowered.source ↔ c ∈ tag.source := by
  rw [SourceTag.source, SourceTag.source, SourceTag.lowered]
  simp only [List.mem_cons, List.mem_append, mem_loweredName hc, List.mem_flatMap, List.mem_map,
    exists_exists_and_eq_and, SourceAttribute.mem_source_lowered hc]

theorem mem_source_lowered {c : Char} (hc : Text.isAsciiLetter c = false)
    (document : List Segment) :
    c ∈ (document.map Segment.lowered).flatMap Segment.source ↔
      c ∈ document.flatMap Segment.source := by
  have hsegment : ∀ segment : Segment, c ∈ segment.lowered.source ↔ c ∈ segment.source := by
    intro segment
    cases segment with
    | opening tag => exact tag.mem_source_lowered hc
    | _ => rfl
  simp only [List.mem_flatMap, List.mem_map, exists_exists_and_eq_and, hsegment]

theorem freeMarker?_lowered (mark : List Char) (document : List Segment) :
    freeMarker? (mark ++ (document.map Segment.lowered).flatMap Segment.source) =
      freeMarker? (mark ++ document.flatMap Segment.source) := by
  rw [freeMarker?, freeMarker?]
  refine List.find?_congr fun c hc => ?_
  obtain ⟨n, hn, rfl⟩ := List.mem_map.1 hc
  have hmarker := isMarker_ofNat (List.mem_range.1 hn)
  have hletter : Text.isAsciiLetter (Char.ofNat (0xE000 + n)) = false := by
    refine Bool.eq_false_iff.2 fun hletter => ?_
    have hsmall := toNat_of_isAsciiLetter hletter
    have hlow := hmarker.1
    omega
  have hsame := mem_source_lowered hletter document
  simp only [List.contains_eq_mem, List.mem_append, hsame]

end MustacheJsx
