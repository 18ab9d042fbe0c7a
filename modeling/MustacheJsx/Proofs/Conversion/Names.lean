import MustacheJsx.Conversion.Program
import MustacheJsx.Proofs.Jsx.Names
import MustacheJsx.Proofs.Outcome
import MustacheJsx.Proofs.Scope.Place

/-!
# Where conversion writes names

Every name in converted code comes from somewhere: it begins the segments of a value, and then it
stands under one function for each loop around that value; or it is called as a helper; or
conversion writes it of its own accord. The main statement is `Statement.convert_accounted`.
-/

namespace MustacheJsx

def Vocabulary.ownNames : List String := ["undefined", "Boolean", generatorFunction, loopIndex]

/-- The parameters of the functions around what stands in the blocks `enclosing`: a loop becomes a
function of its item and its index. -/
def Enclosure.arrows (base : List (List String)) : List Enclosure → List (List String)
  | [] => base
  | .loop :: enclosing => [Vocabulary.loopItem, Vocabulary.loopIndex] :: arrows base enclosing
  | .narrowing _ :: enclosing => arrows base enclosing

/-- Where a name in converted code comes from. -/
inductive Jsx.Occurrence.Accounted (notes : Annotations) (base : List (List String))
    (places : List Place) (paths : List Path) : Jsx.Occurrence → Prop where
  | value {path : Path} {enclosing : List Enclosure} {name : String}
      (hplace : (path, enclosing) ∈ places) (hname : (notes.segments path).head? = some name) :
    Accounted notes base places paths (name, Enclosure.arrows base enclosing)
  | callee {path : Path} {name : String} {arrows : List (List String)} (hpath : path ∈ paths)
      (hname : path.helperName? = some name) : Accounted notes base places paths (name, arrows)
  | own {name : String} {arrows : List (List String)} (hname : name ∈ Vocabulary.ownNames) :
    Accounted notes base places paths (name, arrows)

section

variable {notes : Annotations} {base : List (List String)} {places : List Place}
  {paths : List Path} {enclosing : List Enclosure}

/-- Every name in a list comes from somewhere. -/
def Accounted (notes : Annotations) (base : List (List String)) (places : List Place)
    (paths : List Path) (names : List Jsx.Occurrence) : Prop :=
  ∀ occurrence ∈ names, occurrence.Accounted notes base places paths

theorem Accounted.nil : Accounted notes base places paths [] := fun _ h => nomatch h

theorem Accounted.append {names others : List Jsx.Occurrence}
    (h : Accounted notes base places paths names) (h' : Accounted notes base places paths others) :
    Accounted notes base places paths (names ++ others) := by
  intro occurrence hm
  rcases List.mem_append.1 hm with hm | hm
  · exact h _ hm
  · exact h' _ hm

theorem Accounted.own {name : String} {arrows : List (List String)}
    (h : name ∈ Vocabulary.ownNames) : Accounted notes base places paths [(name, arrows)] := by
  intro occurrence hm
  rw [List.mem_singleton.1 hm]
  exact .own h

/-! ### Expressions -/

theorem Path.toTerm_accounted {path : Path} {term : Jsx.Term}
    (hplace : (path, enclosing) ∈ places) (h : path.toTerm notes = .ok term) :
    Accounted notes base places paths (term.names (Enclosure.arrows base enclosing)) := by
  rw [Path.toTerm] at h
  cases hs : notes.segments path with
  | nil =>
    rw [hs] at h
    cases h
  | cons name rest =>
    rw [hs] at h
    cases h
    rw [Jsx.Term.names_foldl_member, Jsx.Term.names]
    intro occurrence hm
    rw [List.mem_singleton.1 hm]
    refine .value hplace ?_
    rw [hs, List.head?_cons]

theorem Literal.toTerm_accounted (literal : Literal) (arrows : List (List String)) :
    Accounted notes base places paths (literal.toTerm.names arrows) := by
  cases literal with
  | undefined => exact .own (by decide)
  | boolean | number | string | null => exact .nil

theorem Jsx.PropertyKey.ofName_accounted (key : String) (arrows : List (List String)) :
    Accounted notes base places paths (Jsx.Term.namesOfKey arrows (.ofName key)) := by
  rw [Jsx.PropertyKey.ofName]
  split <;> exact .nil

mutual

theorem Expression.toTerm_accounted (e : Expression) {term : Jsx.Term}
    (hvalues : ∀ p ∈ e.values, (p, enclosing) ∈ places) (hpaths : ∀ p ∈ e.paths, p ∈ paths)
    (h : e.toTerm notes = .ok term) :
    Accounted notes base places paths (term.names (Enclosure.arrows base enclosing)) := by
  match e with
  | .path p => exact p.toTerm_accounted (hvalues p (List.mem_singleton.2 rfl)) h
  | .literal l =>
    cases h
    exact l.toTerm_accounted _
  | .call callee params hash =>
    rw [toTerm.eq_def] at h
    dsimp only at h
    simp only [values, List.mem_append] at hvalues
    simp only [Expression.paths, List.mem_append] at hpaths
    cases callee with
    | path p =>
      dsimp only [helperName?] at h
      cases hn : p.helperName? with
      | none =>
        rw [hn] at h
        cases h
      | some name =>
        rw [hn] at h
        obtain ⟨arguments, ha, h⟩ := bind_eq_ok h
        obtain ⟨properties, hp, h⟩ := bind_eq_ok h
        cases h
        rw [Jsx.Term.names, Jsx.Term.namesOfAll_append]
        refine .append ?_ (.append ?_ ?_)
        · intro occurrence hm
          rw [List.mem_singleton.1 hm]
          exact .callee (hpaths p (.inl (.inl (List.mem_singleton.2 rfl)))) hn
        · exact toTerms_accounted params (fun p hm => hvalues p (.inl hm))
            (fun p hm => hpaths p (.inl (.inr hm))) ha
        · split
          · exact .nil
          · rw [Jsx.Term.namesOfAll, Jsx.Term.namesOfAll, List.append_nil, Jsx.Term.names]
            exact toProperties_accounted hash (fun p hm => hvalues p (.inr hm))
              (fun p hm => hpaths p (.inr hm)) hp
    | literal | call => cases h

theorem Expression.toTerms_accounted (params : List Expression) {terms : List Jsx.Term}
    (hvalues : ∀ p ∈ valuesOfParams params, (p, enclosing) ∈ places)
    (hpaths : ∀ p ∈ pathsOfParams params, p ∈ paths)
    (h : toTerms notes params = .ok terms) :
    Accounted notes base places paths
      (Jsx.Term.namesOfAll (Enclosure.arrows base enclosing) terms) := by
  match params with
  | [] =>
    cases h
    exact .nil
  | param :: params =>
    obtain ⟨term, ht, h⟩ := bind_eq_ok h
    obtain ⟨others, ho, h⟩ := bind_eq_ok h
    cases h
    simp only [valuesOfParams, List.mem_append] at hvalues
    simp only [pathsOfParams, List.mem_append] at hpaths
    exact .append
      (toTerm_accounted param (fun p hm => hvalues p (.inl hm)) (fun p hm => hpaths p (.inl hm)) ht)
      (toTerms_accounted params (fun p hm => hvalues p (.inr hm))
        (fun p hm => hpaths p (.inr hm)) ho)

theorem Expression.toProperties_accounted (hash : List (String × Expression))
    {properties : List Jsx.Property}
    (hvalues : ∀ p ∈ valuesOfHash hash, (p, enclosing) ∈ places)
    (hpaths : ∀ p ∈ pathsOfHash hash, p ∈ paths)
    (h : toProperties notes hash = .ok properties) :
    Accounted notes base places paths
      (Jsx.Term.namesOfProperties (Enclosure.arrows base enclosing) properties) := by
  match hash with
  | [] =>
    cases h
    exact .nil
  | (key, value) :: pairs =>
    obtain ⟨term, ht, h⟩ := bind_eq_ok h
    obtain ⟨others, ho, h⟩ := bind_eq_ok h
    cases h
    simp only [valuesOfHash, List.mem_append] at hvalues
    simp only [pathsOfHash, List.mem_append] at hpaths
    exact .append (.append (Jsx.PropertyKey.ofName_accounted key _)
      (toTerm_accounted value (fun p hm => hvalues p (.inl hm))
        (fun p hm => hpaths p (.inl hm)) ht))
      (toProperties_accounted pairs (fun p hm => hvalues p (.inr hm))
        (fun p hm => hpaths p (.inr hm)) ho)

end

theorem Mustache.toTerm_accounted (m : Mustache) {term : Jsx.Term}
    (hvalues : ∀ p ∈ m.values, (p, enclosing) ∈ places) (hpaths : ∀ p ∈ m.paths, p ∈ paths)
    (h : m.toTerm notes = .ok term) :
    Accounted notes base places paths (term.names (Enclosure.arrows base enclosing)) := by
  simp only [Mustache.paths, pathsOfArguments, List.mem_append] at hpaths
  rw [Mustache.values] at hvalues
  rw [Mustache.toTerm] at h
  split at h
  · next hcall =>
    rw [if_pos hcall] at hvalues
    refine Expression.toTerm_accounted (.call m.callee m.params m.hash) hvalues
      (fun p hm => hpaths p ?_) h
    simpa only [Expression.paths, List.mem_append, or_assoc] using hm
  · next hcall =>
    rw [if_neg hcall] at hvalues
    exact Expression.toTerm_accounted _ hvalues (fun p hm => hpaths p (.inl hm)) h

/-! ### Parts of values -/

theorem Jsx.Term.namesOfAll_accounted {terms : List Jsx.Term} {arrows : List (List String)}
    (h : ∀ term ∈ terms, Accounted notes base places paths (term.names arrows)) :
    Accounted notes base places paths (Jsx.Term.namesOfAll arrows terms) := by
  induction terms with
  | nil => exact .nil
  | cons term terms ih =>
    exact .append (h term List.mem_cons_self) (ih fun t hm => h t (List.mem_cons_of_mem _ hm))

theorem Statement.places_subset_all {statement : Statement} {statements : List Statement}
    (hm : statement ∈ statements) {place : Place} (hp : place ∈ statement.places enclosing) :
    place ∈ placesOfAll enclosing statements := by
  induction statements with
  | nil => cases hm
  | cons first statements ih =>
    rw [placesOfAll, List.mem_append]
    rcases List.mem_cons.1 hm with rfl | hm
    · exact .inl hp
    · exact .inr (ih hm)

theorem Statement.paths_subset_all {statement : Statement} {statements : List Statement}
    (hm : statement ∈ statements) {path : Path} (hp : path ∈ statement.paths) :
    path ∈ pathsOfAll statements := by
  induction statements with
  | nil => cases hm
  | cons first statements ih =>
    rw [pathsOfAll, List.mem_append]
    rcases List.mem_cons.1 hm with rfl | hm
    · exact .inl hp
    · exact .inr (ih hm)

theorem Statement.toSummand_accounted (part : Statement) {term : Jsx.Term}
    (hplaces : ∀ p ∈ part.places enclosing, p ∈ places) (hpaths : ∀ p ∈ part.paths, p ∈ paths)
    (h : part.toSummand notes = .ok term) :
    Accounted notes base places paths (term.names (Enclosure.arrows base enclosing)) := by
  cases part with
  | text chars =>
    cases h
    exact .nil
  | mustache m =>
    exact m.toTerm_accounted (fun p hm => hplaces _ (mem_placed.2 ⟨hm, rfl⟩)) hpaths h
  | element | block | partialCall | mustacheComment | markupComment => cases h

theorem Statement.sum_accounted (parts : List Statement) {term : Jsx.Term}
    (hplaces : ∀ p ∈ placesOfAll enclosing parts, p ∈ places)
    (hpaths : ∀ p ∈ pathsOfAll parts, p ∈ paths) (h : Statement.sum notes parts = .ok term) :
    Accounted notes base places paths (term.names (Enclosure.arrows base enclosing)) := by
  obtain ⟨terms, ht, h⟩ := bind_eq_ok h
  cases h
  rw [Jsx.Term.names_sum]
  refine Jsx.Term.namesOfAll_accounted fun term hm => ?_
  obtain ⟨part, hpart, hp⟩ := exists_of_mem_mapM ht hm
  exact part.toSummand_accounted (fun p hp => hplaces p (places_subset_all hpart hp))
    (fun p hp => hpaths p (paths_subset_all hpart hp)) hp

/-! ### Styles -/

namespace Style

theorem mem_pieces {part : Statement} {marks : List (Option Piece)} {m : Mustache}
    (h : pieces part = .ok marks) (hm : some (.mustache m) ∈ marks) : part = .mustache m := by
  cases part with
  | text chars =>
    have htext : ∀ cs, some (Piece.mustache m) ∉ piecesOfText cs := by
      intro cs
      rw [piecesOfText]
      split <;> simp
    rw [pieces] at h
    split at h
    · cases h
      cases hm
    · cases h
      rcases List.mem_append.1 hm with hm | hm
      · exact absurd hm (htext _)
      · obtain ⟨cs, -, hm⟩ := List.mem_flatMap.1 hm
        rcases List.mem_cons.1 hm with hm | hm
        · cases hm
        · exact absurd hm (htext _)
  | mustache m' =>
    cases h
    cases List.mem_singleton.1 hm
    rfl
  | element | block | partialCall | mustacheComment | markupComment => cases h

theorem mem_declarations {marks : List (Option Piece)} {declaration : List Piece} {piece : Piece}
    (hd : declaration ∈ declarations marks) (hp : piece ∈ declaration) : some piece ∈ marks := by
  induction marks generalizing declaration with
  | nil =>
    rw [declarations, List.mem_singleton] at hd
    rw [hd] at hp
    cases hp
  | cons mark marks ih =>
    cases mark with
    | none =>
      rcases List.mem_cons.1 hd with rfl | hd
      · cases hp
      · exact List.mem_cons_of_mem _ (ih hd hp)
    | some first =>
      rw [declarations] at hd
      split at hd
      · rw [List.mem_singleton.1 hd] at hp
        rw [List.mem_singleton.1 hp]
        exact List.mem_cons_self
      · next next others heq =>
        rcases List.mem_cons.1 hd with rfl | hd
        · rcases List.mem_cons.1 hp with rfl | hp
          · exact List.mem_cons_self
          · exact List.mem_cons_of_mem _ (ih (heq ▸ List.mem_cons_self) hp)
        · exact List.mem_cons_of_mem _ (ih (heq ▸ List.mem_cons_of_mem _ hd) hp)

theorem mem_of_cutAtColon {declaration key value : List Piece} {m : Mustache}
    (h : cutAtColon? declaration = some (key, value))
    (hm : Piece.mustache m ∈ key ∨ Piece.mustache m ∈ value) : Piece.mustache m ∈ declaration := by
  induction declaration generalizing key with
  | nil => cases h
  | cons piece rest ih =>
    cases piece with
    | text cs =>
      rw [cutAtColon?] at h
      split at h
      · cases h
        rcases hm with hm | hm
        · cases List.mem_singleton.1 hm
        · rcases List.mem_cons.1 hm with hm | hm
          · cases hm
          · exact List.mem_cons_of_mem _ hm
      · obtain ⟨⟨key', value'⟩, hc, heq⟩ := Option.map_eq_some_iff.1 h
        cases heq
        refine List.mem_cons_of_mem _ (ih hc (hm.imp_left fun hm => ?_))
        rcases List.mem_cons.1 hm with hm | hm
        · cases hm
        · exact hm
    | mustache m' =>
      rw [cutAtColon?] at h
      obtain ⟨⟨key', value'⟩, hc, heq⟩ := Option.map_eq_some_iff.1 h
      cases heq
      rcases hm with hm | hm
      · rcases List.mem_cons.1 hm with hm | hm
        · rw [hm]
          exact List.mem_cons_self
        · exact List.mem_cons_of_mem _ (ih hc (.inl hm))
      · exact List.mem_cons_of_mem _ (ih hc (.inr hm))

theorem mem_of_mapFirst {f : List Char → List Char} {pieces : List Piece} {m : Mustache}
    (h : Piece.mustache m ∈ mapFirst f pieces) : Piece.mustache m ∈ pieces := by
  rw [mapFirst.eq_def] at h
  split at h
  · rcases List.mem_cons.1 h with h | h
    · cases h
    · exact List.mem_cons_of_mem _ h
  · exact h

theorem mem_of_trim {pieces : List Piece} {m : Mustache} (h : Piece.mustache m ∈ trim pieces) :
    Piece.mustache m ∈ pieces := by
  have h := List.mem_reverse.1 (List.mem_of_mem_filter h)
  exact mem_of_mapFirst (List.mem_reverse.1 (mem_of_mapFirst h))

theorem mem_of_keyValue {declaration key value : List Piece} {m : Mustache}
    (h : keyValue? declaration = some (key, value))
    (hm : Piece.mustache m ∈ key ∨ Piece.mustache m ∈ value) : Piece.mustache m ∈ declaration := by
  rw [keyValue?] at h
  split at h
  · cases h
  · next hc =>
    dsimp only at h
    split at h
    · cases h
    · cases h
      exact mem_of_cutAtColon hc (hm.imp mem_of_trim mem_of_trim)

/-- The mustaches of the keys and values in a style are parts of it. -/
theorem mem_parts {parts : List Statement} {marks : List (List (Option Piece))}
    (hmarks : parts.mapM pieces = .ok marks) {pair : List Piece × List Piece}
    (hpair : pair ∈ (declarations marks.flatten).filterMap keyValue?) {m : Mustache}
    (hm : Piece.mustache m ∈ pair.1 ∨ Piece.mustache m ∈ pair.2) :
    Statement.mustache m ∈ parts := by
  obtain ⟨declaration, hd, hkv⟩ := List.mem_filterMap.1 hpair
  obtain ⟨ms, hms, hm⟩ := List.mem_flatten.1 (mem_declarations hd (mem_of_keyValue hkv hm))
  obtain ⟨part, hpart, hpieces⟩ := exists_of_mem_mapM hmarks hms
  cases mem_pieces hpieces hm
  exact hpart

/-- The mustaches of pieces are values at one place. -/
def Placed (enclosing : List Enclosure) (places : List Place) (paths : List Path)
    (pieces : List Piece) : Prop :=
  ∀ m, Piece.mustache m ∈ pieces →
    (∀ p ∈ m.values, (p, enclosing) ∈ places) ∧ ∀ p ∈ m.paths, p ∈ paths

theorem sum_accounted {pieces : List Piece} {term : Jsx.Term}
    (hplaced : Placed enclosing places paths pieces) (h : sum notes pieces = .ok term) :
    Accounted notes base places paths (term.names (Enclosure.arrows base enclosing)) := by
  obtain ⟨terms, ht, h⟩ := bind_eq_ok h
  cases h
  rw [Jsx.Term.names_sum]
  refine Jsx.Term.namesOfAll_accounted fun term hm => ?_
  obtain ⟨piece, hpiece, hp⟩ := exists_of_mem_mapM ht hm
  cases piece with
  | text cs =>
    cases hp
    exact .nil
  | mustache m => exact m.toTerm_accounted (hplaced m hpiece).1 (hplaced m hpiece).2 hp

theorem toKey_accounted {pieces : List Piece} {key : Jsx.PropertyKey}
    (hplaced : Placed enclosing places paths pieces) (h : toKey notes pieces = .ok key) :
    Accounted notes base places paths
      (Jsx.Term.namesOfKey (Enclosure.arrows base enclosing) key) := by
  rw [toKey.eq_def] at h
  split at h
  · cases h
    exact .nil
  · obtain ⟨term, ht, h⟩ := bind_eq_ok h
    cases h
    exact sum_accounted hplaced ht

theorem toProperties_accounted {pairs : List (List Piece × List Piece)}
    {properties : List Jsx.Property}
    (hplaced : ∀ pair ∈ pairs, Placed enclosing places paths pair.1 ∧
      Placed enclosing places paths pair.2)
    (h : pairs.mapM (fun (key, value) => toProperty notes key value) = .ok properties) :
    Accounted notes base places paths
      (Jsx.Term.namesOfProperties (Enclosure.arrows base enclosing) properties) := by
  have hall := forall₂_of_mapM_eq_ok h
  clear h
  induction hall with
  | nil => exact .nil
  | @cons pair property pairs properties hp _ ih =>
    obtain ⟨key, hk, hp⟩ := bind_eq_ok hp
    obtain ⟨value, hv, hp⟩ := bind_eq_ok hp
    cases hp
    obtain ⟨hkey, hvalue⟩ := hplaced pair List.mem_cons_self
    exact .append (.append (toKey_accounted hkey hk) (sum_accounted hvalue hv))
      (ih fun pair hm => hplaced pair (List.mem_cons_of_mem _ hm))

theorem ofParts_accounted (parts : List Statement) {term : Jsx.Term}
    (hplaces : ∀ p ∈ Statement.placesOfAll enclosing parts, p ∈ places)
    (hpaths : ∀ p ∈ Statement.pathsOfAll parts, p ∈ paths) (h : ofParts notes parts = .ok term) :
    Accounted notes base places paths (term.names (Enclosure.arrows base enclosing)) := by
  obtain ⟨marks, hmarks, h⟩ := bind_eq_ok h
  obtain ⟨properties, hproperties, h⟩ := bind_eq_ok h
  cases h
  have hplaced : ∀ m, Statement.mustache m ∈ parts →
      (∀ p ∈ m.values, (p, enclosing) ∈ places) ∧ ∀ p ∈ m.paths, p ∈ paths := fun m hpart =>
    ⟨fun p hp => hplaces _ (Statement.places_subset_all hpart (mem_placed.2 ⟨hp, rfl⟩)),
      fun p hp => hpaths p (Statement.paths_subset_all hpart hp)⟩
  rw [Jsx.Term.names]
  exact toProperties_accounted (fun pair hpair =>
    ⟨fun m hm => hplaced m (mem_parts hmarks hpair (.inl hm)),
      fun m hm => hplaced m (mem_parts hmarks hpair (.inr hm))⟩) hproperties

theorem ofValue_accounted {value : AttributeValue} {term : Jsx.Term}
    (hplaces : ∀ p ∈ Statement.placesOfValue enclosing value, p ∈ places)
    (hpaths : ∀ p ∈ Statement.pathsOfValue value, p ∈ paths) (h : ofValue notes value = .ok term) :
    Accounted notes base places paths (term.names (Enclosure.arrows base enclosing)) := by
  cases value with
  | text chars =>
    refine ofParts_accounted [.text chars] (fun p hm => ?_) (fun p hm => ?_) h
    · simp [Statement.placesOfAll, Statement.places] at hm
    · simp [Statement.pathsOfAll, Statement.paths] at hm
  | concat parts => exact ofParts_accounted parts hplaces hpaths h
  | mustache m => cases h

end Style

/-! ### Attributes -/

abbrev Jsx.Attribute.names (arrows : List (List String)) (a : Jsx.Attribute) :
    List Jsx.Occurrence :=
  Jsx.Term.namesOfAttributes arrows [a]

theorem Jsx.Attribute.term_accounted {name : String} {term : Jsx.Term}
    {arrows : List (List String)} (h : Accounted notes base places paths (term.names arrows)) :
    Accounted notes base places paths (Jsx.Attribute.names arrows (.term name term)) :=
  .append h .nil

theorem Jsx.Attribute.ofText_accounted (name value : String) (arrows : List (List String)) :
    Accounted notes base places paths (Jsx.Attribute.names arrows (.ofText name value)) := by
  unfold Jsx.Attribute.ofText
  split <;> exact .nil

theorem Jsx.Child.ofText_accounted (chars : String) (arrows : List (List String)) :
    Accounted notes base places paths
      (Jsx.Term.namesOfChildren arrows (Jsx.Child.ofText chars)) := by
  unfold Jsx.Child.ofText
  induction TextRun.ofText chars.toList with
  | nil => exact .nil
  | cons run runs ih =>
    cases run with
    | plain cs => exact ih
    | marked c => exact ih

theorem Attribute.toSpread_accounted {name : String} {value : AttributeValue}
    {spread : Jsx.Attribute} (hplaces : ∀ p ∈ Statement.placesOfValue enclosing value, p ∈ places)
    (hpaths : ∀ p ∈ Statement.pathsOfValue value, p ∈ paths)
    (h : Attribute.toSpread notes name value = .ok spread) :
    Accounted notes base places paths (spread.names (Enclosure.arrows base enclosing)) := by
  have hcall : ∀ term : Jsx.Term,
      Accounted notes base places paths (term.names (Enclosure.arrows base enclosing)) →
      Accounted notes base places paths (Jsx.Attribute.names (Enclosure.arrows base enclosing)
        (.spread (.call (.name Vocabulary.generatorFunction) [term]))) := fun term h =>
    .append (.append (.own (by decide)) (.append h .nil)) .nil
  cases value with
  | text chars => cases h
  | mustache m =>
    obtain ⟨term, ht, h⟩ := bind_eq_ok h
    cases h
    exact hcall term
      (m.toTerm_accounted (fun p hp => hplaces _ (mem_placed.2 ⟨hp, rfl⟩)) hpaths ht)
  | concat parts =>
    obtain ⟨term, ht, h⟩ := bind_eq_ok h
    cases h
    exact hcall term (Statement.sum_accounted parts hplaces hpaths ht)

theorem Attribute.toNamed_accounted {name : String} {value : AttributeValue}
    {named : Jsx.Attribute} (hplaces : ∀ p ∈ Statement.placesOfValue enclosing value, p ∈ places)
    (hpaths : ∀ p ∈ Statement.pathsOfValue value, p ∈ paths)
    (h : Attribute.toNamed notes name value = .ok named) :
    Accounted notes base places paths (named.names (Enclosure.arrows base enclosing)) := by
  cases value with
  | mustache m =>
    obtain ⟨term, ht, h⟩ := bind_eq_ok h
    cases h
    exact Jsx.Attribute.term_accounted
      (m.toTerm_accounted (fun p hp => hplaces _ (mem_placed.2 ⟨hp, rfl⟩)) hpaths ht)
  | text chars =>
    rw [Attribute.toNamed] at h
    split at h
    · obtain ⟨term, ht, h⟩ := bind_eq_ok h
      cases h
      exact Jsx.Attribute.term_accounted (Style.ofValue_accounted hplaces hpaths ht)
    · cases h
      exact Jsx.Attribute.ofText_accounted _ _ _
  | concat parts =>
    rw [Attribute.toNamed] at h
    split at h
    · obtain ⟨term, ht, h⟩ := bind_eq_ok h
      cases h
      exact Jsx.Attribute.term_accounted (Style.ofValue_accounted hplaces hpaths ht)
    · split at h
      · cases h
      · obtain ⟨term, ht, h⟩ := bind_eq_ok h
        cases h
        exact Jsx.Attribute.term_accounted (Statement.sum_accounted parts hplaces hpaths ht)

theorem Attribute.toJsx_accounted {name : String} {value : AttributeValue}
    {kept : Jsx.Attribute} (hplaces : ∀ p ∈ Statement.placesOfValue enclosing value, p ∈ places)
    (hpaths : ∀ p ∈ Statement.pathsOfValue value, p ∈ paths)
    (h : Attribute.toJsx notes (.mk name value) = .ok (some kept)) :
    Accounted notes base places paths (kept.names (Enclosure.arrows base enclosing)) := by
  rw [Attribute.toJsx] at h
  split at h
  · obtain ⟨spread, hs, h⟩ := bind_eq_ok h
    cases h
    exact Attribute.toSpread_accounted hplaces hpaths hs
  · split at h
    · obtain ⟨named, hn, h⟩ := bind_eq_ok h
      cases h
      exact Attribute.toNamed_accounted hplaces hpaths hn
    · cases h

theorem Attribute.toJsxAll_accounted {attributes : List Attribute} {kept : List Jsx.Attribute}
    (hplaces : ∀ p ∈ Statement.placesOfAttributes enclosing attributes, p ∈ places)
    (hpaths : ∀ p ∈ Statement.pathsOfAttributes attributes, p ∈ paths)
    (h : Attribute.toJsxAll notes attributes = .ok kept) :
    Accounted notes base places paths
      (Jsx.Term.namesOfAttributes (Enclosure.arrows base enclosing) kept) := by
  obtain ⟨converted, hc, h⟩ := bind_eq_ok h
  cases h
  clear h
  induction attributes generalizing converted with
  | nil =>
    cases hc
    exact .nil
  | cons first attributes ih =>
    obtain ⟨name, value⟩ := first
    simp only [Statement.placesOfAttributes, List.mem_append] at hplaces
    simp only [Statement.pathsOfAttributes, List.mem_append] at hpaths
    rw [List.mapM_cons] at hc
    obtain ⟨first, hf, hc⟩ := bind_eq_ok hc
    obtain ⟨others, ho, hc⟩ := bind_eq_ok hc
    cases hc
    have hrest := ih (fun p hm => hplaces p (.inr hm)) (fun p hm => hpaths p (.inr hm)) others ho
    cases first with
    | none => exact hrest
    | some first =>
      change Accounted _ _ _ _ (Jsx.Term.namesOfAttributes _ ([first] ++ others.filterMap id))
      rw [Jsx.Term.namesOfAttributes_append]
      exact .append (Attribute.toJsx_accounted (fun p hm => hplaces p (.inl hm))
        (fun p hm => hpaths p (.inl hm)) hf) hrest

/-! ### Partials and heads of blocks -/

theorem Expression.param_accounted {param : Expression} {params : List Expression} {hash : Hash}
    {term : Jsx.Term} (hm : param ∈ params)
    (hplaces : ∀ p ∈ placed enclosing (valuesOfArguments params hash), p ∈ places)
    (hpaths : ∀ p ∈ pathsOfArguments params hash, p ∈ paths)
    (h : param.toTerm notes = .ok term) :
    Accounted notes base places paths (term.names (Enclosure.arrows base enclosing)) := by
  have hvalues : ∀ p ∈ param.values, p ∈ valuesOfParams params := by
    intro p hp
    clear hplaces hpaths
    induction params with
    | nil => cases hm
    | cons first params ih =>
      rw [valuesOfParams, List.mem_append]
      rcases List.mem_cons.1 hm with rfl | hm
      · exact .inl hp
      · exact .inr (ih hm)
  have hparam : ∀ p ∈ param.paths, p ∈ pathsOfParams params := by
    intro p hp
    clear hplaces hpaths hvalues
    induction params with
    | nil => cases hm
    | cons first params ih =>
      rw [pathsOfParams, List.mem_append]
      rcases List.mem_cons.1 hm with rfl | hm
      · exact .inl hp
      · exact .inr (ih hm)
  exact param.toTerm_accounted
    (fun p hp => hplaces _ (mem_placed.2 ⟨List.mem_append_left _ (hvalues p hp), rfl⟩))
    (fun p hp => hpaths p (List.mem_append_left _ (hparam p hp))) h

theorem Jsx.Attribute.ofHash_accounted {hash : Hash} {named : List Jsx.Attribute}
    (hvalues : ∀ p ∈ Expression.valuesOfHash hash, (p, enclosing) ∈ places)
    (hpaths : ∀ p ∈ Expression.pathsOfHash hash, p ∈ paths)
    (h : Jsx.Attribute.ofHash notes hash = .ok named) :
    Accounted notes base places paths
      (Jsx.Term.namesOfAttributes (Enclosure.arrows base enclosing) named) := by
  induction hash generalizing named with
  | nil =>
    cases h
    exact .nil
  | cons pair pairs ih =>
    obtain ⟨key, value⟩ := pair
    simp only [Expression.valuesOfHash, List.mem_append] at hvalues
    simp only [Expression.pathsOfHash, List.mem_append] at hpaths
    have hrest : ∀ others, Jsx.Attribute.ofHash notes pairs = .ok others →
        Accounted notes base places paths
          (Jsx.Term.namesOfAttributes (Enclosure.arrows base enclosing) others) :=
      fun others => ih (fun p hm => hvalues p (.inr hm)) (fun p hm => hpaths p (.inr hm))
    rw [Jsx.Attribute.ofHash.eq_def] at h
    split at h
    · next heq => cases heq
    · next heq =>
      cases heq
      obtain ⟨others, ho, h⟩ := bind_eq_ok h
      cases h
      rw [← List.singleton_append, Jsx.Term.namesOfAttributes_append]
      exact .append (Jsx.Attribute.ofText_accounted _ _ _) (hrest others ho)
    · next heq =>
      cases heq
      obtain ⟨term, ht, h⟩ := bind_eq_ok h
      obtain ⟨others, ho, h⟩ := bind_eq_ok h
      cases h
      exact .append (value.toTerm_accounted (fun p hm => hvalues p (.inl hm))
        (fun p hm => hpaths p (.inl hm)) ht) (hrest others ho)

theorem PartialCall.toElement_accounted {call : PartialCall} {element : Jsx.Element}
    (hplaces : ∀ p ∈ placed enclosing (valuesOfArguments call.params call.hash), p ∈ places)
    (hpaths : ∀ p ∈ pathsOfArguments call.params call.hash, p ∈ paths)
    (h : call.toElement notes = .ok element) :
    Accounted notes base places paths
      (Jsx.Term.namesOfElement (Enclosure.arrows base enclosing) element) := by
  rw [PartialCall.toElement] at h
  split at h
  · cases h
  · split at h
    · cases h
    · obtain ⟨context, hc, h⟩ := bind_eq_ok h
      obtain ⟨named, hn, h⟩ := bind_eq_ok h
      cases h
      rw [Jsx.Term.namesOfElement, Jsx.Term.namesOfAttributes_append]
      refine .append (.append ?_ ?_) .nil
      · cases hparams : call.params with
        | nil =>
          rw [hparams] at hc
          cases hc
          exact .nil
        | cons param params =>
          rw [hparams] at hc
          obtain ⟨term, ht, hc⟩ := bind_eq_ok hc
          cases hc
          exact Jsx.Attribute.term_accounted (Expression.param_accounted
            (hparams ▸ List.mem_cons_self) hplaces hpaths ht)
      · exact Jsx.Attribute.ofHash_accounted
          (fun p hp => hplaces _ (mem_placed.2 ⟨List.mem_append_right _ hp, rfl⟩))
          (fun p hp => hpaths p (List.mem_append_right _ hp)) hn

namespace BlockHead

variable {head : BlockHead}

theorem mem_of_subject {expected : Expected} {param : Expression}
    (h : head.subject expected = .ok param) : param ∈ head.params := by
  rw [subject] at h
  split at h
  · next heq =>
    cases h
    rw [heq]
    exact List.mem_cons_self
  · cases h

theorem toTest_accounted {negated : Bool} {test : Jsx.Term}
    (hplaces : ∀ p ∈ placed enclosing (valuesOfArguments head.params head.hash), p ∈ places)
    (hpaths : ∀ p ∈ pathsOfArguments head.params head.hash, p ∈ paths)
    (h : head.toTest notes negated = .ok test) :
    Accounted notes base places paths (test.names (Enclosure.arrows base enclosing)) := by
  obtain ⟨param, hs, h⟩ := bind_eq_ok h
  obtain ⟨term, ht, h⟩ := bind_eq_ok h
  cases h
  have hterm : Accounted notes base places paths
      (term.names (Enclosure.arrows base enclosing)) :=
    Expression.param_accounted (mem_of_subject hs) hplaces hpaths ht
  have htruth : Accounted notes base places paths
      (term.truth.names (Enclosure.arrows base enclosing)) :=
    .append (.own (by decide)) (.append hterm .nil)
  split
  · exact htruth
  · exact htruth

theorem toCollection_accounted {collection : Jsx.Term}
    (hplaces : ∀ p ∈ placed enclosing (valuesOfArguments head.params head.hash), p ∈ places)
    (hpaths : ∀ p ∈ pathsOfArguments head.params head.hash, p ∈ paths)
    (h : head.toCollection notes = .ok collection) :
    Accounted notes base places paths (collection.names (Enclosure.arrows base enclosing)) := by
  obtain ⟨param, hs, h⟩ := bind_eq_ok h
  split at h
  · cases h
  · exact Expression.param_accounted (mem_of_subject hs) hplaces hpaths h

theorem toLinkAttributes_accounted {kept : List Jsx.Attribute}
    (hplaces : ∀ p ∈ placed enclosing (valuesOfArguments head.params head.hash), p ∈ places)
    (hpaths : ∀ p ∈ pathsOfArguments head.params head.hash, p ∈ paths)
    (h : head.toLinkAttributes notes = .ok kept) :
    Accounted notes base places paths
      (Jsx.Term.namesOfAttributes (Enclosure.arrows base enclosing) kept) := by
  obtain ⟨param, hs, h⟩ := bind_eq_ok h
  obtain ⟨target, ht, h⟩ := bind_eq_ok h
  have htarget : Accounted notes base places paths
      (target.names (Enclosure.arrows base enclosing)) :=
    Expression.param_accounted (mem_of_subject hs) hplaces hpaths ht
  split at h
  · cases h
    exact .append htarget .nil
  · next second others hd =>
    obtain ⟨className, hc, h⟩ := bind_eq_ok h
    cases h
    have hm : second ∈ head.params := List.mem_of_mem_drop (hd ▸ List.mem_cons_self)
    exact .append htarget (.append (Expression.param_accounted hm hplaces hpaths hc) .nil)

theorem toLabel_accounted {children : List Jsx.Child}
    (hplaces : ∀ p ∈ placed enclosing (valuesOfArguments head.params head.hash), p ∈ places)
    (hpaths : ∀ p ∈ pathsOfArguments head.params head.hash, p ∈ paths)
    (h : head.toLabel notes = .ok children) :
    Accounted notes base places paths
      (Jsx.Term.namesOfChildren (Enclosure.arrows base enclosing) children) := by
  rw [toLabel] at h
  split at h
  · cases h
    exact .nil
  · cases h
    exact Jsx.Child.ofText_accounted _ _
  · next second others _ hd =>
    obtain ⟨term, ht, h⟩ := bind_eq_ok h
    cases h
    have hm : second ∈ head.params := List.mem_of_mem_drop (hd ▸ List.mem_cons_self)
    exact .append (Expression.param_accounted hm hplaces hpaths ht) .nil

end BlockHead

/-! ### Statements -/

def Converted.names (arrows : List (List String)) : Converted → List Jsx.Occurrence
  | .text _ => []
  | .comment _ => []
  | .term value => value.names arrows
  | .element e => Jsx.Term.namesOfElement arrows e

theorem Converted.alone_accounted {converted : Converted} {term : Jsx.Term}
    {arrows : List (List String)}
    (hnames : Accounted notes base places paths (converted.names arrows))
    (h : converted.alone = .ok term) :
    Accounted notes base places paths (term.names arrows) := by
  cases converted <;> cases h
  · exact .nil
  · exact hnames
  · exact hnames

theorem Converted.children_accounted {converted : Converted} {arrows : List (List String)}
    (hnames : Accounted notes base places paths (converted.names arrows)) :
    Accounted notes base places paths (Jsx.Term.namesOfChildren arrows converted.children) := by
  cases converted with
  | text chars => exact Jsx.Child.ofText_accounted _ _
  | comment value => exact .nil
  | term value => exact .append hnames .nil
  | element e => exact .append hnames .nil

theorem Jsx.Element.push_accounted {element : Jsx.Element} {last : Jsx.Attribute}
    {arrows : List (List String)}
    (hnames : Accounted notes base places paths (Jsx.Term.namesOfElement arrows element))
    (hlast : Accounted notes base places paths (last.names arrows)) :
    Accounted notes base places paths (Jsx.Term.namesOfElement arrows (element.push last)) := by
  obtain ⟨name, kept, children, selfClosing⟩ := element
  rw [Jsx.Element.push, Jsx.Term.namesOfElement, Jsx.Term.namesOfAttributes_append]
  refine .append (.append ?_ hlast) ?_
  · exact fun occurrence hm => hnames occurrence (List.mem_append_left _ hm)
  · exact fun occurrence hm => hnames occurrence (List.mem_append_right _ hm)

theorem Jsx.Term.asElement_accounted {term : Jsx.Term} {arrows : List (List String)}
    (hnames : Accounted notes base places paths (term.names arrows)) :
    Accounted notes base places paths (Jsx.Term.namesOfElement arrows term.asElement) := by
  cases term with
  | element e => exact hnames
  | _ => exact .append .nil (.append hnames .nil)

/-- The body of a loop stands under one more function. -/
theorem Jsx.Term.loop_accounted {collection body : Jsx.Term}
    (hcollection : Accounted notes base places paths
      (collection.names (Enclosure.arrows base enclosing)))
    (hbody : Accounted notes base places paths
      (body.names (Enclosure.arrows base (.loop :: enclosing)))) :
    Accounted notes base places paths
      ((Jsx.Term.loop collection body).names (Enclosure.arrows base enclosing)) := by
  have hkey : Accounted notes base places paths
      (Jsx.Attribute.names (Enclosure.arrows base (.loop :: enclosing))
        (.term Vocabulary.key (.name Vocabulary.loopIndex))) :=
    Jsx.Attribute.term_accounted (.own (by decide))
  exact .append hcollection
    (.append (Jsx.Element.push_accounted (Jsx.Term.asElement_accounted hbody) hkey) .nil)

theorem BlockHead.arrows_around (base : List (List String)) (enclosing : List Enclosure)
    {head : BlockHead} (h : head.name ≠ "each") :
    Enclosure.arrows base (head.around enclosing) = Enclosure.arrows base enclosing := by
  rw [BlockHead.around, if_neg h]
  split
  · split <;> rfl
  · rfl

theorem BlockKind.name_of_loop {name : String} (h : ofName? name = some .loop) :
    name = "each" := by
  rw [ofName?] at h
  split at h
  · cases h
  · split at h
    · cases h
    · split at h
      · assumption
      · split at h <;> cases h

theorem BlockKind.name_ne_each {name : String} {kind : BlockKind} (h : ofName? name = some kind)
    (hk : kind ≠ .loop) : name ≠ "each" := by
  rintro rfl
  exact hk (Option.some.inj h).symm

/-- The names in a converted block come from its head, its program or its inverse. -/
theorem Statement.block_accounted {head : BlockHead} {program : Body} {inverse : Option Body}
    {enclosing : List Enclosure} {converted : Converted}
    (hargs : ∀ p ∈ placed enclosing (valuesOfArguments head.params head.hash), p ∈ places)
    (hargs' : ∀ p ∈ pathsOfArguments head.params head.hash, p ∈ paths)
    (hprogram : ∀ term, program.toTerm notes = .ok term → Accounted notes base places paths
      (term.names (Enclosure.arrows base (head.around enclosing))))
    (hchildren : ∀ id statements, program = .mk id statements → ∀ children,
      toChildren notes statements = .ok children → Accounted notes base places paths
        (Jsx.Term.namesOfChildren (Enclosure.arrows base (head.around enclosing)) children))
    (hinverse : ∀ other term, inverse = some other → other.toTerm notes = .ok term →
      Accounted notes base places paths (term.names (Enclosure.arrows base enclosing)))
    (h : (Statement.block head program inverse).convert notes = .ok converted) :
    Accounted notes base places paths (converted.names (Enclosure.arrows base enclosing)) := by
  rw [convert.eq_def] at h
  dsimp only at h
  split at h
  · cases h
  · next hk =>
    have harrows := BlockHead.arrows_around base enclosing
      (BlockKind.name_ne_each hk (by simp))
    rw [harrows] at hprogram
    obtain ⟨test, ht, h⟩ := bind_eq_ok h
    obtain ⟨consequent, hc, h⟩ := bind_eq_ok h
    have htest : Accounted notes base places paths
        (test.names (Enclosure.arrows base enclosing)) :=
      head.toTest_accounted hargs hargs' ht
    split at h
    · cases h
      exact .append htest (hprogram consequent hc)
    · obtain ⟨alternate, ha, h⟩ := bind_eq_ok h
      cases h
      exact .append (.append htest (hprogram consequent hc)) (hinverse _ alternate rfl ha)
  · next hk =>
    have hname := BlockKind.name_of_loop hk
    rw [BlockHead.around, if_pos hname] at hprogram
    obtain ⟨collection, hc, h⟩ := bind_eq_ok h
    obtain ⟨body, hb, h⟩ := bind_eq_ok h
    have hcollection : Accounted notes base places paths
        (collection.names (Enclosure.arrows base enclosing)) :=
      head.toCollection_accounted hargs hargs' hc
    have hloop := Jsx.Term.loop_accounted hcollection (hprogram body hb)
    split at h
    · cases h
      exact hloop
    · obtain ⟨alternate, ha, h⟩ := bind_eq_ok h
      cases h
      have hitems : Accounted notes base places paths
          (collection.hasItems.names (Enclosure.arrows base enclosing)) :=
        .append (.own (by decide)) (.append hcollection .nil)
      exact .append (.append hitems hloop) (hinverse _ alternate rfl ha)
  · next hk =>
    have harrows := BlockHead.arrows_around base enclosing
      (BlockKind.name_ne_each hk (by simp))
    obtain ⟨kept, hkept, h⟩ := bind_eq_ok h
    have hlink : Accounted notes base places paths
        (Jsx.Term.namesOfAttributes (Enclosure.arrows base enclosing) kept) :=
      head.toLinkAttributes_accounted hargs hargs' hkept
    split at h
    · obtain ⟨children, hc, h⟩ := bind_eq_ok h
      cases h
      exact .append hlink (head.toLabel_accounted hargs hargs' hc)
    · obtain ⟨children, hc, h⟩ := bind_eq_ok h
      cases h
      obtain ⟨id, statements⟩ := program
      have hkept := hchildren id statements rfl children hc
      rw [harrows] at hkept
      exact .append hlink hkept

mutual

theorem Statement.convert_accounted (statement : Statement) {enclosing : List Enclosure}
    {converted : Converted} (hplaces : ∀ p ∈ statement.places enclosing, p ∈ places)
    (hpaths : ∀ p ∈ statement.paths, p ∈ paths) (h : statement.convert notes = .ok converted) :
    Accounted notes base places paths (converted.names (Enclosure.arrows base enclosing)) := by
  match statement with
  | .text chars | .mustacheComment value | .markupComment value =>
    cases h
    exact .nil
  | .mustache m =>
    obtain ⟨term, ht, h⟩ := bind_eq_ok h
    cases h
    exact m.toTerm_accounted (fun p hm => hplaces _ (mem_placed.2 ⟨hm, rfl⟩)) hpaths ht
  | .partialCall call =>
    obtain ⟨element, he, h⟩ := bind_eq_ok h
    cases h
    exact PartialCall.toElement_accounted hplaces hpaths he
  | .element tag attributes children selfClosing =>
    simp only [Statement.places, List.mem_append] at hplaces
    simp only [Statement.paths, List.mem_append] at hpaths
    obtain ⟨kept, hk, h⟩ := bind_eq_ok h
    have hkept : Accounted notes base places paths
        (Jsx.Term.namesOfAttributes (Enclosure.arrows base enclosing) kept) :=
      Attribute.toJsxAll_accounted (fun p hm => hplaces p (.inl hm))
        (fun p hm => hpaths p (.inl hm)) hk
    dsimp only at h
    split at h
    · cases h
      exact .append hkept .nil
    · obtain ⟨inner, hi, h⟩ := bind_eq_ok h
      cases h
      exact .append hkept (toChildren_accounted children (fun p hm => hplaces p (.inr hm))
        (fun p hm => hpaths p (.inr hm)) hi)
  | .block head program inverse =>
    rw [places_block] at hplaces
    rw [paths_block] at hpaths
    simp only [List.mem_append] at hplaces hpaths
    have hprogram := fun term (ht : program.toTerm notes = .ok term) =>
      body_accounted program (fun p hm => hplaces p (.inr (.inl hm)))
        (fun p hm => hpaths p (.inr (.inl hm))) ht
    have hinverse : ∀ other term, inverse = some other → other.toTerm notes = .ok term →
        Accounted notes base places paths (term.names (Enclosure.arrows base enclosing)) := by
      cases inverse with
      | none =>
        intro other term he
        cases he
      | some body =>
        intro other term he ht
        cases he
        exact body_accounted body (fun p hm => hplaces p (.inr (.inr hm)))
          (fun p hm => hpaths p (.inr (.inr hm))) ht
    refine block_accounted (fun p hm => hplaces p (.inl hm)) (fun p hm => hpaths p (.inl hm))
      hprogram ?_ hinverse h
    obtain ⟨id, statements⟩ := program
    intro id' statements' hsame children hc
    cases hsame
    exact toChildren_accounted statements (fun p hm => hplaces p (.inr (.inl hm)))
      (fun p hm => hpaths p (.inr (.inl hm))) hc

theorem Statement.toChildren_accounted (statements : List Statement) {enclosing : List Enclosure}
    {children : List Jsx.Child} (hplaces : ∀ p ∈ placesOfAll enclosing statements, p ∈ places)
    (hpaths : ∀ p ∈ pathsOfAll statements, p ∈ paths)
    (h : toChildren notes statements = .ok children) :
    Accounted notes base places paths
      (Jsx.Term.namesOfChildren (Enclosure.arrows base enclosing) children) := by
  match statements with
  | [] =>
    cases h
    exact .nil
  | statement :: statements =>
    simp only [placesOfAll, List.mem_append] at hplaces
    simp only [pathsOfAll, List.mem_append] at hpaths
    obtain ⟨first, hf, h⟩ := bind_eq_ok h
    obtain ⟨rest, hr, h⟩ := bind_eq_ok h
    cases h
    rw [Jsx.Term.namesOfChildren_append]
    exact .append
      (Converted.children_accounted (convert_accounted statement (fun p hm => hplaces p (.inl hm))
        (fun p hm => hpaths p (.inl hm)) hf))
      (toChildren_accounted statements (fun p hm => hplaces p (.inr hm))
        (fun p hm => hpaths p (.inr hm)) hr)

theorem Statement.body_accounted (body : Body) {enclosing : List Enclosure} {term : Jsx.Term}
    (hplaces : ∀ p ∈ placesOfBody enclosing body, p ∈ places)
    (hpaths : ∀ p ∈ pathsOfBody body, p ∈ paths) (h : body.toTerm notes = .ok term) :
    Accounted notes base places paths (term.names (Enclosure.arrows base enclosing)) := by
  match body with
  | .mk id [statement] =>
    obtain ⟨single, hs, h⟩ := bind_eq_ok h
    simp only [placesOfBody, placesOfAll, List.append_nil] at hplaces
    simp only [pathsOfBody, pathsOfAll, List.append_nil] at hpaths
    exact Converted.alone_accounted (convert_accounted statement hplaces hpaths hs) h
  | .mk id [] =>
    cases h
    exact .nil
  | .mk id (first :: second :: rest) =>
    obtain ⟨children, hc, h⟩ := bind_eq_ok h
    cases h
    exact .append .nil (toChildren_accounted (first :: second :: rest) hplaces hpaths hc)

end

end

end MustacheJsx
