import MustacheJsx.Proofs.Scope.Alignment

/-!
# Every value is recorded

A walk through a template that ends without a failure has recorded the segments of every value of
the template. This needs no numbers of bodies that differ: whatever scopes are open where a value is
read, the walk either records it or fails.
-/

namespace MustacheJsx

namespace Annotations

/-- The segments that are recorded for a path, if it was met. -/
def recorded? (notes : Annotations) (path : Path) : Option (List String) :=
  (notes.paths.find? fun entry => entry.1 == path.id).map Prod.snd

theorem segments_eq_getD (notes : Annotations) (path : Path) :
    notes.segments path = (notes.recorded? path).getD path.parts := by
  rw [segments, recorded?]
  cases notes.paths.find? fun entry => entry.1 == path.id <;> rfl

theorem isSome_recorded_iff {notes : Annotations} {path : Path} :
    (notes.recorded? path).isSome ↔ ∃ entry ∈ notes.paths, entry.1 = path.id := by
  simp [recorded?]

theorem segments_append {notes : Annotations} {path : Path} (h : (notes.recorded? path).isSome)
    (more : List (Nat × List String)) :
    { notes with paths := notes.paths ++ more }.segments path = notes.segments path := by
  rw [recorded?, Option.isSome_map, Option.isSome_iff_exists] at h
  obtain ⟨entry, hentry⟩ := h
  rw [segments_eq_getD, segments_eq_getD]
  simp only [recorded?, List.find?_append, hentry, Option.some_or]

end Annotations

namespace Walk

/-- What a part of the walk from `w` to `w'` leaves behind for the values at `places`: nothing that
was recorded is lost, and without a failure all of them are recorded. It never complains about
segments. -/
structure Covers (w w' : Walk) (places : List Place) : Prop where
  clean : w'.error = none → w.error = none
  kept : w.annotations.paths ⊆ w'.annotations.paths
  met : w'.error = none → ∀ place ∈ places, (w'.annotations.recorded? place.1).isSome
  complaint : w'.error = some .emptyPath → w.error = some .emptyPath

namespace Covers

theorem of_same {w w' : Walk} (he : w'.error = w.error)
    (hp : w'.annotations.paths = w.annotations.paths) : Covers w w' [] where
  clean := fun h => he ▸ h
  kept := fun _ hm => hp ▸ hm
  met := fun _ _ hm => nomatch hm
  complaint := fun h => he ▸ h

theorem of_fail {w w' : Walk} {e : CompileError} (hw : w' = w.fail e) (he : e ≠ .emptyPath)
    (places : List Place) : Covers w w' places := by
  subst hw
  refine ⟨?_, fun _ hm => hm, ?_, ?_⟩
  · intro h
    exact absurd h (by cases hw : w.error <;> simp [fail, hw])
  · intro h
    exact absurd h (by cases hw : w.error <;> simp [fail, hw])
  · intro h
    cases hw : w.error with
    | none =>
      rw [fail, hw] at h
      exact absurd (Option.some.inj h) he
    | some cause => rwa [fail, hw] at h

theorem append {w w' w'' : Walk} {places others : List Place} (h : Covers w w' places)
    (h' : Covers w' w'' others) : Covers w w'' (places ++ others) where
  clean := fun he => h.clean (h'.clean he)
  kept := fun _ hm => h'.kept (h.kept hm)
  met := by
    intro he place hm
    rcases List.mem_append.1 hm with hm | hm
    · obtain ⟨entry, hentry, hid⟩ :=
        Annotations.isSome_recorded_iff.1 (h.met (h'.clean he) place hm)
      exact Annotations.isSome_recorded_iff.2 ⟨entry, h'.kept hentry, hid⟩
    · exact h'.met he place hm
  complaint := fun he => h.complaint (h'.complaint he)

theorem of_eq {w w' v v' : Walk} {places : List Place} (h : Covers v v' places)
    (hv : v.error = w.error ∧ v.annotations = w.annotations)
    (hv' : w'.error = v'.error ∧ w'.annotations = v'.annotations) : Covers w w' places where
  clean := fun he => hv.1 ▸ h.clean (hv'.1 ▸ he)
  kept := by
    rw [hv'.2, ← hv.2]
    exact h.kept
  met := by
    rw [hv'.1, hv'.2]
    exact h.met
  complaint := fun he => hv.1 ▸ h.complaint (hv'.1 ▸ he)

end Covers

/-! ### Expressions -/

theorem resolve_ne_emptyPath (scopes : List Scope) (path : Path) :
    Scope.resolve scopes path ≠ .error .emptyPath := by
  rw [Scope.resolve, Scope.resolveData.eq_def]
  repeat' split
  all_goals simp

theorem visitPath_covers (w : Walk) (path : Path) (enclosing : List Enclosure) :
    Covers w (w.visitPath path) (placed enclosing [path]) := by
  rw [visitPath]
  have hne := resolve_ne_emptyPath w.scopes path
  cases hr : Scope.resolve w.scopes path with
  | error e => exact .of_fail rfl (fun he => hne (he ▸ hr)) _
  | ok segments =>
    refine ⟨id, fun _ hm => List.mem_cons_of_mem _ hm, fun _ place hm => ?_, id⟩
    cases List.mem_singleton.1 hm
    exact Annotations.isSome_recorded_iff.2 ⟨_, List.mem_cons_self, rfl⟩

theorem visitCallee_covers (w : Walk) (callee : Expression) :
    Covers w (w.visitCallee callee) [] := by
  refine .of_same rfl ?_
  rw [visitCallee, Annotations.addCallee]
  repeat' split
  all_goals rfl

mutual

theorem visitExpression_covers (w : Walk) (e : Expression) (enclosing : List Enclosure) :
    Covers w (w.visitExpression e) (placed enclosing e.values) := by
  match e with
  | .path p => exact visitPath_covers w p enclosing
  | .literal _ => exact .of_same rfl rfl
  | .call callee params hash =>
    rw [Expression.values, placed_append]
    exact (visitCallee_covers w callee).append
      ((visitParams_covers _ params enclosing).append (visitHash_covers _ hash enclosing))

theorem visitParams_covers (w : Walk) (params : List Expression) (enclosing : List Enclosure) :
    Covers w (w.visitParams params) (placed enclosing (Expression.valuesOfParams params)) := by
  match params with
  | [] => exact .of_same rfl rfl
  | param :: params =>
    rw [Expression.valuesOfParams, placed_append]
    exact (visitExpression_covers w param enclosing).append
      (visitParams_covers _ params enclosing)

theorem visitHash_covers (w : Walk) (hash : List (String × Expression))
    (enclosing : List Enclosure) :
    Covers w (w.visitHash hash) (placed enclosing (Expression.valuesOfHash hash)) := by
  match hash with
  | [] => exact .of_same rfl rfl
  | (key, value) :: pairs =>
    rw [Expression.valuesOfHash, placed_append]
    exact (visitExpression_covers w value enclosing).append (visitHash_covers _ pairs enclosing)

end

theorem visitArguments_covers (w : Walk) (params : List Expression) (hash : Hash)
    (enclosing : List Enclosure) :
    Covers w ((w.visitParams params).visitHash hash)
      (placed enclosing (valuesOfArguments params hash)) := by
  rw [valuesOfArguments, placed_append]
  exact (visitParams_covers w params enclosing).append (visitHash_covers _ hash enclosing)

theorem visitMustache_covers (w : Walk) (m : Mustache) (enclosing : List Enclosure) :
    Covers w (w.visitMustache m) (placed enclosing m.values) := by
  rw [visitMustache, Mustache.values]
  split
  · exact (visitCallee_covers w m.callee).append
      (visitArguments_covers _ m.params m.hash enclosing)
  · exact visitExpression_covers w m.callee enclosing

theorem visitPartial_covers (w : Walk) (call : PartialCall) (enclosing : List Enclosure) :
    Covers w (w.visitPartial call)
      (placed enclosing (valuesOfArguments call.params call.hash)) := by
  have hname : Covers w { w with annotations := w.annotations.addPartial call.name } [] :=
    .of_same rfl rfl
  exact hname.append (visitArguments_covers _ call.params call.hash enclosing)

/-! ### Blocks -/

theorem announce_covers (w : Walk) (head : BlockHead) : Covers w (w.announce head) [] := by
  rw [announce.eq_def]
  split
  · exact .of_same rfl rfl
  · split
    · split
      · next path _ _ =>
        have hne := resolve_ne_emptyPath w.scopes path
        cases hr : Scope.resolve w.scopes path with
        | ok segments => exact .of_same rfl rfl
        | error e => exact .of_fail rfl (fun he => hne (he ▸ hr)) _
      · exact .of_fail (e := .blockParams "with" .path) rfl (by simp) _
    · split <;> exact .of_same rfl rfl

theorem enter_same (w : Walk) (id : Nat) :
    (w.enter id).error = w.error ∧ (w.enter id).annotations = w.annotations := by
  rw [enter]
  split <;> exact ⟨rfl, rfl⟩

theorem leave_same (w : Walk) (id : Nat) :
    (w.leave id).error = w.error ∧ (w.leave id).annotations = w.annotations := by
  rw [leave]
  repeat' split
  all_goals exact ⟨rfl, rfl⟩

/-! ### Statements -/

mutual

theorem visitStatement_covers (w : Walk) (statement : Statement) (enclosing : List Enclosure) :
    Covers w (w.visitStatement statement) (statement.places enclosing) := by
  match statement with
  | .text _ | .mustacheComment _ | .markupComment _ => exact .of_same rfl rfl
  | .mustache m => exact visitMustache_covers w m enclosing
  | .partialCall call => exact visitPartial_covers w call enclosing
  | .element tag attributes children selfClosing =>
    exact (visitAttributes_covers w attributes enclosing).append
      (visitStatements_covers _ children enclosing)
  | .block head program inverse =>
    have hhead := (announce_covers w head).append
      (visitArguments_covers (w.announce head) head.params head.hash enclosing)
    have hprogram := hhead.append (visitBody_covers
      (((w.announce head).visitParams head.params).visitHash head.hash) program
      (head.around enclosing))
    rw [Statement.places_block, ← List.append_assoc]
    cases inverse with
    | none => exact hprogram.append (.of_same rfl rfl)
    | some body => exact hprogram.append (visitBody_covers _ body enclosing)

theorem visitStatements_covers (w : Walk) (statements : List Statement)
    (enclosing : List Enclosure) :
    Covers w (w.visitStatements statements) (Statement.placesOfAll enclosing statements) := by
  match statements with
  | [] => exact .of_same rfl rfl
  | statement :: statements =>
    exact (visitStatement_covers w statement enclosing).append
      (visitStatements_covers _ statements enclosing)

theorem visitBody_covers (w : Walk) (body : Body) (enclosing : List Enclosure) :
    Covers w (w.visitBody body) (Statement.placesOfBody enclosing body) := by
  match body with
  | .mk id statements =>
    exact (visitStatements_covers (w.enter id) statements enclosing).of_eq
      (enter_same w id) (leave_same _ id)

theorem visitAttributes_covers (w : Walk) (attributes : List Attribute)
    (enclosing : List Enclosure) :
    Covers w (w.visitAttributes attributes)
      (Statement.placesOfAttributes enclosing attributes) := by
  match attributes with
  | [] => exact .of_same rfl rfl
  | .mk name value :: attributes =>
    rw [visitAttributes, Statement.placesOfAttributes]
    refine Covers.append ?_ (visitAttributes_covers _ attributes enclosing)
    have hvalue : ∀ v : Walk, v.error = w.error → v.annotations.paths = w.annotations.paths →
        Covers w (v.visitValue value) (Statement.placesOfValue enclosing value) :=
      fun v he hp => (Covers.of_same he hp).append (visitValue_covers v value enclosing)
    split
    · exact hvalue _ rfl rfl
    · exact hvalue _ rfl rfl

theorem visitValue_covers (w : Walk) (value : AttributeValue) (enclosing : List Enclosure) :
    Covers w (w.visitValue value) (Statement.placesOfValue enclosing value) := by
  match value with
  | .text _ => exact .of_same rfl rfl
  | .mustache m => exact visitMustache_covers w m enclosing
  | .concat parts => exact visitStatements_covers w parts enclosing

end

end Walk

namespace Template

variable {template : Template} {options : Options} {notes : Annotations}

theorem isSome_recorded_of_resolve (h : template.resolve options = .ok notes) {path : Path}
    (hpath : path ∈ template.values) : (notes.recorded? path).isSome := by
  have hcovers := Walk.visitStatements_covers { scopes := Scope.initial options } template []
  rw [resolve] at h
  split at h
  · cases h
  · next he =>
    cases h
    obtain ⟨place, hplace, rfl⟩ := List.mem_map.1 hpath
    exact hcovers.met he place hplace

theorem resolve_ne_emptyPath (template : Template) (options : Options) :
    template.resolve options ≠ .error .emptyPath := by
  have hcovers := Walk.visitStatements_covers { scopes := Scope.initial options } template []
  intro h
  rw [resolve] at h
  split at h
  · next e he =>
    cases h
    cases hcovers.complaint he
  · cases h

end Template

end MustacheJsx
