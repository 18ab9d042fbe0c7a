import MustacheJsx.Proofs.Scope.Environment
import MustacheJsx.Proofs.Scope.Place

/-!
# Readings and places

The blocks around a place fix the environment there: `Scope.around` builds it from the root scope.
If a template has readings at all, they are the values of the template one by one, each resolved in
the environment of its place.
-/

namespace MustacheJsx

/-- The environment inside the blocks `enclosing`. -/
def Scope.around (options : Options) : List Enclosure → Except CompileError (List Scope)
  | [] => .ok (Scope.initial options)
  | .loop :: enclosing => do
    let env ← around options enclosing
    return { bound := none, kind := .loop, segments := [Vocabulary.loopItem] } :: env
  | .narrowing subject :: enclosing => do
    let env ← around options enclosing
    let segments ← Scope.resolve env subject
    return { bound := none, kind := .narrowing, segments } :: env

/-- A reading is that of a value at its place. -/
def Reading.At (options : Options) (reading : Reading) (place : Place) : Prop :=
  reading.1 = place.1 ∧
    ∃ env, Scope.around options place.2 = .ok env ∧ Scope.resolve env place.1 = .ok reading.2

/-- Readings are those of values at their places, one by one. -/
inductive Reading.Aligned (options : Options) : List Reading → List Place → Prop where
  | nil : Aligned options [] []
  | cons {reading : Reading} {place : Place} {rs : List Reading} {places : List Place}
      (hat : reading.At options place) (hrest : Aligned options rs places) :
    Aligned options (reading :: rs) (place :: places)

namespace Reading

theorem chain_eq_ok {first second : Except CompileError (List Reading)} {rs : List Reading}
    (h : chain first second = .ok rs) :
    ∃ before after, first = .ok before ∧ second = .ok after ∧ rs = before ++ after := by
  cases first with
  | error e => cases h
  | ok before =>
    cases second with
    | error e => cases h
    | ok after =>
      cases h
      exact ⟨before, after, rfl, rfl, rfl⟩

theorem Aligned.append {options : Options} {before after : List Reading}
    {places others : List Place} (h : Aligned options before places)
    (h' : Aligned options after others) :
    Aligned options (before ++ after) (places ++ others) := by
  induction h with
  | nil => exact h'
  | cons hp _ ih => exact .cons hp ih

theorem Aligned.of_chain {options : Options} {first second : Except CompileError (List Reading)}
    {rs : List Reading} {places others : List Place} (h : chain first second = .ok rs)
    (hf : ∀ before, first = .ok before → Aligned options before places)
    (hs : ∀ after, second = .ok after → Aligned options after others) :
    Aligned options rs (places ++ others) := by
  obtain ⟨before, after, hb, ha, rfl⟩ := chain_eq_ok h
  exact (hf before hb).append (hs after ha)

theorem Aligned.map_fst {options : Options} {rs : List Reading} {places : List Place}
    (h : Aligned options rs places) : rs.map Prod.fst = places.map Prod.fst := by
  induction h with
  | nil => rfl
  | cons hp _ ih => simp only [List.map_cons, hp.1, ih]

theorem Aligned.exists_of_mem {options : Options} {rs : List Reading} {places : List Place}
    (h : Aligned options rs places) {place : Place} (hm : place ∈ places) :
    ∃ reading ∈ rs, Reading.At options reading place := by
  induction h with
  | nil => cases hm
  | cons hp _ ih =>
    rcases List.mem_cons.1 hm with rfl | hm
    · exact ⟨_, List.mem_cons_self .., hp⟩
    · obtain ⟨reading, hr, hat⟩ := ih hm
      exact ⟨reading, List.mem_cons_of_mem _ hr, hat⟩

end Reading

section

variable {options : Options} {enclosing : List Enclosure} {env : List Scope} {rs : List Reading}

theorem Path.readings_aligned {path : Path} (he : Scope.around options enclosing = .ok env)
    (h : path.readings env = .ok rs) : Reading.Aligned options rs (placed enclosing [path]) := by
  rw [Path.readings] at h
  cases hr : Scope.resolve env path with
  | error e => simp [hr, bind, Except.bind] at h
  | ok segments =>
    rw [hr] at h
    cases h
    exact .cons ⟨rfl, env, he, hr⟩ .nil

theorem placed_append (enclosing : List Enclosure) (values others : List Path) :
    placed enclosing (values ++ others) = placed enclosing values ++ placed enclosing others := by
  simp [placed]

mutual

theorem Expression.readings_aligned {rs : List Reading} (expression : Expression)
    (he : Scope.around options enclosing = .ok env) (h : expression.readings env = .ok rs) :
    Reading.Aligned options rs (placed enclosing expression.values) := by
  match expression with
  | .path p => exact Path.readings_aligned he h
  | .literal l =>
    cases h
    exact .nil
  | .call callee params hash =>
    rw [values, placed_append]
    exact Reading.Aligned.of_chain h (fun _ h => readingsOfParams_aligned params he h)
      (fun _ h => readingsOfHash_aligned hash he h)

theorem Expression.readingsOfParams_aligned {rs : List Reading} (params : List Expression)
    (he : Scope.around options enclosing = .ok env) (h : readingsOfParams env params = .ok rs) :
    Reading.Aligned options rs (placed enclosing (valuesOfParams params)) := by
  match params with
  | [] =>
    cases h
    exact .nil
  | param :: params =>
    rw [valuesOfParams, placed_append]
    exact Reading.Aligned.of_chain h (fun _ h => readings_aligned param he h)
      (fun _ h => readingsOfParams_aligned params he h)

theorem Expression.readingsOfHash_aligned {rs : List Reading}
    (hash : List (String × Expression)) (he : Scope.around options enclosing = .ok env)
    (h : readingsOfHash env hash = .ok rs) :
    Reading.Aligned options rs (placed enclosing (valuesOfHash hash)) := by
  match hash with
  | [] =>
    cases h
    exact .nil
  | (key, value) :: pairs =>
    rw [valuesOfHash, placed_append]
    exact Reading.Aligned.of_chain h (fun _ h => readings_aligned value he h)
      (fun _ h => readingsOfHash_aligned pairs he h)

end

theorem readingsOfArguments_aligned {params : List Expression} {hash : Hash}
    (he : Scope.around options enclosing = .ok env)
    (h : readingsOfArguments env params hash = .ok rs) :
    Reading.Aligned options rs (placed enclosing (valuesOfArguments params hash)) := by
  rw [valuesOfArguments, placed_append]
  exact Reading.Aligned.of_chain h (fun _ h => Expression.readingsOfParams_aligned params he h)
    (fun _ h => Expression.readingsOfHash_aligned hash he h)

theorem Mustache.readings_aligned {m : Mustache} (he : Scope.around options enclosing = .ok env)
    (h : m.readings env = .ok rs) : Reading.Aligned options rs (placed enclosing m.values) := by
  rw [Mustache.readings] at h
  rw [Mustache.values]
  split at h
  · next hc =>
    rw [if_pos hc]
    exact readingsOfArguments_aligned he h
  · next hc =>
    rw [if_neg hc]
    exact m.callee.readings_aligned he h

theorem BlockHead.inner_around {head : BlockHead} {inner : List Scope}
    (he : Scope.around options enclosing = .ok env) (h : head.inner env = .ok inner) :
    Scope.around options (head.around enclosing) = .ok inner := by
  rw [BlockHead.inner] at h
  rw [BlockHead.around]
  split at h
  · next heach =>
    cases h
    rw [if_pos heach, Scope.around, he]
    rfl
  · next heach =>
    rw [if_neg heach]
    split at h
    · next hwith =>
      rw [if_pos hwith]
      cases hparams : head.params with
      | nil =>
        rw [hparams] at h
        cases h
      | cons param rest =>
        rw [hparams] at h
        cases param with
        | path subject =>
          rw [Scope.around, he]
          exact h
        | literal | call => cases h
    · next hwith =>
      cases h
      rw [if_neg hwith, he]

mutual

theorem Statement.readings_aligned {rs : List Reading} {enclosing : List Enclosure}
    {env : List Scope}
    (statement : Statement) (he : Scope.around options enclosing = .ok env)
    (h : statement.readings env = .ok rs) :
    Reading.Aligned options rs (statement.places enclosing) := by
  match statement with
  | .text _ | .mustacheComment _ | .markupComment _ =>
    cases h
    exact .nil
  | .mustache m => exact Mustache.readings_aligned he h
  | .partialCall call => exact readingsOfArguments_aligned he h
  | .element tag attributes children selfClosing =>
    exact Reading.Aligned.of_chain h (fun _ h => readingsOfAttributes_aligned attributes he h)
      (fun _ h => readingsOfAll_aligned children he h)
  | .block head program inverse =>
    rw [readings_block] at h
    rw [places_block]
    cases hi : head.inner env with
    | error e =>
      rw [hi] at h
      cases h
    | ok inner =>
      rw [hi] at h
      have hinverse : ∀ rs, readingsOfInverse env inverse = .ok rs →
          Reading.Aligned options rs (placesOfInverse enclosing inverse) := by
        intro rs h
        cases inverse with
        | none =>
          cases h
          exact .nil
        | some body => exact readingsOfBody_aligned body he h
      refine Reading.Aligned.of_chain h (fun _ h => readingsOfArguments_aligned he h) ?_
      intro after ha
      exact Reading.Aligned.of_chain ha
        (fun _ h => readingsOfBody_aligned program (BlockHead.inner_around he hi) h) hinverse

theorem Statement.readingsOfAll_aligned {rs : List Reading} {enclosing : List Enclosure}
    {env : List Scope} (statements : List Statement)
    (he : Scope.around options enclosing = .ok env) (h : readingsOfAll env statements = .ok rs) :
    Reading.Aligned options rs (placesOfAll enclosing statements) := by
  match statements with
  | [] =>
    cases h
    exact .nil
  | statement :: statements =>
    exact Reading.Aligned.of_chain h (fun _ h => readings_aligned statement he h)
      (fun _ h => readingsOfAll_aligned statements he h)

theorem Statement.readingsOfBody_aligned {rs : List Reading} {enclosing : List Enclosure}
    {env : List Scope} (body : Body) (he : Scope.around options enclosing = .ok env)
    (h : readingsOfBody env body = .ok rs) :
    Reading.Aligned options rs (placesOfBody enclosing body) := by
  match body with
  | .mk id statements => exact readingsOfAll_aligned statements he h

theorem Statement.readingsOfAttributes_aligned {rs : List Reading} {enclosing : List Enclosure}
    {env : List Scope} (attributes : List Attribute)
    (he : Scope.around options enclosing = .ok env)
    (h : readingsOfAttributes env attributes = .ok rs) :
    Reading.Aligned options rs (placesOfAttributes enclosing attributes) := by
  match attributes with
  | [] =>
    cases h
    exact .nil
  | .mk name value :: attributes =>
    exact Reading.Aligned.of_chain h (fun _ h => readingsOfValue_aligned value he h)
      (fun _ h => readingsOfAttributes_aligned attributes he h)

theorem Statement.readingsOfValue_aligned {rs : List Reading} {enclosing : List Enclosure}
    {env : List Scope} (value : AttributeValue) (he : Scope.around options enclosing = .ok env)
    (h : readingsOfValue env value = .ok rs) :
    Reading.Aligned options rs (placesOfValue enclosing value) := by
  match value with
  | .text _ =>
    cases h
    exact .nil
  | .mustache m => exact Mustache.readings_aligned he h
  | .concat parts => exact readingsOfAll_aligned parts he h

end

end

theorem Template.readings_aligned {template : Template} {options : Options} {rs : List Reading}
    (h : template.readings options = .ok rs) : Reading.Aligned options rs template.places :=
  Statement.readingsOfAll_aligned template rfl h

end MustacheJsx
