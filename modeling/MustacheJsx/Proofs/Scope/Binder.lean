import MustacheJsx.Proofs.Conversion.Names
import MustacheJsx.Proofs.Scope.Alignment

/-!
# The binder of a path

In a template a path means a variable: the data, the item or the index of one loop, or, without a
parameter for the data, an outer variable. Which one is fixed by the blocks around the path and by
its `../`. In generated code all loops use the same two names, so the first segment of a path
denotes the variable of the innermost loop. `Binder.denotes_iff` says when the two are the same.
-/

namespace MustacheJsx

/-- The variable that a path begins at. A loop is given by the number of loops around it. -/
inductive Binder where
  | root
  | item (loop : Nat)
  | index (loop : Nat)
  | outer (name : String)
  deriving DecidableEq

def Enclosure.loops : List Enclosure → Nat
  | [] => 0
  | .loop :: enclosing => loops enclosing + 1
  | .narrowing _ :: enclosing => loops enclosing

/-- The parameters around a whole template. -/
def Options.arrows (options : Options) : List (List String) :=
  if options.isComponent then [[Vocabulary.rootParam]] else []

theorem Scope.root_cons {scope : Scope} {env : List Scope} (h : scope.kind ≠ .root) :
    root (scope :: env) = root env := by
  cases env with
  | nil => simp [root, h]
  | cons first rest => simp [root, List.getLast?_cons_cons]

namespace Binder

def name : Binder → String
  | .root => Vocabulary.rootParam
  | .item _ => Vocabulary.loopItem
  | .index _ => Vocabulary.loopIndex
  | .outer name => name

/-- The parameter that the variable is in generated code; an outer variable is none. -/
def parameter (options : Options) : Binder → Option (Nat × Nat)
  | .root => some (0, 0)
  | .item loop => some (loop + options.arrows.length, 0)
  | .index loop => some (loop + options.arrows.length, 1)
  | .outer _ => none

/-! ### What a template designates -/

def ofRoot (options : Options) (parts : List String) : Option Binder :=
  if options.isComponent then some .root else parts.head?.map .outer

/-- The variable of a path with `@` that goes on with `after`: every `../` leaves a loop. -/
def ofData (options : Options) (enclosing : List Enclosure) (path : Path) (after : List String) :
    Option Binder :=
  match path.parts with
  | "root" :: rest => ofRoot options (rest ++ after)
  | [name] =>
    if (name = "index" ∨ name = "key") ∧ path.depth < Enclosure.loops enclosing then
      some (.index (Enclosure.loops enclosing - 1 - path.depth))
    else none
  | _ => none

/-- The variable of a path that leaves `up` blocks. In a `with` block the argument comes first. -/
def ofParts (options : Options) : Nat → List Enclosure → List String → Option Binder
  | 0, [], parts => ofRoot options parts
  | 0, .loop :: enclosing, _ => some (.item (Enclosure.loops enclosing))
  | 0, .narrowing subject :: enclosing, parts =>
    if subject.data then ofData options enclosing subject parts
    else ofParts options subject.depth enclosing (subject.parts ++ parts)
  | up + 1, _ :: enclosing, parts => ofParts options up enclosing parts
  | _ + 1, [], _ => none

/-- The variable that a template designates by a path in the blocks `enclosing`. -/
def designated (options : Options) (enclosing : List Enclosure) (path : Path) : Option Binder :=
  if path.data then ofData options enclosing path []
  else ofParts options path.depth enclosing path.parts

/-! ### The first segment -/

theorem root_around {options : Options} {enclosing : List Enclosure} {env : List Scope}
    (h : Scope.around options enclosing = .ok env) : Scope.root env = options.rootScope := by
  induction enclosing generalizing env with
  | nil =>
    cases h
    rw [Scope.initial]
    split
    · next he => rw [List.isEmpty_iff.1 he, Scope.root, List.getLast?_nil]
    · rfl
  | cons block enclosing ih =>
    cases block with
    | loop =>
      obtain ⟨env', he, h⟩ := bind_eq_ok h
      cases h
      rw [Scope.root_cons (by simp), ih he]
    | narrowing subject =>
      obtain ⟨env', he, h⟩ := bind_eq_ok h
      obtain ⟨segments, hs, h⟩ := bind_eq_ok h
      cases h
      rw [Scope.root_cons (by simp), ih he]

theorem head_ofRoot {options : Options} {parts : List String} {binder : Binder}
    (h : ofRoot options parts = some binder) :
    (options.rootScope ++ parts).head? = some binder.name := by
  rw [ofRoot] at h
  split at h
  · next hc =>
    cases h
    rw [Options.rootScope]
    simp only [hc, Bool.not_true, Bool.false_eq_true, if_false]
    split <;> rfl
  · next hc =>
    rw [Options.rootScope_eq_nil_iff.2 (by simpa using hc), List.nil_append]
    cases parts with
    | nil => cases h
    | cons first rest =>
      cases h
      rfl

theorem head_ofData {options : Options} {enclosing : List Enclosure} {env : List Scope}
    {path : Path} {segments after : List String} {binder : Binder}
    (he : Scope.around options enclosing = .ok env)
    (hr : Scope.resolveData env path = .ok segments)
    (h : ofData options enclosing path after = some binder) :
    (segments ++ after).head? = some binder.name := by
  rw [Scope.resolveData] at hr
  rw [ofData] at h
  split at hr
  · next hp =>
    rw [hp] at h
    cases hr
    rw [root_around he, List.append_assoc]
    exact head_ofRoot h
  · next name hname hp =>
    rw [hp] at h
    split at hr
    · split at hr
      · cases hr
        split at h
        · next heq => exact absurd (List.cons.inj heq).1 hname
        · split at h
          · cases h
            rfl
          · cases h
        · cases h
      · cases hr
    · cases hr
  · cases hr

theorem head_ofParts {options : Options} {enclosing : List Enclosure} {env : List Scope}
    {up : Nat} {parts : List String} {binder : Binder}
    (he : Scope.around options enclosing = .ok env)
    (h : ofParts options up enclosing parts = some binder) :
    (Scope.innermost (env.drop up) ++ parts).head? = some binder.name := by
  induction enclosing generalizing env up parts with
  | nil =>
    cases up with
    | succ up => cases h
    | zero =>
      cases he
      have hi : Scope.innermost (Scope.initial options) = options.rootScope := by
        rw [Scope.initial]
        split
        · next hn => rw [List.isEmpty_iff.1 hn, Scope.innermost]
        · rfl
      rw [List.drop_zero, hi]
      exact head_ofRoot h
  | cons block enclosing ih =>
    cases block with
    | loop =>
      obtain ⟨env', he', he⟩ := bind_eq_ok he
      cases he
      cases up with
      | succ up =>
        rw [List.drop_succ_cons]
        exact ih he' h
      | zero =>
        cases h
        rfl
    | narrowing subject =>
      obtain ⟨env', he', he⟩ := bind_eq_ok he
      obtain ⟨segments, hs, he⟩ := bind_eq_ok he
      cases he
      cases up with
      | succ up =>
        rw [List.drop_succ_cons]
        exact ih he' h
      | zero =>
        rw [ofParts] at h
        rw [Scope.resolve] at hs
        rw [List.drop_zero, Scope.innermost]
        split at h
        · next hd =>
          rw [if_pos hd] at hs
          exact head_ofData he' hs h
        · next hd =>
          rw [if_neg hd] at hs
          split at hs
          · next hz =>
            cases hs
            rw [hz] at h
            rw [List.append_assoc]
            exact ih he' h
          · next hz =>
            split at hs
            · cases hs
              rw [hz] at h
              rw [List.append_assoc, Scope.parent, ← List.drop_one]
              exact ih he' h
            · cases hs
          · cases hs

/-- The first segment of a path has the name of the variable that the path begins at. -/
theorem head_of_resolve {options : Options} {enclosing : List Enclosure} {env : List Scope}
    {path : Path} {segments : List String} {binder : Binder}
    (he : Scope.around options enclosing = .ok env) (hr : Scope.resolve env path = .ok segments)
    (h : designated options enclosing path = some binder) :
    segments.head? = some binder.name := by
  -- inside a `with` block on the path nothing would be read before its segments
  have hin : Scope.around options (.narrowing path :: enclosing) =
      .ok ({ bound := none, kind := .narrowing, segments } :: env) := by
    rw [Scope.around, he]
    change (Scope.resolve env path >>= fun segments => _) = _
    rw [hr]
    rfl
  have hparts : ofParts options 0 (.narrowing path :: enclosing) [] = some binder := by
    rw [ofParts, List.append_nil]
    exact h
  have hhead := head_ofParts hin hparts
  rwa [List.append_nil] at hhead

/-! ### What generated code denotes -/

def loopParams : List String := [Vocabulary.loopItem, Vocabulary.loopIndex]

theorem arrows_eq (base : List (List String)) (enclosing : List Enclosure) :
    Enclosure.arrows base enclosing =
      List.replicate (Enclosure.loops enclosing) loopParams ++ base := by
  induction enclosing with
  | nil => rfl
  | cons block enclosing ih =>
    cases block with
    | loop =>
      rw [Enclosure.arrows, Enclosure.loops, ih, List.replicate_succ]
      rfl
    | narrowing subject => rw [Enclosure.arrows, Enclosure.loops, ih]

theorem denotes_loopParam {name : String} {position : Nat}
    (h : loopParams.idxOf? name = some position) (base : List (List String)) (loops : Nat) :
    Jsx.denotes name (List.replicate (loops + 1) loopParams ++ base) =
      some (loops + base.length, position) := by
  rw [List.replicate_succ, List.cons_append, Jsx.denotes, h, List.length_append,
    List.length_replicate]

theorem denotes_other {name : String} (h : loopParams.idxOf? name = none)
    (base : List (List String)) (loops : Nat) :
    Jsx.denotes name (List.replicate loops loopParams ++ base) = Jsx.denotes name base := by
  induction loops with
  | zero => rfl
  | succ loops ih => rw [List.replicate_succ, List.cons_append, Jsx.denotes, h, ih]

/-- Whether a variable can be meant in the blocks `enclosing` at all. -/
def Present (options : Options) (enclosing : List Enclosure) : Binder → Prop
  | .root => options.isComponent = true
  | .item loop => loop < Enclosure.loops enclosing
  | .index loop => loop < Enclosure.loops enclosing
  | .outer _ => options.isComponent = false

theorem Present.cons {options : Options} {enclosing : List Enclosure} {binder : Binder}
    (h : binder.Present options enclosing) (block : Enclosure) :
    binder.Present options (block :: enclosing) := by
  have hle : Enclosure.loops enclosing ≤ Enclosure.loops (block :: enclosing) := by
    cases block with
    | loop => exact Nat.le_succ _
    | narrowing subject => exact Nat.le_refl _
  cases binder with
  | root | outer => exact h
  | item loop | index loop => exact Nat.lt_of_lt_of_le h hle

theorem present_ofRoot {options : Options} {parts : List String} {binder : Binder}
    (h : ofRoot options parts = some binder) (enclosing : List Enclosure) :
    binder.Present options enclosing := by
  rw [ofRoot] at h
  split at h
  · next hc =>
    cases h
    exact hc
  · next hc =>
    obtain ⟨name, -, rfl⟩ := Option.map_eq_some_iff.1 h
    exact Bool.eq_false_iff.2 hc

theorem present_ofData {options : Options} {enclosing : List Enclosure} {path : Path}
    {after : List String} {binder : Binder}
    (h : ofData options enclosing path after = some binder) :
    binder.Present options enclosing := by
  rw [ofData] at h
  split at h
  · exact present_ofRoot h enclosing
  · split at h
    · next hc =>
      cases h
      have := hc.2
      change _ < _
      omega
    · cases h
  · cases h

theorem present_ofParts {options : Options} {enclosing : List Enclosure} {up : Nat}
    {parts : List String} {binder : Binder}
    (h : ofParts options up enclosing parts = some binder) : binder.Present options enclosing := by
  induction enclosing generalizing up parts with
  | nil =>
    cases up with
    | zero => exact present_ofRoot h []
    | succ up => cases h
  | cons block enclosing ih =>
    cases up with
    | succ up =>
      rw [ofParts] at h
      exact (ih h).cons block
    | zero =>
      cases block with
      | loop =>
        cases h
        exact Nat.lt_succ_self _
      | narrowing subject =>
        rw [ofParts] at h
        split at h
        · exact (present_ofData h).cons _
        · exact (ih h).cons _

theorem present_of_designated {options : Options} {enclosing : List Enclosure} {path : Path}
    {binder : Binder} (h : designated options enclosing path = some binder) :
    binder.Present options enclosing := by
  rw [designated] at h
  split at h
  · exact present_ofData h
  · exact present_ofParts h

/-- Whether no loop stands between a variable and the blocks `enclosing` that has its name. -/
def Uncaptured (enclosing : List Enclosure) : Binder → Prop
  | .root => True
  | .item loop => loop + 1 = Enclosure.loops enclosing
  | .index loop => loop + 1 = Enclosure.loops enclosing
  | .outer name => Enclosure.loops enclosing = 0 ∨ name ∉ loopParams

/-- The name of a variable denotes it exactly where no nearer loop has the name. -/
theorem denotes_iff {options : Options} {enclosing : List Enclosure} {binder : Binder}
    (hp : binder.Present options enclosing) :
    Jsx.denotes binder.name (Enclosure.arrows options.arrows enclosing) =
      binder.parameter options ↔ binder.Uncaptured enclosing := by
  rw [arrows_eq]
  cases binder with
  | root =>
    have hc : options.isComponent = true := hp
    rw [name, denotes_other (by decide), Options.arrows, if_pos hc]
    exact iff_of_true rfl trivial
  | item loop =>
    obtain ⟨loops, hl⟩ := Nat.exists_eq_succ_of_ne_zero (Nat.ne_of_gt (Nat.zero_lt_of_lt hp))
    have hposition : loopParams.idxOf? Vocabulary.loopItem = some 0 := by decide
    rw [Uncaptured, hl, name, denotes_loopParam hposition, parameter]
    simp only [Option.some.injEq, Prod.mk.injEq, and_true]
    omega
  | index loop =>
    obtain ⟨loops, hl⟩ := Nat.exists_eq_succ_of_ne_zero (Nat.ne_of_gt (Nat.zero_lt_of_lt hp))
    have hposition : loopParams.idxOf? Vocabulary.loopIndex = some 1 := by decide
    rw [Uncaptured, hl, name, denotes_loopParam hposition, parameter]
    simp only [Option.some.injEq, Prod.mk.injEq, and_true]
    omega
  | outer name =>
    have hc : options.isComponent = false := hp
    have hbase : options.arrows = [] := by
      rw [Options.arrows, if_neg (by simp [hc])]
    rw [hbase, Binder.name, parameter, Uncaptured]
    cases hi : loopParams.idxOf? name with
    | none =>
      rw [denotes_other hi]
      exact iff_of_true rfl (.inr (List.idxOf?_eq_none_iff.1 hi))
    | some position =>
      cases hl : Enclosure.loops enclosing with
      | zero => exact iff_of_true rfl (.inl rfl)
      | succ loops =>
        rw [denotes_loopParam hi]
        refine iff_of_false (by simp) ?_
        rintro (hz | hn)
        · cases hz
        · rw [List.idxOf?_eq_none_iff.2 hn] at hi
          cases hi

end Binder

end MustacheJsx
