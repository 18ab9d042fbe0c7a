import MustacheJsx.Error
import MustacheJsx.Text.Classes

/-!
# Reading a path

A path is `@`, then any number of `../`, then `this` or nothing, then segments between dots or
slashes. A segment in brackets may hold any character but `]`. Every segment has a character.

Models `parse_path` and `split_segments`.
-/

namespace MustacheJsx.Path

/-! ### Segments -/

/-- The segments of a path whose unfinished segment is `current`, held in reverse; `bracket` tells
whether the reader is inside brackets. -/
def segmentsAfter (current : List Char) (bracket : Bool) : List Char → Option (List String)
  | [] => if bracket || current.isEmpty then none else some [String.ofList current.reverse]
  | c :: cs =>
    if bracket then
      if c = ']' then segmentsAfter current false cs else segmentsAfter (c :: current) true cs
    else if c = '[' then segmentsAfter current true cs
    else if c = '.' ∨ c = '/' then
      if current.isEmpty then none
      else (segmentsAfter [] false cs).map (String.ofList current.reverse :: ·)
    else segmentsAfter (c :: current) false cs

/-- The segments of a path without its head markers; nothing has none. -/
def segments? : List Char → Option (List String)
  | [] => some []
  | c :: cs => segmentsAfter [] false (c :: cs)

/-! ### Head markers -/

/-- Counts the leading `../` and drops them; `..` alone counts too. -/
def parentSteps : List Char → Nat × List Char
  | '.' :: '.' :: '/' :: cs =>
    let (depth, rest) := parentSteps cs
    (depth + 1, rest)
  | ['.', '.'] => (1, [])
  | cs => (0, cs)

/-- Drops a leading `this` or `.` that stands for the context itself. -/
def afterThis (cs : List Char) : List Char :=
  match cs with
  | ['.'] => []
  | ['t', 'h', 'i', 's'] => []
  | '.' :: '/' :: rest => rest
  | 't' :: 'h' :: 'i' :: 's' :: '.' :: rest => rest
  | 't' :: 'h' :: 'i' :: 's' :: '/' :: rest => rest
  | _ => cs

def dataMark : List Char → Bool × List Char
  | '@' :: cs => (true, cs)
  | cs => (false, cs)

/-! ### Paths -/

/-- Reads a path from its spelling; `none` when a segment is empty or a bracket stays open. -/
def ofToken? (id : Nat) (token : List Char) : Option Path :=
  let (data, rest) := dataMark token
  let (depth, rest) := parentSteps rest
  (segments? (afterThis rest)).map fun parts =>
    { id, spelling := String.ofList token, parts, data, depth }

theorem spelling_of_ofToken? {id : Nat} {token : List Char} {path : Path}
    (h : ofToken? id token = some path) :
    path.spelling = String.ofList token ∧ path.id = id := by
  simp only [ofToken?, Option.map_eq_some_iff] at h
  obtain ⟨parts, -, rfl⟩ := h
  exact ⟨rfl, rfl⟩

/-- Reads a path that stands at a byte offset of the template. -/
def read (id : Nat) (token : List Char) (offset : Nat) : Except CompileError Path :=
  match ofToken? id token with
  | some path => .ok path
  | none => .error (.parse (.invalidPath (String.ofList token)) offset)

end MustacheJsx.Path
