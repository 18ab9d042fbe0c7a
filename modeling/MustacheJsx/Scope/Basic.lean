import MustacheJsx.Error
import MustacheJsx.Options

/-!
# Scopes

A path is read in a scope: that of the whole template, of a loop, or of a `with` block. `resolve`
says which segments a path stands for in a stack of scopes, the innermost first. `Annotations` keeps
the answers by the number of the path.

Models `ScopeAnnotations` with `segments`, `add_partial` and `add_helper`, `ScopeKind`, `Scope`,
`head_segments`, `resolve` and `resolve_data`.
-/

namespace MustacheJsx

/-- What opened a scope. -/
inductive ScopeKind where
  | root
  | loop
  | narrowing
  deriving DecidableEq

/-- A scope: the body that it belongs to, and what the paths in it begin with. -/
structure Scope where
  bound : Option Nat
  kind : ScopeKind
  segments : List String
  deriving DecidableEq

namespace Scope

def initial (options : Options) : List Scope :=
  if options.rootScope.isEmpty then []
  else [{ bound := none, kind := .root, segments := options.rootScope }]

def innermost (scopes : List Scope) : List String :=
  match scopes with
  | scope :: _ => scope.segments
  | [] => []

def parent (scopes : List Scope) : List String := innermost scopes.tail

def root (scopes : List Scope) : List String :=
  match scopes.getLast? with
  | some scope => if scope.kind = .root then scope.segments else []
  | none => []

/-- The segments of a data variable: `@index` and `@key` in a loop, and paths from `@root`. -/
def resolveData (scopes : List Scope) (path : Path) : Except CompileError (List String) :=
  match path.parts with
  | "root" :: rest => .ok (root scopes ++ rest)
  | [name] =>
    if name = "index" ∨ name = "key" then
      if scopes.any fun scope => scope.kind = .loop then .ok [Vocabulary.loopIndex]
      else .error (.expression (.indexOutsideEach path.spelling))
    else .error (.expression (.dataVariable path.spelling))
  | _ => .error (.expression (.dataVariable path.spelling))

/-- The segments of a path. One step up is possible from inside a loop or a `with` block. -/
def resolve (scopes : List Scope) (path : Path) : Except CompileError (List String) :=
  if path.data then resolveData scopes path
  else
    match path.depth with
    | 0 => .ok (innermost scopes ++ path.parts)
    | 1 =>
      if scopes.any fun scope => scope.kind ≠ .root then .ok (parent scopes ++ path.parts)
      else .error (.parentTraversal path.spelling)
    | _ => .error (.parentTraversal path.spelling)

theorem resolve_plain {scopes : List Scope} {path : Path} (hd : path.data = false)
    (h0 : path.depth = 0) : resolve scopes path = .ok (innermost scopes ++ path.parts) := by
  simp [resolve, hd, h0]

end Scope

/-! ### Annotations -/

/-- What a walk through a template found out. -/
structure Annotations where
  /-- The segments of paths by their number, the latest first. -/
  paths : List (Nat × List String) := []
  /-- The partials that are used, in the order of discovery. -/
  partials : List String := []
  /-- The helpers that are called, in the order of discovery. -/
  helpers : List String := []
  deriving DecidableEq

namespace Annotations

/-- The segments of a path; a path that was not met keeps its own. -/
def segments (annotations : Annotations) (path : Path) : List String :=
  match annotations.paths.find? fun entry => entry.1 == path.id with
  | some entry => entry.2
  | none => path.parts

def record (annotations : Annotations) (path : Path) (segments : List String) : Annotations :=
  { annotations with paths := (path.id, segments) :: annotations.paths }

def insertName (name : String) (names : List String) : List String :=
  if names.contains name then names else names ++ [name]

def addPartial (annotations : Annotations) (name : String) : Annotations :=
  { annotations with partials := insertName name annotations.partials }

def addHelper (annotations : Annotations) (name : String) : Annotations :=
  { annotations with helpers := insertName name annotations.helpers }

/-- Adds the helper that an expression is called as, unless a partial has its name. -/
def addCallee (annotations : Annotations) (callee : Expression) : Annotations :=
  match callee.helperName? with
  | some name =>
    if annotations.partials.contains name then annotations else annotations.addHelper name
  | none => annotations

end Annotations

end MustacheJsx
