import MustacheJsx.Error
import MustacheJsx.Text.Cut

/-!
# Splicing

Replacements tell which bytes of a template give way to which text. They are applied in the order of
their positions and may not overlap. A replacement never touches the text before it: a space comes
between them.

Models `Replacement` and `splice`.
-/

namespace MustacheJsx

/-- Some bytes of a template and the text that stands for them. -/
structure Replacement where
  start : Nat
  length : Nat
  text : List Char
  deriving DecidableEq

namespace Replacement

def stop (r : Replacement) : Nat := r.start + r.length

/-- Applies replacements to what is left of a template. `cursor` is the position of `cs` in it, and
`out` is the result so far in reverse. -/
def applyAll (cursor : Nat) (cs out : List Char) :
    List Replacement → Except CompileError (List Char)
  | [] => .ok (out.reverse ++ cs)
  | r :: rs =>
    if r.start < cursor ∨ cursor + Text.utf8Length cs < r.stop then
      .error (.overlappingReplacement r.start)
    else
      let (before, rest) := Text.splitAtByte (r.start - cursor) cs
      let out := before.reverse ++ out
      let out := if 0 < r.start ∧ ¬ out.head?.any Text.isBlank then ' ' :: out else out
      let (_, rest) := Text.splitAtByte r.length rest
      applyAll r.stop rest (r.text.reverse ++ out) rs

end Replacement

/-- Applies replacements to a template; of two with one position the first in the list comes
first. -/
def splice (template : List Char) (replacements : List Replacement) :
    Except CompileError (List Char) :=
  Replacement.applyAll 0 template [] (replacements.mergeSort fun r s => r.start ≤ s.start)

theorem splice_nil (template : List Char) : splice template [] = .ok template := by
  simp [splice, Replacement.applyAll]

end MustacheJsx
