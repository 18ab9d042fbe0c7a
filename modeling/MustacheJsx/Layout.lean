import MustacheJsx.Text.Blank

/-!
# The layout of the output

Output has its imports first, one on a line, and all else on one line after them. Lines are trimmed,
and lines without text are left out.

Models `finalize_output`.
-/

namespace MustacheJsx.Layout

def trimmedLines (code : List Char) : List (List Char) :=
  ((Text.splitOn '\n' code).map Text.trim).filter fun line => !line.isEmpty

def isImport (line : List Char) : Bool := Text.startsWith ['i', 'm', 'p', 'o', 'r', 't', ' '] line

/-- Code in its layout: the imports that come before all else, and then one line. -/
def arrange (code : List Char) : List Char :=
  let lines := trimmedLines code
  let imports := lines.takeWhile isImport
  let rest := lines.dropWhile isImport
  let body := Text.joinWith ' ' rest
  if rest.isEmpty then Text.joinWith '\n' imports
  else if imports.isEmpty then body
  else Text.joinWith '\n' imports ++ '\n' :: body

end MustacheJsx.Layout
