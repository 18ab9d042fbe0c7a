import MustacheJsx.Error
import MustacheJsx.Text.Blank

/-!
# The span of a mustache

A mustache stands between `{{` and `}}`, or between three braces. Inside quotes the closing braces
do not count. A long comment ends at `--}}` alone. A `~` inside a delimiter asks for the blanks on
that side to be dropped.

Models `read_mustache`, `find_mustache_end` and `LONG_COMMENT_END_RE`.
-/

namespace MustacheJsx

/-- A mustache cut out of its template. -/
structure Span where
  content : List Char
  trusting : Bool
  stripLeft : Bool
  stripRight : Bool
  /-- The bytes between the start of the mustache and its content. -/
  lead : Nat
  /-- What follows the mustache. -/
  rest : List Char
  deriving DecidableEq

namespace Span

/-! ### Closing delimiters -/

/-- Where a character stands with respect to quoted strings. -/
inductive Quoting where
  | outside
  | inside (quote : Char)
  /-- After a backslash inside quotes. -/
  | escaped (quote : Char)
  deriving DecidableEq

def Quoting.after (c : Char) : Quoting → Quoting
  | .outside => if c = '"' ∨ c = '\'' then .inside c else .outside
  | .inside quote =>
    if c = '\\' then .escaped quote else if c = quote then .outside else .inside quote
  | .escaped quote => .inside quote

def cutAtClose? (close : List Char) (quoting : Quoting) :
    List Char → Option (List Char × List Char)
  | [] => none
  | c :: cs =>
    match if quoting = .outside then Text.afterLead? close (c :: cs) else none with
    | some rest => some ([], rest)
    | none =>
      (cutAtClose? close (quoting.after c) cs).map fun (content, rest) => (c :: content, rest)

theorem eq_append_of_cutAtClose? {close cs content rest : List Char} {quoting : Quoting}
    (h : cutAtClose? close quoting cs = some (content, rest)) : cs = content ++ close ++ rest := by
  induction cs generalizing quoting content with
  | nil => simp [cutAtClose?] at h
  | cons c cs ih =>
    rw [cutAtClose?] at h
    split at h
    · next r hr =>
      simp only [Option.some.injEq, Prod.mk.injEq] at h
      obtain ⟨rfl, rfl⟩ := h
      split at hr
      · simpa using Text.afterLead?_eq_some_iff.1 hr
      · simp at hr
    · simp only [Option.map_eq_some_iff, Prod.mk.injEq, Prod.exists] at h
      obtain ⟨a, b, hab, rfl, rfl⟩ := h
      simp [ih hab]

/-- Cuts a long comment at its end: what is before the dashes, whether a `~` follows them, and what
follows the mustache. -/
def cutAtDashes? : List Char → Option (List Char × Bool × List Char)
  | [] => none
  | c :: cs =>
    match Text.afterLead? ['-', '-', '}', '}'] (c :: cs),
        Text.afterLead? ['-', '-', '~', '}', '}'] (c :: cs) with
    | some rest, _ => some ([], false, rest)
    | none, some rest => some ([], true, rest)
    | none, none => (cutAtDashes? cs).map fun (before, strip, rest) => (c :: before, strip, rest)

/-! ### Mustaches -/

def leadingTilde : List Char → Bool × List Char
  | '~' :: cs => (true, cs)
  | cs => (false, cs)

def trailingTilde (cs : List Char) : Bool × List Char :=
  match cs.reverse with
  | '~' :: before => (true, before.reverse)
  | _ => (false, cs)

/-- Reads the mustache whose opening braces `cs` starts with. -/
def read (cs : List Char) : Except SyntaxFault Span :=
  let trusting := Text.startsWith ['{', '{', '{'] cs
  let braces := if trusting then 3 else 2
  let (stripLeft, body) := leadingTilde (cs.drop braces)
  let lead := braces + (if stripLeft then 1 else 0)
  match Text.afterLead? ['!', '-', '-'] body with
  | some inner =>
    match cutAtDashes? inner with
    | some (before, stripRight, rest) =>
      .ok { content := '!' :: '-' :: '-' :: before ++ ['-', '-']
            trusting := false, stripLeft, stripRight, lead, rest }
    | none => .error .unterminatedComment
  | none =>
    match cutAtClose? (List.replicate braces '}') .outside body with
    | some (content, rest) =>
      let (stripRight, content) := trailingTilde content
      .ok { content, trusting, stripLeft, stripRight, lead, rest }
    | none => .error .unterminatedMustache

end Span

end MustacheJsx
