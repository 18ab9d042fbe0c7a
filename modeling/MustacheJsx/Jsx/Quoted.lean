import MustacheJsx.Text.Blank
import MustacheJsx.Text.Classes

/-!
# String literals

A string literal stands in double quotes. Control characters that have a short escape take it, line
ends are always escaped, and an end tag of a script is broken up so that the code can stand inside a
script element. All other characters stand for themselves.

Models the string literals of the code printer behind `print_program`.
-/

namespace MustacheJsx.Jsx

/-- Whether text goes on like the end tag of a script after its `<`. -/
def closesScript (cs : List Char) : Bool :=
  (cs.take 7).map Text.lowerAscii == ['/', 's', 'c', 'r', 'i', 'p', 't']

def escapeChar (c : Char) (next : List Char) : List Char :=
  if c = '\x00' then
    if next.head?.any Text.isAsciiDigit then ['\\', 'x', '0', '0'] else ['\\', '0']
  else if c = '\x07' then ['\\', 'x', '0', '7']
  else if c = '\x08' then ['\\', 'b']
  else if c = '\x0b' then ['\\', 'v']
  else if c = '\x0c' then ['\\', 'f']
  else if c = '\n' then ['\\', 'n']
  else if c = '\r' then ['\\', 'r']
  else if c = '\x1b' then ['\\', 'x', '1', 'B']
  else if c = '\\' then ['\\', '\\']
  else if c = '"' then ['\\', '"']
  else if c = '\u2028' then ['\\', 'u', '2', '0', '2', '8']
  else if c = '\u2029' then ['\\', 'u', '2', '0', '2', '9']
  else if c = '\xa0' then ['\\', 'x', 'A', '0']
  else if c = '<' ∧ closesScript next then ['<', '\\']
  else [c]

def escape : List Char → List Char
  | [] => []
  | c :: cs => escapeChar c cs ++ escape cs

def quote (cs : List Char) : List Char := '"' :: (escape cs ++ ['"'])

end MustacheJsx.Jsx
