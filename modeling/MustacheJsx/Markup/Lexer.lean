import MustacheJsx.Markup.Reference
import MustacheJsx.Markup.Token

/-!
# Cutting markup into tokens

The lexer goes through the text one character at a time. `Lexer.step` says what a character does in
each state; only references and the start of a declaration look at the characters after it, and are
then skipped as a whole. Nothing is an error: what is no tag is text or a comment, and a tag that
the end of the text cuts off vanishes.

Models the tokenizer that `parse_template` feeds, and `raw_text_kind` where a step asks for it.
-/

namespace MustacheJsx.Markup

namespace Lexer

/-! ### States -/

/-- What the next character is read as. -/
inductive State where
  | text (content : Content)
  | tagOpen
  | endTagOpen
  | tagName
  | beforeAttribute
  | attributeName
  | afterAttributeName
  | beforeValue
  /-- An attribute value, quoted or not. -/
  | value (quote : Option Char)
  | afterValue
  | selfClosing
  | rawLessThan (content : Content)
  | rawEndTagOpen (content : Content)
  | rawEndTagName (content : Content)
  | escapeStart
  | escapeStartDash
  | escapedDash (content : Content)
  | escapedDashDash (content : Content)
  | doubleEscapeStart
  | doubleEscapeEnd
  | commentStart
  | commentStartDash
  | comment
  | commentEndDash
  | commentEnd
  | commentEndBang
  | bogusComment
  | doctype
  deriving DecidableEq

/-- The lexer between two characters. Everything that is being read is held in reverse. -/
structure Machine where
  state : State := .text .markup
  line : Nat := 1
  text : List Char := []
  isEndTag : Bool := false
  name : List Char := []
  attributes : List (String × String) := []
  key : List Char := []
  value : List Char := []
  isSelfClosing : Bool := false
  /-- The letters of a possible end tag, or of a word in a script. -/
  word : List Char := []
  comment : List Char := []
  /-- The name of the last start tag. -/
  opened : String := ""

namespace Machine

def goTo (m : Machine) (state : State) : Machine := { m with state }

def write (m : Machine) (cs : List Char) : Machine := { m with text := cs.reverse ++ m.text }

def note (m : Machine) (cs : List Char) : Machine := { m with comment := cs.reverse ++ m.comment }

def pending (m : Machine) : List Token :=
  if m.text.isEmpty then [] else [.text m.text.reverse]

def beginTag (m : Machine) (isEndTag : Bool) (c : Char) : Machine :=
  { m with isEndTag, name := [c], attributes := [], isSelfClosing := false }

/-- Takes the attribute that was read into the tag, unless there is one of its name. -/
def endAttribute (m : Machine) : Machine :=
  let name := String.ofList m.key.reverse
  let attributes :=
    if m.key.isEmpty || m.attributes.any (·.1 == name) then m.attributes
    else (name, String.ofList m.value.reverse) :: m.attributes
  { m with attributes, key := [], value := [] }

def beginAttribute (m : Machine) (c : Char) : Machine :=
  { m.endAttribute with key := [c], state := .attributeName }

/-- Ends the tag. After the start tag of an element with content of its own kind that kind is
read. -/
def endTag (m : Machine) : Machine × List Token :=
  let m := m.endAttribute
  let name := String.ofList m.name.reverse
  if m.isEndTag then
    ({ m with state := .text .markup, text := [] }, m.pending ++ [.endTag name m.line])
  else
    let tag : StartTag :=
      { name, attributes := m.attributes.reverse, selfClosing := m.isSelfClosing }
    let content := if m.isSelfClosing then .markup else contentOf name
    ({ m with state := .text content, text := [], opened := name },
      m.pending ++ [.startTag tag m.line])

def endComment (m : Machine) : Machine × List Token :=
  ({ m with state := .text .markup, text := [], comment := [] },
    m.pending ++ [.comment m.comment.reverse])

/-- Whether the end tag being read ends the element that was opened last. -/
def isAppropriate (m : Machine) : Bool := m.isEndTag && String.ofList m.name.reverse == m.opened

end Machine

/-! ### Steps -/

/-- What a step leaves: the machine, the tokens that are finished, and how many of the following
characters are read already. -/
abbrev Outcome := Machine × List Token × Nat

def keep (m : Machine) : Outcome := (m, [], 0)

def finish (result : Machine × List Token) : Outcome := (result.1, result.2, 0)

def visible (c : Char) : Char := if c = '\x00' then '\ufffd' else c

def letter? (c : Char) : Option Char :=
  if Text.isAsciiLetter c then some (Text.lowerAscii c) else none

/-- A character of text; `rest` is what follows it. -/
def stepText (content : Content) (m : Machine) (c : Char) (rest : List Char) : Outcome :=
  match content, c with
  | .markup, '<' => keep (m.goTo .tagOpen)
  | .markup, '&' | .reference, '&' =>
    match Reference.read? false rest with
    | some (cs, count) => (m.write (cs.map visible), [], count)
    | none => keep (m.write ['&'])
  | .doubleEscaped, '<' => keep ((m.write ['<']).goTo (.rawLessThan .doubleEscaped))
  | _, '<' => keep (m.goTo (.rawLessThan content))
  | .escaped, '-' => keep ((m.write ['-']).goTo (.escapedDash .escaped))
  | .doubleEscaped, '-' => keep ((m.write ['-']).goTo (.escapedDash .doubleEscaped))
  | _, _ => keep (m.write [visible c])

/-- Characters that were no end tag are text, and `c` goes on in it. -/
def backToText (content : Content) (m : Machine) (read : List Char) (c : Char)
    (rest : List Char) : Outcome :=
  stepText content ((m.write read).goTo (.text content)) c rest

def stepBogusComment (m : Machine) (c : Char) : Outcome :=
  if c = '>' then finish m.endComment
  else keep ((m.note [visible c]).goTo .bogusComment)

def stepTagOpen (m : Machine) (c : Char) (rest : List Char) : Outcome :=
  match c with
  | '!' =>
    let m := { m with comment := [] }
    if Text.startsWith ['-', '-'] rest then (m.goTo .commentStart, [], 2)
    else if (rest.take 7).map Text.lowerAscii = "doctype".toList then (m.goTo .doctype, [], 7)
    else keep (m.goTo .bogusComment)
  | '/' => keep (m.goTo .endTagOpen)
  | '?' => stepBogusComment { m with comment := [] } c
  | c =>
    match letter? c with
    | some small => keep ((m.beginTag false small).goTo .tagName)
    | none => backToText .markup m ['<'] c rest

def stepEndTagOpen (m : Machine) (c : Char) : Outcome :=
  match letter? c with
  | some small => keep ((m.beginTag true small).goTo .tagName)
  | none =>
    if c = '>' then keep (m.goTo (.text .markup))
    else stepBogusComment { m with comment := [] } c

def stepTagName (m : Machine) (c : Char) : Outcome :=
  if Text.isMarkupBlank c then keep (m.goTo .beforeAttribute)
  else if c = '/' then keep (m.goTo .selfClosing)
  else if c = '>' then finish m.endTag
  else keep { m with name := Text.lowerAscii (visible c) :: m.name }

def stepBeforeAttribute (m : Machine) (c : Char) : Outcome :=
  if Text.isMarkupBlank c then keep (m.goTo .beforeAttribute)
  else if c = '/' then keep (m.goTo .selfClosing)
  else if c = '>' then finish m.endTag
  else keep (m.beginAttribute (Text.lowerAscii (visible c)))

def stepAttributeName (m : Machine) (c : Char) : Outcome :=
  if Text.isMarkupBlank c then keep (m.goTo .afterAttributeName)
  else if c = '/' then keep (m.goTo .selfClosing)
  else if c = '=' then keep (m.goTo .beforeValue)
  else if c = '>' then finish m.endTag
  else keep { m with key := Text.lowerAscii (visible c) :: m.key }

def stepAfterAttributeName (m : Machine) (c : Char) : Outcome :=
  if Text.isMarkupBlank c then keep m
  else if c = '/' then keep (m.goTo .selfClosing)
  else if c = '=' then keep (m.goTo .beforeValue)
  else if c = '>' then finish m.endTag
  else keep (m.beginAttribute (Text.lowerAscii (visible c)))

def stepValueChar (m : Machine) (c : Char) (rest : List Char) : Outcome :=
  if c = '&' then
    match Reference.read? true rest with
    | some (cs, count) => ({ m with value := cs.reverse ++ m.value }, [], count)
    | none => keep { m with value := '&' :: m.value }
  else keep { m with value := visible c :: m.value }

def stepValue (quote : Option Char) (m : Machine) (c : Char) (rest : List Char) : Outcome :=
  let m := m.goTo (.value quote)
  match quote with
  | some q => if c = q then keep (m.goTo .afterValue) else stepValueChar m c rest
  | none =>
    if Text.isMarkupBlank c then keep (m.goTo .beforeAttribute)
    else if c = '>' then finish m.endTag
    else stepValueChar m c rest

def stepBeforeValue (m : Machine) (c : Char) (rest : List Char) : Outcome :=
  if Text.isMarkupBlank c then keep m
  else if c = '"' ∨ c = '\'' then keep (m.goTo (.value (some c)))
  else if c = '>' then finish m.endTag
  else stepValue none m c rest

def stepAfterValue (m : Machine) (c : Char) : Outcome :=
  if c = '/' then keep (m.goTo .selfClosing) else stepBeforeAttribute m c

def stepSelfClosing (m : Machine) (c : Char) : Outcome :=
  if c = '>' then finish { m with isSelfClosing := true }.endTag else stepBeforeAttribute m c

def stepRawLessThan (content : Content) (m : Machine) (c : Char) (rest : List Char) : Outcome :=
  match content with
  | .doubleEscaped =>
    if c = '/' then keep (({ m with word := [] }.write ['/']).goTo .doubleEscapeEnd)
    else backToText content m [] c rest
  | _ =>
    if c = '/' then keep ({ m with word := [] }.goTo (.rawEndTagOpen content))
    else if content = .script ∧ c = '!' then keep ((m.write ['<', '!']).goTo .escapeStart)
    else
      match content, letter? c with
      | .escaped, some small =>
        keep (({ m with word := [small] }.write ['<', c]).goTo .doubleEscapeStart)
      | _, _ => backToText content m ['<'] c rest

def stepRawEndTagOpen (content : Content) (m : Machine) (c : Char) (rest : List Char) : Outcome :=
  match letter? c with
  | some small =>
    keep ({ m.beginTag true small with word := c :: m.word }.goTo (.rawEndTagName content))
  | none => backToText content m ['<', '/'] c rest

def stepRawEndTagName (content : Content) (m : Machine) (c : Char) (rest : List Char) : Outcome :=
  if m.isAppropriate && Text.isMarkupBlank c then
    keep ({ m with word := [] }.goTo .beforeAttribute)
  else if m.isAppropriate && c == '/' then keep ({ m with word := [] }.goTo .selfClosing)
  else if m.isAppropriate && c == '>' then finish { m with word := [] }.endTag
  else
    match letter? c with
    | some small => keep { m with name := small :: m.name, word := c :: m.word }
    | none => backToText content m ('<' :: '/' :: m.word.reverse) c rest

/-- A character of the word after `<` or `</` in a comment of a script. The word `script` moves from
the content `here` to `there`. -/
def stepScriptWord (here there : Content) (m : Machine) (c : Char) (rest : List Char) : Outcome :=
  if Text.isMarkupBlank c || c == '/' || c == '>' then
    let content := if m.word.reverse = "script".toList then there else here
    keep ((m.write [c]).goTo (.text content))
  else
    match letter? c with
    | some small => keep { m.write [c] with word := small :: m.word }
    | none => backToText here m [] c rest

def stepEscapedDash (content : Content) (dashes : Nat) (m : Machine) (c : Char) : Outcome :=
  if c = '-' then keep ((m.write ['-']).goTo (.escapedDashDash content))
  else if c = '<' then
    let m := if content = .doubleEscaped then m.write ['<'] else m
    keep (m.goTo (.rawLessThan content))
  else if c = '>' ∧ dashes = 2 then keep ((m.write ['>']).goTo (.text .script))
  else keep ((m.write [visible c]).goTo (.text content))

def stepEscapeStart (next : State) (m : Machine) (c : Char) (rest : List Char) : Outcome :=
  if c = '-' then keep ((m.write ['-']).goTo next) else backToText .script m [] c rest

/-- A character of a comment, after the part `read` of a possible end. -/
def stepComment (read : List Char) (m : Machine) (c : Char) : Outcome :=
  if c = '-' ∧ read.isEmpty then keep (m.goTo .commentEndDash)
  else keep ((m.note (read ++ [visible c])).goTo .comment)

/-- What `c` does; `rest` is what follows it. -/
def step (m : Machine) (c : Char) (rest : List Char) : Outcome :=
  match m.state with
  | .text content => stepText content m c rest
  | .tagOpen => stepTagOpen m c rest
  | .endTagOpen => stepEndTagOpen m c
  | .tagName => stepTagName m c
  | .beforeAttribute => stepBeforeAttribute m c
  | .attributeName => stepAttributeName m c
  | .afterAttributeName => stepAfterAttributeName m c
  | .beforeValue => stepBeforeValue m c rest
  | .value quote => stepValue quote m c rest
  | .afterValue => stepAfterValue m c
  | .selfClosing => stepSelfClosing m c
  | .rawLessThan content => stepRawLessThan content m c rest
  | .rawEndTagOpen content => stepRawEndTagOpen content m c rest
  | .rawEndTagName content => stepRawEndTagName content m c rest
  | .escapeStart => stepEscapeStart .escapeStartDash m c rest
  | .escapeStartDash => stepEscapeStart (.escapedDashDash .escaped) m c rest
  | .escapedDash content => stepEscapedDash content 1 m c
  | .escapedDashDash content => stepEscapedDash content 2 m c
  | .doubleEscapeStart => stepScriptWord .escaped .doubleEscaped m c rest
  | .doubleEscapeEnd => stepScriptWord .doubleEscaped .escaped m c rest
  | .commentStart =>
    if c = '-' then keep (m.goTo .commentStartDash)
    else if c = '>' then finish m.endComment
    else keep ((m.note [visible c]).goTo .comment)
  | .commentStartDash =>
    if c = '-' then keep (m.goTo .commentEnd)
    else if c = '>' then finish m.endComment
    else stepComment ['-'] m c
  | .comment => stepComment [] m c
  | .commentEndDash => if c = '-' then keep (m.goTo .commentEnd) else stepComment ['-'] m c
  | .commentEnd =>
    if c = '>' then finish m.endComment
    else if c = '!' then keep (m.goTo .commentEndBang)
    else if c = '-' then keep (m.note ['-'])
    else stepComment ['-', '-'] m c
  | .commentEndBang =>
    if c = '-' then keep ((m.note ['-', '-', '!']).goTo .commentEndDash)
    else if c = '>' then finish m.endComment
    else stepComment ['-', '-', '!'] m c
  | .bogusComment => stepBogusComment m c
  | .doctype => if c = '>' then keep (m.goTo (.text .markup)) else keep m

def atEnd (m : Machine) : List Token :=
  match m.state with
  | .text _ | .escapeStart | .escapeStartDash | .escapedDash _ | .escapedDashDash _
  | .doubleEscapeStart | .doubleEscapeEnd | .rawLessThan .doubleEscaped | .doctype => m.pending
  | .tagOpen | .rawLessThan _ => (m.write ['<']).pending
  | .endTagOpen | .rawEndTagOpen _ => (m.write ['<', '/']).pending
  | .rawEndTagName _ => (m.write ('<' :: '/' :: m.word.reverse)).pending
  | .tagName | .beforeAttribute | .attributeName | .afterAttributeName | .beforeValue | .value _
  | .afterValue | .selfClosing => m.pending
  | .commentStart | .commentStartDash | .comment | .commentEndDash | .commentEnd
  | .commentEndBang | .bogusComment => m.endComment.2

/-! ### Runs -/

/-- A line feed begins a line, except between `=` and the value after it. -/
def countLine (m : Machine) (c : Char) : Machine :=
  if c = '\n' ∧ m.state ≠ .beforeValue then { m with line := m.line + 1 } else m

/-- Reads all characters after the first `skip` of them. -/
def run (skip : Nat) (m : Machine) : List Char → List Token
  | [] => atEnd m
  | c :: cs =>
    match skip with
    | skip + 1 => run skip m cs
    | 0 =>
      let (m, tokens, skip) := step (countLine m c) c cs
      tokens ++ run skip m cs

theorem run_succ (skip : Nat) (m : Machine) (c : Char) (cs : List Char) :
    run (skip + 1) m (c :: cs) = run skip m cs := rfl

def unifyLineEnds : List Char → List Char
  | [] => []
  | '\r' :: '\n' :: cs => '\n' :: unifyLineEnds cs
  | '\r' :: cs => '\n' :: unifyLineEnds cs
  | c :: cs => c :: unifyLineEnds cs

def withoutMark : List Char → List Char
  | '\ufeff' :: cs => cs
  | cs => cs

end Lexer

def tokens (cs : List Char) : List Token :=
  Lexer.run 0 {} (Lexer.unifyLineEnds (Lexer.withoutMark cs))

end MustacheJsx.Markup
