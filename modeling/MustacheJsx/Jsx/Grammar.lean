import MustacheJsx.Jsx.Lexeme

/-!
# The grammar of code

Code is accepted if it is a module of the statements and terms that generated code can hold,
whatever its names are. Names come from templates, so a name may turn out to be a keyword or an
operator, and what it is part of may still be a module. The order of binary operators does not
matter for that, so operands and operators are read as one chain.

Every reader takes fuel, of which each step uses one. `isModule` gives enough for every step.

Models the parser behind `verify_output`.
-/

namespace MustacheJsx.Jsx

/-- What an operand is to the operators around it. -/
inductive Operand where
  /-- A name or an access, which can be assigned to. -/
  | target
  /-- An operand behind an operator that binds less than a power. -/
  | prefixed
  | other
  deriving DecidableEq

/-- What the operators of a chain have told: `??` may not stand beside `&&` and `||`. -/
inductive Logic where
  | neither
  | coalesce
  | connect
  deriving DecidableEq

def Logic.after (op : String) (logic : Logic) : Option Logic :=
  if op = "??" then if logic = .connect then none else some .coalesce
  else if op = "&&" ∨ op = "||" then if logic = .coalesce then none else some .connect
  else some logic

/-! ### Functions -/

def readParams (awaits : Bool) : Nat → List Char → Option (List Char)
  | 0, _ => none
  | fuel + 1, cs =>
    match readChar ')' cs with
    | some rest => some rest
    | none => do
      let rest ← readName awaits cs
      match readChar ',' rest with
      | some more => readParams awaits fuel more
      | none => readChar ')' rest

def readHead (awaits : Bool) (cs : List Char) : Option (List Char) := do
  let rest ←
    match readChar '(' cs with
    | some rest => readParams awaits (rest.length + 1) rest
    | none => readName awaits cs
  Text.afterLead? ['=', '>'] (skip rest)

/-- The head of a function at the start of code: whether the function can wait, and its body. -/
def functionBody? (awaits : Bool) (cs : List Char) : Option (Bool × List Char) :=
  match (readWord "async" cs).bind (readHead awaits) with
  | some body => some (true, body)
  | none => (readHead awaits cs).map (false, ·)

/-! ### Terms -/

mutual

def readTerms (awaits : Bool) : Nat → List Char → Option (List Char)
  | 0, _ => none
  | fuel + 1, cs => do
    let rest ← readTerm awaits fuel cs
    match readChar ',' rest with
    | some more => readTerms awaits fuel more
    | none => return rest

def readTerm (awaits : Bool) : Nat → List Char → Option (List Char)
  | 0, _ => none
  | fuel + 1, cs =>
    match functionBody? awaits cs with
    | some (waits, body) => if (readChar '{' body).isSome then none else readTerm waits fuel body
    | none => do
      let (operand, rest) ← readOperand awaits fuel cs
      match operator? (skip rest) with
      | some (op, more) =>
        if isAssignment op then
          if operand = .target then readTerm awaits fuel more else none
        else readChain awaits fuel operand .neither rest
      | none => readChain awaits fuel operand .neither rest

def readChain (awaits : Bool) : Nat → Operand → Logic → List Char → Option (List Char)
  | 0, _, _, _ => none
  | fuel + 1, operand, logic, cs =>
    match binary? (skip cs) with
    | some (op, more) =>
      if op = "**" ∧ operand = .prefixed then none
      else do
        let logic ← logic.after op
        let (operand, rest) ← readOperand awaits fuel more
        readChain awaits fuel operand logic rest
    | none =>
      match readChar '?' cs with
      | some more => do
        let rest ← readTerm awaits fuel more
        let rest ← readChar ':' rest
        readTerm awaits fuel rest
      | none => some cs

def readOperand (awaits : Bool) : Nat → List Char → Option (Operand × List Char)
  | 0, _ => none
  | fuel + 1, cs =>
    match leading? awaits (skip cs) with
    | some (changes, more) => do
      let (operand, rest) ← readOperand awaits fuel more
      if !changes then return (.prefixed, rest)
      else if operand = .target then return (.other, rest)
      else none
    | none => do
      let (operand, rest) ← readPrimary awaits fuel (skip cs)
      let (operand, rest) ← readTails awaits true fuel operand rest
      match operator? (skip rest) with
      | some (op, more) =>
        if (op = "++" ∨ op = "--") ∧ operand = .target then return (.other, more)
        else return (operand, rest)
      | none => return (operand, rest)

def readPrimary (awaits : Bool) : Nat → List Char → Option (Operand × List Char)
  | 0, _ => none
  | fuel + 1, cs =>
    match cs with
    | '(' :: more => do
      let rest ← readTerms awaits fuel more
      let rest ← readChar ')' rest
      return (.other, rest)
    | '[' :: more => do
      let rest ← readItems awaits fuel more
      return (.other, rest)
    | '{' :: more => do
      let rest ← readProperties awaits fuel more
      return (.other, rest)
    | '<' :: more => do
      let rest ← readElement awaits fuel more
      return (.other, rest)
    | _ =>
      match readString cs, readNumber cs with
      | some rest, _ => some (.other, rest)
      | none, some rest => some (.other, rest)
      | none, none =>
        let (word, rest) := takeWord cs
        match String.ofList word with
        | "this" => some (.other, rest)
        | "null" => some (.other, rest)
        | "true" => some (.other, rest)
        | "false" => some (.other, rest)
        | "super" =>
          if (skip rest).head?.any (['(', '.', '['].contains ·) then some (.other, rest) else none
        | "new" => readNew awaits fuel rest
        | "import" => readImportCall awaits fuel rest
        | _ => if isName awaits word then some (.target, rest) else none

/-- Reads what follows `new`: what is constructed, and its arguments if there are any. -/
def readNew (awaits : Bool) : Nat → List Char → Option (Operand × List Char)
  | 0, _ => none
  | fuel + 1, cs =>
    match readChar '.' cs with
    | some more => do
      let rest ← readWord "target" more
      return (.other, rest)
    | none => do
      let (operand, rest) ← readPrimary awaits fuel (skip cs)
      let (_, rest) ← readTails awaits false fuel operand rest
      match readChar '(' rest with
      | some more => do
        let (_, rest) ← readArguments awaits fuel 0 more
        return (.other, rest)
      | none => return (.other, rest)

/-- Reads what follows `import` in a term: one or two arguments, or `meta`. -/
def readImportCall (awaits : Bool) : Nat → List Char → Option (Operand × List Char)
  | 0, _ => none
  | fuel + 1, cs =>
    match readChar '.' cs with
    | some more => do
      let rest ← readWord "meta" more
      return (.other, rest)
    | none => do
      let rest ← readChar '(' cs
      let (count, rest) ← readArguments awaits fuel 0 rest
      if count = 1 ∨ count = 2 then return (.other, rest) else none

/-- Reads accesses and, if `calls` tells so, calls after an operand. -/
def readTails (awaits calls : Bool) : Nat → Operand → List Char → Option (Operand × List Char)
  | 0, _, _ => none
  | fuel + 1, operand, cs =>
    match skip cs with
    | '.' :: more =>
      let (word, rest) := takeWord (skip more)
      if word.isEmpty then none else readTails awaits calls fuel .target rest
    | '[' :: more => do
      let rest ← readTerms awaits fuel more
      let rest ← readChar ']' rest
      readTails awaits calls fuel .target rest
    | '(' :: more =>
      if calls then do
        let (_, rest) ← readArguments awaits fuel 0 more
        readTails awaits calls fuel .other rest
      else some (operand, cs)
    | '?' :: '.' :: more =>
      if more.head?.any Text.isAsciiDigit || !calls then some (operand, cs)
      else
        match more with
        | '(' :: _ => readTails awaits calls fuel .other more
        | '[' :: _ => do
          let (_, rest) ← readTails awaits calls fuel .other more
          return (.other, rest)
        | _ =>
          let (word, rest) := takeWord (skip more)
          if word.isEmpty then none
          else do
            let (_, rest) ← readTails awaits calls fuel .other rest
            return (.other, rest)
    | _ => some (operand, cs)

/-- Reads arguments after the opening parenthesis; the answer tells their number. -/
def readArguments (awaits : Bool) : Nat → Nat → List Char → Option (Nat × List Char)
  | 0, _, _ => none
  | fuel + 1, count, cs =>
    match readChar ')' cs with
    | some rest => some (count, rest)
    | none => do
      let rest ← readTerm awaits fuel (skipSpread cs)
      match readChar ',' rest with
      | some more => readArguments awaits fuel (count + 1) more
      | none => do
        let rest ← readChar ')' rest
        return (count + 1, rest)

def readItems (awaits : Bool) : Nat → List Char → Option (List Char)
  | 0, _ => none
  | fuel + 1, cs =>
    match readChar ']' cs, readChar ',' cs with
    | some rest, _ => some rest
    | none, some more => readItems awaits fuel more
    | none, none => do
      let rest ← readTerm awaits fuel (skipSpread cs)
      match readChar ',' rest with
      | some more => readItems awaits fuel more
      | none => readChar ']' rest

def readProperties (awaits : Bool) : Nat → List Char → Option (List Char)
  | 0, _ => none
  | fuel + 1, cs =>
    match readChar '}' cs with
    | some rest => some rest
    | none => do
      let rest ← readProperty awaits fuel (skip cs)
      match readChar ',' rest with
      | some more => readProperties awaits fuel more
      | none => readChar '}' rest

/-- Reads a property: a spread, a name alone, or a key with its value. -/
def readProperty (awaits : Bool) : Nat → List Char → Option (List Char)
  | 0, _ => none
  | fuel + 1, cs =>
    match readSpread cs, cs with
    | some more, _ => readTerm awaits fuel more
    | none, '[' :: more => do
      let rest ← readTerm awaits fuel more
      let rest ← readChar ']' rest
      let rest ← readChar ':' rest
      readTerm awaits fuel rest
    | none, _ =>
      let (word, rest) := takeWord cs
      if word.isEmpty then do
        let rest ← (readString cs).or (readNumber cs)
        let rest ← readChar ':' rest
        readTerm awaits fuel rest
      else
        match readChar ':' rest with
        | some more => readTerm awaits fuel more
        | none => if isName awaits word then some rest else none

/-- Reads an element after its `<`. One without a name groups its children. -/
def readElement (awaits : Bool) : Nat → List Char → Option (List Char)
  | 0, _ => none
  | fuel + 1, cs =>
    match readChar '>' cs with
    | some more => do
      let rest ← readChildren awaits fuel more
      readChar '>' rest
    | none => do
      let (name, rest) ← readTagName cs
      let (closed, rest) ← readAttributes awaits fuel rest
      if closed then return rest
      else do
        let rest ← readChildren awaits fuel rest
        let (closing, rest) ← readTagName rest
        if closing = name then readChar '>' rest else none

/-- Reads attributes up to the end of a tag; the answer tells whether the tag closes its element. -/
def readAttributes (awaits : Bool) : Nat → List Char → Option (Bool × List Char)
  | 0, _ => none
  | fuel + 1, cs =>
    match skip cs with
    | '>' :: rest => some (false, rest)
    | '/' :: more => do
      let rest ← readChar '>' more
      return (true, rest)
    | '{' :: more => do
      let rest ← readSpread more
      let rest ← readTerm awaits fuel rest
      let rest ← readChar '}' rest
      readAttributes awaits fuel rest
    | rest => do
      let (_, rest) ← readAttributeName rest
      match readChar '=' rest with
      | some more => do
        let rest ← readAttributeValue awaits fuel (skip more)
        readAttributes awaits fuel rest
      | none => readAttributes awaits fuel rest

/-- Reads the value of an attribute: raw text, a term in braces, or an element. -/
def readAttributeValue (awaits : Bool) : Nat → List Char → Option (List Char)
  | 0, _ => none
  | fuel + 1, cs =>
    match cs with
    | '"' :: more => (Text.cutAt? ['"'] more).map Prod.snd
    | '\'' :: more => (Text.cutAt? ['\''] more).map Prod.snd
    | '{' :: more => do
      let rest ← readTerms awaits fuel more
      readChar '}' rest
    | '<' :: more => readElement awaits fuel more
    | _ => none

/-- Reads children up to an end tag; the answer is what follows its `</`. -/
def readChildren (awaits : Bool) : Nat → List Char → Option (List Char)
  | 0, _ => none
  | fuel + 1, cs =>
    match cs.dropWhile fun c => !(['{', '}', '<', '>'].contains c) with
    | '<' :: more =>
      match readChar '/' more with
      | some rest => some rest
      | none => do
        let rest ← readElement awaits fuel more
        readChildren awaits fuel rest
    | '{' :: more =>
      match readChar '}' more with
      | some rest => readChildren awaits fuel rest
      | none => do
        let rest ← readTerms awaits fuel (skipSpread more)
        let rest ← readChar '}' rest
        readChildren awaits fuel rest
    | _ => none

end

/-! ### Statements -/

/-- Reads an import after its keyword: of a default export under a name, or of a file alone. -/
def readImport (cs : List Char) : Option (List Char) := do
  match readString (skip cs) with
  | some rest => readEnd rest
  | none => do
    let rest ← readName true cs
    let rest ← readWord "from" rest
    let rest ← readString (skip rest)
    readEnd rest

def readParenthesized (fuel : Nat) (cs : List Char) : Option (List Char) := do
  let rest ← readChar '(' cs
  let rest ← readTerms true fuel rest
  readChar ')' rest

/-- Reads definitions of names with commas between them; a constant needs a value. -/
def readDefinitions (constant : Bool) : Nat → List Char → Option (List Char)
  | 0, _ => none
  | fuel + 1, cs => do
    let rest ← readName true cs
    let rest ←
      match readChar '=' rest with
      | some more => readTerm true fuel more
      | none => if constant then none else some rest
    match readChar ',' rest with
    | some more => readDefinitions constant fuel more
    | none => readEnd rest

def readTermStatement (fuel : Nat) (cs : List Char) : Option (List Char) := do
  let rest ← readTerms true fuel cs
  readEnd rest

def readJump (cs : List Char) : Option (List Char) :=
  match readName true cs with
  | some rest => readEnd rest
  | none => readEnd cs

mutual

def readStatement : Nat → List Char → Option (List Char)
  | 0, _ => none
  | fuel + 1, cs =>
    match skip cs with
    | ';' :: rest => some rest
    | '{' :: more => readBlock fuel more
    | cs =>
      let (word, rest) := takeWord cs
      match String.ofList word with
      | "if" => do
        let rest ← readParenthesized fuel rest
        let rest ← readStatement fuel rest
        match readWord "else" rest with
        | some more => readStatement fuel more
        | none => return rest
      | "while" => do readStatement fuel (← readParenthesized fuel rest)
      | "with" => do readStatement fuel (← readParenthesized fuel rest)
      | "do" => do
        let rest ← readStatement fuel rest
        let rest ← readWord "while" rest
        let rest ← readParenthesized fuel rest
        return (readChar ';' rest).getD rest
      | "throw" => readTermStatement fuel rest
      | "debugger" => readEnd rest
      | "break" => readJump rest
      | "continue" => readJump rest
      | "const" => readDefinitions true fuel rest
      | "var" => readDefinitions false fuel rest
      | "let" =>
        if (readName true rest).isSome then readDefinitions false fuel rest
        else readTermStatement fuel cs
      | "export" => do
        let rest ← readWord "default" rest
        let rest ← readTerm true fuel rest
        readEnd rest
      | "import" =>
        if (skip rest).head?.any (['(', '.'].contains ·) then readTermStatement fuel cs
        else readImport rest
      | _ =>
        match isName true word, readChar ':' rest with
        | true, some more => readStatement fuel more
        | _, _ => readTermStatement fuel cs

def readBlock : Nat → List Char → Option (List Char)
  | 0, _ => none
  | fuel + 1, cs =>
    match readChar '}' cs with
    | some rest => some rest
    | none => do
      let rest ← readStatement fuel cs
      readBlock fuel rest

end

def isStatements : Nat → List Char → Bool
  | 0, _ => false
  | fuel + 1, cs =>
    if (skip cs).isEmpty then true
    else
      match readStatement fuel cs with
      | some rest => isStatements fuel rest
      | none => false

/-- Whether code is a module. No part of it is nested deeper than twelve readers for a character. -/
def isModule (code : List Char) : Bool := isStatements (16 * (code.length + 4)) code

end MustacheJsx.Jsx
