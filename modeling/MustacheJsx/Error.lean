import MustacheJsx.Template.Basic

/-!
# Errors

Compilation stops at the first failure. A failure is told by its cause; `CompileError.message` is
its wording and `CompileError.code` a stable code that tools can match on.

Models `CompileError` with its wording and `code`, and the messages that the stages give `parse`.
-/

namespace MustacheJsx

/-- Why text is no template. Positions are kept apart, in `CompileError.parse`. -/
inductive SyntaxFault where
  | noFreeMarker
  | emptyMustache
  | unexpected (c : Char)
  | partialBlock
  | closingTagWithoutName
  | invertedSection
  | blockNameKind (kind : String)
  | dynamicPartial
  | partialWithoutName
  | blockParameters
  | positionalAfterHash
  | unterminatedCall
  | expectedExpression
  | unterminatedString
  | invalidPath (token : String)
  | unterminatedComment
  | unterminatedMustache
  | unclosedBlock (name : String)
  | elseOutsideBlock
  | closeMismatch (close opened : String)
  | closeWithoutBlock (close : String)
  | mustacheBetweenAttributes (tag : String)
  | partialInTag (tag : String)
  | blockInTag (tag : String)
  | placeholderInComment
  | misplacedPlaceholder
  | unknownPlaceholder
  | strayPlaceholder
  | blockMarkerWithoutBlock (line : Nat)
  | elseMarkerWithoutBlock
  | elseInsideElement (tag : String) (line : Nat)
  | blockClosedInElement (tag : String) (line : Nat)
  | blockClosedTwice
  | voidEndTag (tag : String) (line : Nat)
  | endTagMismatch (tag opened : String) (line : Nat)
  | endTagCrossesBlock (tag block : String) (line : Nat)
  | endTagWithoutElement (tag : String) (line : Nat)
  | repeatedElse (block : String)
  | unclosedElement (tag : String)
  deriving DecidableEq

def SyntaxFault.message : SyntaxFault → String
  | .noFreeMarker => "no free placeholder character for this template"
  | .emptyMustache => "empty mustache"
  | .unexpected c => "unexpected `" ++ String.singleton c ++ "`"
  | .partialBlock => "partial blocks and inline partials are not supported"
  | .closingTagWithoutName => "closing tag without a block name"
  | .invertedSection => "inverted sections are not supported, use `unless`"
  | .blockNameKind kind => "block name must be a path, found " ++ kind
  | .dynamicPartial => "dynamic partial names are not supported"
  | .partialWithoutName => "partial without a name"
  | .blockParameters => "block parameters (`as |x|`) are not supported"
  | .positionalAfterHash => "positional argument after hash argument"
  | .unterminatedCall => "unterminated sub-expression"
  | .expectedExpression => "expected an expression"
  | .unterminatedString => "unterminated string literal"
  | .invalidPath token => "invalid path `" ++ token ++ "`"
  | .unterminatedComment => "unterminated comment"
  | .unterminatedMustache => "unterminated mustache"
  | .unclosedBlock name => "unclosed block `\x7b\x7b#" ++ name ++ "\x7d\x7d`"
  | .elseOutsideBlock => "`\x7b\x7belse\x7d\x7d` outside of a block"
  | .closeMismatch close opened =>
    "`\x7b\x7b/" ++ close ++ "\x7d\x7d` does not match `\x7b\x7b#" ++ opened ++ "\x7d\x7d`"
  | .closeWithoutBlock close => "`\x7b\x7b/" ++ close ++ "\x7d\x7d` closes no open block"
  | .mustacheBetweenAttributes tag =>
    "mustaches in element position are not supported on <" ++ tag ++ ">"
  | .partialInTag tag => "partials are not allowed inside the <" ++ tag ++ "> tag"
  | .blockInTag tag =>
    "block statements inside the <" ++ tag ++ "> tag need includeExperimentalFeatures"
  | .placeholderInComment => "misplaced template placeholder in comment"
  | .misplacedPlaceholder => "misplaced template placeholder"
  | .unknownPlaceholder => "unknown template placeholder"
  | .strayPlaceholder => "a template tag ended up where markup cannot hold it"
  | .blockMarkerWithoutBlock line => "block marker without a block on line " ++ line.repr
  | .elseMarkerWithoutBlock => "`\x7b\x7belse if\x7d\x7d` marker without a block"
  | .elseInsideElement tag line =>
    "`\x7b\x7belse\x7d\x7d` inside <" ++ tag ++ "> must sit directly in its block (line "
      ++ line.repr ++ ")"
  | .blockClosedInElement tag line =>
    "block closed while <" ++ tag ++ "> is still open (line " ++ line.repr ++ ")"
  | .blockClosedTwice => "block closed twice"
  | .voidEndTag tag line =>
    "<" ++ tag ++ "> elements do not need end tags (line " ++ line.repr ++ ")"
  | .endTagMismatch tag opened line =>
    "closing tag </" ++ tag ++ "> does not match the open <" ++ opened ++ "> (line "
      ++ line.repr ++ ")"
  | .endTagCrossesBlock tag block line =>
    "closing tag </" ++ tag ++ "> crosses the `\x7b\x7b#" ++ block ++ "\x7d\x7d` block (line "
      ++ line.repr ++ ")"
  | .endTagWithoutElement tag line =>
    "closing tag </" ++ tag ++ "> has no open element (line " ++ line.repr ++ ")"
  | .repeatedElse block =>
    "`\x7b\x7b#" ++ block ++ "\x7d\x7d` has more than one `\x7b\x7belse\x7d\x7d`"
  | .unclosedElement tag => "unclosed element <" ++ tag ++ ">"

/-- Expressions that have no place in the output. -/
inductive ExpressionFault where
  | helperNameKind (kind : String)
  | indexOutsideEach (path : String)
  | dataVariable (path : String)
  | partialName (name : String)
  deriving DecidableEq

def ExpressionFault.message : ExpressionFault → String
  | .helperNameKind kind => kind ++ " as helper name"
  | .indexOutsideEach path => "`" ++ path ++ "` outside of an each block"
  | .dataVariable path => "data variable `" ++ path ++ "`"
  | .partialName name => "partial name `" ++ name ++ "`"

/-- What a block or a partial was called without. -/
inductive Expected where
  | condition
  | collection
  | collectionPath
  | href
  | path
  | oneContext
  deriving DecidableEq

def Expected.message : Expected → String
  | .condition => "a condition argument"
  | .collection => "a collection argument"
  | .collectionPath => "a path or helper call as collection"
  | .href => "an href argument"
  | .path => "a path argument"
  | .oneContext => "at most one context argument"

/-- Why a block in an opening tag cannot be turned into a helper call. -/
inductive AttributeBlockFault where
  | elseBranch
  | nestedBlock
  | severalMustaches
  | noPlainMustache
  | noSingleBlock
  | closedBy (opened close : String)
  | noSingleAttribute
  deriving DecidableEq

def AttributeBlockFault.message : AttributeBlockFault → String
  | .elseBranch => "else branches are not supported"
  | .nestedBlock => "nested block statements are not supported"
  | .severalMustaches => "expected at most one mustache inside the block"
  | .noPlainMustache => "only plain value mustaches are supported inside the block"
  | .noSingleBlock => "expected a single if/unless block"
  | .closedBy opened close => "`" ++ opened ++ "` closed by `" ++ close ++ "`"
  | .noSingleAttribute => "a block between attributes must wrap exactly one attribute"

/-- Why a template does not compile. -/
inductive CompileError where
  /-- Text that is no template, with the byte offset of the fault. -/
  | parse (fault : SyntaxFault) (offset : Nat)
  | emptyPath
  | parentTraversal (path : String)
  | expression (fault : ExpressionFault)
  | unexpectedStatement (kind : String)
  | topLevelComment
  | attributeValue (name kind : String)
  | unknownBlock (name : String)
  | blockParams (name : String) (expected : Expected)
  | blockInAttribute (name : String) (fault : AttributeBlockFault)
  | overlappingReplacement (offset : Nat)
  | invalidOutput
  | invalidOptions
  deriving DecidableEq

namespace CompileError

def code : CompileError → String
  | .parse _ _ => "HBS-ERR-PARSE-001"
  | .emptyPath => "HBS-ERR-PATH-001"
  | .parentTraversal _ => "HBS-ERR-PATH-002"
  | .expression _ => "HBS-ERR-EXPR-001"
  | .unexpectedStatement _ => "HBS-ERR-STMT-001"
  | .topLevelComment => "HBS-ERR-STMT-002"
  | .attributeValue _ _ => "HBS-ERR-ATTR-001"
  | .unknownBlock _ => "HBS-ERR-BLOCK-001"
  | .blockParams _ _ => "HBS-ERR-BLOCK-002"
  | .blockInAttribute _ _ => "HBS-ERR-PRE-001"
  | .overlappingReplacement _ => "HBS-ERR-PRE-002"
  | .invalidOutput => "HBS-ERR-OUT-001"
  | .invalidOptions => "HBS-ERR-OPT-001"

def message : CompileError → String
  | .parse fault offset => "Parse error at offset " ++ offset.repr ++ ": " ++ fault.message
  | .emptyPath => "Unexpected empty expression parts"
  | .parentTraversal path => "Unsupported parent context traversal in `" ++ path ++ "`"
  | .expression fault => "Unexpected expression type: " ++ fault.message
  | .unexpectedStatement kind => "Unexpected statement type: " ++ kind
  | .topLevelComment => "Top level comments currently is not supported"
  | .attributeValue name kind =>
    "Unexpected attribute value of `" ++ name ++ "`: " ++ kind
  | .unknownBlock name => "Unexpected " ++ name ++ " statement"
  | .blockParams name expected => "Block `" ++ name ++ "` expects " ++ expected.message
  | .blockInAttribute name fault =>
    "Unsupported block statement in attribute `" ++ name ++ "`: " ++ fault.message
  | .overlappingReplacement offset => "Template rewrites overlap at offset " ++ offset.repr
  | .invalidOutput => "Generated code failed to parse"
  | .invalidOptions => "Invalid compile options"

end CompileError

end MustacheJsx
