import MustacheJsx.Conversion.Style
import MustacheJsx.Conversion.Text
import MustacheJsx.Vocabulary

/-!
# Attributes

An attribute keeps its text, or holds a term in braces. Some names of markup are spelled otherwise
in elements of code, and an attribute whose name cannot be written there is left out.

Models `react_attribute_name` with the table `REACT_ATTRIBUTES`, `ATTRIBUTE_NAME_RE`,
`create_attribute` and `create_attribute_spread`.
-/

namespace MustacheJsx

namespace AttributeName

/-- The names of markup, in small letters, that are spelled otherwise in elements of code. -/
def respelled : List (String × String) :=
  [("accept-charset", "acceptCharset"), ("accesskey", "accessKey"),
   ("allowfullscreen", "allowFullScreen"), ("autocomplete", "autoComplete"),
   ("autofocus", "autoFocus"), ("autoplay", "autoPlay"), ("cellpadding", "cellPadding"),
   ("cellspacing", "cellSpacing"), ("charset", "charSet"), ("class", "className"),
   ("colspan", "colSpan"), ("contenteditable", "contentEditable"), ("crossorigin", "crossOrigin"),
   ("datetime", "dateTime"), ("enctype", "encType"), ("for", "htmlFor"),
   ("formaction", "formAction"), ("frameborder", "frameBorder"), ("http-equiv", "httpEquiv"),
   ("inputmode", "inputMode"), ("maxlength", "maxLength"), ("minlength", "minLength"),
   ("novalidate", "noValidate"), ("onblur", "onBlur"), ("onchange", "onChange"),
   ("onclick", "onClick"), ("onfocus", "onFocus"), ("oninput", "onInput"),
   ("onkeydown", "onKeyDown"), ("onkeyup", "onKeyUp"), ("onsubmit", "onSubmit"),
   ("readonly", "readOnly"), ("referrerpolicy", "referrerPolicy"), ("rowspan", "rowSpan"),
   ("spellcheck", "spellCheck"), ("srcset", "srcSet"), ("tabindex", "tabIndex"),
   ("usemap", "useMap"), ("clip-path", "clipPath"), ("clip-rule", "clipRule"),
   ("fill-opacity", "fillOpacity"), ("fill-rule", "fillRule"), ("font-family", "fontFamily"),
   ("font-size", "fontSize"), ("font-weight", "fontWeight"), ("stop-color", "stopColor"),
   ("stop-opacity", "stopOpacity"), ("stroke-dasharray", "strokeDasharray"),
   ("stroke-dashoffset", "strokeDashoffset"), ("stroke-linecap", "strokeLinecap"),
   ("stroke-linejoin", "strokeLinejoin"), ("stroke-miterlimit", "strokeMiterlimit"),
   ("stroke-opacity", "strokeOpacity"), ("stroke-width", "strokeWidth"),
   ("text-anchor", "textAnchor"), ("viewbox", "viewBox"), ("xlink:href", "xlinkHref"),
   ("xml:lang", "xmlLang"), ("xml:space", "xmlSpace"), ("xmlns:xlink", "xmlnsXlink")]

/-- The spelling of a name in elements of code; capital letters do not matter for the table. -/
def inElements (name : String) : String :=
  let small := String.ofList (name.toList.map Text.lowerAscii)
  (respelled.lookup small).getD name

/-- Whether a name can be written in elements of code: letters, digits, underscores, hyphens. -/
def isWritable (name : String) : Bool :=
  !name.isEmpty && name.toList.all fun c => Text.isAsciiAlphanumeric c || c == '_' || c == '-'

def isKept (name : String) : Bool := isWritable name || isWritable (inElements name)

def isGenerator (name : String) : Bool :=
  Text.startsWith Vocabulary.generatorAttribute.toList name.toList

end AttributeName

/-- The first part of a value that is neither text nor a mustache. -/
def AttributeValue.misplaced? (parts : List Statement) : Option Statement :=
  parts.find? fun part =>
    match part with
    | .text _ => false
    | .mustache _ => false
    | _ => true

def Attribute.toSpread (notes : Annotations) (name : String) :
    AttributeValue → Except CompileError Jsx.Attribute
  | .text _ => .error (.attributeValue name "TextNode")
  | .mustache m => do
    let term ← m.toTerm notes
    return .spread (.call (.name Vocabulary.generatorFunction) [term])
  | .concat parts => do
    let term ← Statement.sum notes parts
    return .spread (.call (.name Vocabulary.generatorFunction) [term])

/-- An attribute with its value. A style is an object unless it is one mustache without quotes. -/
def Attribute.toNamed (notes : Annotations) (name : String) (value : AttributeValue) :
    Except CompileError Jsx.Attribute :=
  let written := AttributeName.inElements name
  match value with
  | .mustache m => do
    let term ← m.toTerm notes
    return .term written term
  | .text chars =>
    if name = "style" then do
      let term ← Style.ofValue notes value
      return .term written term
    else .ok (.ofText written chars)
  | .concat parts =>
    if name = "style" then do
      let term ← Style.ofValue notes value
      return .term written term
    else
      match AttributeValue.misplaced? parts with
      | some part => .error (.attributeValue name part.kind)
      | none => do
        let term ← Statement.sum notes parts
        return .term written term

def Attribute.toJsx (notes : Annotations) :
    Attribute → Except CompileError (Option Jsx.Attribute)
  | .mk name value =>
    if AttributeName.isGenerator name then do
      let spread ← Attribute.toSpread notes name value
      return some spread
    else if AttributeName.isKept name then do
      let named ← Attribute.toNamed notes name value
      return some named
    else .ok none

def Attribute.toJsxAll (notes : Annotations) (attributes : List Attribute) :
    Except CompileError (List Jsx.Attribute) := do
  let converted ← attributes.mapM (Attribute.toJsx notes)
  return converted.filterMap id

end MustacheJsx
