/-!
# Names in generated code

Generated code uses a few names of its own. They are fixed, so a template can rely on them.

Models `ROOT_PARAM`, `CONTEXT_PROPERTY`, `EACH_ITEM`, `EACH_INDEX`, `FRAMEWORK_NAME`,
`FRAMEWORK_SOURCE`, `FRAGMENT_PROPERTY`, `ATTRIBUTE_GENERATOR_PLACEHOLDER`,
`ATTRIBUTE_GENERATOR_HELPER` and `LINK_COMPONENT`.
-/

namespace MustacheJsx.Vocabulary

def rootParam : String := "props"

/-- The property with the data of the template, and the attribute that hands data to a partial. -/
def context : String := "context"

def loopItem : String := "item"

def loopIndex : String := "i"

def key : String := "key"

def framework : String := "React"

def frameworkSource : String := "react"

/-- The element that groups others without a trace of its own. -/
def fragment : String := "React.Fragment"

/-- Attributes whose name begins so hold a call that generates attributes. -/
def generatorAttribute : String := "hbs-attribute-generator"

def generatorFunction : String := "generateAttributes"

def link : String := "Link"

end MustacheJsx.Vocabulary
