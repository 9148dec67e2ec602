import Stylesheet.Query.Token

namespace Stylesheet.Query

inductive Fault
  | unexpectedInput (rest : String)
  | badNumber (digits : String)
  | empty
  | unexpected (found : Token)
  | expected (missing : Symbol)
  | attributeStep
  | unsupportedAxis (name : String)
  | unsupportedTest (name : String)
  | expectedTest (found : Option Token)
  | expectedAttributeName
  | expectedLiteral
  deriving DecidableEq

def Fault.message : Fault → String
  | unexpectedInput rest => s!"unexpected input at `{rest}`"
  | badNumber digits => s!"bad number `{digits}`"
  | empty => "empty expression"
  | unexpected t => s!"unexpected {t.label}"
  | expected s => s!"expected {s.label}"
  | attributeStep => "attribute nodes can only be tested inside predicates"
  | unsupportedAxis name => s!"unsupported axis `{name}`"
  | unsupportedTest name => s!"unsupported node test `{name}()`"
  | expectedTest (some t) => s!"expected a node test, found {t.label}"
  | expectedTest none => "expected a node test"
  | expectedAttributeName => "expected an attribute name after `@`"
  | expectedLiteral => "expected a literal after comparison"

end Stylesheet.Query
