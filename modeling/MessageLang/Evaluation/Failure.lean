import MessageLang.Diagnostic.Basic
import MessageLang.Syntax.Basic
import MessageLang.Value.Call
/-!
# Failures of evaluation

A failure is either reported, with a cause and a place, or it is a defect that no diagnostic
describes.
-/
namespace MessageLang

/-- Why an evaluation cannot go on. -/
inductive RuntimeError where
  | unbound (name : String)
  | labelledArgument (label : Label)
  | notApplicable (typeName : String)
  | refused (fault : ConversionFault)
  | notStrings
  | notInts (op : Operator)
  | notAListTail
  | noMatch (value : Value)
  | unknownConstructor (name : String)
  | unexpanded (name : String)
  | notCompiled

namespace RuntimeError

def message : RuntimeError → String
  | unbound name => "unbound value " ++ name
  | labelledArgument label => "labelled argument " ++ label.toText ++ " is not accepted here"
  | notApplicable typeName =>
    "this expression has a value of type " ++ typeName ++ ", it cannot be applied"
  | refused fault => fault.message
  | notStrings => "operator ^ expects two strings"
  | notInts op => "operator " ++ op.symbol ++ " expects two ints"
  | notAListTail => "the tail of :: must be a list"
  | noMatch value => "match failure on " ++ value.show
  | unknownConstructor name => "unknown constructor " ++ name
  | unexpanded name => "uninterpreted extension [%" ++ name ++ "] reached evaluation"
  | notCompiled => "Compilation failed"

def code : RuntimeError → ErrorCode
  | unbound _ => .unbound
  | noMatch _ | unknownConstructor _ => .noMatch
  | unexpanded _ => .unexpanded
  | _ => .conversion

def diagnostic (e : RuntimeError) (location : Option Location) : Diagnostic :=
  .plain e.code e.message location

end RuntimeError

inductive Failure where
  | reported (error : RuntimeError) (location : Option Location)
  | defect (defect : Defect)

/-- A failed call as a failure of the application at a place. -/
def CallFault.failure (location : Option Location) : CallFault → Failure
  | refused fault => .reported (.refused fault) location
  | defect d => .defect d

end MessageLang
