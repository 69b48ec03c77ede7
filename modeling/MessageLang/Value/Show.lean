import MessageLang.Text.Quoted
import MessageLang.Value.Basic
/-!
# Values as shown in messages

* `Value.typeName`: the name of a value's type.
* `Value.show`: a value as an error message shows it.
* `Value.display?`: a value as plain text, which is how the command line prints it.

Integers are written in decimal without a limit on their digits, and all functions as `<function>`.
-/
namespace MessageLang.Value

/-- The name of a value's type. -/
def typeName : Value → String
  | .none => "NoneType"
  | .bool _ => "bool"
  | .int _ => "int"
  | .float _ => "float"
  | .str _ => "str"
  | .list _ => "list"
  | .tuple _ => "tuple"
  | .atom _ => "Atom"
  | .sexpList _ => "SexpList"
  | .record _ => "dict"
  | .builtin _ | .converter _ _ => "function"

/-- The name of a value's type where a value of another type was expected: the empty option and the
unit go by their own names. -/
def foundName : Value → String
  | .none => "None"
  | .tuple [] => "unit"
  | v => v.typeName

/-- A tuple of parts that are texts already: a single part is followed by a comma. -/
def tupleText : List String → String
  | [part] => "(" ++ part ++ ",)"
  | parts => "(" ++ ", ".intercalate parts ++ ")"

mutual
/-- A value as an error message shows it. -/
def «show» : Value → String
  | .none => "None"
  | .bool b => if b then "True" else "False"
  | .int n => decimalInt n
  | .float x => x.toText
  | .str text => Text.quoted text
  | .list items => "[" ++ ", ".intercalate (showAll items) ++ "]"
  | .tuple items => tupleText (showAll items)
  | .atom text => "Atom(value=" ++ Text.quoted text ++ ")"
  | .sexpList items => "SexpList(items=" ++ tupleText (showAll items) ++ ")"
  | .record entries => "\x7b" ++ ", ".intercalate (showEntries entries) ++ "\x7d"
  | .builtin _ | .converter _ _ => "<function>"

def showAll : List Value → List String
  | [] => []
  | v :: rest => v.show :: showAll rest

def showEntries : List (String × Value) → List String
  | [] => []
  | (k, v) :: rest => (Text.quoted k ++ ": " ++ v.show) :: showEntries rest
end

/-- A value as plain text: a string as it is, an S-expression in its machine form, anything else as
messages show it. An S-expression list that holds something else than S-expressions has none. -/
def display? (v : Value) : Option String :=
  match v with
  | .str text => some text
  | .atom _ | .sexpList _ => v.toSexp?.map Sexp.toText
  | v => some v.show

/-- A value as plain text, if need be as messages show it. -/
def display (v : Value) : String := v.display?.getD v.show

/-- The single characters that a collection consists of, if it consists of such: those of a string,
or the items of a list or tuple or the keys of a record that are strings of one character. -/
def chars? : Value → Option (List Char)
  | .str text => some text.toList
  | .list items | .tuple items => items.mapM single
  | .record entries => entries.mapM fun (key, _) => single (.str key)
  | _ => Option.none
where
  /-- The character of a string of one. -/
  single : Value → Option Char
    | .str text => match text.toList with
      | [c] => some c
      | _ => Option.none
    | _ => Option.none

end MessageLang.Value
