import MessageLang.Syntax.Print
/-!
# Dumps of trees

A tree as an S-expression of symbols, strings and numbers: `Node.form`. It is written on one line,
or with a line for each item of the forms that are too long.

* `Form.compact`: the form on one line.
* `Form.pretty`: forms of at most `maxLine` characters on one line, longer ones broken.
* `Node.noDump?`: why a tree has no dump, if it has none.
-/
namespace MessageLang

/-- The S-expression of a tree. -/
inductive Form where
  | symbol (name : String)
  | text (text : String)
  | value (value : Value)
  | items (items : List Form)
  /-- What has no form. -/
  | missing

namespace Form

mutual
/-- Whether nothing in a form is missing. -/
def isComplete : Form → Bool
  | .items fs => areComplete fs
  | .missing => false
  | _ => true

def areComplete : List Form → Bool
  | [] => true
  | f :: rest => f.isComplete && areComplete rest
end

/-- A character of a quoted string. -/
def textChar (c : Char) : List Char :=
  match c with
  | '\\' => ['\\', '\\']
  | '"' => ['\\', '"']
  | '\x08' => ['\\', 'b']
  | '\x0c' => ['\\', 'f']
  | '\n' => ['\\', 'n']
  | '\r' => ['\\', 'r']
  | '\t' => ['\\', 't']
  | c => [c]

/-- A string with quotes around it. -/
def quoteText (text : String) : String :=
  "\"" ++ String.ofList (text.toList.flatMap textChar) ++ "\""

/-- Whether a character has a backslash before it in a symbol. -/
def isSpecial (c : Char) : Bool :=
  ['\\', '\'', '\x60', '"', '(', ')', '[', ']', ' ', ',', '?', ';', '#'].contains c

/-- A symbol with its special characters escaped. -/
def symbolText (name : String) : String :=
  String.ofList (name.toList.flatMap fun c => if isSpecial c then ['\\', c] else [c])

/-! ## On one line -/

mutual
/-- A value in a form on one line. -/
def compactValue : Value → String
  | .none => "()"
  | .bool b => if b then "t" else "()"
  | .str t => quoteText t
  | .list vs | .tuple vs => "(" ++ " ".intercalate (compactValues vs) ++ ")"
  | .record entries => "(" ++ " ".intercalate (compactEntries entries) ++ ")"
  | v => v.display

def compactValues : List Value → List String
  | [] => []
  | v :: rest => compactValue v :: compactValues rest

/-- The entries of a record: the key of each, with a colon before it, then the value. -/
def compactEntries : List (String × Value) → List String
  | [] => []
  | (k, v) :: rest => symbolText (":" ++ k) :: compactValue v :: compactEntries rest
end

mutual
/-- Whether a value can be written in a form on one line: S-expressions and functions cannot. -/
def isCompactValue : Value → Bool
  | .list vs | .tuple vs => areCompactValues vs
  | .record entries => areCompactEntries entries
  | v => !v.isSexp && !v.isFunction

def areCompactValues : List Value → Bool
  | [] => true
  | v :: rest => isCompactValue v && areCompactValues rest

def areCompactEntries : List (String × Value) → Bool
  | [] => true
  | (_, v) :: rest => isCompactValue v && areCompactEntries rest
end

mutual
/-- The form on one line. -/
def compact : Form → String
  | .symbol name => symbolText name
  | .text t => quoteText t
  | .value v => compactValue v
  | .items fs => "(" ++ " ".intercalate (compactItems fs) ++ ")"
  | .missing => ""

def compactItems : List Form → List String
  | [] => []
  | f :: rest => f.compact :: compactItems rest
end

/-! ## Broken into lines -/

/-- Two blanks for each level. -/
def indentation (level : Int) : String := String.ofList (List.replicate (2 * level).toNat ' ')

/-- The parts of a form between parentheses: on one line if they fit and none is broken, otherwise
each on a line of its own. -/
def layOut (maxLine : Nat) (indent : Int) (parts : List String) : String :=
  let line := "(" ++ " ".intercalate parts ++ ")"
  if line.length ≤ maxLine && !line.toList.contains '\n' then line
  else "(" ++ ("\n" ++ indentation (indent + 1)).intercalate parts ++ "\n" ++
    indentation indent ++ ")"

mutual
/-- A value in a broken form. -/
def prettyValue (maxLine : Nat) (indent : Int) : Value → String
  | .none => "()"
  | .bool b => if b then "true" else "false"
  | .str t => quoteText t
  | .list [] => "()"
  | .list vs => layOut maxLine indent (prettyValues maxLine (indent + 1) vs)
  | v => v.display

def prettyValues (maxLine : Nat) (indent : Int) : List Value → List String
  | [] => []
  | v :: rest => prettyValue maxLine indent v :: prettyValues maxLine indent rest
end

mutual
/-- Whether a value can be written in a broken form: S-expression lists that hold something else
than S-expressions cannot. -/
def isPrettyValue : Value → Bool
  | .list vs => arePrettyValues vs
  | v => v.display?.isSome

def arePrettyValues : List Value → Bool
  | [] => true
  | v :: rest => isPrettyValue v && arePrettyValues rest
end

mutual
/-- The form with a line for each item of what is longer than `maxLine`. -/
def pretty (maxLine : Nat) (indent : Int) : Form → String
  | .symbol name => symbolText name
  | .text t => quoteText t
  | .value v => prettyValue maxLine indent v
  | .items [] => "()"
  | .items fs => layOut maxLine indent (prettyItems maxLine (indent + 1) fs)
  | .missing => ""

def prettyItems (maxLine : Nat) (indent : Int) : List Form → List String
  | [] => []
  | f :: rest => f.pretty maxLine indent :: prettyItems maxLine indent rest
end

mutual
/-- Whether `writable` accepts all values of a form. -/
def allValues (writable : Value → Bool) : Form → Bool
  | .value v => writable v
  | .items fs => allItemValues writable fs
  | _ => true

def allItemValues (writable : Value → Bool) : List Form → Bool
  | [] => true
  | f :: rest => f.allValues writable && allItemValues writable rest
end

/-- The length up to which a form stays on one line. -/
def defaultMaxLine : Nat := 100

end Form

/-! ## The form of a tree -/

/-- A node's form: its class, its parts, and its place if locations are shown and it has one. -/
def nodeForm (locations : Bool) (location : Option Location) (name : String) (parts : List Form) :
    Form :=
  let place := match locations, location with
    | true, some l =>
      [.symbol ":loc", .items [.text l.file, .value (.int l.line), .value (.int l.column)]]
    | _, _ => []
  .items (.symbol name :: parts ++ place)

variable (locations : Bool)

/-- A constant of no kind has no form. -/
def Constant.form (c : Constant) : Form :=
  match c.kind with
  | some k => nodeForm locations c.location "constant" [.symbol k.name, .value c.value]
  | none => .missing

/-- An argument's form: behind its label, if it has one. -/
def labelledForm (label : Label) (form : Form) : Form :=
  match label with
  | .positional => form
  | _ => .items [.symbol label.toText, form]

mutual
def TypeExpr.form : TypeExpr → Form
  | .named name ts l => nodeForm locations l "type" (.text name :: typeForms ts)
  | .tuple ts l => nodeForm locations l "tuple-type" (typeForms ts)
  | .other n => n.form

def typeForms : List TypeExpr → List Form
  | [] => []
  | t :: rest => t.form :: typeForms rest

def Pattern.form : Pattern → Form
  | .wildcard l => nodeForm locations l "wildcard-pattern" []
  | .var name l => nodeForm locations l "variable-pattern" [.text name]
  | .variant name none l => nodeForm locations l "constructor-pattern" [.text name]
  | .variant name (some p) l => nodeForm locations l "constructor-pattern" [.text name, p.form]
  | .tuple ps l => nodeForm locations l "tuple-pattern" (patternForms ps)
  | .list ps l => nodeForm locations l "list-pattern" (patternForms ps)
  | .cons head tail l => nodeForm locations l "cons-pattern" [head.form, tail.form]
  | .alternatives ps l => nodeForm locations l "or-pattern" (patternForms ps)
  | .aliased p name l => nodeForm locations l "alias-pattern" [p.form, .text name]
  | .other n => n.form

def patternForms : List Pattern → List Form
  | [] => []
  | p :: rest => p.form :: patternForms rest

def Expr.form : Expr → Form
  | .constant c => c.form locations
  | .identifier name l => nodeForm locations l "ident" [.text name]
  | .apply f args l => nodeForm locations l "apply" (f.form :: argumentForms args)
  | .constraint e t l => nodeForm locations l "constraint" [e.form, t.form]
  | .extension name none l => nodeForm locations l "extension" [.text name]
  | .extension name (some e) l => nodeForm locations l "extension" [.text name, e.form]
  | .tuple es l => nodeForm locations l "tuple" (exprForms es)
  | .list es l => nodeForm locations l "list" (exprForms es)
  | .unit l => nodeForm locations l "unit" []
  | .binary left op right l => nodeForm locations l op.symbol [left.form, right.form]
  | .cons head tail l => nodeForm locations l "cons" [head.form, tail.form]
  | .matching e arms l => nodeForm locations l "match" (e.form :: armForms arms)
  | .other n => n.form

def exprForms : List Expr → List Form
  | [] => []
  | e :: rest => e.form :: exprForms rest

def Argument.form : Argument → Form
  | .mk label e => labelledForm label e.form
  | .other _ => .missing

def argumentForms : List Argument → List Form
  | [] => []
  | a :: rest => a.form :: argumentForms rest

def Arm.form : Arm → Form
  | .mk p body l => nodeForm locations l "arm" [p.form, body.form]
  | .other n => n.form

def armForms : List Arm → List Form
  | [] => []
  | a :: rest => a.form :: armForms rest

def Statement.form : Statement → Form
  | .binding name e l => nodeForm locations l "let" [.text name, e.form]
  | .expression e l => nodeForm locations l "expr" [e.form]
  | .other n => n.form

def statementForms : List Statement → List Form
  | [] => []
  | s :: rest => s.form :: statementForms rest

/-- The form of a node. An argument by itself has no form of its own. -/
def Node.form : Node → Form
  | .program ⟨statements, l⟩ => nodeForm locations l "program" (statementForms statements)
  | .statement s => s.form
  | .expr e => e.form
  | .argument _ => .items [.symbol "Argument", .symbol "..."]
  | .arm a => a.form
  | .pattern p => p.form
  | .type t => t.form
  | .missing => .items [.symbol "nil"]
end

/-- The dump of a node, on one line or broken into lines. -/
def Node.dump (pretty : Bool) (n : Node) : String :=
  let form := n.form locations
  if pretty then form.pretty Form.defaultMaxLine 0 else form.compact

/-- Why a tree has no dump. -/
inductive NoDump where
  /-- A constant has no kind, or what is no argument stands in the place of one. -/
  | formless
  /-- A constant is an S-expression or a function, which cannot be written on one line. -/
  | unwritable
  /-- A constant is an S-expression list that holds something else than S-expressions. -/
  | improperSexp
deriving DecidableEq, Repr

/-- Why a node has no dump, on one line or broken into lines. -/
def Node.noDump? (pretty : Bool) (n : Node) : Option NoDump :=
  let form := n.form false
  if !form.isComplete then some .formless
  else if pretty then if form.allValues Form.isPrettyValue then none else some .improperSexp
  else if form.allValues Form.isCompactValue then none else some .unwritable

end MessageLang
