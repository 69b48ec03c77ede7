import MessageLang.Syntax.Basic
import MessageLang.Text.Escape
import MessageLang.Value.Show
/-!
# Printing trees

The text of a tree, with parentheses only where the place calls for them. Every node has a level;
one that stands where a higher level is called for gets parentheses.

* `Expr.print level e`, `Pattern.print level p`, `TypeExpr.print level t`: the text of a node in a
  place of the given level.
* `Node.text`: the text of any node, or why it has none. A type that holds a constant has none, and
  neither has a constant whose value does not go with its kind.

A part of another sort in the place of an expression, a pattern or a type may have no text of its
own there; `None` is written for it, except in an enumeration, which then has no text either.
-/
namespace MessageLang

/-- A text in parentheses if they are needed. -/
def parenthesized (needed : Bool) (text : String) : String :=
  if needed then "(" ++ text ++ ")" else text

/-- What is written for a part that has no text where it stands. -/
def unwritten : String := "None"

/-- Why a tree has no text. -/
inductive NoText where
  /-- A constant stands in a type. -/
  | constantInType
  /-- A constant's value does not go with its kind. -/
  | mismatchedConstant
  /-- A constant has neither a kind nor a spelling. -/
  | kindlessConstant
  /-- A float constant is an integer beyond the largest double. -/
  | beyondDoubles
  /-- A constant is an S-expression list that holds something else than S-expressions. -/
  | improperSexp
  /-- A part without a text of its own stands in an enumeration. -/
  | misplaced
  /-- A place is empty, or an argument stands without its application, or what is none in the place
  of one. -/
  | missing
deriving DecidableEq, Repr

/-! ## Constants -/

namespace Constant

/-- Why a constant has no text, if it has none. -/
def noText? (c : Constant) : Option NoText :=
  match c.kind, c.spelling with
  | some .string, _ | some .char, _ =>
    if c.value.chars?.isSome then none else some .mismatchedConstant
  | _, some _ => none
  | some .float, none =>
    match c.value with
    | .float _ | .bool _ => none
    | .int n => if (Double.ofInt? n).isSome then none else some .beyondDoubles
    | _ => some .mismatchedConstant
  | some (.integer _), none => if c.value.display?.isSome then none else some .improperSexp
  | none, none => some (if c.value.display?.isSome then .kindlessConstant else .improperSexp)

/-- A float as a literal: it always has a point or an exponent. -/
def floatText : Value → String
  | .float .nan => "nan"
  | .float (.infinite false) => "infinity"
  | .float (.infinite true) => "neg_infinity"
  | v =>
    let text := v.display
    if text.toList.any fun c => c == '.' || c == 'e' then text else text ++ "."

/-- The text of a number: as it was spelled, or else written anew. -/
def numberText (c : Constant) : String :=
  match c.spelling, c.kind with
  | some text, _ => text
  | none, some .float => floatText c.value
  | none, some (.integer k) => c.value.display ++ k.suffix
  | none, _ => c.value.display

/-- The characters of a constant's value. -/
def chars (c : Constant) : String :=
  match c.value with
  | .str text => text
  | v => String.ofList (v.chars?.getD [])

/-- The text of a constant; a negative number needs parentheses as an argument. -/
def print (isArgument : Bool) (c : Constant) : String :=
  match c.kind with
  | some .string => "\"" ++ Text.Escape.encode '"' c.chars ++ "\""
  | some .char => "'" ++ Text.Escape.encode '\'' c.chars ++ "'"
  | _ =>
    let text := c.numberText
    parenthesized (isArgument && text.toList.head? == some '-') text

end Constant

/-! ## Types -/

/-- A part of another sort in the place of a type: only names have a text there. -/
def Node.typeText : Node → String
  | .expr (.identifier name _) => name
  | _ => unwritten

mutual
/-- The text of a type; below level 1 a tuple needs no parentheses. -/
def TypeExpr.print (level : Nat) : TypeExpr → String
  | .named name [] _ => name
  | .named name [t] _ => t.print 1 ++ " " ++ name
  | .named name ts _ => "(" ++ ", ".intercalate (printTypes 0 ts) ++ ") " ++ name
  | .tuple ts _ => parenthesized (0 < level) (" * ".intercalate (printTypes 1 ts))
  | .other n => n.typeText

def printTypes (level : Nat) : List TypeExpr → List String
  | [] => []
  | t :: rest => t.print level :: printTypes level rest
end

/-! ## Patterns -/

namespace Pattern

/-- The levels of patterns, loosest first. -/
def aliasLevel : Nat := 0
def alternativesLevel : Nat := 1
def consLevel : Nat := 2
def variantLevel : Nat := 3
def atomLevel : Nat := 4

end Pattern

/-- A part of another sort in the place of a pattern: constants and names have a text there. -/
def Node.patternText : Node → String
  | .expr (.constant c) => c.print false
  | .expr (.identifier name _) => name
  | _ => unwritten

mutual
/-- The text of a pattern in a place of the given level. -/
def Pattern.print (level : Nat) : Pattern → String
  | .wildcard _ => "_"
  | .var name _ => name
  | .variant name none _ => name
  | .variant name (some p) _ =>
    parenthesized (Pattern.variantLevel < level) (name ++ " " ++ p.print Pattern.atomLevel)
  | .tuple ps _ => "(" ++ ", ".intercalate (printPatterns Pattern.alternativesLevel ps) ++ ")"
  | .list ps _ => "[" ++ "; ".intercalate (printPatterns Pattern.alternativesLevel ps) ++ "]"
  | .cons head tail _ =>
    parenthesized (Pattern.consLevel < level)
      (head.print (Pattern.consLevel + 1) ++ " :: " ++ tail.print Pattern.consLevel)
  | .alternatives ps _ =>
    parenthesized (Pattern.alternativesLevel < level)
      (" | ".intercalate (printPatterns (Pattern.alternativesLevel + 1) ps))
  | .aliased p name _ =>
    parenthesized (Pattern.aliasLevel < level) (p.print Pattern.consLevel ++ " as " ++ name)
  | .other n => n.patternText

def printPatterns (level : Nat) : List Pattern → List String
  | [] => []
  | p :: rest => p.print level :: printPatterns level rest
end

/-! ## Expressions, statements and programs -/

namespace Expr

/-- The levels of expressions, loosest first; an operator of level `n` has the level `10 * n`. -/
def topLevel : Nat := 0
def elementLevel : Nat := 1
def consLevel : Nat := 15
def applyLevel : Nat := 50
def atomLevel : Nat := 60

end Expr

def Operator.printLevel (op : Operator) : Nat := 10 * op.level

/-- The level called for on the left of an operator: its own if it associates to the left. -/
def Operator.leftLevel (op : Operator) : Nat :=
  if op.isRightAssociative then op.printLevel + 1 else op.printLevel

/-- The level called for on the right of an operator: its own if it associates to the right. -/
def Operator.rightLevel (op : Operator) : Nat :=
  if op.isRightAssociative then op.printLevel else op.printLevel + 1

/-- An argument: its label, and its text unless it is the name that the label repeats. -/
def labelledText (label : Label) (expr : Expr) (text : String) : String :=
  match label with
  | .positional => text
  | .labelled name | .optional name =>
    match expr with
    | .identifier x _ => if x == name then label.toText else label.toText ++ ":" ++ text
    | _ => label.toText ++ ":" ++ text

mutual
/-- The text of an expression in a place of the given level. -/
def Expr.print (level : Nat) : Expr → String
  | .constant c => c.print (Expr.applyLevel < level)
  | .identifier name _ => name
  | .apply f args _ =>
    parenthesized (Expr.applyLevel < level)
      (" ".intercalate (f.print Expr.applyLevel :: printArguments args))
  | .constraint e t _ => "(" ++ e.print Expr.elementLevel ++ " : " ++ t.print 0 ++ ")"
  | .extension name none _ => "[%" ++ name ++ "]"
  | .extension name (some e) _ => "[%" ++ name ++ " " ++ e.print Expr.elementLevel ++ "]"
  | .tuple es _ => "(" ++ ", ".intercalate (printExprs es) ++ ")"
  | .list es _ => "[" ++ "; ".intercalate (printExprs es) ++ "]"
  | .unit _ => "()"
  | .binary left op right _ =>
    parenthesized (op.printLevel < level)
      (left.print op.leftLevel ++ " " ++ op.symbol ++ " " ++ right.print op.rightLevel)
  | .cons head tail _ =>
    parenthesized (Expr.consLevel < level)
      (head.print (Expr.consLevel + 1) ++ " :: " ++ tail.print Expr.consLevel)
  | .matching e arms _ =>
    parenthesized (Expr.topLevel < level)
      ("match " ++ e.print Expr.elementLevel ++ " with " ++ " | ".intercalate (printArms arms))
  | .other n => n.print level

/-- The texts of the elements of a tuple or list. -/
def printExprs : List Expr → List String
  | [] => []
  | e :: rest => e.print Expr.elementLevel :: printExprs rest

/-- The text of an argument. -/
def Argument.toText : Argument → String
  | .mk label e => labelledText label e (e.print Expr.atomLevel)
  | .other _ => unwritten

/-- The texts of arguments. -/
def printArguments : List Argument → List String
  | [] => []
  | a :: rest => a.toText :: printArguments rest

/-- The text of an arm. -/
def Arm.toText : Arm → String
  | .mk p body _ => p.print Pattern.aliasLevel ++ " -> " ++ body.print Expr.elementLevel
  | .other n => n.print Expr.topLevel

/-- The texts of the arms of a match. -/
def printArms : List Arm → List String
  | [] => []
  | a :: rest => a.toText :: printArms rest

/-- The text of a statement. -/
def Statement.toText : Statement → String
  | .binding name e _ => "let " ++ name ++ " = " ++ e.print Expr.topLevel ++ ";"
  | .expression e _ => e.print Expr.topLevel ++ ";"
  | .other n => n.print Expr.topLevel

/-- The lines of a program. -/
def printStatements : List Statement → List String
  | [] => []
  | s :: rest => s.toText :: printStatements rest

/-- The text of a part in the place of an expression. -/
def Node.print (level : Nat) : Node → String
  | .program ⟨statements, _⟩ => "\n".intercalate (printStatements statements)
  | .statement s => s.toText
  | .expr e => e.print level
  | .arm a => a.toText
  | .argument _ | .pattern _ | .type _ | .missing => unwritten
end

/-- The text of an expression on its own. -/
def Expr.toText (e : Expr) : String := e.print Expr.topLevel

/-- The text of a pattern on its own. -/
def Pattern.toText (p : Pattern) : String := p.print Pattern.aliasLevel

/-- The text of a type on its own. -/
def TypeExpr.toText (t : TypeExpr) : String := t.print 0

/-- The text of a program: a line for each statement. -/
def Program.toText (p : Program) : String := "\n".intercalate (printStatements p.statements)

/-- The text of a node, as if nothing stood in its way. -/
def Node.toText : Node → String
  | .pattern p => p.toText
  | .type t => t.toText
  | n => n.print Expr.topLevel

/-! ## Trees without a text -/

/-- The sort of part whose text is asked for. -/
inductive Role where
  | expression
  | pattern
  | type
deriving DecidableEq, Repr

namespace Role

/-- What the types in a part are printed as: in a pattern or type they are not printed at all. -/
def ofTypes : Role → Role
  | expression => type
  | role => role

/-- What the patterns in a part are printed as. -/
def ofPatterns : Role → Role
  | expression => pattern
  | role => role

/-- Whether an item of a list is passed over: an empty place where the list has no text anyway. -/
def skips (role : Role) : Node → Bool
  | .missing => role != .expression
  | _ => false

end Role

/-- Whether a part has a text of its own in a role. -/
def Node.hasText (role : Role) : Node → Bool
  | .pattern _ => role == .pattern
  | .type _ => role == .type
  | .expr (.identifier _ _) => true
  | .expr (.constant _) => role != .type
  | _ => role == .expression

def Expr.hasText (e : Expr) : Bool := e.toNode.hasText .expression

/-- Whether an argument can stand in the enumeration of arguments: behind a label all can. -/
def Argument.hasText : Argument → Bool
  | .mk .positional e => e.hasText
  | _ => true

def Arm.hasText : Arm → Bool
  | .mk _ _ _ => true
  | .other n => n.hasText .expression

def Statement.hasText : Statement → Bool
  | .other n => n.hasText .expression
  | _ => true

/-- The fault of an enumeration, unless all its items have texts of their own. -/
def enumerated (complete : Bool) : Option NoText := if complete then none else some .misplaced

mutual
/-- Why a type has no text, if it has none; in another role it is passed over. -/
def TypeExpr.noText? (role : Role) : TypeExpr → Option NoText
  | .named _ [t] _ => if role == .type then t.noText? role else none
  | .named _ ts _ | .tuple ts _ =>
    if role == .type then
      typesNoText? role ts <|> enumerated (ts.all fun t => t.toNode.hasText .type)
    else none
  | .other n => n.noText? role

def typesNoText? (role : Role) : List TypeExpr → Option NoText
  | [] => none
  | t :: rest => t.noText? role <|> typesNoText? role rest

/-- Why a pattern has no text, if it has none; in another role it is passed over. -/
def Pattern.noText? (role : Role) : Pattern → Option NoText
  | .wildcard _ | .var _ _ | .variant _ none _ => none
  | .variant _ (some p) _ | .aliased p _ _ => if role == .pattern then p.noText? role else none
  | .tuple ps _ | .list ps _ | .alternatives ps _ =>
    if role == .pattern then
      patternsNoText? role ps <|> enumerated (ps.all fun p => p.toNode.hasText .pattern)
    else none
  | .cons head tail _ =>
    if role == .pattern then head.noText? role <|> tail.noText? role else none
  | .other n => n.noText? role

def patternsNoText? (role : Role) : List Pattern → Option NoText
  | [] => none
  | p :: rest => p.noText? role <|> patternsNoText? role rest

/-- Why an expression has no text, if it has none: the first fault met in printing it. The arms of a
match are printed before what it looks at. In another role an expression has no text anyway, but the
faults in it are met all the same. -/
def Expr.noText? (role : Role) : Expr → Option NoText
  | .constant c => if role == .type then some .constantInType else c.noText?
  | .identifier _ _ | .unit _ | .extension _ none _ => none
  | .apply f args _ =>
    f.noText? role <|>
      (if role == .expression || args.all (·.expr?.isSome) then none else some .missing) <|>
      argumentsNoText? role args <|>
      enumerated (role != .expression || (f.hasText && args.all Argument.hasText))
  | .constraint e t _ => e.noText? role <|> t.noText? role.ofTypes
  | .extension _ (some e) _ => e.noText? role
  | .tuple es _ | .list es _ =>
    exprsNoText? role es <|> enumerated (role != .expression || es.all Expr.hasText)
  | .binary left _ right _ => left.noText? role <|> right.noText? role
  | .cons head tail _ => head.noText? role <|> tail.noText? role
  | .matching e arms _ =>
    if role == .expression then
      armsNoText? role arms <|> enumerated (arms.all Arm.hasText) <|> e.noText? role
    else e.noText? role <|> armsNoText? role arms
  | .other n => n.noText? role

def exprsNoText? (role : Role) : List Expr → Option NoText
  | [] => none
  | e :: rest =>
    (if role.skips e.toNode then none else e.noText? role) <|> exprsNoText? role rest

/-- Why an argument has no text, if it has none. In another role it is enough that there is an
expression to pass over. -/
def Argument.noText? (role : Role) : Argument → Option NoText
  | .mk _ e => if role.skips e.toNode then none else e.noText? role
  | .other (.statement (.expression e _)) | .other (.expr (.constraint e _ _)) =>
    if role == .expression then some .missing
    else if role.skips e.toNode then none else e.noText? role
  | .other _ => some .missing

def argumentsNoText? (role : Role) : List Argument → Option NoText
  | [] => none
  | a :: rest => a.noText? role <|> argumentsNoText? role rest

def Arm.noText? (role : Role) : Arm → Option NoText
  | .mk p body _ => p.noText? role.ofPatterns <|> body.noText? role
  | .other n => n.noText? role

def armsNoText? (role : Role) : List Arm → Option NoText
  | [] => none
  | a :: rest =>
    (if role.skips a.toNode then none else a.noText? role) <|> armsNoText? role rest

def Statement.noText? (role : Role) : Statement → Option NoText
  | .binding _ e _ | .expression e _ => e.noText? role
  | .other n => n.noText? role

def statementsNoText? (role : Role) : List Statement → Option NoText
  | [] => none
  | s :: rest =>
    (if role.skips s.toNode then none else s.noText? role) <|> statementsNoText? role rest

/-- Why a part has no text in a role, if it has none. -/
def Node.noText? (role : Role) : Node → Option NoText
  | .program ⟨statements, _⟩ =>
    statementsNoText? role statements <|>
      enumerated (role != .expression || statements.all Statement.hasText)
  | .statement s => s.noText? role
  | .expr e => e.noText? role
  | .argument _ | .missing => some .missing
  | .arm a => a.noText? role
  | .pattern p => p.noText? role
  | .type t => t.noText? role
end

/-- The role in which a part is printed by itself. -/
def Node.role : Node → Role
  | .pattern _ => .pattern
  | .type _ => .type
  | _ => .expression

/-- The text of a node, or why it has none. -/
def Node.text (n : Node) : Except NoText String :=
  match n.noText? n.role with
  | some why => .error why
  | none => .ok n.toText

end MessageLang
