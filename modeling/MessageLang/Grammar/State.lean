import MessageLang.Grammar.Terminal
import MessageLang.Syntax.Literal
/-!
# Reading tokens one at a time

A `State` is what the tokens read so far have left: the complete statements, the constructs that
are still open, innermost first, and what may come next. `State.shift` reads one more token; it
fails exactly where no program continues with that token.

An operator waits for its right operand as an open construct. `settle level` closes the operators
that bind at least as tightly as `level`, so the operators that stay open always bind looser than
the one that is read next.

* `State.accepts`: the terminals that are looked for next. Among them may be some that `shift`
  refuses, since the bracket that is open is not looked at.
* `State.shift`: the state after one more token.
* `State.end?`: the program, if the tokens form one.
-/
namespace MessageLang

/-- A part of a tree with the region it takes up, brackets around it included. -/
structure Spanned (α : Type) where
  node : α
  first : Position
  last : Position

/-- A construct that is open: what its tokens so far have given. -/
inductive Frame where
  /-- An expression statement. -/
  | statement
  /-- `let name =` -/
  | binding (start : Position) (name : String)
  /-- `left op` -/
  | binary (left : Spanned Expr) (operator : Operator)
  /-- `function arg … arg ~label:`; arguments are kept last first. -/
  | argument (function : Spanned Expr) (arguments : List Argument) (label : Label)
  /-- `(` -/
  | paren (start : Position)
  /-- `( e , … , e ,`; elements are kept last first. -/
  | tuple (start : Position) (elements : List Expr)
  /-- `[ e ; … ; e ;`; elements are kept last first. -/
  | list (start : Position) (elements : List Expr)
  /-- `[% name` -/
  | extension (start : Position) (name : String)
  /-- `( e :` -/
  | constraint (start : Position) (expr : Expr)
  /-- `(` in a type -/
  | typeParen (start : Position)
  /-- `t * … * t *`; elements are kept last first. -/
  | typeTuple (start : Position) (elements : List TypeExpr)

/-- What may come next. -/
inductive Mode where
  /-- A statement, or the end. -/
  | statement
  /-- The name that `let` binds. -/
  | bindingName (start : Position)
  /-- `=` -/
  | bindingEquals (start : Position) (name : String)
  /-- An expression, or the end of a bracket that may be empty here. -/
  | expression
  /-- An expression without operators and arguments. -/
  | simple
  /-- The number behind a sign. -/
  | signed (start : Position) (negative : Bool)
  /-- What follows an application: more arguments (so far, last first), an operator, or the end of
  what is open. -/
  | applied (function : Spanned Expr) (arguments : List Argument) (last : Position)
  /-- What follows a signed number: an operator, or the end of what is open. -/
  | number (expr : Spanned Expr)
  /-- The name behind `[%`. -/
  | extensionName (start : Position)
  /-- A type. -/
  | type
  /-- What follows a type: a constructor applied to it, `*`, or the end of what is open. -/
  | typed (type : Spanned TypeExpr)

/-- A literal that cannot be, and its place. -/
structure BadLiteral where
  error : LiteralError
  location : Location

structure State where
  /-- The complete statements, last first. -/
  statements : List Statement
  frames : List Frame
  mode : Mode
  /-- The first bad literal. -/
  fault : Option BadLiteral

namespace State

def initial : State := ⟨[], [], .statement, none⟩

/-! ## Closing operators -/

/-- `left op right`, the region reaching over both operands. -/
def joined (file : String) (left : Spanned Expr) (operator : Operator) (right : Spanned Expr) :
    Spanned Expr :=
  ⟨.binary left.node operator right.node (some (.between file left.first right.last)),
    left.first, right.last⟩

/-- Closes the innermost open operators that bind at least as tightly as `level`. -/
def settle (file : String) (level : Nat) : Spanned Expr → List Frame → Spanned Expr × List Frame
  | e, .binary left op :: frames =>
    if level ≤ op.level then settle file level (joined file left op e) frames
    else (e, .binary left op :: frames)
  | e, frames => (e, frames)

/-- The level from which operators are closed when one more operator is read: its own level for one
that associates to the left, the next for one that associates to the right. -/
def closingLevel (op : Operator) : Nat :=
  if op.isRightAssociative then op.level + 1 else op.level

/-- The application of a function to the arguments read so far. -/
def application (file : String) (function : Spanned Expr) (arguments : List Argument)
    (last : Position) : Spanned Expr :=
  match arguments with
  | [] => function
  | _ => ⟨.apply function.node arguments.reverse (some (.between file function.first last)),
      function.first, last⟩

/-! ## Moves -/

/-- A simple expression is complete: it is the next argument of an open application, or the start
of a new one. -/
def complete (st : State) (e : Spanned Expr) (frames : List Frame) : State :=
  match frames with
  | .argument function arguments label :: rest =>
    { st with frames := rest, mode := .applied function (.mk label e.node :: arguments) e.last }
  | _ => { st with frames := frames, mode := .applied e [] e.last }

/-- Remembers a bad literal, unless there was one before. -/
def blame (st : State) (error : LiteralError) (location : Location) : State :=
  { st with fault := st.fault <|> some ⟨error, location⟩ }

/-- A constant, or what stands for it where its literal is bad. -/
def decoded (st : State) (location : Location) (c : Except LiteralError Constant) :
    State × Expr :=
  match c with
  | .ok c => (st, .constant c)
  | .error e => (st.blame e location, .unit (some location))

/-- The token is a constant that is a simple expression. -/
def constant (file : String) (st : State) (t : Token) (frames : List Frame)
    (decode : Option Location → Except LiteralError Constant) : State :=
  let location := Location.between file t.first t.last
  let (st, e) := st.decoded location (decode (some location))
  st.complete ⟨e, t.first, t.last⟩ frames

/-- The token is the first one of a simple expression. -/
def startSimple (file : String) (st : State) (t : Token) (frames : List Frame) : Option State :=
  match t.terminal with
  | .integer => some (constant file st t frames (Literal.integer false t.text))
  | .float => some (constant file st t frames fun l => .ok (Literal.float false t.text l))
  | .char => some (constant file st t frames (Literal.quoted .char t.text))
  | .string => some (constant file st t frames (Literal.quoted .string t.text))
  | .longName =>
    let e := Expr.identifier (String.ofList t.text) (some (.between file t.first t.last))
    some (st.complete ⟨e, t.first, t.last⟩ frames)
  | .openParen => some { st with frames := .paren t.first :: frames, mode := .expression }
  | .openBracket => some { st with frames := .list t.first [] :: frames, mode := .expression }
  | .openExtension => some { st with frames := frames, mode := .extensionName t.first }
  | _ => none

/-- The bracket that the token closes holds nothing, or nothing more. -/
def closeEmpty (file : String) (st : State) (t : Token) : Option State :=
  match t.terminal, st.frames with
  | .closeParen, .paren start :: frames =>
    some (st.complete ⟨.unit (some (.between file start t.last)), start, t.last⟩ frames)
  | .closeBracket, .list start elements :: frames =>
    let e := Expr.list elements.reverse (some (.between file start t.last))
    some (st.complete ⟨e, start, t.last⟩ frames)
  | .closeBracket, .extension start name :: frames =>
    let e := Expr.extension name none (some (.between file start t.last))
    some (st.complete ⟨e, start, t.last⟩ frames)
  | _, _ => none

/-- The token is the first one of an expression. -/
def startExpression (file : String) (st : State) (t : Token) (frames : List Frame) :
    Option State :=
  match t.terminal with
  | .sign => some { st with frames := frames, mode := .signed t.first (t.text == ['-']) }
  | _ => startSimple file st t frames

/-- The operator that a token stands for. -/
def operator? (t : Token) : Option Operator :=
  match t.terminal with
  | .caret => some .concat
  | .sign => some (if t.text == ['-'] then .sub else .add)
  | .star => some .mul
  | _ => none

/-- The token follows an expression that is complete but for open operators. -/
def endExpression (file : String) (st : State) (t : Token) (e : Spanned Expr) : Option State :=
  match operator? t with
  | some op =>
    let (e, frames) := settle file (closingLevel op) e st.frames
    some { st with frames := .binary e op :: frames, mode := .expression }
  | none =>
    let (e, frames) := settle file 1 e st.frames
    match t.terminal, frames with
    | .semicolon, .statement :: rest =>
      let s := Statement.expression e.node (some (.between file e.first t.last))
      some { st with statements := s :: st.statements, frames := rest, mode := .statement }
    | .semicolon, .binding start name :: rest =>
      let s := Statement.binding name e.node (some (.between file start t.last))
      some { st with statements := s :: st.statements, frames := rest, mode := .statement }
    | .semicolon, .list start elements :: rest =>
      some { st with frames := .list start (e.node :: elements) :: rest, mode := .expression }
    | .comma, .paren start :: rest =>
      some { st with frames := .tuple start [e.node] :: rest, mode := .expression }
    | .comma, .tuple start elements :: rest =>
      some { st with frames := .tuple start (e.node :: elements) :: rest, mode := .expression }
    | .colon, .paren start :: rest =>
      some { st with frames := .constraint start e.node :: rest, mode := .type }
    | .closeParen, .paren start :: rest =>
      some (st.complete ⟨e.node, start, t.last⟩ rest)
    | .closeParen, .tuple start elements :: rest =>
      let tuple := Expr.tuple (e.node :: elements).reverse (some (.between file start t.last))
      some (st.complete ⟨tuple, start, t.last⟩ rest)
    | .closeBracket, .list start elements :: rest =>
      let list := Expr.list (e.node :: elements).reverse (some (.between file start t.last))
      some (st.complete ⟨list, start, t.last⟩ rest)
    | .closeBracket, .extension start name :: rest =>
      let extension :=
        Expr.extension name (some e.node) (some (.between file start t.last))
      some (st.complete ⟨extension, start, t.last⟩ rest)
    | _, _ => none

/-- The name of an argument whose token is a mark and the name, and a colon if `colon`. -/
def labelName (colon : Bool) (t : Token) : String :=
  String.ofList (if colon then (t.text.drop 1).dropLast else t.text.drop 1)

/-- The token follows a simple expression or an argument. -/
def continueApplication (file : String) (st : State) (t : Token) (function : Spanned Expr)
    (arguments : List Argument) (last : Position) : Option State :=
  let waiting (label : Label) : State :=
    { st with frames := .argument function arguments label :: st.frames, mode := .simple }
  let named (label : Label) : State :=
    let e := Expr.identifier (labelName false t) (some (.between file t.first t.last))
    { st with mode := .applied function (.mk label e :: arguments) t.last }
  match t.terminal with
  | .label => some (waiting (.labelled (labelName true t)))
  | .optionalLabel => some (waiting (.optional (labelName true t)))
  | .labelledName => some (named (.labelled (labelName false t)))
  | .optionalName => some (named (.optional (labelName false t)))
  | _ =>
    match startSimple file st t (.argument function arguments .positional :: st.frames) with
    | some st => some st
    | none => endExpression file st t (application file function arguments last)

/-- The elements of an open tuple type, if there is one, joined with the last one. -/
def closeTypeTuple (file : String) (t : Spanned TypeExpr) (frames : List Frame) :
    Spanned TypeExpr × List Frame :=
  match frames with
  | .typeTuple start elements :: rest =>
    (⟨.tuple (t.node :: elements).reverse (some (.between file start t.last)), start, t.last⟩, rest)
  | _ => (t, frames)

/-- The token follows a type. -/
def continueType (file : String) (st : State) (t : Token) (type : Spanned TypeExpr) :
    Option State :=
  match t.terminal with
  | .longName =>
    let applied := TypeExpr.named (String.ofList t.text) [type.node]
      (some (.between file type.first t.last))
    some { st with mode := .typed ⟨applied, type.first, t.last⟩ }
  | .star =>
    match st.frames with
    | .typeTuple start elements :: rest =>
      some { st with frames := .typeTuple start (type.node :: elements) :: rest, mode := .type }
    | frames => some { st with frames := .typeTuple type.first [type.node] :: frames, mode := .type }
  | .closeParen =>
    let (type, frames) := closeTypeTuple file type st.frames
    match frames with
    | .typeParen start :: rest =>
      some { st with frames := rest, mode := .typed ⟨type.node, start, t.last⟩ }
    | .constraint start e :: rest =>
      let constraint := Expr.constraint e type.node (some (.between file start t.last))
      some (st.complete ⟨constraint, start, t.last⟩ rest)
    | _ => none
  | _ => none

/-- A number behind a sign; a plus sign leaves it as it is. -/
def signedNumber (file : String) (st : State) (t : Token) (start : Position) (negative : Bool) :
    Option State :=
  let location := Location.between file start t.last
  let finish (c : Except LiteralError Constant) : State :=
    let (st, e) := st.decoded location c
    { st with mode := .number ⟨e, start, t.last⟩ }
  match t.terminal with
  | .integer => some (finish (Literal.integer negative t.text (some location)))
  | .float => some (finish (.ok (Literal.float negative t.text (some location))))
  | _ => none

/-- The state after one more token, none if no program goes on with it. -/
def shift (file : String) (st : State) (t : Token) : Option State :=
  match st.mode with
  | .statement =>
    if t.terminal == .longName && t.text == ['l', 'e', 't'] then
      some { st with mode := .bindingName t.first }
    else startExpression file st t (.statement :: st.frames)
  | .bindingName start =>
    match t.terminal with
    | .name => some { st with mode := .bindingEquals start (String.ofList t.text) }
    | _ => none
  | .bindingEquals start name =>
    match t.terminal with
    | .equals => some { st with frames := .binding start name :: st.frames, mode := .expression }
    | _ => none
  | .expression =>
    match startExpression file st t st.frames with
    | some st => some st
    | none => closeEmpty file st t
  | .simple => startSimple file st t st.frames
  | .signed start negative => signedNumber file st t start negative
  | .applied function arguments last => continueApplication file st t function arguments last
  | .number e => endExpression file st t e
  | .extensionName start =>
    match t.terminal with
    | .extensionName =>
      some { st with
        frames := .extension start (String.ofList t.text) :: st.frames, mode := .expression }
    | _ => none
  | .type =>
    match t.terminal with
    | .longName =>
      let type := TypeExpr.named (String.ofList t.text) [] (some (.between file t.first t.last))
      some { st with mode := .typed ⟨type, t.first, t.last⟩ }
    | .openParen => some { st with frames := .typeParen t.first :: st.frames }
    | _ => none
  | .typed type => continueType file st t type

/-! ## What is looked for next -/

/-- The terminals that start a simple expression. -/
def startsSimple : Terminal → Bool
  | .float | .integer | .longName | .string | .char | .openExtension | .openParen
  | .openBracket => true
  | _ => false

/-- The operators and the ends of brackets. -/
def endsOperand : Terminal → Bool
  | .sign | .colon | .comma | .caret | .star | .closeParen | .closeBracket | .semicolon => true
  | _ => false

/-- The terminals that start an argument. -/
def startsArgument : Terminal → Bool
  | .optionalLabel | .label | .optionalName | .labelledName => true
  | t => startsSimple t

/-- Whether the innermost bracket may be closed where an expression may start. -/
def mayClose (frames : List Frame) (t : Terminal) : Bool :=
  match t, frames with
  | .closeParen, .paren _ :: _ => true
  | .closeBracket, .list _ _ :: _ => true
  | .closeBracket, .extension _ _ :: _ => true
  | _, _ => false

/-- The terminals that are looked for next, layout aside. -/
def expects (st : State) (t : Terminal) : Bool :=
  match st.mode with
  | .statement => t == .sign || startsSimple t
  | .bindingName _ => t == .name
  | .bindingEquals _ _ => t == .equals
  | .expression => t == .sign || startsSimple t || mayClose st.frames t
  | .simple => startsSimple t
  | .signed _ _ => t == .float || t == .integer
  | .applied _ _ _ => startsArgument t || endsOperand t
  | .number _ => endsOperand t
  | .extensionName _ => t == .extensionName
  | .type => t == .longName || t == .openParen
  | .typed _ => t == .longName || t == .star || t == .closeParen

/-- The terminals that are looked for next. -/
def accepts (st : State) (t : Terminal) : Bool := t.isLayout || st.expects t

/-- The statements of the program, if the tokens so far form one. -/
def end? (st : State) : Option (List Statement) :=
  match st.mode with
  | .statement => some st.statements.reverse
  | _ => none

end State
end MessageLang
