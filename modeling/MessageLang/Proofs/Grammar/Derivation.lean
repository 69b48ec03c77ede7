import MessageLang.Grammar.Parse
/-!
# The grammar

What a list of tokens derives from the grammar, and the tree that the derivation stands for. Tokens
carry their places, so a tree comes with its locations.

The productions are those of the language, one constructor for each:

    program      statement*
    statement    "let" NAME "=" expr ";"  |  expr ";"
    expr         sum_expr      |  sum_expr "^" expr                      (level 1)
    sum_expr     product_expr  |  sum_expr ("+" | "-") product_expr      (level 2)
    product_expr signed_expr   |  product_expr "*" signed_expr           (level 3)
    signed_expr  app_expr      |  ("+" | "-") (INTEGER | FLOAT)          (level 4)
    app_expr     simple_expr   |  simple_expr argument+                  (level 5)
    argument     simple_expr   |  (LABEL | OPTLABEL) simple_expr  |  TILDE_NAME  |  QUESTION_NAME
    simple_expr  constant  |  LONG_IDENT  |  "(" expr ")"  |  "(" expr ":" type ")"  |  "(" ")"
                 |  "(" expr ("," expr)+ ")"  |  "[" "]"  |  "[" expr (";" expr)* ";"? "]"
                 |  "[%" EXT_NAME expr? "]"
    constant     INTEGER  |  FLOAT  |  CHAR  |  STRING
    type         type_app      |  type_app ("*" type_app)+
    type_app     type_atom     |  type_app LONG_IDENT
    type_atom    LONG_IDENT    |  "(" type ")"

Where a statement may start, the word `let` is the keyword and no name.

* `Phrase`: what tokens may be read as, with the tree it stands for.
* `Derives`: a list of tokens derives a phrase. A literal may be bad: then a stand-in takes its
  place, and the derivation lists it.
-/
namespace MessageLang

/-! ## Terminals -/

/-- What the lexeme of a literal stands for, once it is placed. -/
abbrev Literal.Decoder : Type := Option Location → Except LiteralError Constant

namespace Token

/-- The word `let`. -/
def isLet (t : Token) : Bool := t.terminal == .longName && t.text == ['l', 'e', 't']

/-- Where a token is. -/
def region (file : String) (t : Token) : Location := .between file t.first t.last

/-- The constant of a token that is a number. -/
def number? (negative : Bool) (t : Token) : Option Literal.Decoder :=
  match t.terminal with
  | .integer => some (Literal.integer negative t.text)
  | .float => some fun l => .ok (Literal.float negative t.text l)
  | _ => none

/-- The constant of a token that is a literal. -/
def literal? (t : Token) : Option Literal.Decoder :=
  match t.terminal with
  | .char => some (Literal.quoted .char t.text)
  | .string => some (Literal.quoted .string t.text)
  | _ => t.number? false

/-- The label of the argument that stands behind a token. -/
def label? (t : Token) : Option Label :=
  match t.terminal with
  | .label => some (.labelled (State.labelName true t))
  | .optionalLabel => some (.optional (State.labelName true t))
  | _ => none

/-- The label of the argument that a token is, which is named like its label. -/
def punned? (t : Token) : Option Label :=
  match t.terminal with
  | .labelledName => some (.labelled (State.labelName false t))
  | .optionalName => some (.optional (State.labelName false t))
  | _ => none

end Token

namespace Literal

/-- The constant of a literal, or what stands for it where the literal is bad. -/
def standing (decode : Decoder) (location : Location) : Expr :=
  match decode (some location) with
  | .ok c => .constant c
  | .error _ => .unit (some location)

/-- The bad literals of a literal: itself, if it is bad. -/
def faults (decode : Decoder) (location : Location) : List BadLiteral :=
  match decode (some location) with
  | .ok _ => []
  | .error e => [⟨e, location⟩]

end Literal

namespace Operator

/-- The level of the left operand of an operator. -/
def leftOperand : Operator → Nat
  | concat => 2
  | add | sub => 2
  | mul => 3

/-- The level of the right operand of an operator. -/
def rightOperand : Operator → Nat
  | concat => 1
  | add | sub => 3
  | mul => 4

end Operator

/-! ## Productions -/

/-- What a list of tokens may be read as, with the tree it stands for. -/
inductive Phrase where
  | program (program : Program)
  /-- `statement*` -/
  | statements (statements : List Statement)
  | statement (statement : Statement)
  /-- An expression of a level. -/
  | expr (level : Nat) (expr : Spanned Expr)
  /-- `simple_expr argument*`, up to a place. -/
  | spine (function : Spanned Expr) (arguments : List Argument) (last : Position)
  /-- An argument, up to a place. -/
  | argument (argument : Argument) (last : Position)
  | simple (expr : Spanned Expr)
  /-- `expr (separator expr)*`: all elements but the last, and the last. -/
  | series (separator : Terminal) (init : List Expr) (last : Spanned Expr)
  | type (type : Spanned TypeExpr)
  /-- `type_app ("*" type_app)*` from a place: all elements but the last, and the last. -/
  | typeSeries (first : Position) (init : List TypeExpr) (last : Spanned TypeExpr)
  | typeApp (type : Spanned TypeExpr)
  | typeAtom (type : Spanned TypeExpr)

variable {file : String}

/-- The tokens derive the phrase; the bad literals among them, in their order. -/
inductive Derives (file : String) : Phrase → List Token → List BadLiteral → Prop where
  | program {ss ts bad} :
    Derives file (.statements ss) ts bad →
    Derives file (.program ⟨ss, some (Program.region file ss)⟩) ts bad
  | noStatement : Derives file (.statements []) [] []
  | nextStatement {ss s ts ts' bad bad'} :
    Derives file (.statements ss) ts bad → Derives file (.statement s) ts' bad' →
    Derives file (.statements (ss ++ [s])) (ts ++ ts') (bad ++ bad')
  | binding {t n q z : Token} {e ts bad} :
    t.isLet = true → n.terminal = .name → q.terminal = .equals →
    Derives file (.expr 1 e) ts bad → z.terminal = .semicolon →
    Derives file
      (.statement (.binding (String.ofList n.text) e.node (some (.between file t.first z.last))))
      (t :: n :: q :: (ts ++ [z])) bad
  | expression {z : Token} {e ts bad} :
    (∀ t, ts.head? = some t → t.isLet = false) →
    Derives file (.expr 1 e) ts bad → z.terminal = .semicolon →
    Derives file (.statement (.expression e.node (some (.between file e.first z.last))))
      (ts ++ [z]) bad
  | level {l e ts bad} : Derives file (.expr (l + 1) e) ts bad → Derives file (.expr l e) ts bad
  | binary {op : Operator} {t : Token} {left right ts ts' bad bad'} :
    Derives file (.expr op.leftOperand left) ts bad → State.operator? t = some op →
    Derives file (.expr op.rightOperand right) ts' bad' →
    Derives file (.expr op.level (State.joined file left op right)) (ts ++ t :: ts') (bad ++ bad')
  | signed {s t : Token} {decode} :
    s.terminal = .sign → t.number? (s.text == ['-']) = some decode →
    Derives file
      (.expr 4 ⟨Literal.standing decode (.between file s.first t.last), s.first, t.last⟩) [s, t]
      (Literal.faults decode (.between file s.first t.last))
  | alone {e ts bad} : Derives file (.simple e) ts bad → Derives file (.expr 5 e) ts bad
  | application {f args last ts bad} :
    args ≠ [] → Derives file (.spine f args last) ts bad →
    Derives file
      (.expr 5 ⟨.apply f.node args (some (.between file f.first last)), f.first, last⟩) ts bad
  | function {f ts bad} : Derives file (.simple f) ts bad → Derives file (.spine f [] f.last) ts bad
  | nextArgument {f args a last last' ts ts' bad bad'} :
    Derives file (.spine f args last) ts bad → Derives file (.argument a last') ts' bad' →
    Derives file (.spine f (args ++ [a]) last') (ts ++ ts') (bad ++ bad')
  | positional {e ts bad} :
    Derives file (.simple e) ts bad →
    Derives file (.argument (.mk .positional e.node) e.last) ts bad
  | labelled {t : Token} {label e ts bad} :
    t.label? = some label → Derives file (.simple e) ts bad →
    Derives file (.argument (.mk label e.node) e.last) (t :: ts) bad
  | punned {t : Token} {label} :
    t.punned? = some label →
    Derives file
      (.argument (.mk label (.identifier (State.labelName false t) (some (t.region file)))) t.last)
      [t] []
  | constant {t : Token} {decode} :
    t.literal? = some decode →
    Derives file (.simple ⟨Literal.standing decode (t.region file), t.first, t.last⟩) [t]
      (Literal.faults decode (t.region file))
  | identifier {t : Token} :
    t.terminal = .longName →
    Derives file
      (.simple ⟨.identifier (String.ofList t.text) (some (t.region file)), t.first, t.last⟩) [t] []
  | paren {t z : Token} {e ts bad} :
    t.terminal = .openParen → Derives file (.expr 1 e) ts bad → z.terminal = .closeParen →
    Derives file (.simple ⟨e.node, t.first, z.last⟩) (t :: (ts ++ [z])) bad
  | constraint {t c z : Token} {e type ts ts' bad} :
    t.terminal = .openParen → Derives file (.expr 1 e) ts bad → c.terminal = .colon →
    Derives file (.type type) ts' [] → z.terminal = .closeParen →
    Derives file
      (.simple ⟨.constraint e.node type.node (some (.between file t.first z.last)), t.first,
        z.last⟩)
      (t :: (ts ++ c :: (ts' ++ [z]))) bad
  | unit {t z : Token} :
    t.terminal = .openParen → z.terminal = .closeParen →
    Derives file (.simple ⟨.unit (some (.between file t.first z.last)), t.first, z.last⟩) [t, z] []
  | tuple {t z : Token} {init e ts bad} :
    t.terminal = .openParen → Derives file (.series .comma init e) ts bad → init ≠ [] →
    z.terminal = .closeParen →
    Derives file
      (.simple ⟨.tuple (init ++ [e.node]) (some (.between file t.first z.last)), t.first, z.last⟩)
      (t :: (ts ++ [z])) bad
  | emptyList {t z : Token} :
    t.terminal = .openBracket → z.terminal = .closeBracket →
    Derives file (.simple ⟨.list [] (some (.between file t.first z.last)), t.first, z.last⟩)
      [t, z] []
  | list {t z : Token} {init e ts bad} :
    t.terminal = .openBracket → Derives file (.series .semicolon init e) ts bad →
    z.terminal = .closeBracket →
    Derives file
      (.simple ⟨.list (init ++ [e.node]) (some (.between file t.first z.last)), t.first, z.last⟩)
      (t :: (ts ++ [z])) bad
  | listSemicolon {t s z : Token} {init e ts bad} :
    t.terminal = .openBracket → Derives file (.series .semicolon init e) ts bad →
    s.terminal = .semicolon → z.terminal = .closeBracket →
    Derives file
      (.simple ⟨.list (init ++ [e.node]) (some (.between file t.first z.last)), t.first, z.last⟩)
      (t :: (ts ++ [s, z])) bad
  | bareExtension {t n z : Token} :
    t.terminal = .openExtension → n.terminal = .extensionName → z.terminal = .closeBracket →
    Derives file
      (.simple ⟨.extension (String.ofList n.text) none (some (.between file t.first z.last)),
        t.first, z.last⟩) [t, n, z] []
  | extension {t n z : Token} {e ts bad} :
    t.terminal = .openExtension → n.terminal = .extensionName → Derives file (.expr 1 e) ts bad →
    z.terminal = .closeBracket →
    Derives file
      (.simple ⟨.extension (String.ofList n.text) (some e.node)
        (some (.between file t.first z.last)), t.first, z.last⟩)
      (t :: n :: (ts ++ [z])) bad
  | element {separator e ts bad} :
    Derives file (.expr 1 e) ts bad → Derives file (.series separator [] e) ts bad
  | nextElement {separator} {t : Token} {init e e' ts ts' bad bad'} :
    Derives file (.series separator init e) ts bad → t.terminal = separator →
    Derives file (.expr 1 e') ts' bad' →
    Derives file (.series separator (init ++ [e.node]) e') (ts ++ t :: ts') (bad ++ bad')
  | type {type ts} : Derives file (.typeApp type) ts [] → Derives file (.type type) ts []
  | typeTuple {first init type ts} :
    Derives file (.typeSeries first init type) ts [] → init ≠ [] →
    Derives file
      (.type ⟨.tuple (init ++ [type.node]) (some (.between file first type.last)), first,
        type.last⟩) ts []
  | component {type ts} :
    Derives file (.typeApp type) ts [] → Derives file (.typeSeries type.first [] type) ts []
  | nextComponent {t : Token} {first init type type' ts ts'} :
    Derives file (.typeSeries first init type) ts [] → t.terminal = .star →
    Derives file (.typeApp type') ts' [] →
    Derives file (.typeSeries first (init ++ [type.node]) type') (ts ++ t :: ts') []
  | typeAtom {type ts} : Derives file (.typeAtom type) ts [] → Derives file (.typeApp type) ts []
  | typeApp {t : Token} {type ts} :
    Derives file (.typeApp type) ts [] → t.terminal = .longName →
    Derives file
      (.typeApp ⟨.named (String.ofList t.text) [type.node] (some (.between file type.first t.last)),
        type.first, t.last⟩) (ts ++ [t]) []
  | typeName {t : Token} :
    t.terminal = .longName →
    Derives file
      (.typeAtom ⟨.named (String.ofList t.text) [] (some (t.region file)), t.first, t.last⟩) [t] []
  | typeParen {t z : Token} {type ts} :
    t.terminal = .openParen → Derives file (.type type) ts [] → z.terminal = .closeParen →
    Derives file (.typeAtom ⟨type.node, t.first, z.last⟩) (t :: (ts ++ [z])) []

end MessageLang
