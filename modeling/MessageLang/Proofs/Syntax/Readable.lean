import MessageLang.Proofs.Syntax.Literal
/-!
# Trees that texts stand for

`Expr.IsReadable e` holds of the trees that some text could be read as: every name is a lexeme,
every literal has the value of its spelling, applications have arguments and tuples two elements.
No part is of another sort than its place calls for, and there are no matches. An extension without
a payload knows its place.

* `TypeExpr.IsReadable`, `Expr.IsReadable`, `Statement.IsReadable`, `Program.IsReadable`.
-/
namespace MessageLang

/-- The name of a label or of a binding. -/
def IsWordName (name : String) : Prop :=
  Terminal.IsRun Terminal.isLower Terminal.isNameChar name.toList

theorem IsWordName.isNameChar {name : String} (h : IsWordName name) :
    ∀ c ∈ name.toList, Terminal.isNameChar c = true :=
  Terminal.IsRun.forall_mem h
    (fun _ hc => Terminal.isNameChar_of_isLetter (Terminal.isLetter_of_isLower hc)) fun _ hc => hc

def Label.IsReadable : Label → Prop
  | positional => True
  | labelled name | optional name => IsWordName name

inductive TypeExpr.IsReadable : TypeExpr → Prop where
  | name {name : String} {l : Option Location} :
    Terminal.IsLongName name.toList → IsReadable (.named name [] l)
  | applied {name : String} {t : TypeExpr} {l : Option Location} :
    Terminal.IsLongName name.toList → t.IsReadable → IsReadable (.named name [t] l)
  | tuple {ts : List TypeExpr} {l : Option Location} :
    2 ≤ ts.length → (∀ t ∈ ts, t.IsReadable) → IsReadable (.tuple ts l)

/-- An argument with a label that could be read. -/
def Argument.IsLabelled : Argument → Prop
  | .mk label _ => label.IsReadable
  | .other _ => False

inductive Expr.IsReadable : Expr → Prop where
  | constant {c : Constant} : c.IsLiteral → IsReadable (.constant c)
  | identifier {name : String} {l : Option Location} :
    Terminal.IsLongName name.toList → IsReadable (.identifier name l)
  | apply {f : Expr} {args : List Argument} {l : Option Location} :
    f.IsReadable → args ≠ [] → (∀ a ∈ args, a.IsLabelled) →
    (∀ label e, .mk label e ∈ args → e.IsReadable) → IsReadable (.apply f args l)
  | constraint {e : Expr} {t : TypeExpr} {l : Option Location} :
    e.IsReadable → t.IsReadable → IsReadable (.constraint e t l)
  | extension {name : String} {l : Location} :
    Terminal.IsDotted name.toList → IsReadable (.extension name none (some l))
  | payload {name : String} {e : Expr} {l : Option Location} :
    Terminal.IsDotted name.toList → e.IsReadable → IsReadable (.extension name (some e) l)
  | tuple {es : List Expr} {l : Option Location} :
    2 ≤ es.length → (∀ e ∈ es, e.IsReadable) → IsReadable (.tuple es l)
  | list {es : List Expr} {l : Option Location} :
    (∀ e ∈ es, e.IsReadable) → IsReadable (.list es l)
  | unit {l : Option Location} : IsReadable (.unit l)
  | binary {left right : Expr} {op : Operator} {l : Option Location} :
    left.IsReadable → right.IsReadable → IsReadable (.binary left op right l)

inductive Statement.IsReadable : Statement → Prop where
  | binding {name : String} {e : Expr} {l : Option Location} :
    IsWordName name → e.IsReadable → IsReadable (.binding name e l)
  | expression {e : Expr} {l : Option Location} : e.IsReadable → IsReadable (.expression e l)

/-- An argument that could be read. -/
def Argument.IsReadable (a : Argument) : Prop :=
  a.IsLabelled ∧ ∀ label e, a = .mk label e → e.IsReadable

theorem Argument.isReadable_mk {label : Label} {e : Expr} (hl : label.IsReadable)
    (he : e.IsReadable) : (Argument.mk label e).IsReadable :=
  ⟨hl, fun _ _ h => by cases h; exact he⟩

theorem Expr.IsReadable.apply_of_arguments {f : Expr} {args : List Argument}
    {l : Option Location} (hf : f.IsReadable) (hn : args ≠ []) (ha : ∀ a ∈ args, a.IsReadable) :
    IsReadable (.apply f args l) :=
  .apply hf hn (fun a h => (ha a h).1) fun label e h => (ha _ h).2 label e rfl

def Program.IsReadable (p : Program) : Prop := ∀ s ∈ p.statements, s.IsReadable

end MessageLang
