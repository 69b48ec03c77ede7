import Mathlib.Data.List.Forall2
import MessageLang.Proofs.Dump.Words
import MessageLang.Syntax.Equality
/-!
# The form of a node

A form shows the class of a node and then its parts. No two classes have the same name, nor does a
label look like one, so from its form one can tell what a node is and what the forms of its parts
are.

* `NodeClass.name_injective`, `NodeClass.name_ne_label`: what the first word of a form tells.
* `Node.IsShown`: the nodes whose forms show class and parts; all that are what their place asks
  for are such.
* `Node.IsShown.eq_of_nested`: nodes with the same form are of the same class, with the same parts.
-/
namespace MessageLang

/-! ## Classes -/

/-- The classes of nodes. -/
inductive NodeClass where
  | constant
  | identifier
  | apply
  | constraint
  | extension
  | tuple
  | list
  | unit
  | binary (operator : Operator)
  | cons
  | matching
  | arm
  | wildcardPattern
  | variablePattern
  | constructorPattern
  | tuplePattern
  | listPattern
  | consPattern
  | orPattern
  | aliasPattern
  | namedType
  | tupleType
  | binding
  | expression
  | program
deriving DecidableEq

namespace NodeClass

def name : NodeClass → String
  | constant => "constant"
  | identifier => "ident"
  | apply => "apply"
  | constraint => "constraint"
  | extension => "extension"
  | tuple => "tuple"
  | list => "list"
  | unit => "unit"
  | binary op => op.symbol
  | cons => "cons"
  | matching => "match"
  | arm => "arm"
  | wildcardPattern => "wildcard-pattern"
  | variablePattern => "variable-pattern"
  | constructorPattern => "constructor-pattern"
  | tuplePattern => "tuple-pattern"
  | listPattern => "list-pattern"
  | consPattern => "cons-pattern"
  | orPattern => "or-pattern"
  | aliasPattern => "alias-pattern"
  | namedType => "type"
  | tupleType => "tuple-type"
  | binding => "let"
  | expression => "expr"
  | program => "program"

def all : List NodeClass :=
  [constant, identifier, apply, constraint, extension, tuple, list, unit, binary .concat,
    binary .add, binary .sub, binary .mul, cons, matching, arm, wildcardPattern, variablePattern,
    constructorPattern, tuplePattern, listPattern, consPattern, orPattern, aliasPattern, namedType,
    tupleType, binding, expression, program]

theorem mem_all (k : NodeClass) : k ∈ all := by
  cases k with
  | binary op => cases op <;> decide
  | _ => decide

/-- No two classes have the same name. -/
theorem name_injective {k k' : NodeClass} (h : k.name = k'.name) : k = k' := by
  have hall : ∀ k ∈ all, ∀ k' ∈ all, k.name = k'.name → k = k' := by decide +kernel
  exact hall k k.mem_all k' k'.mem_all h

/-- Names of classes are bare words. -/
theorem isBareText_name (k : NodeClass) : k.name ≠ "" ∧ IsBareText k.name := by
  have hall : ∀ k ∈ all, k.name ≠ "" ∧ IsBareText k.name := by decide +kernel
  exact hall k k.mem_all

/-- No name of a class starts as a label does. -/
theorem name_ne_label (k : NodeClass) {label : Label} (h : label ≠ .positional) :
    k.name ≠ label.toText := by
  have hall : ∀ k ∈ all, k.name.toList.head? ≠ some '~' ∧ k.name.toList.head? ≠ some '?' := by
    decide +kernel
  obtain ⟨htilde, hquestion⟩ := hall k k.mem_all
  intro heq
  cases label with
  | positional => exact h rfl
  | labelled name =>
    rw [heq, Label.toText, String.toList_append] at htilde
    exact htilde rfl
  | optional name =>
    rw [heq, Label.toText, String.toList_append] at hquestion
    exact hquestion rfl

end NodeClass

theorem Label.toText_injective {label label' : Label} (h : label ≠ .positional)
    (h' : label' ≠ .positional) (heq : label.toText = label'.toText) : label = label' := by
  have hmarks : "~".toList ≠ "?".toList := by decide
  have hlist := congrArg String.toList heq
  cases label with
  | positional => exact absurd rfl h
  | labelled name =>
    cases label' with
    | positional => exact absurd rfl h'
    | labelled name' =>
      simp only [toText, String.toList_append] at hlist
      rw [String.toList_inj.mp (List.append_cancel_left hlist)]
    | optional name' =>
      simp only [toText, String.toList_append] at hlist
      exact absurd (List.append_inj_left hlist rfl) hmarks
  | optional name =>
    cases label' with
    | positional => exact absurd rfl h'
    | labelled name' =>
      simp only [toText, String.toList_append] at hlist
      exact absurd (List.append_inj_left hlist rfl).symm hmarks
    | optional name' =>
      simp only [toText, String.toList_append] at hlist
      rw [String.toList_inj.mp (List.append_cancel_left hlist)]

/-- Labels of arguments are bare words. -/
theorem Label.IsReadable.isBareText {label : Label} (h : label.IsReadable)
    (hne : label ≠ .positional) : label.toText ≠ "" ∧ IsBareText label.toText := by
  cases label with
  | positional => exact absurd rfl hne
  | labelled name | optional name =>
    exact ⟨append_ne_empty_left (by decide), .append (by decide) (isBareText_of_isWordName h)⟩

/-! ## Forms of nodes -/

section

variable {l l' : Option Location} {k k' : NodeClass} {parts parts' : List Form}

theorem isPlain_nodeForm (k : NodeClass) (h : ∀ f ∈ parts, f.IsPlain) :
    (nodeForm false l k.name parts).IsPlain := by
  obtain ⟨hne, hbare⟩ := k.isBareText_name
  refine .items (List.forall_mem_append.mpr ⟨?_, nofun⟩)
  exact List.forall_mem_cons.mpr ⟨.symbol hne hbare, h⟩

/-- From its form as nested words one can tell the class of a node and its parts. -/
theorem nodeForm_inj (k k' : NodeClass)
    (h : (nodeForm false l k.name parts).nested = (nodeForm false l' k'.name parts').nested) :
    k = k' ∧ parts.map Form.nested = parts'.map Form.nested := by
  simp only [nodeForm, Form.nested, Form.nestedItems_eq_map, List.append_nil, List.map_cons] at h
  obtain ⟨hname, hparts⟩ := List.cons.inj (Nested.items.inj h)
  have hsymbol := String.toList_inj.mp (Nested.word.inj hname)
  exact ⟨NodeClass.name_injective (Form.symbolText_injective hsymbol), hparts⟩

theorem Form.nested_text_inj {t t' : String} :
    (Form.text t).nested = (Form.text t').nested ↔ t = t' := by
  refine ⟨fun h => ?_, fun h => h ▸ rfl⟩
  exact quoteText_injective (String.toList_inj.mp (Nested.word.inj h))

end

/-! ## Lists of parts -/

section

variable (locations : Bool) (eq : Constant → Constant → Bool)

theorem typeForms_eq_map (ts : List TypeExpr) :
    typeForms locations ts = ts.map (TypeExpr.form locations) := by
  induction ts with
  | nil => rfl
  | cons t ts ih => rw [typeForms, ih, List.map_cons]

theorem patternForms_eq_map (ps : List Pattern) :
    patternForms locations ps = ps.map (Pattern.form locations) := by
  induction ps with
  | nil => rfl
  | cons p ps ih => rw [patternForms, ih, List.map_cons]

theorem exprForms_eq_map (es : List Expr) :
    exprForms locations es = es.map (Expr.form locations) := by
  induction es with
  | nil => rfl
  | cons e es ih => rw [exprForms, ih, List.map_cons]

theorem argumentForms_eq_map (args : List Argument) :
    argumentForms locations args = args.map (Argument.form locations) := by
  induction args with
  | nil => rfl
  | cons a args ih => rw [argumentForms, ih, List.map_cons]

theorem armForms_eq_map (arms : List Arm) :
    armForms locations arms = arms.map (Arm.form locations) := by
  induction arms with
  | nil => rfl
  | cons a arms ih => rw [armForms, ih, List.map_cons]

theorem statementForms_eq_map (ss : List Statement) :
    statementForms locations ss = ss.map (Statement.form locations) := by
  induction ss with
  | nil => rfl
  | cons s ss ih => rw [statementForms, ih, List.map_cons]

/-- Lists with the same forms are related item by item. -/
theorem forall₂_of_nested {α : Type} {R : α → α → Prop} {form : α → Form} {as bs : List α}
    (h : (as.map form).map Form.nested = (bs.map form).map Form.nested)
    (hR : ∀ a ∈ as, ∀ b ∈ bs, (form a).nested = (form b).nested → R a b) :
    List.Forall₂ R as bs := by
  induction as generalizing bs with
  | nil =>
    rw [List.map_eq_nil_iff.mp (List.map_eq_nil_iff.mp h.symm)]
    exact .nil
  | cons a as ih =>
    cases bs with
    | nil => cases h
    | cons b bs =>
      obtain ⟨hab, hrest⟩ := List.cons.inj h
      refine .cons (hR a List.mem_cons_self b List.mem_cons_self hab) (ih hrest ?_)
      exact fun x hx y hy => hR x (List.mem_cons_of_mem a hx) y (List.mem_cons_of_mem b hy)

theorem typesEqualBy_of_forall₂ {ts us : List TypeExpr}
    (h : List.Forall₂ (fun t u => t.equalBy eq u = true) ts us) :
    typesEqualBy eq ts us = true := by
  induction h with
  | nil => rfl
  | cons h _ ih => rw [typesEqualBy, h, ih]; rfl

theorem exprsEqualBy_of_forall₂ {es fs : List Expr}
    (h : List.Forall₂ (fun e f => e.equalBy eq f = true) es fs) :
    exprsEqualBy eq es fs = true := by
  induction h with
  | nil => rfl
  | cons h _ ih => rw [exprsEqualBy, h, ih]; rfl

theorem argumentsEqualBy_of_forall₂ {as bs : List Argument}
    (h : List.Forall₂ (fun a b => a.equalBy eq b = true) as bs) :
    argumentsEqualBy eq as bs = true := by
  induction h with
  | nil => rfl
  | cons h _ ih => rw [argumentsEqualBy, h, ih]; rfl

theorem armsEqualBy_of_forall₂ {as bs : List Arm}
    (h : List.Forall₂ (fun a b => a.equalBy eq b = true) as bs) :
    armsEqualBy eq as bs = true := by
  induction h with
  | nil => rfl
  | cons h _ ih => rw [armsEqualBy, h, ih]; rfl

theorem statementsEqualBy_of_forall₂ {ss ts : List Statement}
    (h : List.Forall₂ (fun s t => s.equalBy eq t = true) ss ts) :
    statementsEqualBy eq ss ts = true := by
  induction h with
  | nil => rfl
  | cons h _ ih => rw [statementsEqualBy, h, ih]; rfl

end

/-! ## Classes and parts of nodes -/

/-- The class that a form shows of a node. -/
def Node.class? : Node → Option NodeClass
  | .program _ => some .program
  | .statement (.binding _ _ _) => some .binding
  | .statement (.expression _ _) => some .expression
  | .expr (.constant _) => some .constant
  | .expr (.identifier _ _) => some .identifier
  | .expr (.apply _ _ _) => some .apply
  | .expr (.constraint _ _ _) => some .constraint
  | .expr (.extension _ _ _) => some .extension
  | .expr (.tuple _ _) => some .tuple
  | .expr (.list _ _) => some .list
  | .expr (.unit _) => some .unit
  | .expr (.binary _ op _ _) => some (.binary op)
  | .expr (.cons _ _ _) => some .cons
  | .expr (.matching _ _ _) => some .matching
  | .arm (.mk _ _ _) => some .arm
  | .pattern (.wildcard _) => some .wildcardPattern
  | .pattern (.var _ _) => some .variablePattern
  | .pattern (.variant _ _ _) => some .constructorPattern
  | .pattern (.tuple _ _) => some .tuplePattern
  | .pattern (.list _ _) => some .listPattern
  | .pattern (.cons _ _ _) => some .consPattern
  | .pattern (.alternatives _ _) => some .orPattern
  | .pattern (.aliased _ _ _) => some .aliasPattern
  | .type (.named _ _ _) => some .namedType
  | .type (.tuple _ _) => some .tupleType
  | _ => none

/-- What stands behind the class in the form of a node. -/
def Node.shownParts : Node → List Form
  | .program p => p.statements.map (Statement.form false)
  | .statement (.binding name e _) => [.text name, e.form false]
  | .statement (.expression e _) => [e.form false]
  | .expr (.constant c) => c.kind.toList.map (.symbol ·.name) ++ [.value c.value]
  | .expr (.identifier name _) => [.text name]
  | .expr (.apply f args _) => f.form false :: args.map (Argument.form false)
  | .expr (.constraint e t _) => [e.form false, t.form false]
  | .expr (.extension name payload _) => .text name :: payload.toList.map (Expr.form false)
  | .expr (.tuple es _) | .expr (.list es _) => es.map (Expr.form false)
  | .expr (.binary left _ right _) => [left.form false, right.form false]
  | .expr (.cons head tail _) => [head.form false, tail.form false]
  | .expr (.matching e arms _) => e.form false :: arms.map (Arm.form false)
  | .arm (.mk p body _) => [p.form false, body.form false]
  | .pattern (.var name _) => [.text name]
  | .pattern (.variant name p _) => .text name :: p.toList.map (Pattern.form false)
  | .pattern (.tuple ps _) | .pattern (.list ps _) | .pattern (.alternatives ps _) =>
    ps.map (Pattern.form false)
  | .pattern (.cons head tail _) => [head.form false, tail.form false]
  | .pattern (.aliased p name _) => [p.form false, .text name]
  | .type (.named name ts _) => .text name :: ts.map (TypeExpr.form false)
  | .type (.tuple ts _) => ts.map (TypeExpr.form false)
  | _ => []

/-- A node whose form shows its class and its parts. -/
def Node.IsShown (n : Node) : Prop :=
  ∃ k, n.class? = some k ∧ n.form false = nodeForm false n.location k.name n.shownParts

namespace Node

variable {n m : Node}

theorem isShown_program (p : Program) : (program p).IsShown := by
  cases p with
  | mk statements l => exact ⟨_, rfl, congrArg (nodeForm false l _) (statementForms_eq_map ..)⟩

theorem isShown_type {t : TypeExpr} (h : ∀ n, t ≠ .other n) : (type t).IsShown := by
  cases t with
  | other n => exact absurd rfl (h n)
  | named name ts l =>
    exact ⟨_, rfl, congrArg (nodeForm false l _ <| .text name :: ·) (typeForms_eq_map ..)⟩
  | tuple ts l => exact ⟨_, rfl, congrArg (nodeForm false l _) (typeForms_eq_map ..)⟩

theorem isShown_pattern {p : Pattern} (h : ∀ n, p ≠ .other n) : (pattern p).IsShown := by
  cases p with
  | other n => exact absurd rfl (h n)
  | tuple _ l | list _ l | alternatives _ l =>
    exact ⟨_, rfl, congrArg (nodeForm false l _) (patternForms_eq_map ..)⟩
  | variant name p => cases p <;> exact ⟨_, rfl, rfl⟩
  | _ => exact ⟨_, rfl, rfl⟩

theorem isShown_constant {c : Constant} {k : LiteralKind} (h : c.kind = some k) :
    (expr (.constant c)).IsShown := by
  refine ⟨_, rfl, ?_⟩
  change Constant.form false c = _
  rw [Constant.form, shownParts, h]
  rfl

theorem isShown_expr {e : Expr} (h : ∀ n, e ≠ .other n)
    (hc : ∀ c, e = .constant c → ∃ k, c.kind = some k) : (expr e).IsShown := by
  cases e with
  | other n => exact absurd rfl (h n)
  | constant c =>
    obtain ⟨k, hk⟩ := hc c rfl
    exact isShown_constant hk
  | apply f args l =>
    exact ⟨_, rfl, congrArg (nodeForm false l _ <| f.form false :: ·) (argumentForms_eq_map ..)⟩
  | tuple _ l | list _ l =>
    exact ⟨_, rfl, congrArg (nodeForm false l _) (exprForms_eq_map ..)⟩
  | matching e arms l =>
    exact ⟨_, rfl, congrArg (nodeForm false l _ <| e.form false :: ·) (armForms_eq_map ..)⟩
  | extension name payload => cases payload <;> exact ⟨_, rfl, rfl⟩
  | _ => exact ⟨_, rfl, rfl⟩

theorem isShown_arm (p : Pattern) (body : Expr) (l : Option Location) :
    (arm (.mk p body l)).IsShown :=
  ⟨_, rfl, rfl⟩

/-- The form of a node with plain parts is plain. -/
theorem IsShown.isPlain (h : n.IsShown) (hparts : ∀ f ∈ n.shownParts, f.IsPlain) :
    (n.form false).IsPlain := by
  obtain ⟨k, -, hform⟩ := h
  rw [hform]
  exact isPlain_nodeForm k hparts

/-- Nodes with the same form are of the same class and have the same parts. -/
theorem IsShown.eq_of_nested (h : n.IsShown) (h' : m.IsShown)
    (hn : (n.form false).nested = (m.form false).nested) :
    n.class? = m.class? ∧ n.shownParts.map Form.nested = m.shownParts.map Form.nested := by
  obtain ⟨k, hk, hform⟩ := h
  obtain ⟨k', hk', hform'⟩ := h'
  rw [hform, hform'] at hn
  obtain ⟨hclass, hparts⟩ := nodeForm_inj k k' hn
  exact ⟨by rw [hk, hk', hclass], hparts⟩

end Node

end MessageLang
