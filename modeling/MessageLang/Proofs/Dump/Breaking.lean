import MessageLang.Proofs.Dump.Layout
import MessageLang.Proofs.Dump.Trees
import MessageLang.Proofs.Syntax.Nodes
/-!
# Dumps that are broken into lines

The trees that arise from texts and their expansion have tidy forms, and so have all parts of them,
with and without places. So their broken dumps are laid out as tidy forms are.

* `Node.IsTidy`: a tree all parts of which have tidy forms.
* `Node.Arises`: the trees that texts are read as, what they expand to, and the parts of these.
* `Node.Arises.isTidy`: they are tidy.
* `Node.dump_layout`: what the broken dump of a tree that arises looks like.
-/
namespace MessageLang

/-! ## Words -/

theorem NodeClass.isTidy_name (k : NodeClass) : (Form.symbol k.name).IsTidy := by
  have hall : ∀ k ∈ all, k.name ≠ "" ∧ '\n' ∉ k.name.toList := by decide +kernel
  obtain ⟨hne, hbreak⟩ := hall k k.mem_all
  exact .symbol hne hbreak

theorem LiteralKind.isTidy_name (k : LiteralKind) : (Form.symbol k.name).IsTidy := by
  cases k with
  | integer i => cases i <;> exact .symbol (by decide) (by decide)
  | _ => exact .symbol (by decide) (by decide)

theorem LiteralKind.Holds.isTidy {k : LiteralKind} {v : Value} (h : k.Holds v) :
    (Form.value v).IsTidy := by
  cases k with
  | integer =>
    obtain ⟨n, rfl⟩ := h
    exact .integer
  | float =>
    obtain ⟨x, rfl⟩ := h
    exact .float
  | char | string =>
    obtain ⟨t, rfl⟩ := h
    exact .string

theorem Label.IsReadable.isTidy {label : Label} (h : label.IsReadable)
    (hne : label ≠ .positional) : (Form.symbol label.toText).IsTidy := by
  cases label with
  | positional => exact absurd rfl hne
  | labelled name | optional name =>
    refine .symbol (append_ne_empty_left (by decide)) fun hbreak => ?_
    rw [toText, String.toList_append] at hbreak
    rcases List.mem_append.mp hbreak with hbreak | hbreak
    · exact absurd hbreak (by decide)
    · exact absurd (IsWordName.isNameChar h _ hbreak) (by decide)

theorem isTidy_labelledForm {label : Label} (h : label.IsReadable) {f : Form} (hf : f.IsTidy) :
    (labelledForm label f).IsTidy := by
  by_cases hp : label = .positional
  · rw [hp]
    exact hf
  · rw [labelledForm_of_ne hp]
    exact .items (List.forall_mem_cons.mpr ⟨h.isTidy hp, List.forall_mem_singleton.mpr hf⟩)

section

variable (locations : Bool)

theorem isTidy_nodeForm {l : Option Location} (k : NodeClass) {parts : List Form}
    (h : ∀ f ∈ parts, f.IsTidy) : (nodeForm locations l k.name parts).IsTidy := by
  refine .items (List.forall_mem_append.mpr ⟨List.forall_mem_cons.mpr ⟨k.isTidy_name, h⟩, ?_⟩)
  split
  · have hplace (l : Location) :
        ∀ f ∈ [Form.text l.file, .value (.int l.line), .value (.int l.column)], f.IsTidy := by
      simp [Form.IsTidy.text, Form.IsTidy.integer]
    refine List.forall_mem_cons.mpr ⟨.symbol (by decide) (by decide), ?_⟩
    exact List.forall_mem_singleton.mpr (.items (hplace _))
  · exact nofun

/-- A tree all parts of which have tidy forms. -/
def Node.IsTidy (n : Node) : Prop := ∀ m, n.Contains m → (m.form locations).IsTidy

variable {locations}

namespace Node

variable {n : Node}

theorem IsTidy.isTidy_form (h : n.IsTidy locations) : (n.form locations).IsTidy := h n .self

theorem isTidy_of_parts (k : NodeClass) {parts : List Form}
    (hform : n.form locations = nodeForm locations n.location k.name parts)
    (hparts : ∀ f ∈ parts, f.IsTidy) (hchildren : ∀ c ∈ n.children, c.IsTidy locations) :
    n.IsTidy locations := by
  intro m hm
  cases hm with
  | self =>
    rw [hform]
    exact isTidy_nodeForm locations k hparts
  | child hc hm => exact hchildren _ hc m hm

/-- A tree whose form shows some strings and the parts right below it. -/
theorem isTidy_of_children (k : NodeClass) (texts : List String)
    (hform : n.form locations = nodeForm locations n.location k.name
      (texts.map .text ++ n.children.map (form locations)))
    (hchildren : ∀ c ∈ n.children, c.IsTidy locations) : n.IsTidy locations := by
  refine isTidy_of_parts k hform (List.forall_mem_append.mpr ⟨?_, ?_⟩) hchildren
  · exact List.forall_mem_map.mpr fun t _ => .text
  · exact List.forall_mem_map.mpr fun c hc => (hchildren c hc).isTidy_form

/-- A tree whose form shows a list of parts. -/
theorem isTidy_of_list {α : Type} (part : α → Node) {as : List α} (k : NodeClass)
    (hform : n.form locations =
      nodeForm locations n.location k.name (as.map fun a => (part a).form locations))
    (hchildren : n.children = as.map part) (h : ∀ a ∈ as, (part a).IsTidy locations) :
    n.IsTidy locations := by
  refine isTidy_of_parts k hform (List.forall_mem_map.mpr fun a ha => (h a ha).isTidy_form) ?_
  rw [hchildren]
  exact List.forall_mem_map.mpr h

end Node

/-! ## Types and patterns -/

theorem TypeExpr.IsReadable.isTidy {t : TypeExpr} (h : t.IsReadable) :
    (Node.type t).IsTidy locations := by
  induction h with
  | name => exact Node.isTidy_of_children .namedType [_] rfl (List.forall_mem_nil _)
  | applied _ _ ih =>
    exact Node.isTidy_of_children .namedType [_] rfl (List.forall_mem_singleton.mpr ih)
  | @tuple ts l _ _ ih =>
    exact Node.isTidy_of_list .type .tupleType
      (congrArg (nodeForm locations l _) (typeForms_eq_map ..)) rfl ih

mutual
theorem Pattern.isTidy : ∀ p : Pattern, p.isWellFormed = true →
    (Node.pattern p).IsTidy locations
  | .wildcard _, _ => Node.isTidy_of_children .wildcardPattern [] rfl (List.forall_mem_nil _)
  | .var name _, _ => Node.isTidy_of_children .variablePattern [name] rfl (List.forall_mem_nil _)
  | .variant name none _, _ =>
    Node.isTidy_of_children .constructorPattern [name] rfl (List.forall_mem_nil _)
  | .variant name (some p) _, h =>
    Node.isTidy_of_children .constructorPattern [name] rfl
      (List.forall_mem_singleton.mpr (p.isTidy h))
  | .tuple ps l, h =>
    Node.isTidy_of_list .pattern .tuplePattern
      (congrArg (nodeForm locations l _) (patternForms_eq_map ..)) rfl (patterns_isTidy ps h)
  | .list ps l, h =>
    Node.isTidy_of_list .pattern .listPattern
      (congrArg (nodeForm locations l _) (patternForms_eq_map ..)) rfl (patterns_isTidy ps h)
  | .alternatives ps l, h =>
    Node.isTidy_of_list .pattern .orPattern
      (congrArg (nodeForm locations l _) (patternForms_eq_map ..)) rfl (patterns_isTidy ps h)
  | .cons head tail _, h => by
    obtain ⟨hh, ht⟩ := Bool.and_eq_true_iff.mp h
    exact Node.isTidy_of_children .consPattern [] rfl (List.forall_mem_cons.mpr
      ⟨head.isTidy hh, List.forall_mem_singleton.mpr (tail.isTidy ht)⟩)
  | .aliased p _ _, h => by
    refine Node.isTidy_of_parts .aliasPattern rfl ?_ (List.forall_mem_singleton.mpr (p.isTidy h))
    exact List.forall_mem_cons.mpr
      ⟨(p.isTidy h).isTidy_form, List.forall_mem_singleton.mpr .text⟩
  | .other _, h => nomatch h

theorem patterns_isTidy : ∀ ps : List Pattern, patternsAreWellFormed ps = true →
    ∀ p ∈ ps, (Node.pattern p).IsTidy locations
  | [], _ => nofun
  | p :: ps, h => by
    obtain ⟨hp, hps⟩ := Bool.and_eq_true_iff.mp h
    exact List.forall_mem_cons.mpr ⟨p.isTidy hp, patterns_isTidy ps hps⟩
end

/-! ## Expressions and programs -/

theorem Constant.IsLiteral.isTidy {c : Constant} (h : c.IsLiteral) :
    (Node.expr (.constant c)).IsTidy locations := by
  obtain ⟨k, hk, hv⟩ := h.kind_holds
  have hform : (Node.expr (.constant c)).form locations =
      nodeForm locations c.location "constant" [.symbol k.name, .value c.value] := by
    change c.form locations = _
    rw [Constant.form, hk]
  refine Node.isTidy_of_parts .constant hform ?_ (List.forall_mem_nil _)
  exact List.forall_mem_cons.mpr ⟨k.isTidy_name, List.forall_mem_singleton.mpr hv.isTidy⟩

/-- Plain expressions are tidy. -/
theorem Expr.IsPlain.isTidy {e : Expr} (h : e.IsPlain) : (Node.expr e).IsTidy locations := by
  induction h with
  | constant hc => exact hc.isTidy
  | identifier => exact Node.isTidy_of_children .identifier [_] rfl (List.forall_mem_nil _)
  | @apply f args l _ hl _ ihf iha =>
    have hargs : ∀ a ∈ args, (a.form locations).IsTidy ∧ a.child.IsTidy locations := by
      intro a ha
      cases a with
      | mk label e =>
        have he := iha label e ha
        exact ⟨isTidy_labelledForm (hl _ ha) he.isTidy_form, he⟩
      | other n => exact absurd (hl _ ha) id
    refine Node.isTidy_of_parts .apply
      (congrArg (nodeForm locations l _ <| f.form locations :: ·) (argumentForms_eq_map ..)) ?_ ?_
    · exact List.forall_mem_cons.mpr
        ⟨ihf.isTidy_form, List.forall_mem_map.mpr fun a ha => (hargs a ha).1⟩
    · exact List.forall_mem_cons.mpr ⟨ihf, List.forall_mem_map.mpr fun a ha => (hargs a ha).2⟩
  | constraint _ ht ih =>
    exact Node.isTidy_of_children .constraint [] rfl
      (List.forall_mem_cons.mpr ⟨ih, List.forall_mem_singleton.mpr ht.isTidy⟩)
  | extension => exact Node.isTidy_of_children .extension [_] rfl (List.forall_mem_nil _)
  | payload _ ih =>
    exact Node.isTidy_of_children .extension [_] rfl (List.forall_mem_singleton.mpr ih)
  | @tuple es l _ ih =>
    exact Node.isTidy_of_list .expr .tuple
      (congrArg (nodeForm locations l _) (exprForms_eq_map ..)) rfl ih
  | @list es l _ ih =>
    exact Node.isTidy_of_list .expr .list
      (congrArg (nodeForm locations l _) (exprForms_eq_map ..)) rfl ih
  | unit => exact Node.isTidy_of_children .unit [] rfl (List.forall_mem_nil _)
  | binary _ _ ihl ihr =>
    exact Node.isTidy_of_children (.binary _) [] rfl
      (List.forall_mem_cons.mpr ⟨ihl, List.forall_mem_singleton.mpr ihr⟩)
  | cons _ _ ihh iht =>
    exact Node.isTidy_of_children .cons [] rfl
      (List.forall_mem_cons.mpr ⟨ihh, List.forall_mem_singleton.mpr iht⟩)
  | @matching e arms l _ hp _ ihe ihb =>
    have harms : ∀ a ∈ arms, (Node.arm a).IsTidy locations := by
      intro a ha
      cases a with
      | mk p body l =>
        exact Node.isTidy_of_children .arm [] rfl (List.forall_mem_cons.mpr
          ⟨p.isTidy (hp _ ha), List.forall_mem_singleton.mpr (ihb p body l ha)⟩)
      | other n => exact absurd (hp _ ha) id
    refine Node.isTidy_of_parts .matching
      (congrArg (nodeForm locations l _ <| e.form locations :: ·) (armForms_eq_map ..)) ?_ ?_
    · exact List.forall_mem_cons.mpr
        ⟨ihe.isTidy_form, List.forall_mem_map.mpr fun a ha => (harms a ha).isTidy_form⟩
    · exact List.forall_mem_cons.mpr ⟨ihe, List.forall_mem_map.mpr harms⟩

theorem Program.IsPlain.isTidy {p : Program} (h : p.IsPlain) :
    (Node.program p).IsTidy locations := by
  have hstatements : ∀ s ∈ p.statements, (Node.statement s).IsTidy locations := by
    intro s hs
    cases h s hs with
    | binding he =>
      exact Node.isTidy_of_children .binding [_] rfl (List.forall_mem_singleton.mpr he.isTidy)
    | expression he =>
      exact Node.isTidy_of_children .expression [] rfl (List.forall_mem_singleton.mpr he.isTidy)
  cases p with
  | mk statements l =>
    exact Node.isTidy_of_list .statement .program
      (congrArg (nodeForm locations l _) (statementForms_eq_map ..)) rfl hstatements

end

/-! ## Trees that arise -/

/-- The programs and expressions that texts are read as, what these expand to, also where uses of
extensions fail, and the parts of all these. -/
inductive Node.Arises : Node → Prop where
  | program {file source : String} {p : Program} :
    Program.parse file source = .ok p → Arises (.program p)
  | expandedProgram {file source : String} {p : Program} :
    Program.parse file source = .ok p → Arises (.program (p.expand .standard).value)
  | expr {file source : String} {e : Expr} :
    Expr.parse file source = .ok e → Arises (.expr e)
  | expandedExpr {file source : String} {e : Expr} :
    Expr.parse file source = .ok e → Arises (.expr (e.expand .standard).value)
  | part {n c : Node} : Arises n → c ∈ n.children → Arises c

namespace Node

variable {n : Node}

theorem Arises.isTidy (h : n.Arises) (locations : Bool) : n.IsTidy locations := by
  induction h with
  | program hp => exact (Program.parse_isReadable hp).isPlain.isTidy
  | expandedProgram hp => exact (Program.parse_isReadable hp).isPlain_expand.isTidy
  | expr he => exact (Expr.parse_isReadable he).isPlain.isTidy
  | expandedExpr he => exact (Expr.parse_isReadable he).isPlain_expand.isTidy
  | part _ hc ih => exact fun m hm => ih m (.child hc hm)

/-- Broken dumps, of the trees that arise. They exist, and differ from the dump on one line in
their layout only, however long a line may be and wherever the first one starts: a line break with
the indentation behind it stands in front of a closing parenthesis or for a blank. The text of each
part of the form stands where it stands in the dump on one line, and the text of a list is a single
line exactly if the list on one line is not longer than a line may be. -/
theorem dump_layout (h : n.Arises) (locations : Bool) {maxLine : Nat} (hmax : 2 ≤ maxLine)
    (indent : Int) :
    let form := n.form locations
    let broken := (form.pretty maxLine indent).toList
    (∀ pretty, n.noDump? pretty = none) ∧
      withoutLayout broken = form.compact.toList ∧
      ∀ before part after, form.HasPart before part after →
        form.compact.toList = before ++ part.compact.toList ++ after ∧
          ∃ above text below, broken = above ++ text ++ below ∧
            withoutLayout above = before ∧ withoutLayout text = part.compact.toList ∧
            withoutLayout below = after ∧
            ((∃ fs, part = .items fs) → ('\n' ∉ text ↔ part.compact.length ≤ maxLine)) := by
  have htidy := (h.isTidy locations).isTidy_form
  refine ⟨fun pretty => ?_, (htidy.laysOut hmax indent).withoutLayout_eq, ?_⟩
  · obtain ⟨hcomplete, hcompact, hpretty⟩ := (h.isTidy false).isTidy_form.isComplete
    cases pretty <;> simp [noDump?, hcomplete, hcompact, hpretty]
  · intro before part after hpart
    obtain ⟨above, text, below, hbroken, -, habove, htext, hbelow⟩ :=
      htidy.exists_part hmax hpart indent
    refine ⟨hpart.compact_eq, above, text, below, hbroken, habove, htext.withoutLayout_eq, ?_, ?_⟩
    · simpa using hbelow []
    · intro hlist
      rw [htext.broken_iff, and_iff_right hlist, Nat.not_lt]

/-- An application that is too long for a line, with one that is not and a string of
parentheses. -/
theorem dump_layout_nested : ∃ p, Program.parse "a.ml" "f (g 1) \"((\";" = .ok p ∧
    ((program p).form false).pretty 55 1 = "\n".intercalate
      ["(program",
        "    (expr",
        "      (apply",
        "        (ident \"f\")",
        "        (apply (ident \"g\") (constant int 1))",
        "        (constant string \"((\")",
        "      )",
        "    )",
        "  )"] ∧
    withoutLayout (((program p).form false).pretty 55 1).toList =
      ((program p).form false).compact.toList ∧
    ((program p).form false).compact = "(program (expr (apply (ident \"f\") " ++
      "(apply (ident \"g\") (constant int 1)) (constant string \"((\"))))" := by
  have hcheck : ((Program.parse "a.ml" "f (g 1) \"((\";").toOption.any fun p =>
      ((program p).form false).pretty 55 1 == "\n".intercalate
        ["(program", "    (expr", "      (apply", "        (ident \"f\")",
          "        (apply (ident \"g\") (constant int 1))", "        (constant string \"((\")",
          "      )", "    )", "  )"] &&
      ((program p).form false).compact == "(program (expr (apply (ident \"f\") " ++
        "(apply (ident \"g\") (constant int 1)) (constant string \"((\"))))") = true := by
    decide +kernel
  obtain ⟨p, hp, hcheck⟩ := exists_ok_of_any hcheck
  obtain ⟨hpretty, hcompact⟩ := Bool.and_eq_true_iff.mp hcheck
  obtain ⟨-, hlayout, -⟩ := dump_layout (.program hp) false (by decide : 2 ≤ 55) 1
  exact ⟨p, hp, beq_iff_eq.mp hpretty, hlayout, beq_iff_eq.mp hcompact⟩

end Node
end MessageLang
