import MessageLang.Proofs.Dump.Nodes
import MessageLang.Proofs.Evaluation.WellFormed
import MessageLang.Proofs.Expansion.Accounts
/-!
# Trees and their dumps

The dump of a program that was read or compiled tells it apart from all others, up to places and
spellings and to floats with the same text.

* `Expr.IsPlain`, `Program.IsPlain`: the trees that texts are read as and compile to.
* `Program.IsReadable.isPlain_expand`: expansion leaves such trees, also where it fails.
* `Expr.IsPlain.isPlain_form`: they have a dump on one line.
* `Expr.IsPlain.equalBy_of_nested`: trees with the same form are equal.
* `Program.dump_unambiguous`: so are programs with the same dump.
-/
namespace MessageLang

/-! ## Plain trees -/

/-- Trees whose parts are all in places where they have a meaning: constants are literals, labels
are words, types could be read and patterns are well-formed. -/
inductive Expr.IsPlain : Expr → Prop where
  | constant {c : Constant} : c.IsLiteral → IsPlain (.constant c)
  | identifier {name : String} {l : Option Location} : IsPlain (.identifier name l)
  | apply {f : Expr} {args : List Argument} {l : Option Location} :
    IsPlain f → (∀ a ∈ args, a.IsLabelled) → (∀ label e, .mk label e ∈ args → IsPlain e) →
    IsPlain (.apply f args l)
  | constraint {e : Expr} {t : TypeExpr} {l : Option Location} :
    IsPlain e → t.IsReadable → IsPlain (.constraint e t l)
  | extension {name : String} {l : Option Location} : IsPlain (.extension name none l)
  | payload {name : String} {e : Expr} {l : Option Location} :
    IsPlain e → IsPlain (.extension name (some e) l)
  | tuple {es : List Expr} {l : Option Location} : (∀ e ∈ es, IsPlain e) → IsPlain (.tuple es l)
  | list {es : List Expr} {l : Option Location} : (∀ e ∈ es, IsPlain e) → IsPlain (.list es l)
  | unit {l : Option Location} : IsPlain (.unit l)
  | binary {left right : Expr} {op : Operator} {l : Option Location} :
    IsPlain left → IsPlain right → IsPlain (.binary left op right l)
  | cons {head tail : Expr} {l : Option Location} :
    IsPlain head → IsPlain tail → IsPlain (.cons head tail l)
  | matching {e : Expr} {arms : List Arm} {l : Option Location} :
    IsPlain e → (∀ a ∈ arms, a.HasPattern) →
    (∀ p body l, .mk p body l ∈ arms → IsPlain body) → IsPlain (.matching e arms l)

inductive Statement.IsPlain : Statement → Prop where
  | binding {name : String} {e : Expr} {l : Option Location} :
    e.IsPlain → IsPlain (.binding name e l)
  | expression {e : Expr} {l : Option Location} : e.IsPlain → IsPlain (.expression e l)

def Program.IsPlain (p : Program) : Prop := ∀ s ∈ p.statements, s.IsPlain

theorem Expr.IsReadable.isPlain {e : Expr} (h : e.IsReadable) : e.IsPlain := by
  induction h with
  | constant hc => exact .constant hc
  | identifier => exact .identifier
  | apply _ _ hl _ ihf iha => exact .apply ihf hl iha
  | constraint _ ht ih => exact .constraint ih ht
  | extension => exact .extension
  | payload _ _ ih => exact .payload ih
  | tuple _ _ ih => exact .tuple ih
  | list _ ih => exact .list ih
  | unit => exact .unit
  | binary _ _ ihl ihr => exact .binary ihl ihr

/-- Well-formed code is plain. -/
theorem Expr.IsCode.isPlain {inArm : Bool} {e : Expr} (h : e.IsCode inArm)
    (hw : e.IsWellFormed) : e.IsPlain := by
  induction h with
  | constant hc => exact .constant hc
  | identifier => exact .identifier
  | extension he => exact he.isPlain
  | unit => exact .unit
  | apply _ _ hl _ ihf iha =>
    cases hw with
    | apply hf _ ha => exact .apply (ihf hf) hl fun label e he => iha label e he (ha label e he)
  | constraint _ ht ih =>
    cases hw with
    | constraint he => exact .constraint (ih he) ht
  | tuple _ _ ih =>
    cases hw with
    | tuple hes => exact .tuple fun e he => ih e he (hes e he)
  | list _ ih =>
    cases hw with
    | list hes => exact .list fun e he => ih e he (hes e he)
  | binary _ _ ihl ihr =>
    cases hw with
    | binary hl hr => exact .binary (ihl hl) (ihr hr)
  | cons _ _ _ ihh iht =>
    cases hw with
    | cons hh ht => exact .cons (ihh hh) (iht ht)
  | matching _ _ _ ihe ihb =>
    cases hw with
    | matching he hp hb =>
      exact .matching (ihe he) hp fun p body l hm => ihb p body l hm (hb p body l hm)

theorem Program.IsReadable.isPlain {p : Program} (h : p.IsReadable) : p.IsPlain := by
  intro s hs
  cases h s hs with
  | binding _ he => exact .binding he.isPlain
  | expression he => exact .expression he.isPlain

/-- Expansion leaves plain trees, also where it fails. -/
theorem Expr.IsReadable.isPlain_expand {e : Expr} (h : e.IsReadable) :
    (e.expand .standard).value.IsPlain := by
  have hcode : e.IsCode false := h.isCode
  have hdepth : e.extensions.length ≤ Setting.standard.depth e.extensionCount := by
    rw [← hcode.isProper.extensionCount_eq]
    show _ ≤ (_ + 1) * 3
    omega
  have hguarded := h.isGuarded.replaceExtensions
    (Setting.leavesGuarded_siteWithin (Setting.standard.depth e.extensionCount))
  exact (hcode.accounts (Setting.accounts_siteWithin _) hdepth).2.isPlain hguarded.isWellFormed

theorem Program.IsReadable.isPlain_expand {p : Program} (h : p.IsReadable) :
    (p.expand .standard).value.IsPlain := by
  have hguarded := isGuarded_replaceInStatements (Setting.leavesGuarded_siteWithin
    (Setting.standard.depth (statementsExtensionCount p.statements))) h
  intro s hs
  have hwell := (hguarded s hs).isWellFormed
  cases h.accounts.2 s hs with
  | binding _ he =>
    cases hwell with
    | binding hw => exact .binding (he.isPlain hw)
  | expression he =>
    cases hwell with
    | expression hw => exact .expression (he.isPlain hw)

/-- A program that is read from a text or that a text compiles to. -/
def Program.Arises (p : Program) : Prop :=
  ∃ file source, Program.parse file source = .ok p ∨ compile .standard file source = .ok p

theorem Program.Arises.isPlain {p : Program} (h : p.Arises) : p.IsPlain := by
  obtain ⟨file, source, hp | hp⟩ := h
  · exact (Program.parse_isReadable hp).isPlain
  · obtain ⟨p', hp', -, rfl⟩ := compile_eq_ok.mp hp
    exact (Program.parse_isReadable hp').isPlain_expand

/-! ## Literals -/

/-- Equal kinds and equal values, floats being compared by their text. -/
def Constant.sameText (c d : Constant) : Bool :=
  c.kind == d.kind && match c.value, d.value with
    | .float x, .float y => x.toText == y.toText
    | v, w => v.equal w

theorem LiteralKind.name_injective {k k' : LiteralKind} (h : k.name = k'.name) : k = k' := by
  revert h
  cases k with
  | integer i => cases k' with
    | integer i' => cases i <;> cases i' <;> decide
    | _ => cases i <;> decide
  | _ => cases k' with
    | integer i' => cases i' <;> decide
    | _ => decide

theorem LiteralKind.isBareText_name (k : LiteralKind) : k.name ≠ "" ∧ IsBareText k.name := by
  cases k with
  | integer i => cases i <;> decide
  | _ => decide

/-- The values of the literals of a kind, whatever their range. -/
def LiteralKind.Holds : LiteralKind → Value → Prop
  | integer _, v => ∃ n, v = .int n
  | float, v => ∃ x, v = .float x
  | char, v | string, v => ∃ t, v = .str t

theorem LiteralKind.Holds.isPlain {k : LiteralKind} {v : Value} (h : k.Holds v) :
    (Form.value v).IsPlain := by
  cases k with
  | integer =>
    obtain ⟨n, rfl⟩ := h
    exact .integer
  | float =>
    obtain ⟨x, rfl⟩ := h
    exact .float
  | char | string =>
    obtain ⟨t, rfl⟩ := h
    exact .string

namespace Constant

variable {c d : Constant}

theorem IsLiteral.kind_holds (h : c.IsLiteral) : ∃ k, c.kind = some k ∧ k.Holds c.value := by
  cases h with
  | integer _ h =>
    obtain ⟨k, n, hc, -⟩ := Literal.integer_ok h
    rw [hc]
    exact ⟨_, rfl, n, rfl⟩
  | float => exact ⟨_, rfl, _, rfl⟩
  | string => exact ⟨_, rfl, _, rfl⟩
  | char => exact ⟨_, rfl, _, rfl⟩

theorem IsLiteral.isPlain_form (h : c.IsLiteral) : (c.form false).IsPlain := by
  obtain ⟨k, hk, hv⟩ := h.kind_holds
  refine (Node.isShown_constant hk).isPlain ?_
  rw [Node.shownParts, hk]
  refine List.forall_mem_cons.mpr ⟨?_, List.forall_mem_singleton.mpr hv.isPlain⟩
  exact .symbol k.isBareText_name.1 k.isBareText_name.2

/-- Literals are told apart by their kind and the text of their value. -/
theorem IsLiteral.sameText_of_nested (h : c.IsLiteral) (h' : d.IsLiteral)
    (hn : (c.form false).nested = (d.form false).nested) : c.sameText d = true := by
  obtain ⟨k, hk, hv⟩ := h.kind_holds
  obtain ⟨k', hk', hv'⟩ := h'.kind_holds
  obtain ⟨-, hparts⟩ := (Node.isShown_constant hk).eq_of_nested (Node.isShown_constant hk') hn
  rw [Node.shownParts, Node.shownParts, hk, hk'] at hparts
  obtain ⟨hkind, hrest⟩ := List.cons.inj hparts
  have hname := Form.symbolText_injective (String.toList_inj.mp (Nested.word.inj hkind))
  obtain rfl := LiteralKind.name_injective hname
  have htext := String.toList_inj.mp (Nested.word.inj (List.cons.inj hrest).1)
  unfold sameText
  rw [hk, hk', beq_self_eq_true, Bool.true_and]
  cases k with
  | integer =>
    obtain ⟨m, hm⟩ := hv
    obtain ⟨n, hn⟩ := hv'
    rw [hm, hn] at htext ⊢
    exact beq_iff_eq.mpr (decimalInt_injective htext)
  | float =>
    obtain ⟨x, hx⟩ := hv
    obtain ⟨y, hy⟩ := hv'
    rw [hx, hy] at htext ⊢
    exact beq_iff_eq.mpr htext
  | char | string =>
    obtain ⟨t, ht⟩ := hv
    obtain ⟨u, hu⟩ := hv'
    rw [ht, hu] at htext ⊢
    exact beq_iff_eq.mpr (Form.quoteText_injective htext)

end Constant

/-! ## Types -/

namespace TypeExpr

theorem IsReadable.ne_other {t : TypeExpr} (h : t.IsReadable) (n : Node) : t ≠ .other n := by
  intro heq
  subst heq
  cases h

theorem IsReadable.isPlain_form {t : TypeExpr} (h : t.IsReadable) : (t.form false).IsPlain := by
  refine (Node.isShown_type h.ne_other).isPlain ?_
  induction h with
  | name => exact List.forall_mem_singleton.mpr .text
  | applied _ ht ih =>
    refine List.forall_mem_cons.mpr ⟨.text, List.forall_mem_singleton.mpr ?_⟩
    exact (Node.isShown_type ht.ne_other).isPlain ih
  | tuple _ hts ih =>
    refine List.forall_mem_map.mpr fun t ht => ?_
    exact (Node.isShown_type (hts t ht).ne_other).isPlain (ih t ht)

theorem IsReadable.shown_eq {t u : TypeExpr} (h : t.IsReadable) (h' : u.IsReadable)
    (hn : (t.form false).nested = (u.form false).nested) :
    (Node.type t).class? = (Node.type u).class? ∧
      (Node.type t).shownParts.map Form.nested = (Node.type u).shownParts.map Form.nested :=
  (Node.isShown_type h.ne_other).eq_of_nested (Node.isShown_type h'.ne_other) hn

/-- Types with the same form are equal. -/
theorem IsReadable.equalBy_of_nested {t u : TypeExpr} (h : t.IsReadable) (h' : u.IsReadable)
    (hn : (t.form false).nested = (u.form false).nested) :
    t.equalBy Constant.sameText u = true := by
  induction h generalizing u with
  | name hlong =>
    obtain ⟨hclass, hparts⟩ := shown_eq (.name hlong) h' hn
    cases h' with
    | name =>
      obtain rfl := Form.nested_text_inj.mp (List.cons.inj hparts).1
      rw [equalBy, beq_self_eq_true]
      rfl
    | applied => cases (List.cons.inj hparts).2
    | tuple => cases hclass
  | applied hlong ht ih =>
    obtain ⟨hclass, hparts⟩ := shown_eq (.applied hlong ht) h' hn
    cases h' with
    | name => cases (List.cons.inj hparts).2
    | applied _ hu =>
      obtain ⟨hname, hrest⟩ := List.cons.inj hparts
      obtain rfl := Form.nested_text_inj.mp hname
      rw [equalBy, beq_self_eq_true, typesEqualBy, ih hu (List.cons.inj hrest).1]
      rfl
    | tuple => cases hclass
  | tuple hlen hts ih =>
    obtain ⟨hclass, hparts⟩ := shown_eq (.tuple hlen hts) h' hn
    cases h' with
    | name | applied => cases hclass
    | tuple _ hus =>
      refine typesEqualBy_of_forall₂ _ (forall₂_of_nested hparts fun t ht u hu heq => ?_)
      exact ih t ht (hus u hu) heq

end TypeExpr

/-! ## Patterns -/

namespace Pattern

theorem ne_other_of_isWellFormed {p : Pattern} (h : p.isWellFormed = true) (n : Node) :
    p ≠ .other n := by
  intro heq
  subst heq
  cases h

theorem isPlain_of_parts {p : Pattern} (h : p.isWellFormed = true)
    (hp : ∀ f ∈ (Node.pattern p).shownParts, f.IsPlain) : (p.form false).IsPlain :=
  (Node.isShown_pattern (ne_other_of_isWellFormed h)).isPlain hp

mutual
theorem isPlain_form : ∀ p : Pattern, p.isWellFormed = true → (p.form false).IsPlain
  | .wildcard _, h => isPlain_of_parts h nofun
  | .var _ _, h | .variant _ none _, h => isPlain_of_parts h (List.forall_mem_singleton.mpr .text)
  | .variant _ (some p) _, h =>
    isPlain_of_parts h (List.forall_mem_cons.mpr
      ⟨.text, List.forall_mem_singleton.mpr (p.isPlain_form h)⟩)
  | .tuple ps _, h | .list ps _, h | .alternatives ps _, h =>
    isPlain_of_parts h (List.forall_mem_map.mpr (isPlain_forms ps h))
  | .cons head tail _, h => by
    obtain ⟨hh, ht⟩ := Bool.and_eq_true_iff.mp h
    exact isPlain_of_parts h (List.forall_mem_cons.mpr
      ⟨head.isPlain_form hh, List.forall_mem_singleton.mpr (tail.isPlain_form ht)⟩)
  | .aliased p _ _, h =>
    isPlain_of_parts h (List.forall_mem_cons.mpr
      ⟨p.isPlain_form h, List.forall_mem_singleton.mpr .text⟩)
  | .other _, h => nomatch h

theorem isPlain_forms : ∀ ps : List Pattern, patternsAreWellFormed ps = true →
    ∀ p ∈ ps, (p.form false).IsPlain
  | [], _ => nofun
  | p :: ps, h => by
    obtain ⟨hp, hps⟩ := Bool.and_eq_true_iff.mp h
    exact List.forall_mem_cons.mpr ⟨p.isPlain_form hp, isPlain_forms ps hps⟩
end

theorem shown_eq {p q : Pattern} (h : p.isWellFormed = true) (h' : q.isWellFormed = true)
    (hn : (p.form false).nested = (q.form false).nested) :
    (Node.pattern p).class? = (Node.pattern q).class? ∧
      (Node.pattern p).shownParts.map Form.nested = (Node.pattern q).shownParts.map Form.nested :=
  (Node.isShown_pattern (ne_other_of_isWellFormed h)).eq_of_nested
    (Node.isShown_pattern (ne_other_of_isWellFormed h')) hn

mutual
/-- Patterns with the same form are equal. -/
theorem equalBy_of_nested :
    ∀ p q : Pattern, p.isWellFormed = true → q.isWellFormed = true →
      (p.form false).nested = (q.form false).nested → p.equalBy Constant.sameText q = true
  | .wildcard _, q, h, h', hn => by
    obtain ⟨hclass, -⟩ := shown_eq h h' hn
    cases q with
    | wildcard => rfl
    | _ => cases hclass
  | .var _ _, q, h, h', hn => by
    obtain ⟨hclass, hparts⟩ := shown_eq h h' hn
    cases q with
    | var => exact beq_iff_eq.mpr (Form.nested_text_inj.mp (List.cons.inj hparts).1)
    | _ => cases hclass
  | .variant _ none _, q, h, h', hn => by
    obtain ⟨hclass, hparts⟩ := shown_eq h h' hn
    cases q with
    | variant _ argument =>
      cases argument with
      | none => exact beq_iff_eq.mpr (Form.nested_text_inj.mp (List.cons.inj hparts).1)
      | some q => cases (List.cons.inj hparts).2
    | _ => cases hclass
  | .variant _ (some p) _, q, h, h', hn => by
    obtain ⟨hclass, hparts⟩ := shown_eq h h' hn
    cases q with
    | variant _ argument =>
      cases argument with
      | none => cases (List.cons.inj hparts).2
      | some q =>
        obtain ⟨hname, hrest⟩ := List.cons.inj hparts
        exact Bool.and_eq_true_iff.mpr ⟨beq_iff_eq.mpr (Form.nested_text_inj.mp hname),
          p.equalBy_of_nested q h h' (List.cons.inj hrest).1⟩
    | _ => cases hclass
  | .tuple ps _, q, h, h', hn => by
    obtain ⟨hclass, hparts⟩ := shown_eq h h' hn
    cases q with
    | tuple qs => exact allEqualBy_of_nested ps qs h h' hparts
    | _ => cases hclass
  | .list ps _, q, h, h', hn => by
    obtain ⟨hclass, hparts⟩ := shown_eq h h' hn
    cases q with
    | list qs => exact allEqualBy_of_nested ps qs h h' hparts
    | _ => cases hclass
  | .cons head tail _, q, h, h', hn => by
    obtain ⟨hclass, hparts⟩ := shown_eq h h' hn
    cases q with
    | cons head' tail' =>
      obtain ⟨hh, ht⟩ := Bool.and_eq_true_iff.mp h
      obtain ⟨hh', ht'⟩ := Bool.and_eq_true_iff.mp h'
      obtain ⟨hhead, hrest⟩ := List.cons.inj hparts
      exact Bool.and_eq_true_iff.mpr ⟨head.equalBy_of_nested head' hh hh' hhead,
        tail.equalBy_of_nested tail' ht ht' (List.cons.inj hrest).1⟩
    | _ => cases hclass
  | .alternatives ps _, q, h, h', hn => by
    obtain ⟨hclass, hparts⟩ := shown_eq h h' hn
    cases q with
    | alternatives qs => exact allEqualBy_of_nested ps qs h h' hparts
    | _ => cases hclass
  | .aliased p _ _, q, h, h', hn => by
    obtain ⟨hclass, hparts⟩ := shown_eq h h' hn
    cases q with
    | aliased q =>
      obtain ⟨hp, hrest⟩ := List.cons.inj hparts
      exact Bool.and_eq_true_iff.mpr ⟨p.equalBy_of_nested q h h' hp,
        beq_iff_eq.mpr (Form.nested_text_inj.mp (List.cons.inj hrest).1)⟩
    | _ => cases hclass
  | .other _, _, h, _, _ => nomatch h

theorem allEqualBy_of_nested :
    ∀ ps qs : List Pattern, patternsAreWellFormed ps = true → patternsAreWellFormed qs = true →
      (ps.map (form false)).map Form.nested = (qs.map (form false)).map Form.nested →
      patternsEqualBy Constant.sameText ps qs = true
  | [], [], _, _, _ => rfl
  | [], _ :: _, _, _, hn => nomatch hn
  | _ :: _, [], _, _, hn => nomatch hn
  | p :: ps, q :: qs, h, h', hn => by
    obtain ⟨hp, hps⟩ := Bool.and_eq_true_iff.mp h
    obtain ⟨hq, hqs⟩ := Bool.and_eq_true_iff.mp h'
    obtain ⟨hpq, hrest⟩ := List.cons.inj hn
    exact Bool.and_eq_true_iff.mpr ⟨p.equalBy_of_nested q hp hq hpq,
      allEqualBy_of_nested ps qs hps hqs hrest⟩
end

end Pattern

/-! ## Expressions -/

namespace Expr

theorem IsPlain.isShown {e : Expr} (h : e.IsPlain) : (Node.expr e).IsShown := by
  refine Node.isShown_expr (fun n he => ?_) (fun c he => ?_)
  · subst he
    cases h
  · subst he
    cases h with
    | constant hc =>
      obtain ⟨k, hk, -⟩ := hc.kind_holds
      exact ⟨k, hk⟩

theorem IsPlain.shown_eq {e e' : Expr} (h : e.IsPlain) (h' : e'.IsPlain)
    (hn : (e.form false).nested = (e'.form false).nested) :
    (Node.expr e).class? = (Node.expr e').class? ∧
      (Node.expr e).shownParts.map Form.nested = (Node.expr e').shownParts.map Form.nested :=
  h.isShown.eq_of_nested h'.isShown hn

end Expr

theorem labelledForm_of_ne {label : Label} (h : label ≠ .positional) (f : Form) :
    labelledForm label f = .items [.symbol label.toText, f] := by
  cases label with
  | positional => exact absurd rfl h
  | labelled | optional => rfl

theorem isPlain_labelledForm {label : Label} (h : label.IsReadable) {f : Form} (hf : f.IsPlain) :
    (labelledForm label f).IsPlain := by
  by_cases hp : label = .positional
  · rw [hp]
    exact hf
  · rw [labelledForm_of_ne hp]
    obtain ⟨hne, hbare⟩ := h.isBareText hp
    exact .items (List.forall_mem_cons.mpr ⟨.symbol hne hbare, List.forall_mem_singleton.mpr hf⟩)

/-- The form of an expression does not start with a label. -/
theorem Expr.IsPlain.nested_ne_labelled {e : Expr} (h : e.IsPlain) {label : Label}
    (hl : label ≠ .positional) (f : Form) :
    (e.form false).nested ≠ (Form.items [.symbol label.toText, f]).nested := by
  obtain ⟨k, -, hform⟩ := h.isShown
  intro hn
  rw [show e.form false = _ from hform] at hn
  have hname := (List.cons.inj (Nested.items.inj hn)).1
  exact k.name_ne_label hl
    (Form.symbolText_injective (String.toList_inj.mp (Nested.word.inj hname)))

/-- Labels and expressions of arguments are told apart. -/
theorem labelledForm_inj {label label' : Label} {e e' : Expr} (h : e.IsPlain) (h' : e'.IsPlain)
    (hn : (labelledForm label (e.form false)).nested =
      (labelledForm label' (e'.form false)).nested) :
    label = label' ∧ (e.form false).nested = (e'.form false).nested := by
  by_cases hp : label = .positional <;> by_cases hp' : label' = .positional
  · rw [hp, hp'] at hn ⊢
    exact ⟨rfl, hn⟩
  · rw [hp, labelledForm_of_ne hp'] at hn
    exact absurd hn (h.nested_ne_labelled hp' _)
  · rw [hp', labelledForm_of_ne hp] at hn
    exact absurd hn.symm (h'.nested_ne_labelled hp _)
  · rw [labelledForm_of_ne hp, labelledForm_of_ne hp'] at hn
    obtain ⟨hname, hrest⟩ := List.cons.inj (Nested.items.inj hn)
    have htext := Form.symbolText_injective (String.toList_inj.mp (Nested.word.inj hname))
    exact ⟨Label.toText_injective hp hp' htext, (List.cons.inj hrest).1⟩

theorem isPlain_argumentForms {args : List Argument} (hl : ∀ a ∈ args, a.IsLabelled)
    (h : ∀ label e, .mk label e ∈ args → (e.form false).IsPlain) :
    ∀ f ∈ args.map (Argument.form false), f.IsPlain := by
  refine List.forall_mem_map.mpr fun a ha => ?_
  cases a with
  | mk label e => exact isPlain_labelledForm (hl _ ha) (h label e ha)
  | other n => exact absurd (hl _ ha) id

theorem isPlain_armForms {arms : List Arm} (hp : ∀ a ∈ arms, a.HasPattern)
    (h : ∀ p body l, .mk p body l ∈ arms → (body.form false).IsPlain) :
    ∀ f ∈ arms.map (Arm.form false), f.IsPlain := by
  refine List.forall_mem_map.mpr fun a ha => ?_
  cases a with
  | mk p body l =>
    refine (Node.isShown_arm p body l).isPlain (List.forall_mem_cons.mpr ?_)
    exact ⟨p.isPlain_form (hp _ ha), List.forall_mem_singleton.mpr (h p body l ha)⟩
  | other n => exact absurd (hp _ ha) id

/-- Plain expressions have plain forms. -/
theorem Expr.IsPlain.isPlain_form {e : Expr} (h : e.IsPlain) : (e.form false).IsPlain := by
  induction h with
  | constant hc => exact hc.isPlain_form
  | identifier =>
    refine (isShown .identifier).isPlain ?_
    exact List.forall_mem_singleton.mpr .text
  | apply hf hl ha ihf iha =>
    refine (isShown (.apply hf hl ha)).isPlain ?_
    exact List.forall_mem_cons.mpr ⟨ihf, isPlain_argumentForms hl iha⟩
  | constraint he ht ih =>
    refine (isShown (.constraint he ht)).isPlain ?_
    exact List.forall_mem_cons.mpr ⟨ih, List.forall_mem_singleton.mpr ht.isPlain_form⟩
  | extension =>
    refine (isShown .extension).isPlain ?_
    exact List.forall_mem_singleton.mpr .text
  | payload he ih =>
    refine (isShown (.payload he)).isPlain ?_
    exact List.forall_mem_cons.mpr ⟨.text, List.forall_mem_singleton.mpr ih⟩
  | tuple hes ih =>
    refine (isShown (.tuple hes)).isPlain ?_
    exact List.forall_mem_map.mpr ih
  | list hes ih =>
    refine (isShown (.list hes)).isPlain ?_
    exact List.forall_mem_map.mpr ih
  | unit => exact (isShown .unit).isPlain nofun
  | binary hl hr ihl ihr =>
    refine (isShown (.binary hl hr)).isPlain ?_
    exact List.forall_mem_cons.mpr ⟨ihl, List.forall_mem_singleton.mpr ihr⟩
  | cons hh ht ihh iht =>
    refine (isShown (.cons hh ht)).isPlain ?_
    exact List.forall_mem_cons.mpr ⟨ihh, List.forall_mem_singleton.mpr iht⟩
  | matching he hp hb ihe ihb =>
    refine (isShown (.matching he hp hb)).isPlain ?_
    exact List.forall_mem_cons.mpr ⟨ihe, isPlain_armForms hp ihb⟩

/-- Expressions with the same form are equal. -/
theorem Expr.IsPlain.equalBy_of_nested {e e' : Expr} (h : e.IsPlain) (h' : e'.IsPlain)
    (hn : (e.form false).nested = (e'.form false).nested) :
    e.equalBy Constant.sameText e' = true := by
  induction h generalizing e' with
  | constant hc =>
    obtain ⟨hclass, -⟩ := IsPlain.shown_eq (.constant hc) h' hn
    cases h' with
    | constant hc' => exact hc.sameText_of_nested hc' hn
    | _ => cases hclass
  | identifier =>
    obtain ⟨hclass, hparts⟩ := IsPlain.shown_eq .identifier h' hn
    cases h' with
    | identifier => exact beq_iff_eq.mpr (Form.nested_text_inj.mp (List.cons.inj hparts).1)
    | _ => cases hclass
  | apply hf hl ha ihf iha =>
    obtain ⟨hclass, hparts⟩ := IsPlain.shown_eq (.apply hf hl ha) h' hn
    cases h' with
    | apply hf' hl' ha' =>
      obtain ⟨hfun, hargs⟩ := List.cons.inj hparts
      refine Bool.and_eq_true_iff.mpr ⟨ihf hf' hfun, argumentsEqualBy_of_forall₂ _ ?_⟩
      refine forall₂_of_nested hargs fun a hm b hm' heq => ?_
      cases a with
      | other n => exact absurd (hl _ hm) id
      | mk label e =>
        cases b with
        | other n => exact absurd (hl' _ hm') id
        | mk label' e' =>
          obtain ⟨rfl, he⟩ := labelledForm_inj (ha label e hm) (ha' label' e' hm') heq
          exact Bool.and_eq_true_iff.mpr
            ⟨beq_self_eq_true label, iha label e hm (ha' label e' hm') he⟩
    | _ => cases hclass
  | constraint he ht ih =>
    obtain ⟨hclass, hparts⟩ := IsPlain.shown_eq (.constraint he ht) h' hn
    cases h' with
    | constraint he' ht' =>
      obtain ⟨hexpr, hrest⟩ := List.cons.inj hparts
      exact Bool.and_eq_true_iff.mpr
        ⟨ih he' hexpr, ht.equalBy_of_nested ht' (List.cons.inj hrest).1⟩
    | _ => cases hclass
  | extension =>
    obtain ⟨hclass, hparts⟩ := IsPlain.shown_eq .extension h' hn
    cases h' with
    | extension => exact beq_iff_eq.mpr (Form.nested_text_inj.mp (List.cons.inj hparts).1)
    | payload => cases (List.cons.inj hparts).2
    | _ => cases hclass
  | payload he ih =>
    obtain ⟨hclass, hparts⟩ := IsPlain.shown_eq (.payload he) h' hn
    cases h' with
    | extension => cases (List.cons.inj hparts).2
    | payload he' =>
      obtain ⟨hname, hrest⟩ := List.cons.inj hparts
      exact Bool.and_eq_true_iff.mpr
        ⟨beq_iff_eq.mpr (Form.nested_text_inj.mp hname), ih he' (List.cons.inj hrest).1⟩
    | _ => cases hclass
  | tuple hes ih =>
    obtain ⟨hclass, hparts⟩ := IsPlain.shown_eq (.tuple hes) h' hn
    cases h' with
    | tuple hes' =>
      refine exprsEqualBy_of_forall₂ _ (forall₂_of_nested hparts fun e he f hf heq => ?_)
      exact ih e he (hes' f hf) heq
    | _ => cases hclass
  | list hes ih =>
    obtain ⟨hclass, hparts⟩ := IsPlain.shown_eq (.list hes) h' hn
    cases h' with
    | list hes' =>
      refine exprsEqualBy_of_forall₂ _ (forall₂_of_nested hparts fun e he f hf heq => ?_)
      exact ih e he (hes' f hf) heq
    | _ => cases hclass
  | unit =>
    obtain ⟨hclass, -⟩ := IsPlain.shown_eq .unit h' hn
    cases h' with
    | unit => rfl
    | _ => cases hclass
  | binary hl hr ihl ihr =>
    obtain ⟨hclass, hparts⟩ := IsPlain.shown_eq (.binary hl hr) h' hn
    cases h' with
    | binary hl' hr' =>
      obtain ⟨hleft, hrest⟩ := List.cons.inj hparts
      cases hclass
      refine Bool.and_eq_true_iff.mpr ⟨?_, ihr hr' (List.cons.inj hrest).1⟩
      exact Bool.and_eq_true_iff.mpr ⟨ihl hl' hleft, beq_self_eq_true _⟩
    | _ => cases hclass
  | cons hh ht ihh iht =>
    obtain ⟨hclass, hparts⟩ := IsPlain.shown_eq (.cons hh ht) h' hn
    cases h' with
    | cons hh' ht' =>
      obtain ⟨hhead, hrest⟩ := List.cons.inj hparts
      exact Bool.and_eq_true_iff.mpr ⟨ihh hh' hhead, iht ht' (List.cons.inj hrest).1⟩
    | _ => cases hclass
  | matching he hp hb ihe ihb =>
    obtain ⟨hclass, hparts⟩ := IsPlain.shown_eq (.matching he hp hb) h' hn
    cases h' with
    | matching he' hp' hb' =>
      obtain ⟨hexpr, harms⟩ := List.cons.inj hparts
      refine Bool.and_eq_true_iff.mpr ⟨ihe he' hexpr, armsEqualBy_of_forall₂ _ ?_⟩
      refine forall₂_of_nested harms fun a hm b hm' heq => ?_
      cases a with
      | other n => exact absurd (hp _ hm) id
      | mk p body l =>
        cases b with
        | other n => exact absurd (hp' _ hm') id
        | mk q body' l' =>
          obtain ⟨-, hboth⟩ := (Node.isShown_arm p body l).eq_of_nested
            (Node.isShown_arm q body' l') heq
          obtain ⟨hpattern, hrest⟩ := List.cons.inj hboth
          exact Bool.and_eq_true_iff.mpr ⟨p.equalBy_of_nested q (hp _ hm) (hp' _ hm') hpattern,
            ihb p body l hm (hb' q body' l' hm') (List.cons.inj hrest).1⟩
    | _ => cases hclass

/-! ## Programs -/

theorem Statement.IsPlain.isShown {s : Statement} (h : s.IsPlain) :
    (Node.statement s).IsShown := by
  cases h with
  | binding | expression => exact ⟨_, rfl, rfl⟩

theorem Statement.IsPlain.isPlain_form {s : Statement} (h : s.IsPlain) :
    (s.form false).IsPlain := by
  refine h.isShown.isPlain ?_
  cases h with
  | binding he =>
    exact List.forall_mem_cons.mpr ⟨.text, List.forall_mem_singleton.mpr he.isPlain_form⟩
  | expression he => exact List.forall_mem_singleton.mpr he.isPlain_form

theorem Statement.IsPlain.equalBy_of_nested {s s' : Statement} (h : s.IsPlain) (h' : s'.IsPlain)
    (hn : (s.form false).nested = (s'.form false).nested) :
    s.equalBy Constant.sameText s' = true := by
  obtain ⟨hclass, hparts⟩ := h.isShown.eq_of_nested h'.isShown hn
  cases h with
  | binding he =>
    cases h' with
    | binding he' =>
      obtain ⟨hname, hrest⟩ := List.cons.inj hparts
      exact Bool.and_eq_true_iff.mpr ⟨beq_iff_eq.mpr (Form.nested_text_inj.mp hname),
        he.equalBy_of_nested he' (List.cons.inj hrest).1⟩
    | expression => cases hclass
  | expression he =>
    cases h' with
    | binding => cases hclass
    | expression he' => exact he.equalBy_of_nested he' (List.cons.inj hparts).1

theorem Program.IsPlain.isPlain_form {p : Program} (h : p.IsPlain) :
    ((Node.program p).form false).IsPlain :=
  (Node.isShown_program p).isPlain (List.forall_mem_map.mpr fun s hs => (h s hs).isPlain_form)

theorem Program.IsPlain.equalBy_of_nested {p q : Program} (h : p.IsPlain) (h' : q.IsPlain)
    (hn : ((Node.program p).form false).nested = ((Node.program q).form false).nested) :
    p.equalBy Constant.sameText q = true := by
  obtain ⟨-, hparts⟩ := (Node.isShown_program p).eq_of_nested (Node.isShown_program q) hn
  refine statementsEqualBy_of_forall₂ _ (forall₂_of_nested hparts fun s hs t ht heq => ?_)
  exact (h s hs).equalBy_of_nested (h' t ht) heq

/-- A program that was read or compiled has a dump on one line, and if two such programs have the
same dump they are equal, up to floats with the same text. -/
theorem Program.dump_unambiguous {p q : Program} (hp : p.Arises) (hq : q.Arises) :
    (Node.program p).noDump? false = none ∧
      ((Node.program p).dump false false = (Node.program q).dump false false →
        p.equalBy Constant.sameText q = true) := by
  have hplain := hp.isPlain.isPlain_form
  refine ⟨?_, fun h => ?_⟩
  · obtain ⟨hcomplete, hwritable⟩ := hplain.isComplete
    simp [Node.noDump?, hcomplete, hwritable]
  · exact hp.isPlain.equalBy_of_nested hq.isPlain
      (hplain.nested_eq hq.isPlain.isPlain_form h)

/-- A number that is spelled in two ways, in a text that is read and in one that is compiled. -/
theorem Program.dump_unambiguous_spelling : ∃ p q,
    Program.parse "a.ml" "f ~x:0x10;" = .ok p ∧
      compile .standard "b.ml" " f  ~x:16 ;" = .ok q ∧
      (Node.program p).dump false false = (Node.program q).dump false false ∧
      p.equalBy Constant.sameText q = true := by
  have hcheck : ((Program.parse "a.ml" "f ~x:0x10;").toOption.any fun p =>
      (compile .standard "b.ml" " f  ~x:16 ;").toOption.any fun q =>
        (Node.program p).dump false false == (Node.program q).dump false false) = true := by
    decide +kernel
  obtain ⟨p, hp, hq⟩ := exists_ok_of_any hcheck
  obtain ⟨q, hq, hdump⟩ := exists_ok_of_any hq
  have heq := beq_iff_eq.mp hdump
  exact ⟨p, q, hp, hq, heq, (dump_unambiguous ⟨_, _, .inl hp⟩ ⟨_, _, .inr hq⟩).2 heq⟩

end MessageLang
