import MessageLang.Proofs.Grammar.Reading
import MessageLang.Proofs.Syntax.Readable
/-!
# The trees that are read

What a state holds are readable trees, and every token keeps it so. Bad literals do no harm: what
stands for them is readable, too.

* `State.IsReadable`: the invariant.
* `State.IsReadable.shift`: one token keeps it.
* `Program.parse_isReadable`, `Expr.parse_isReadable`: what is read is a readable tree.
-/
namespace MessageLang

/-! ## The invariant -/

def Frame.IsReadable : Frame → Prop
  | statement | paren _ | typeParen _ => True
  | binding _ name => IsWordName name
  | binary left _ => left.node.IsReadable
  | argument f args label =>
    f.node.IsReadable ∧ (∀ a ∈ args, a.IsReadable) ∧ label.IsReadable
  | tuple _ es => es ≠ [] ∧ ∀ e ∈ es, e.IsReadable
  | list _ es => ∀ e ∈ es, e.IsReadable
  | extension _ name => Terminal.IsDotted name.toList
  | constraint _ e => e.IsReadable
  | typeTuple _ ts => ts ≠ [] ∧ ∀ t ∈ ts, t.IsReadable

def Mode.IsReadable : Mode → Prop
  | bindingEquals _ name => IsWordName name
  | applied f args _ => f.node.IsReadable ∧ ∀ a ∈ args, a.IsReadable
  | number e => e.node.IsReadable
  | typed t => t.node.IsReadable
  | _ => True

namespace State

/-- All trees that a state holds are readable. -/
structure IsReadable (s : State) : Prop where
  statements : ∀ x ∈ s.statements, x.IsReadable
  frames : ∀ f ∈ s.frames, f.IsReadable
  mode : s.mode.IsReadable

variable {file : String} {s s' : State} {fs : List Frame} {t : Token}

theorem initial_isReadable : initial.IsReadable := by
  refine ⟨fun _ h => ?_, fun _ h => ?_, trivial⟩ <;> cases h

theorem settle_isReadable (file : String) (k : Nat) {e : Spanned Expr} (he : e.node.IsReadable)
    (hf : ∀ f ∈ fs, f.IsReadable) :
    (settle file k e fs).1.node.IsReadable ∧ ∀ f ∈ (settle file k e fs).2, f.IsReadable := by
  induction fs generalizing e with
  | nil => exact ⟨he, hf⟩
  | cons f fs ih =>
    obtain ⟨hf₁, hf₂⟩ := List.forall_mem_cons.mp hf
    unfold settle
    split
    · rename_i left op rest heq
      cases heq
      split
      · exact ih (.binary hf₁ he) hf₂
      · exact ⟨he, hf⟩
    · exact ⟨he, hf⟩

theorem application_isReadable {f : Spanned Expr} {args : List Argument} {last : Position}
    (hf : f.node.IsReadable) (ha : ∀ a ∈ args, a.IsReadable) :
    (application file f args last).node.IsReadable := by
  unfold application
  split
  · exact hf
  · rename_i hn
    refine Expr.IsReadable.apply_of_arguments hf (fun h => hn (List.reverse_eq_nil_iff.mp h)) ?_
    exact fun a h => ha a (List.mem_reverse.mp h)

theorem IsReadable.complete {e : Spanned Expr} (h : s.IsReadable) (he : e.node.IsReadable)
    (hf : ∀ f ∈ fs, f.IsReadable) : (s.complete e fs).IsReadable := by
  unfold State.complete
  split
  · obtain ⟨⟨hg, ha, hl⟩, hf⟩ := List.forall_mem_cons.mp hf
    exact ⟨h.statements, hf, hg,
      List.forall_mem_cons.mpr ⟨Argument.isReadable_mk hl he, ha⟩⟩
  · exact ⟨h.statements, hf, he, fun _ h => by cases h⟩

/-- A literal, or what stands for it where it is bad. -/
theorem IsReadable.decoded {l : Location} {c : Except LiteralError Constant} (h : s.IsReadable)
    (hc : ∀ d, c = .ok d → d.IsLiteral) :
    (s.decoded l c).1.IsReadable ∧ (s.decoded l c).2.IsReadable := by
  cases c with
  | error e => exact ⟨⟨h.statements, h.frames, h.mode⟩, .unit⟩
  | ok d => exact ⟨h, .constant (hc d rfl)⟩

theorem IsReadable.constant {decode : Option Location → Except LiteralError Constant}
    (h : s.IsReadable) (hf : ∀ f ∈ fs, f.IsReadable)
    (hc : ∀ l d, decode l = .ok d → d.IsLiteral) :
    (State.constant file s t fs decode).IsReadable := by
  obtain ⟨hs, he⟩ := h.decoded (l := .between file t.first t.last) (hc _)
  exact hs.complete he hf

theorem IsReadable.startSimple (h : s.IsReadable) (ht : t.terminal.IsLexeme t.text)
    (hf : ∀ f ∈ fs, f.IsReadable) (hs : s.startSimple file t fs = some s') : s'.IsReadable := by
  unfold State.startSimple at hs
  split at hs
  all_goals
    rename_i hk
    first
      | rw [hk] at ht
      | skip
    cases hs
  · exact h.constant hf fun l d hd => Literal.isLiteral_of_integer ht hd
  · refine h.constant hf fun l d hd => ?_
    cases hd
    exact .float ht
  · refine h.constant hf fun l d hd => ?_
    obtain ⟨b, hb, hbody⟩ := ht
    obtain ⟨chars, hdec, rfl⟩ := Literal.quoted_ok hd
    rw [hb, Literal.between_quotes] at hdec
    obtain ⟨c, rfl⟩ := Text.Escape.decode_charBody hbody hdec
    exact .char
  · refine h.constant hf fun l d hd => ?_
    obtain ⟨chars, -, rfl⟩ := Literal.quoted_ok hd
    exact .string
  · refine h.complete (.identifier ?_) hf
    rwa [String.toList_ofList]
  · exact ⟨h.statements, List.forall_mem_cons.mpr ⟨trivial, hf⟩, trivial⟩
  · refine ⟨h.statements, List.forall_mem_cons.mpr ⟨?_, hf⟩, trivial⟩
    exact fun _ h => by cases h
  · exact ⟨h.statements, hf, trivial⟩

theorem IsReadable.closeEmpty (h : s.IsReadable) (hs : s.closeEmpty file t = some s') :
    s'.IsReadable := by
  have hf := h.frames
  unfold State.closeEmpty at hs
  split at hs <;> rename_i hk
  · rw [hk] at hf
    cases hs
    exact h.complete .unit (List.forall_mem_cons.mp hf).2
  · rw [hk] at hf
    cases hs
    obtain ⟨he, hf⟩ := List.forall_mem_cons.mp hf
    exact h.complete (.list fun e hm => he e (List.mem_reverse.mp hm)) hf
  · rw [hk] at hf
    cases hs
    obtain ⟨hn, hf⟩ := List.forall_mem_cons.mp hf
    exact h.complete (.extension hn) hf
  · cases hs

theorem IsReadable.startExpression (h : s.IsReadable) (ht : t.terminal.IsLexeme t.text)
    (hf : ∀ f ∈ fs, f.IsReadable) (hs : s.startExpression file t fs = some s') :
    s'.IsReadable := by
  unfold State.startExpression at hs
  split at hs
  · cases hs
    exact ⟨h.statements, hf, trivial⟩
  · exact h.startSimple ht hf hs

/-- One more element behind those that stand in reverse. -/
theorem forall_mem_reverse_cons {α : Type} {p : α → Prop} {a : α} {as : List α} (ha : p a)
    (has : ∀ x ∈ as, p x) : ∀ x ∈ (a :: as).reverse, p x :=
  fun x hx => List.forall_mem_cons.mpr ⟨ha, has⟩ x (List.mem_reverse.mp hx)

theorem two_le_length_reverse_cons {α : Type} {a : α} {as : List α} (h : as ≠ []) :
    2 ≤ (a :: as).reverse.length := by
  rw [List.length_reverse, List.length_cons]
  have := List.length_pos_iff.mpr h
  omega

theorem IsReadable.endExpression {e : Spanned Expr} (h : s.IsReadable) (he : e.node.IsReadable)
    (hs : s.endExpression file t e = some s') : s'.IsReadable := by
  unfold State.endExpression at hs
  split at hs
  · rename_i op _
    obtain ⟨hl, hf⟩ := settle_isReadable file (closingLevel op) he h.frames
    cases hs
    exact ⟨h.statements, List.forall_mem_cons.mpr ⟨hl, hf⟩, trivial⟩
  · obtain ⟨he', hf⟩ := settle_isReadable file 1 he h.frames
    dsimp only at hs
    revert hs he' hf
    generalize settle file 1 e s.frames = pair
    obtain ⟨e, frames⟩ := pair
    intro hs he hf
    dsimp only at he hf hs
    split at hs
    case h_11 => cases hs
    all_goals
      cases hs
      obtain ⟨hx, hf⟩ := List.forall_mem_cons.mp hf
    · exact ⟨List.forall_mem_cons.mpr ⟨.expression he, h.statements⟩, hf, trivial⟩
    · exact ⟨List.forall_mem_cons.mpr ⟨.binding hx he, h.statements⟩, hf, trivial⟩
    · exact ⟨h.statements,
        List.forall_mem_cons.mpr ⟨List.forall_mem_cons.mpr ⟨he, hx⟩, hf⟩, trivial⟩
    · refine ⟨h.statements, List.forall_mem_cons.mpr ⟨⟨List.cons_ne_nil _ _, ?_⟩, hf⟩, trivial⟩
      exact List.forall_mem_singleton.mpr he
    · exact ⟨h.statements, List.forall_mem_cons.mpr
        ⟨⟨List.cons_ne_nil _ _, List.forall_mem_cons.mpr ⟨he, hx.2⟩⟩, hf⟩, trivial⟩
    · exact ⟨h.statements, List.forall_mem_cons.mpr ⟨he, hf⟩, trivial⟩
    · exact h.complete he hf
    · exact h.complete
        (.tuple (two_le_length_reverse_cons hx.1) (forall_mem_reverse_cons he hx.2)) hf
    · exact h.complete (.list (forall_mem_reverse_cons he hx)) hf
    · exact h.complete (.payload hx he) hf

/-- The name behind a mark. -/
theorem isWordName_labelName {n : List Char} {mark : Char} {p q : Position}
    {k : Terminal} (hn : Terminal.IsRun Terminal.isLower Terminal.isNameChar n) :
    IsWordName (labelName false ⟨k, mark :: n, p, q⟩) ∧
      IsWordName (labelName true ⟨k, mark :: (n ++ [':']), p, q⟩) := by
  constructor
  · simpa only [IsWordName, labelName, Bool.false_eq_true, if_false, List.drop_succ_cons,
      List.drop_zero, String.toList_ofList] using hn
  · simpa only [IsWordName, labelName, if_true, List.drop_succ_cons, List.drop_zero,
      List.dropLast_concat, String.toList_ofList] using hn

theorem IsReadable.continueApplication {f : Spanned Expr} {args : List Argument}
    {last : Position} (h : s.IsReadable) (ht : t.terminal.IsLexeme t.text)
    (hf : f.node.IsReadable) (ha : ∀ a ∈ args, a.IsReadable)
    (hs : s.continueApplication file t f args last = some s') : s'.IsReadable := by
  obtain ⟨k, w, p, q⟩ := t
  have waiting {label : Label} (hl : label.IsReadable) :
      IsReadable { s with frames := .argument f args label :: s.frames, mode := .simple } :=
    ⟨h.statements, List.forall_mem_cons.mpr ⟨⟨hf, ha, hl⟩, h.frames⟩, trivial⟩
  have named {label : Label} {e : Expr} (hl : label.IsReadable) (he : e.IsReadable) :
      IsReadable { s with mode := .applied f (.mk label e :: args) q } :=
    ⟨h.statements, h.frames, hf,
      List.forall_mem_cons.mpr ⟨Argument.isReadable_mk hl he, ha⟩⟩
  have word {name : String} {l : Option Location} (hn : IsWordName name) :
      (Expr.identifier name l).IsReadable :=
    .identifier (.word (hn.mono (fun c => Terminal.isLetter_of_isLower)))
  unfold State.continueApplication at hs
  dsimp only at ht hs
  split at hs
  · obtain ⟨n, rfl, hn⟩ := ht
    cases hs
    exact waiting (isWordName_labelName hn).2
  · obtain ⟨n, rfl, hn⟩ := ht
    cases hs
    exact waiting (isWordName_labelName hn).2
  · obtain ⟨n, rfl, hn⟩ := ht
    cases hs
    exact named (isWordName_labelName hn).1 (word (isWordName_labelName hn).1)
  · obtain ⟨n, rfl, hn⟩ := ht
    cases hs
    exact named (isWordName_labelName hn).1 (word (isWordName_labelName hn).1)
  · split at hs
    · rename_i hst
      cases hs
      have hframe : (Frame.argument f args .positional).IsReadable := ⟨hf, ha, trivial⟩
      exact h.startSimple ht (List.forall_mem_cons.mpr ⟨hframe, h.frames⟩) hst
    · exact h.endExpression (application_isReadable hf ha) hs

theorem closeTypeTuple_isReadable (file : String) {ty : Spanned TypeExpr} (hty : ty.node.IsReadable)
    (hf : ∀ f ∈ fs, f.IsReadable) :
    (closeTypeTuple file ty fs).1.node.IsReadable ∧
      ∀ f ∈ (closeTypeTuple file ty fs).2, f.IsReadable := by
  unfold closeTypeTuple
  split
  · obtain ⟨⟨hn, hts⟩, hf⟩ := List.forall_mem_cons.mp hf
    exact ⟨.tuple (two_le_length_reverse_cons hn) (forall_mem_reverse_cons hty hts), hf⟩
  · exact ⟨hty, hf⟩

theorem IsReadable.continueType {ty : Spanned TypeExpr} (h : s.IsReadable)
    (ht : t.terminal.IsLexeme t.text) (hty : ty.node.IsReadable)
    (hs : s.continueType file t ty = some s') : s'.IsReadable := by
  have hf := h.frames
  unfold State.continueType at hs
  split at hs <;> rename_i hk
  · rw [hk] at ht
    cases hs
    refine ⟨h.statements, hf, TypeExpr.IsReadable.applied ?_ hty⟩
    rwa [String.toList_ofList]
  · split at hs
    · rename_i heq
      rw [heq] at hf
      cases hs
      obtain ⟨⟨-, hts⟩, hf⟩ := List.forall_mem_cons.mp hf
      exact ⟨h.statements, List.forall_mem_cons.mpr
        ⟨⟨List.cons_ne_nil _ _, List.forall_mem_cons.mpr ⟨hty, hts⟩⟩, hf⟩, trivial⟩
    · cases hs
      exact ⟨h.statements, List.forall_mem_cons.mpr
        ⟨⟨List.cons_ne_nil _ _, List.forall_mem_singleton.mpr hty⟩, hf⟩, trivial⟩
  · obtain ⟨hty', hf'⟩ := closeTypeTuple_isReadable file hty hf
    revert hs hty' hf'
    generalize closeTypeTuple file ty s.frames = pair
    obtain ⟨ty, frames⟩ := pair
    intro hs hty hf
    dsimp only at hty hf hs
    split at hs
    · cases hs
      exact ⟨h.statements, (List.forall_mem_cons.mp hf).2, hty⟩
    · cases hs
      obtain ⟨he, hf⟩ := List.forall_mem_cons.mp hf
      exact h.complete (.constraint he hty) hf
    · cases hs
  · cases hs

theorem IsReadable.signedNumber {start : Position} {negative : Bool} (h : s.IsReadable)
    (ht : t.terminal.IsLexeme t.text) (hs : s.signedNumber file t start negative = some s') :
    s'.IsReadable := by
  have finish {c : Except LiteralError Constant} (l : Location)
      (hc : ∀ d, c = .ok d → d.IsLiteral) :
      IsReadable { (s.decoded l c).1 with
        mode := .number ⟨(s.decoded l c).2, start, t.last⟩ } := by
    obtain ⟨h', he⟩ := h.decoded (l := l) hc
    exact ⟨h'.statements, h'.frames, he⟩
  unfold State.signedNumber at hs
  split at hs <;> rename_i hk
  · rw [hk] at ht
    cases hs
    exact finish _ fun d hd => Literal.isLiteral_of_integer ht hd
  · rw [hk] at ht
    cases hs
    have hfloat {l : Option Location} (d : Constant)
        (hd : Except.ok (Literal.float negative t.text l) = (.ok d : Except LiteralError _)) :
        d.IsLiteral := by
      cases hd
      exact .float ht
    exact finish (.between file start t.last) hfloat
  · cases hs

/-- One token keeps the trees of a state readable. -/
theorem IsReadable.shift (h : s.IsReadable) (ht : t.terminal.IsLexeme t.text)
    (hs : s.shift file t = some s') : s'.IsReadable := by
  have hm := h.mode
  unfold State.shift at hs
  split at hs <;> rename_i hmode <;> rw [hmode] at hm
  · split at hs
    · cases hs
      exact ⟨h.statements, h.frames, trivial⟩
    · have hframe : Frame.statement.IsReadable := trivial
      exact h.startExpression ht (List.forall_mem_cons.mpr ⟨hframe, h.frames⟩) hs
  · split at hs <;> rename_i hk
    · rw [hk] at ht
      cases hs
      refine ⟨h.statements, h.frames, ?_⟩
      rw [Mode.IsReadable, IsWordName, String.toList_ofList]
      exact ht
    · cases hs
  · split at hs
    · cases hs
      exact ⟨h.statements, List.forall_mem_cons.mpr ⟨hm, h.frames⟩, trivial⟩
    · cases hs
  · split at hs
    · rename_i hst
      cases hs
      exact h.startExpression ht h.frames hst
    · exact h.closeEmpty hs
  · exact h.startSimple ht h.frames hs
  · exact h.signedNumber ht hs
  · exact h.continueApplication ht hm.1 hm.2 hs
  · exact h.endExpression hm hs
  · split at hs <;> rename_i hk
    · rw [hk] at ht
      cases hs
      refine ⟨h.statements, List.forall_mem_cons.mpr ⟨?_, h.frames⟩, trivial⟩
      rw [Frame.IsReadable, String.toList_ofList]
      exact ht
    · cases hs
  · split at hs <;> rename_i hk
    · rw [hk] at ht
      cases hs
      refine ⟨h.statements, h.frames, TypeExpr.IsReadable.name ?_⟩
      rwa [String.toList_ofList]
    · cases hs
      refine ⟨h.statements, List.forall_mem_cons.mpr ⟨trivial, h.frames⟩, ?_⟩
      rw [hmode]
      trivial
    · cases hs
  · exact h.continueType ht hm hs

end State

/-! ## What is read -/

variable {file source : String}

/-- Reading keeps the trees of a state readable. -/
theorem readFrom_isReadable {s s' : State} {last p : Position} {cs : List Char}
    (h : s.IsReadable) (hr : readFrom file s last p cs = .ok s') : s'.IsReadable := by
  -- a token drops a lexeme of any width, so the induction is on the length of the text
  generalize hn : cs.length = n
  induction n using Nat.strongRecOn generalizing s last p cs with
  | _ n ih =>
    cases cs with
    | nil =>
      rw [readFrom] at hr
      split at hr
      · cases hr
        exact h
      · cases hr
    | cons c cs =>
      rw [readFrom] at hr
      split at hr
      · rename_i t hf
        have hpos := Terminal.width_pos_of_first? hf
        have hlt : ((c :: cs).drop (t.width (c :: cs))).length < n := by
          rw [← hn, List.length_drop, List.length_cons]
          omega
        cases hl : t.isLayout with
        | true =>
          simp only [hl, if_true] at hr
          exact ih _ hlt h hr rfl
        | false =>
          simp only [hl, Bool.false_eq_true, if_false] at hr
          split at hr
          · rename_i st hs
            obtain ⟨w, rest, he, hw, hlen⟩ :=
              Terminal.exists_isLexeme hl (Nat.pos_iff_ne_zero.mp hpos)
            have htake : (c :: cs).take (t.width (c :: cs)) = w := by
              rw [hlen, he, List.take_left]
            refine ih _ hlt (h.shift ?_ hs) hr rfl
            show t.IsLexeme ((c :: cs).take (t.width (c :: cs)))
            rw [htake]
            exact hw
          · cases hr
      · split at hr <;> cases hr

/-- A result that is tested and passes is there. -/
theorem exists_ok_of_any {ε α : Type} {x : Except ε α} {p : α → Bool}
    (h : x.toOption.any p = true) : ∃ a, x = .ok a ∧ p a = true := by
  cases x with
  | error e => cases h
  | ok a => exact ⟨a, rfl, h⟩

/-- What a program is read as is readable. -/
theorem Program.parse_isReadable {p : Program} (h : Program.parse file source = .ok p) :
    p.IsReadable := by
  unfold Program.parse at h
  cases hr : readFrom file .initial .start .start source.toList with
  | error e =>
    rw [hr] at h
    cases h
  | ok st =>
    rw [hr] at h
    simp only [bind, Except.bind] at h
    split at h
    · cases h
    · split at h
      · cases h
      · cases h
        intro x hx
        exact (readFrom_isReadable State.initial_isReadable hr).statements x
          (List.mem_reverse.mp hx)

/-- What a single expression is read as is readable. -/
theorem Expr.parse_isReadable {e : Expr} (h : Expr.parse file source = .ok e) :
    e.IsReadable := by
  unfold Expr.parse at h
  cases hp : Program.parse file (withSemicolon source) with
  | error err =>
    rw [hp] at h
    cases h
  | ok p =>
    rw [hp] at h
    simp only [bind, Except.bind] at h
    split at h
    · rename_i l hs
      cases h
      have hr := Program.parse_isReadable hp (.expression e l)
        (by rw [hs]; exact List.mem_cons_self)
      cases hr with
      | expression he => exact he
    · cases h

end MessageLang
