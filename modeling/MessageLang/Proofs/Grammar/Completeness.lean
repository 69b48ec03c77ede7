import MessageLang.Proofs.Grammar.Shifting
/-!
# What the grammar derives is read

The tokens of a derivation are shifted one after the other, and leave the tree that the derivation
stands for. The induction is on the derivation: what the tokens of a part do is stated for every
state in which the part may stand.

* `Phrase.Runs`: what the tokens of a phrase do to a state.
* `Derives.runs`: the tokens of a derivation do that.
* `Derives.shiftAll`: the tokens of a program leave its statements.
* `Derives.unique`: a list of tokens is read as one program only.
-/
namespace MessageLang

variable {file : String} {s s' : State} {t z : Token} {ts ts' : List Token}
  {bad bad' : List BadLiteral} {l : Nat} {e : Spanned Expr} {fs : List Frame}

/-! ## First words -/

/-- The name that tokens start with, if they start with one. -/
def firstWord : List Token → Option String
  | t :: _ => if t.terminal = .longName then some (String.ofList t.text) else none
  | [] => none

theorem firstWord_cons (h : t.terminal = .longName) :
    firstWord (t :: ts) = some (String.ofList t.text) := if_pos h

theorem firstWord_append (h : ts ≠ []) : firstWord (ts ++ ts') = firstWord ts := by
  cases ts with
  | nil => exact absurd rfl h
  | cons t ts => rfl

theorem firstWord_ne_let (h : ∀ t, ts.head? = some t → t.isLet = false) :
    firstWord ts ≠ some "let" := by
  cases ts with
  | nil =>
    intro hword
    cases hword
  | cons t ts =>
    intro hword
    have hlet := h t rfl
    simp only [firstWord] at hword
    split at hword
    · rename_i hk
      have htext : t.text = ['l', 'e', 't'] := by
        rw [← String.toList_ofList (l := t.text), Option.some.inj hword]
        rfl
      rw [Token.isLet, hk, htext] at hlet
      cases hlet
    · cases hword

/-- The phrases that no empty list of tokens derives. -/
def Phrase.isFilled : Phrase → Bool
  | program _ | statements _ => false
  | _ => true

theorem Derives.ne_nil {phrase : Phrase} (h : Derives file phrase ts bad)
    (hp : phrase.isFilled = true) : ts ≠ [] := by
  induction h with
  | program | noStatement | nextStatement => cases hp
  | level _ ih | alone _ ih | application _ _ ih | function _ ih | positional _ ih | element _ ih
  | type _ ih | typeTuple _ _ ih | component _ ih | typeAtom _ ih => exact ih rfl
  | nextArgument _ _ ih => exact List.append_ne_nil_of_left_ne_nil (ih rfl) _
  | expression | binary | nextElement | nextComponent | typeApp =>
    exact List.append_ne_nil_of_right_ne_nil _ (List.cons_ne_nil _ _)
  | _ => exact List.cons_ne_nil _ _

/-! ## What an expression leaves -/

/-- The state `s'` holds the operand `e` of a level over the open constructs `fs`, and for the rest
what the state `s` held: closing the operators of the level leaves `e`. -/
structure Leaves (file : String) (l : Nat) (fs : List Frame) (e : Spanned Expr) (s s' : State) :
    Prop where
  statements : s'.statements = s.statements
  fault : s'.fault = s.fault
  operand : ∃ o, s'.operand? file = some o ∧
    ∀ k, k ≤ l → State.settle file k o s'.frames = State.settle file k e fs

/-- The next token finds the expression complete. -/
theorem Leaves.shift (h : Leaves file l fs e s s') (hl : 1 ≤ l)
    (ht : State.endsOperand t.terminal = true)
    (hop : ∀ op, State.operator? t = some op → op.leftOperand ≤ l) :
    s'.shift file t = { s with frames := fs }.endExpression file t e := by
  obtain ⟨o, ho, hclose⟩ := h.operand
  rw [State.shift_of_operand? ho ht]
  refine State.endExpression_congr h.statements h.fault (fun op hop' => ?_) (hclose 1 hl)
  rw [State.closingLevel_eq]
  exact hclose _ (hop op hop')

/-- A token that is no operator finds the expression complete. -/
theorem Leaves.shift_end (h : Leaves file 1 fs e s s') (ht : State.endsOperand t.terminal = true)
    (hop : State.operator? t = none) :
    s'.shift file t = { s with frames := fs }.endExpression file t e := by
  refine h.shift (Nat.le_refl 1) ht fun op hsome => ?_
  rw [hop] at hsome
  cases hsome

/-! ## What the tokens of a phrase do -/

/-- The open construct that holds the elements of a series so far, last first. -/
def openSeries (separator : Terminal) (start : Position) (elements : List Expr) : Frame :=
  match separator, elements with
  | .comma, [] => .paren start
  | .comma, elements => .tuple start elements
  | _, elements => .list start elements

/-- The open constructs with the elements of a tuple type so far, last first. -/
def openTypes (first : Position) (elements : List TypeExpr) (fs : List Frame) : List Frame :=
  match elements with
  | [] => fs
  | elements => .typeTuple first elements :: fs

/-- No tuple type is open on top. -/
def NoTypeTuple (fs : List Frame) : Prop :=
  ∀ start elements rest, fs ≠ .typeTuple start elements :: rest

/-- What the tokens of a phrase do to a state in which the phrase may stand. -/
def Phrase.Runs (file : String) (ts : List Token) (bad : List BadLiteral) : Phrase → Prop
  | .program p => ∀ s : State, s.mode = .statement →
    s.shiftAll file ts =
      some (State.blamed { s with statements := p.statements.reverse ++ s.statements } bad)
  | .statements ss => ∀ s : State, s.mode = .statement →
    s.shiftAll file ts =
      some (State.blamed { s with statements := ss.reverse ++ s.statements } bad)
  | .statement x => ∀ s : State, s.mode = .statement →
    s.shiftAll file ts = some (State.blamed { s with statements := x :: s.statements } bad)
  | .expr l e => ∀ (s : State) (fs : List Frame), s.OpensExpression (firstWord ts) fs →
    Takes l fs → ∃ s', s.shiftAll file ts = some s' ∧ Leaves file l fs e (s.blamed bad) s'
  | .spine f args last => ∀ (s : State) (fs : List Frame), s.OpensExpression (firstWord ts) fs →
    Takes 5 fs → s.shiftAll file ts =
      some (State.blamed { s with frames := fs, mode := .applied f args.reverse last } bad)
  | .argument a last => ∀ (s : State) (f : Spanned Expr) (args : List Argument) (p : Position),
    s.mode = .applied f args p →
    s.shiftAll file ts = some (State.blamed { s with mode := .applied f (a :: args) last } bad)
  | .simple e => ∀ (s : State) (fs : List Frame), s.OpensSimple (firstWord ts) fs →
    s.shiftAll file ts = some ((s.blamed bad).complete e fs)
  | .series separator init e => separator = .comma ∨ separator = .semicolon →
    ∀ (s : State) (start : Position) (fs : List Frame), s.mode = .expression →
      s.frames = openSeries separator start [] :: fs → ∃ s', s.shiftAll file ts = some s' ∧
        Leaves file 1 (openSeries separator start init.reverse :: fs) e (s.blamed bad) s'
  | .type ty => ∀ s : State, s.mode = .type → NoTypeTuple s.frames →
    ∃ o fs, s.shiftAll file ts = some { s with frames := fs, mode := .typed o } ∧
      State.closeTypeTuple file o fs = (ty, s.frames)
  | .typeSeries first init ty => (init = [] → ty.first = first) ∧
    ∀ s : State, s.mode = .type → NoTypeTuple s.frames → s.shiftAll file ts =
      some { s with frames := openTypes first init.reverse s.frames, mode := .typed ty }
  | .typeApp ty | .typeAtom ty => ∀ s : State, s.mode = .type →
    s.shiftAll file ts = some { s with mode := .typed ty }

namespace Phrase

/-! ## Statements -/

theorem runs_noStatement : (statements []).Runs file [] [] := by
  intro s _
  rw [State.blamed_nil]
  rfl

theorem runs_nextStatement {ss : List Statement} {x : Statement}
    (hs : (statements ss).Runs file ts bad) (hx : (statement x).Runs file ts' bad') :
    (statements (ss ++ [x])).Runs file (ts ++ ts') (bad ++ bad') := by
  intro s hm
  rw [State.shiftAll_append_of (hs s hm),
    hx (State.blamed { s with statements := ss.reverse ++ s.statements } bad) hm,
    State.blamed_append, List.reverse_append]
  rfl

/-- An expression up to the token that ends it. -/
theorem Runs.close (h : (expr 1 e).Runs file ts bad) (hm : s.mode = .expression)
    (hf : Takes 1 s.frames) (hz : State.endsOperand z.terminal = true)
    (hop : State.operator? z = none) :
    s.shiftAll file (ts ++ [z]) = (s.blamed bad).endExpression file z e := by
  have hopen : s.OpensExpression (firstWord ts) s.frames := by
    rw [State.OpensExpression, hm]
  obtain ⟨s', hs', hleaves⟩ := h s s.frames hopen hf
  rw [State.shiftAll_append_of hs', State.shiftAll_singleton,
    hleaves.shift_end hz hop]
  rfl

theorem runs_binding {t n q z : Token} (ht : t.isLet = true) (hn : n.terminal = .name)
    (hq : q.terminal = .equals) (he : (expr 1 e).Runs file ts bad)
    (hz : z.terminal = .semicolon) :
    (statement (.binding (String.ofList n.text) e.node (some (.between file t.first z.last)))).Runs
      file (t :: n :: q :: (ts ++ [z])) bad := by
  intro s hm
  have h₁ : s.shift file t = some { s with mode := .bindingName t.first } := by
    simp only [State.shift, hm]
    exact if_pos ht
  have h₂ : State.shift file { s with mode := .bindingName t.first } n =
      some { s with mode := .bindingEquals t.first (String.ofList n.text) } := by
    simp only [State.shift, hn]
  have h₃ : State.shift file { s with mode := .bindingEquals t.first (String.ofList n.text) } q =
      some { s with
        frames := .binding t.first (String.ofList n.text) :: s.frames, mode := .expression } := by
    simp only [State.shift, hq]
  rw [State.shiftAll_cons_of h₁, State.shiftAll_cons_of h₂, State.shiftAll_cons_of h₃,
    Runs.close he rfl (show Takes 1 (.binding _ _ :: _) from Nat.le_refl 1) (by rw [hz]; rfl)
      (by rw [State.operator?, hz])]
  simp only [State.endExpression, State.operator?, hz, State.blamed, State.settle, hm]

theorem runs_expression (hlet : ∀ t, ts.head? = some t → t.isLet = false)
    (he : (expr 1 e).Runs file ts bad) (hz : z.terminal = .semicolon) :
    (statement (.expression e.node (some (.between file e.first z.last)))).Runs
      file (ts ++ [z]) bad := by
  intro s hm
  have hopen : s.OpensExpression (firstWord ts) (.statement :: s.frames) := by
    rw [State.OpensExpression, hm]
    exact ⟨rfl, firstWord_ne_let hlet⟩
  obtain ⟨s', hs', hleaves⟩ := he s _ hopen (Nat.le_refl 1)
  have hop : State.operator? z = none := by rw [State.operator?, hz]
  rw [State.shiftAll_append_of hs', State.shiftAll_singleton,
    hleaves.shift_end (by rw [hz]; rfl) hop]
  simp only [State.endExpression, hop, hz, State.blamed, State.settle, hm]

/-! ## Operators and applications -/

theorem runs_level (h : (expr (l + 1) e).Runs file ts bad) : (expr l e).Runs file ts bad := by
  intro s fs hs hfs
  obtain ⟨s', hs', hleaves⟩ := h s fs hs (hfs.mono (Nat.le_succ l))
  obtain ⟨o, ho, hclose⟩ := hleaves.operand
  exact ⟨s', hs', hleaves.statements, hleaves.fault, o, ho,
    fun k hk => hclose k (Nat.le_succ_of_le hk)⟩

theorem runs_binary {op : Operator} {left right : Spanned Expr} (hts : ts ≠ [])
    (hl : (expr op.leftOperand left).Runs file ts bad) (ht : State.operator? t = some op)
    (hr : (expr op.rightOperand right).Runs file ts' bad') :
    (expr op.level (State.joined file left op right)).Runs file (ts ++ t :: ts') (bad ++ bad') := by
  intro s fs hs hfs
  rw [firstWord_append hts] at hs
  obtain ⟨s₁, hs₁, hleft⟩ := hl s fs hs (hfs.mono op.level_le_leftOperand)
  -- what is open is not closed by the operator, so it waits over it for its right operand
  have hshift : s₁.shift file t =
      some (State.blamed { s with frames := .binary left op :: fs, mode := .expression } bad) := by
    rw [hleft.shift (Nat.le_trans op.one_le_level op.level_le_leftOperand)
      (State.endsOperand_of_operator? ht)
      (fun op' hop' => by rw [ht] at hop'; cases hop'; exact Nat.le_refl _)]
    simp only [State.endExpression, ht, State.closingLevel_eq, State.settle_of_takes hfs]
    rfl
  obtain ⟨s₂, hs₂, hright⟩ := hr
    (State.blamed { s with frames := .binary left op :: fs, mode := .expression } bad)
    (.binary left op :: fs) rfl (Nat.le_refl op.rightOperand)
  obtain ⟨o, ho, hclose⟩ := hright.operand
  refine ⟨s₂, ?_, hright.statements, ?_, o, ho, fun k hk => ?_⟩
  · rw [State.shiftAll_append_of hs₁, State.shiftAll_cons_of hshift, hs₂]
  · rw [hright.fault, State.blamed_append]
    rfl
  · rw [hclose k (Nat.le_trans hk op.level_le_rightOperand), State.settle, if_pos hk]

theorem runs_signed {decode : Literal.Decoder} {c : Token}
    (hc : c.terminal = .sign) (ht : t.number? (c.text == ['-']) = some decode) :
    (expr 4 ⟨Literal.standing decode (.between file c.first t.last), c.first, t.last⟩).Runs file
      [c, t] (Literal.faults decode (.between file c.first t.last)) := by
  intro s fs hs hfs
  let location := Location.between file c.first t.last
  have hrun : s.shiftAll file [c, t] = some { State.blamed s (Literal.faults decode location) with
      frames := fs
      mode := .number ⟨Literal.standing decode location, c.first, t.last⟩ } := by
    rw [State.shiftAll_cons_of (hs.shift_sign hc), State.shiftAll_singleton]
    simp only [State.shift, State.signedNumber_eq, ht, Option.map_some]
    rfl
  exact ⟨_, hrun, rfl, rfl, _, rfl, fun _ _ => rfl⟩

/-- A simple expression waits for arguments, unless it is an argument itself. -/
theorem complete_of_takes (h : Takes 5 fs) (e : Spanned Expr) :
    s.complete e fs = { s with frames := fs, mode := .applied e [] e.last } := by
  unfold State.complete
  split
  · exact absurd (show 6 ≤ 5 from h) (by decide)
  · rfl

theorem runs_alone (h : (simple e).Runs file ts bad) : (expr 5 e).Runs file ts bad := by
  intro s fs hs hfs
  refine ⟨_, h s fs hs.opensSimple, ?_⟩
  rw [complete_of_takes hfs]
  exact ⟨rfl, rfl, _, rfl, fun _ _ => rfl⟩

theorem runs_application {f : Spanned Expr} {args : List Argument} {last : Position}
    (ha : args ≠ []) (h : (spine f args last).Runs file ts bad) :
    (expr 5 ⟨.apply f.node args (some (.between file f.first last)), f.first, last⟩).Runs
      file ts bad := by
  intro s fs hs hfs
  refine ⟨_, h s fs hs hfs, rfl, rfl, _, rfl, fun k _ => ?_⟩
  have happly : State.application file f args.reverse last =
      ⟨.apply f.node args (some (.between file f.first last)), f.first, last⟩ := by
    unfold State.application
    split
    · rename_i hnil
      exact absurd (List.reverse_eq_nil_iff.mp hnil) ha
    · rw [List.reverse_reverse]
  rw [happly]
  rfl

theorem runs_function {f : Spanned Expr} (h : (simple f).Runs file ts bad) :
    (spine f [] f.last).Runs file ts bad := by
  intro s fs hs hfs
  rw [h s fs hs.opensSimple, complete_of_takes hfs]
  rfl

theorem runs_nextArgument {f : Spanned Expr} {args : List Argument} {a : Argument}
    {last last' : Position} (hts : ts ≠ []) (hf : (spine f args last).Runs file ts bad)
    (ha : (argument a last').Runs file ts' bad') :
    (spine f (args ++ [a]) last').Runs file (ts ++ ts') (bad ++ bad') := by
  intro s fs hs hfs
  rw [firstWord_append hts] at hs
  rw [State.shiftAll_append_of (hf s fs hs hfs), ha _ f args.reverse last rfl,
    State.blamed_append, List.reverse_append]
  rfl

theorem runs_positional (h : (simple e).Runs file ts bad) :
    (argument (.mk .positional e.node) e.last).Runs file ts bad := by
  intro s f args p hm
  rw [h s (.argument f args .positional :: s.frames) (by rw [State.OpensSimple, hm])]
  rfl

theorem runs_labelled {label : Label} (ht : t.label? = some label)
    (h : (simple e).Runs file ts bad) :
    (argument (.mk label e.node) e.last).Runs file (t :: ts) bad := by
  intro s f args p hm
  have hshift : s.shift file t =
      some { s with frames := .argument f args label :: s.frames, mode := .simple } := by
    simp only [State.shift, hm]
    unfold Token.label? at ht
    unfold State.continueApplication
    split at ht
    · rename_i hk
      cases ht
      rw [hk]
    · rename_i hk
      cases ht
      rw [hk]
    · cases ht
  rw [State.shiftAll_cons_of hshift,
    h { s with frames := .argument f args label :: s.frames, mode := .simple } _ rfl]
  rfl

theorem runs_punned {label : Label} (ht : t.punned? = some label) :
    (argument (.mk label (.identifier (State.labelName false t) (some (t.region file))))
      t.last).Runs file [t] [] := by
  intro s f args p hm
  rw [State.shiftAll_singleton, State.blamed_nil]
  simp only [State.shift, hm]
  unfold Token.punned? at ht
  unfold State.continueApplication
  split at ht
  · rename_i hk
    cases ht
    rw [hk]
    rfl
  · rename_i hk
    cases ht
    rw [hk]
    rfl
  · cases ht

/-! ## Simple expressions -/

theorem runs_constant {decode : Literal.Decoder}
    (ht : t.literal? = some decode) :
    (simple ⟨Literal.standing decode (t.region file), t.first, t.last⟩).Runs file [t]
      (Literal.faults decode (t.region file)) := by
  intro s fs hs
  obtain ⟨hstart, hname⟩ := State.startsSimple_of_literal? ht
  rw [State.shiftAll_singleton, hs.shift hstart (fun h => absurd h hname),
    State.startSimple_literal ht]

theorem runs_identifier (ht : t.terminal = .longName) :
    (simple ⟨.identifier (String.ofList t.text) (some (t.region file)), t.first, t.last⟩).Runs
      file [t] [] := by
  intro s fs hs
  rw [State.shiftAll_singleton, hs.shift (by rw [ht]; rfl) firstWord_cons, State.blamed_nil]
  simp only [State.startSimple, ht]
  rfl

/-- The first token of a bracket that holds expressions. -/
theorem shift_openParen (ht : t.terminal = .openParen)
    (hs : s.OpensSimple (firstWord (t :: ts)) fs) :
    s.shift file t =
      some { s with frames := openSeries .comma t.first [] :: fs, mode := .expression } := by
  rw [hs.shift (by rw [ht]; rfl) firstWord_cons]
  simp only [State.startSimple, ht]
  rfl

theorem shift_openBracket (ht : t.terminal = .openBracket)
    (hs : s.OpensSimple (firstWord (t :: ts)) fs) :
    s.shift file t =
      some { s with frames := openSeries .semicolon t.first [] :: fs, mode := .expression } := by
  rw [hs.shift (by rw [ht]; rfl) firstWord_cons]
  simp only [State.startSimple, ht]
  rfl

/-- The tokens that a bracket with a name starts with. -/
theorem shiftAll_openExtension {n : Token} (ht : t.terminal = .openExtension)
    (hn : n.terminal = .extensionName) (hs : s.OpensSimple (firstWord (t :: n :: ts)) fs) :
    s.shiftAll file (t :: n :: ts) = State.shiftAll file { s with
      frames := .extension t.first (String.ofList n.text) :: fs, mode := .expression } ts := by
  have h₁ : s.shift file t = some { s with frames := fs, mode := .extensionName t.first } := by
    rw [hs.shift (by rw [ht]; rfl) firstWord_cons]
    simp only [State.startSimple, ht]
  have h₂ : State.shift file { s with frames := fs, mode := .extensionName t.first } n =
      some { s with
        frames := .extension t.first (String.ofList n.text) :: fs, mode := .expression } := by
    simp only [State.shift, hn]
  rw [State.shiftAll_cons_of h₁, State.shiftAll_cons_of h₂]

/-- A bracket that is closed where an expression may start. -/
theorem shift_closeEmpty (hm : s.mode = .expression)
    (ht : t.terminal = .closeParen ∨ t.terminal = .closeBracket) :
    s.shift file t = s.closeEmpty file t := by
  have hnone : s.startExpression file t s.frames = none := by
    rcases ht with ht | ht
    all_goals simp only [State.startExpression, State.startSimple, ht]
  simp only [State.shift, hm, hnone]

theorem runs_paren (ht : t.terminal = .openParen) (he : (expr 1 e).Runs file ts bad)
    (hz : z.terminal = .closeParen) :
    (simple ⟨e.node, t.first, z.last⟩).Runs file (t :: (ts ++ [z])) bad := by
  intro s fs hs
  rw [State.shiftAll_cons_of (shift_openParen ht hs),
    Runs.close he rfl (show Takes 1 (.paren _ :: _) from Nat.le_refl 1) (by rw [hz]; rfl)
      (by rw [State.operator?, hz])]
  simp only [State.endExpression, State.operator?, hz, State.blamed, State.settle, openSeries]
  exact congrArg some (State.complete_congr rfl rfl _ _)

theorem runs_constraint {c : Token} {ty : Spanned TypeExpr} (ht : t.terminal = .openParen)
    (he : (expr 1 e).Runs file ts bad) (hc : c.terminal = .colon)
    (hty : (type ty).Runs file ts' []) (hz : z.terminal = .closeParen) :
    (simple ⟨.constraint e.node ty.node (some (.between file t.first z.last)), t.first,
      z.last⟩).Runs file (t :: (ts ++ c :: (ts' ++ [z]))) bad := by
  intro s fs hs
  have hcolon : State.shiftAll file
      { s with frames := openSeries .comma t.first [] :: fs, mode := .expression } (ts ++ [c]) =
      some (State.blamed { s with
        frames := .constraint t.first e.node :: fs, mode := .type } bad) := by
    rw [Runs.close he rfl (show Takes 1 (.paren _ :: _) from Nat.le_refl 1) (by rw [hc]; rfl)
      (by rw [State.operator?, hc])]
    simp only [State.endExpression, State.operator?, hc, State.blamed, State.settle, openSeries]
  obtain ⟨o, fs', hrun, hclose⟩ := hty
    (State.blamed { s with frames := .constraint t.first e.node :: fs, mode := .type } bad) rfl
    (fun _ _ _ h => by cases h)
  rw [State.shiftAll_cons_of (shift_openParen ht hs), List.append_cons,
    State.shiftAll_append_of hcolon, State.shiftAll_append_of hrun, State.shiftAll_singleton]
  simp only [State.shift, State.continueType, hz, hclose, State.blamed]
  exact congrArg some (State.complete_congr rfl rfl _ _)

theorem runs_unit (ht : t.terminal = .openParen) (hz : z.terminal = .closeParen) :
    (simple ⟨.unit (some (.between file t.first z.last)), t.first, z.last⟩).Runs
      file [t, z] [] := by
  intro s fs hs
  rw [State.shiftAll_cons_of (shift_openParen ht hs), State.shiftAll_singleton,
    shift_closeEmpty rfl (.inl hz), State.blamed_nil]
  simp only [State.closeEmpty, hz, openSeries]
  exact congrArg some (State.complete_congr rfl rfl _ _)

theorem runs_tuple {init : List Expr} (ht : t.terminal = .openParen)
    (he : (series .comma init e).Runs file ts bad) (hi : init ≠ [])
    (hz : z.terminal = .closeParen) :
    (simple ⟨.tuple (init ++ [e.node]) (some (.between file t.first z.last)), t.first,
      z.last⟩).Runs file (t :: (ts ++ [z])) bad := by
  intro s fs hs
  obtain ⟨s', hs', hleaves⟩ := he (.inl rfl)
    { s with frames := openSeries .comma t.first [] :: fs, mode := .expression } t.first fs rfl rfl
  have hopen : openSeries .comma t.first init.reverse = .tuple t.first init.reverse := by
    unfold openSeries
    split
    · rename_i hnil
      exact absurd (List.reverse_eq_nil_iff.mp hnil) hi
    · rfl
    · contradiction
  rw [State.shiftAll_cons_of (shift_openParen ht hs), State.shiftAll_append_of hs',
    State.shiftAll_singleton,
    hleaves.shift_end (by rw [hz]; rfl) (by rw [State.operator?, hz]), hopen]
  simp only [State.endExpression, State.operator?, hz, State.blamed, State.settle,
    List.reverse_cons, List.reverse_reverse]
  exact congrArg some (State.complete_congr rfl rfl _ _)

theorem runs_emptyList (ht : t.terminal = .openBracket) (hz : z.terminal = .closeBracket) :
    (simple ⟨.list [] (some (.between file t.first z.last)), t.first, z.last⟩).Runs
      file [t, z] [] := by
  intro s fs hs
  rw [State.shiftAll_cons_of (shift_openBracket ht hs), State.shiftAll_singleton,
    shift_closeEmpty rfl (.inr hz), State.blamed_nil]
  simp only [State.closeEmpty, hz, openSeries]
  exact congrArg some (State.complete_congr rfl rfl _ _)

theorem runs_list {init : List Expr} (ht : t.terminal = .openBracket)
    (he : (series .semicolon init e).Runs file ts bad) (hz : z.terminal = .closeBracket) :
    (simple ⟨.list (init ++ [e.node]) (some (.between file t.first z.last)), t.first,
      z.last⟩).Runs file (t :: (ts ++ [z])) bad := by
  intro s fs hs
  obtain ⟨s', hs', hleaves⟩ := he (.inr rfl) { s with
    frames := openSeries .semicolon t.first [] :: fs, mode := .expression } t.first fs rfl rfl
  rw [State.shiftAll_cons_of (shift_openBracket ht hs), State.shiftAll_append_of hs',
    State.shiftAll_singleton, hleaves.shift_end (by rw [hz]; rfl) (by rw [State.operator?, hz])]
  simp only [State.endExpression, State.operator?, hz, State.blamed, State.settle, openSeries,
    List.reverse_cons, List.reverse_reverse]
  exact congrArg some (State.complete_congr rfl rfl _ _)

theorem runs_listSemicolon {c : Token} {init : List Expr} (ht : t.terminal = .openBracket)
    (he : (series .semicolon init e).Runs file ts bad) (hc : c.terminal = .semicolon)
    (hz : z.terminal = .closeBracket) :
    (simple ⟨.list (init ++ [e.node]) (some (.between file t.first z.last)), t.first,
      z.last⟩).Runs file (t :: (ts ++ [c, z])) bad := by
  intro s fs hs
  obtain ⟨s', hs', hleaves⟩ := he (.inr rfl) { s with
    frames := openSeries .semicolon t.first [] :: fs, mode := .expression } t.first fs rfl rfl
  have hsemicolon : s'.shift file c = some (State.blamed { s with
      frames := .list t.first (e.node :: init.reverse) :: fs, mode := .expression } bad) := by
    rw [hleaves.shift_end (by rw [hc]; rfl) (by rw [State.operator?, hc])]
    simp only [State.endExpression, State.operator?, hc, State.blamed, State.settle, openSeries]
  rw [State.shiftAll_cons_of (shift_openBracket ht hs), State.shiftAll_append_of hs',
    State.shiftAll_cons_of hsemicolon, State.shiftAll_singleton, shift_closeEmpty rfl (.inr hz)]
  simp only [State.closeEmpty, hz, State.blamed, List.reverse_cons, List.reverse_reverse]
  exact congrArg some (State.complete_congr rfl rfl _ _)

theorem runs_bareExtension {n : Token} (ht : t.terminal = .openExtension)
    (hn : n.terminal = .extensionName) (hz : z.terminal = .closeBracket) :
    (simple ⟨.extension (String.ofList n.text) none (some (.between file t.first z.last)),
      t.first, z.last⟩).Runs file [t, n, z] [] := by
  intro s fs hs
  rw [shiftAll_openExtension ht hn hs, State.shiftAll_singleton, shift_closeEmpty rfl (.inr hz),
    State.blamed_nil]
  simp only [State.closeEmpty, hz]
  exact congrArg some (State.complete_congr rfl rfl _ _)

theorem runs_extension {n : Token} (ht : t.terminal = .openExtension)
    (hn : n.terminal = .extensionName) (he : (expr 1 e).Runs file ts bad)
    (hz : z.terminal = .closeBracket) :
    (simple ⟨.extension (String.ofList n.text) (some e.node)
      (some (.between file t.first z.last)), t.first, z.last⟩).Runs
      file (t :: n :: (ts ++ [z])) bad := by
  intro s fs hs
  rw [shiftAll_openExtension ht hn hs,
    Runs.close he rfl (show Takes 1 (.extension _ _ :: _) from Nat.le_refl 1) (by rw [hz]; rfl)
      (by rw [State.operator?, hz])]
  simp only [State.endExpression, State.operator?, hz, State.blamed, State.settle]
  exact congrArg some (State.complete_congr rfl rfl _ _)

/-! ## Series -/

theorem runs_element {separator : Terminal} (he : (expr 1 e).Runs file ts bad) :
    (series separator [] e).Runs file ts bad := by
  intro hsep s start fs hm hframes
  have hopen : s.OpensExpression (firstWord ts) s.frames := by
    rw [State.OpensExpression, hm]
  have htakes : Takes 1 s.frames := by
    rw [hframes]
    rcases hsep with rfl | rfl <;> exact Nat.le_refl 1
  obtain ⟨s', hs', hleaves⟩ := he s s.frames hopen htakes
  rw [hframes] at hleaves
  exact ⟨s', hs', hleaves⟩

theorem runs_nextElement {separator : Terminal} {init : List Expr} {e' : Spanned Expr}
    (hi : (series separator init e).Runs file ts bad) (ht : t.terminal = separator)
    (he : (expr 1 e').Runs file ts' bad') :
    (series separator (init ++ [e.node]) e').Runs file (ts ++ t :: ts') (bad ++ bad') := by
  intro hsep s start fs hm hframes
  obtain ⟨s₁, hs₁, hleaves⟩ := hi hsep s start fs hm hframes
  have hshift : s₁.shift file t = some (State.blamed { s with
      frames := openSeries separator start (e.node :: init.reverse) :: fs,
      mode := .expression } bad) := by
    rcases hsep with rfl | rfl
    all_goals
      rw [hleaves.shift_end (by rw [ht]; rfl) (by rw [State.operator?, ht])]
      simp only [State.endExpression, State.operator?, ht, State.blamed, openSeries]
    · cases init.reverse <;> rfl
    · rfl
  have htakes : Takes 1 (openSeries separator start (e.node :: init.reverse) :: fs) := by
    rcases hsep with rfl | rfl <;> exact Nat.le_refl 1
  obtain ⟨s₂, hs₂, hleaves₂⟩ := he (State.blamed { s with
    frames := openSeries separator start (e.node :: init.reverse) :: fs,
    mode := .expression } bad) _ rfl htakes
  refine ⟨s₂, ?_, ?_⟩
  · rw [State.shiftAll_append_of hs₁, State.shiftAll_cons_of hshift, hs₂]
  · rw [List.reverse_append, State.blamed_append]
    exact ⟨hleaves₂.statements, hleaves₂.fault, hleaves₂.operand⟩

/-! ## Types -/

theorem closeTypeTuple_of_noTypeTuple (h : NoTypeTuple fs) (ty : Spanned TypeExpr) :
    State.closeTypeTuple file ty fs = (ty, fs) := by
  unfold State.closeTypeTuple
  split
  · exact absurd rfl (h _ _ _)
  · rfl

theorem runs_type {ty : Spanned TypeExpr} (h : (typeApp ty).Runs file ts []) :
    (type ty).Runs file ts [] := by
  intro s hm hframes
  exact ⟨ty, s.frames, h s hm, closeTypeTuple_of_noTypeTuple hframes ty⟩

theorem runs_typeTuple {first : Position} {init : List TypeExpr} {ty : Spanned TypeExpr}
    (h : (typeSeries first init ty).Runs file ts []) (hi : init ≠ []) :
    (type ⟨.tuple (init ++ [ty.node]) (some (.between file first ty.last)), first,
      ty.last⟩).Runs file ts [] := by
  intro s hm hframes
  refine ⟨ty, _, h.2 s hm hframes, ?_⟩
  unfold openTypes
  split
  · rename_i hnil
    exact absurd (List.reverse_eq_nil_iff.mp hnil) hi
  · rw [State.closeTypeTuple, List.reverse_cons, List.reverse_reverse]

theorem runs_component {ty : Spanned TypeExpr} (h : (typeApp ty).Runs file ts []) :
    (typeSeries ty.first [] ty).Runs file ts [] :=
  ⟨fun _ => rfl, fun s hm _ => h s hm⟩

theorem runs_nextComponent {first : Position} {init : List TypeExpr} {ty ty' : Spanned TypeExpr}
    (hi : (typeSeries first init ty).Runs file ts []) (ht : t.terminal = .star)
    (h : (typeApp ty').Runs file ts' []) :
    (typeSeries first (init ++ [ty.node]) ty').Runs file (ts ++ t :: ts') [] := by
  refine ⟨fun hnil => absurd hnil (List.append_ne_nil_of_right_ne_nil _ (List.cons_ne_nil _ _)),
    fun s hm hframes => ?_⟩
  have hshift : State.shift file { s with
      frames := openTypes first init.reverse s.frames, mode := .typed ty } t =
      some { s with
        frames := .typeTuple first (ty.node :: init.reverse) :: s.frames, mode := .type } := by
    simp only [State.shift, State.continueType, ht, openTypes]
    cases hr : init.reverse with
    | nil =>
      rw [hi.1 (List.reverse_eq_nil_iff.mp hr)]
      split
      · rename_i heq
        exact absurd heq (hframes _ _ _)
      · rfl
    | cons t ts => rfl
  rw [State.shiftAll_append_of (hi.2 s hm hframes), State.shiftAll_cons_of hshift, h _ rfl,
    List.reverse_append]
  rfl

theorem runs_typeApp {ty : Spanned TypeExpr} (h : (typeApp ty).Runs file ts [])
    (ht : t.terminal = .longName) :
    (typeApp ⟨.named (String.ofList t.text) [ty.node] (some (.between file ty.first t.last)),
      ty.first, t.last⟩).Runs file (ts ++ [t]) [] := by
  intro s hm
  rw [State.shiftAll_append_of (h s hm), State.shiftAll_singleton]
  simp only [State.shift, State.continueType, ht]

theorem runs_typeName (ht : t.terminal = .longName) :
    (typeAtom ⟨.named (String.ofList t.text) [] (some (t.region file)), t.first, t.last⟩).Runs
      file [t] [] := by
  intro s hm
  rw [State.shiftAll_singleton]
  simp only [State.shift, hm, ht]
  rfl

theorem runs_typeParen {ty : Spanned TypeExpr} (ht : t.terminal = .openParen)
    (h : (type ty).Runs file ts []) (hz : z.terminal = .closeParen) :
    (typeAtom ⟨ty.node, t.first, z.last⟩).Runs file (t :: (ts ++ [z])) [] := by
  intro s hm
  have hopen : s.shift file t = some { s with frames := .typeParen t.first :: s.frames } := by
    simp only [State.shift, hm, ht]
  obtain ⟨o, fs, hrun, hclose⟩ := h { s with frames := .typeParen t.first :: s.frames } hm
    (fun _ _ _ h => by cases h)
  rw [State.shiftAll_cons_of hopen, State.shiftAll_append_of hrun, State.shiftAll_singleton]
  simp only [State.shift, State.continueType, hz, hclose]

end Phrase

/-! ## Derivations -/

/-- The tokens of a derivation do to a state what the tokens of its phrase do. -/
theorem Derives.runs {phrase : Phrase} (h : Derives file phrase ts bad) :
    phrase.Runs file ts bad := by
  induction h with
  | program _ ih => exact ih
  | noStatement => exact Phrase.runs_noStatement
  | nextStatement _ _ ih ih' => exact Phrase.runs_nextStatement ih ih'
  | binding ht hn hq _ hz ih => exact Phrase.runs_binding ht hn hq ih hz
  | expression hlet _ hz ih => exact Phrase.runs_expression hlet ih hz
  | level _ ih => exact Phrase.runs_level ih
  | binary hl ht _ ih ih' => exact Phrase.runs_binary (hl.ne_nil rfl) ih ht ih'
  | signed hs ht => exact Phrase.runs_signed hs ht
  | alone _ ih => exact Phrase.runs_alone ih
  | application ha _ ih => exact Phrase.runs_application ha ih
  | function _ ih => exact Phrase.runs_function ih
  | nextArgument hf _ ih ih' => exact Phrase.runs_nextArgument (hf.ne_nil rfl) ih ih'
  | positional _ ih => exact Phrase.runs_positional ih
  | labelled ht _ ih => exact Phrase.runs_labelled ht ih
  | punned ht => exact Phrase.runs_punned ht
  | constant ht => exact Phrase.runs_constant ht
  | identifier ht => exact Phrase.runs_identifier ht
  | paren ht _ hz ih => exact Phrase.runs_paren ht ih hz
  | constraint ht _ hc _ hz ih ih' => exact Phrase.runs_constraint ht ih hc ih' hz
  | unit ht hz => exact Phrase.runs_unit ht hz
  | tuple ht _ hi hz ih => exact Phrase.runs_tuple ht ih hi hz
  | emptyList ht hz => exact Phrase.runs_emptyList ht hz
  | list ht _ hz ih => exact Phrase.runs_list ht ih hz
  | listSemicolon ht _ hc hz ih => exact Phrase.runs_listSemicolon ht ih hc hz
  | bareExtension ht hn hz => exact Phrase.runs_bareExtension ht hn hz
  | extension ht hn _ hz ih => exact Phrase.runs_extension ht hn ih hz
  | element _ ih => exact Phrase.runs_element ih
  | nextElement _ ht _ ih ih' => exact Phrase.runs_nextElement ih ht ih'
  | type _ ih => exact Phrase.runs_type ih
  | typeTuple _ hi ih => exact Phrase.runs_typeTuple ih hi
  | component _ ih => exact Phrase.runs_component ih
  | nextComponent _ ht _ ih ih' => exact Phrase.runs_nextComponent ih ht ih'
  | typeAtom _ ih => exact ih
  | typeApp _ ht ih => exact Phrase.runs_typeApp ih ht
  | typeName ht => exact Phrase.runs_typeName ht
  | typeParen ht _ hz ih => exact Phrase.runs_typeParen ht ih hz

/-- The tokens of a program leave its statements, and the first bad literal among them. -/
theorem Derives.shiftAll {p : Program} (h : Derives file (.program p) ts bad) :
    State.shiftAll file .initial ts = some ⟨p.statements.reverse, [], .statement, bad.head?⟩ := by
  have hrun := h.runs State.initial rfl
  rwa [State.blamed, State.initial, List.append_nil, Option.none_or] at hrun

/-- A list of tokens is read as one program only. -/
theorem Derives.unique {p p' : Program} (h : Derives file (.program p) ts bad)
    (h' : Derives file (.program p') ts bad') : p = p' := by
  have hsame := h.shiftAll.symm.trans h'.shiftAll
  have hstatements : p.statements = p'.statements :=
    List.reverse_inj.mp (congrArg State.statements (Option.some.inj hsame))
  cases h with
  | program =>
    cases h' with
    | program =>
      cases hstatements
      rfl

end MessageLang
