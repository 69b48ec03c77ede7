import MessageLang.Proofs.Grammar.Shifting
/-!
# What is read derives from the grammar

The tokens that a state has taken are accounted for part by part: the complete statements derive,
each open construct has the tokens that opened it and the parts before the one it waits for, and the
mode says what the last tokens derive. One more token keeps the account, and so any number do.

* `Open`, `Within`: the account of the open constructs, and of the statement that is being read.
* `Pending.settle`: closing operators keeps the account.
* `Within.shift`: one token within a statement.
* `Reached.shift`, `Reached.shiftAll`: one token, any number of tokens.
-/
namespace MessageLang

/-! ## Accounts -/

/-- The tokens that stand before the expression of an argument with a label. -/
def Announces (label : Label) (ts : List Token) : Prop :=
  (label = .positional ∧ ts = []) ∨ ∃ t : Token, t.label? = some label ∧ ts = [t]

/-- A type may stand over the open constructs. -/
def AwaitsType : List Frame → Prop
  | .constraint _ _ :: _ | .typeParen _ :: _ => True
  | _ => False

/-- A type without a star may stand over the open constructs. -/
def AwaitsComponent (fs : List Frame) : Prop :=
  AwaitsType fs ∨ ∃ p types rest, fs = .typeTuple p types :: rest

/-- The tokens of a statement that starts with `first` have opened these constructs. -/
inductive Open (file : String) (first : Token) :
    List Frame → List Token → List BadLiteral → Prop where
  | statement : first.isLet = false → Open file first [.statement] [] []
  | binding {n q : Token} :
    first.isLet = true → n.terminal = .name → q.terminal = .equals →
    Open file first [.binding first.first (String.ofList n.text)] [first, n, q] []
  | binary {fs ts ts' bad bad' left op} {t : Token} :
    Open file first fs ts bad → Takes op.level fs →
    Derives file (.expr op.leftOperand left) ts' bad' → State.operator? t = some op →
    Open file first (.binary left op :: fs) (ts ++ (ts' ++ [t])) (bad ++ bad')
  | argument {fs ts ts' us bad bad' f args last label} :
    Open file first fs ts bad → Takes 4 fs →
    Derives file (.spine f args.reverse last) ts' bad' → Announces label us →
    Open file first (.argument f args label :: fs) (ts ++ (ts' ++ us)) (bad ++ bad')
  | paren {fs ts bad} {t : Token} :
    Open file first fs ts bad → Takes 6 fs → t.terminal = .openParen →
    Open file first (.paren t.first :: fs) (ts ++ [t]) bad
  | tuple {fs ts ts' bad bad' init e} {t z : Token} :
    Open file first fs ts bad → Takes 6 fs → t.terminal = .openParen →
    Derives file (.series .comma init e) ts' bad' → z.terminal = .comma →
    Open file first (.tuple t.first (e.node :: init.reverse) :: fs) (ts ++ (t :: (ts' ++ [z])))
      (bad ++ bad')
  | list {fs ts bad} {t : Token} :
    Open file first fs ts bad → Takes 6 fs → t.terminal = .openBracket →
    Open file first (.list t.first [] :: fs) (ts ++ [t]) bad
  | listMore {fs ts ts' bad bad' init e} {t z : Token} :
    Open file first fs ts bad → Takes 6 fs → t.terminal = .openBracket →
    Derives file (.series .semicolon init e) ts' bad' → z.terminal = .semicolon →
    Open file first (.list t.first (e.node :: init.reverse) :: fs) (ts ++ (t :: (ts' ++ [z])))
      (bad ++ bad')
  | extension {fs ts bad} {t n : Token} :
    Open file first fs ts bad → Takes 6 fs → t.terminal = .openExtension →
    n.terminal = .extensionName →
    Open file first (.extension t.first (String.ofList n.text) :: fs) (ts ++ [t, n]) bad
  | constraint {fs ts ts' bad bad' e} {t c : Token} :
    Open file first fs ts bad → Takes 6 fs → t.terminal = .openParen →
    Derives file (.expr 1 e) ts' bad' → c.terminal = .colon →
    Open file first (.constraint t.first e.node :: fs) (ts ++ (t :: (ts' ++ [c]))) (bad ++ bad')
  | typeParen {fs ts bad} {t : Token} :
    Open file first fs ts bad → AwaitsComponent fs → t.terminal = .openParen →
    Open file first (.typeParen t.first :: fs) (ts ++ [t]) bad
  | typeTuple {fs ts ts' bad p init ty} {t : Token} :
    Open file first fs ts bad → AwaitsType fs → Derives file (.typeSeries p init ty) ts' [] →
    t.terminal = .star →
    Open file first (.typeTuple p (ty.node :: init.reverse) :: fs) (ts ++ (ts' ++ [t])) bad

/-- The tokens so far of a statement that starts with `first`. -/
inductive Within (file : String) (first : Token) :
    List Frame → Mode → List Token → List BadLiteral → Prop where
  | expression {fs ts bad} :
    Open file first fs ts bad → Takes 4 fs → Within file first fs .expression ts bad
  | simple {fs ts bad} :
    Open file first fs ts bad → Takes 6 fs → Within file first fs .simple ts bad
  | signed {fs ts bad} {t : Token} :
    Open file first fs ts bad → Takes 4 fs → t.terminal = .sign →
    Within file first fs (.signed t.first (t.text == ['-'])) (ts ++ [t]) bad
  | applied {fs ts ts' bad bad' f args last} :
    Open file first fs ts bad → Takes 4 fs → Derives file (.spine f args.reverse last) ts' bad' →
    Within file first fs (.applied f args last) (ts ++ ts') (bad ++ bad')
  | number {fs ts ts' bad bad' e} :
    Open file first fs ts bad → Takes 4 fs → Derives file (.expr 4 e) ts' bad' →
    Within file first fs (.number e) (ts ++ ts') (bad ++ bad')
  | extensionName {fs ts bad} {t : Token} :
    Open file first fs ts bad → Takes 6 fs → t.terminal = .openExtension →
    Within file first fs (.extensionName t.first) (ts ++ [t]) bad
  | type {fs ts bad} :
    Open file first fs ts bad → AwaitsComponent fs → Within file first fs .type ts bad
  | typed {fs ts ts' bad ty} :
    Open file first fs ts bad → AwaitsComponent fs → Derives file (.typeApp ty) ts' [] →
    Within file first fs (.typed ty) (ts ++ ts') bad

/-- The tokens that a state has taken from the start are accounted for. -/
inductive Reached (file : String) : State → List Token → List BadLiteral → Prop where
  | between {ss ts bad} :
    Derives file (.statements ss.reverse) ts bad →
    Reached file ⟨ss, [], .statement, bad.head?⟩ ts bad
  | bound {ss ts bad} {t : Token} :
    Derives file (.statements ss.reverse) ts bad → t.isLet = true →
    Reached file ⟨ss, [], .bindingName t.first, bad.head?⟩ (ts ++ [t]) bad
  | named {ss ts bad} {t n : Token} :
    Derives file (.statements ss.reverse) ts bad → t.isLet = true → n.terminal = .name →
    Reached file ⟨ss, [], .bindingEquals t.first (String.ofList n.text), bad.head?⟩
      (ts ++ [t, n]) bad
  | within {ss fs m ts ts' bad bad'} {first : Token} :
    Derives file (.statements ss.reverse) ts bad → ts'.head? = some first →
    Within file first fs m ts' bad' →
    Reached file ⟨ss, fs, m, (bad ++ bad').head?⟩ (ts ++ ts') (bad ++ bad')

/-- The state `s'` is still within the statement, `ts` being the tokens of it. -/
def Extends (file : String) (first : Token) (s s' : State) (ts : List Token)
    (bad : List BadLiteral) : Prop :=
  ∃ more, s'.statements = s.statements ∧ s'.fault = s.fault.or more.head? ∧
    Within file first s'.frames s'.mode ts (bad ++ more)

/-- The tokens end with an operand of a level over the open constructs. -/
def Pending (file : String) (first : Token) (l : Nat) (e : Spanned Expr) (fs : List Frame)
    (ts : List Token) (bad : List BadLiteral) : Prop :=
  ∃ ts₁ ts₂ bad₁ bad₂, Open file first fs ts₁ bad₁ ∧ Takes l fs ∧
    Derives file (.expr l e) ts₂ bad₂ ∧ ts = ts₁ ++ ts₂ ∧ bad = bad₁ ++ bad₂

variable {file : String} {first t z : Token} {s s' : State} {fs : List Frame}
  {ts ts' : List Token} {bad bad' : List BadLiteral} {l : Nat} {e : Spanned Expr}

/-- No literal of the last token is bad. -/
theorem Extends.of_within (hs : s'.statements = s.statements) (hf : s'.fault = s.fault)
    (h : Within file first s'.frames s'.mode ts bad) : Extends file first s s' ts bad :=
  ⟨[], hs, by rw [hf, List.head?_nil, Option.or_none], by rwa [List.append_nil]⟩

/-! ## Parts that are complete -/

/-- The parts of an open construct stand last first. -/
theorem reverse_cons_reverse {α : Type} (x : α) (xs : List α) :
    (x :: xs.reverse).reverse = xs ++ [x] := by
  rw [List.reverse_cons, List.reverse_reverse]

theorem Announces.derives {label : Label} {us : List Token} (h : Announces label us)
    (he : Derives file (.simple e) ts bad) :
    Derives file (.argument (.mk label e.node) e.last) (us ++ ts) bad := by
  rcases h with ⟨rfl, rfl⟩ | ⟨t, ht, rfl⟩
  · exact he.positional
  · exact .labelled ht he

/-- A function without arguments is simple. -/
theorem Derives.of_spine_nil {f : Spanned Expr} {last : Position}
    (h : Derives file (.spine f [] last) ts bad) : Derives file (.simple f) ts bad := by
  generalize ha : ([] : List Argument) = args at h
  cases h with
  | function h => exact h
  | nextArgument =>
    exact absurd ha.symm (List.append_ne_nil_of_right_ne_nil _ (List.cons_ne_nil _ _))

/-- A function with its arguments so far is an expression. -/
theorem Derives.of_spine {f : Spanned Expr} {args : List Argument} {last : Position}
    (h : Derives file (.spine f args.reverse last) ts bad) :
    Derives file (.expr 5 (State.application file f args last)) ts bad := by
  unfold State.application
  split
  · exact h.of_spine_nil.alone
  · rename_i hne
    exact .application (fun hnil => hne (List.reverse_eq_nil_iff.mp hnil)) h

/-- Where a simple expression may stand, any expression may, unless an argument is expected. -/
theorem Takes.of_ne_argument (h : Takes 6 fs)
    (hne : ∀ f args label rest, fs ≠ .argument f args label :: rest) : Takes 4 fs := by
  unfold Takes at h ⊢
  split at h
  · exact Operator.rightOperand_le _
  · exact absurd rfl (hne _ _ _ _)
  · exact h
  · exact h
  · exact h
  · exact h
  · decide

theorem complete_statements (e : Spanned Expr) : (s.complete e fs).statements = s.statements := by
  unfold State.complete
  split <;> rfl

theorem complete_fault (e : Spanned Expr) : (s.complete e fs).fault = s.fault := by
  unfold State.complete
  split <;> rfl

/-- A simple expression is complete over the open constructs. -/
theorem Open.complete (ho : Open file first fs ts bad) (ht : Takes 6 fs)
    (he : Derives file (.simple e) ts' bad') (s : State) :
    Within file first (s.complete e fs).frames (s.complete e fs).mode (ts ++ ts')
      (bad ++ bad') := by
  unfold State.complete
  split
  · cases ho with
    | argument ho ht hf ha =>
      have hargs := hf.nextArgument (ha.derives he)
      rw [← List.reverse_cons] at hargs
      simpa only [List.append_assoc] using Within.applied ho ht hargs
  · rename_i hne
    exact .applied ho (ht.of_ne_argument hne) he.function

/-- A simple expression whose last token completes it. -/
theorem Open.extends_complete {b : State} (ho : Open file first fs ts bad) (ht : Takes 6 fs)
    (he : Derives file (.simple e) ts' bad') (hs : b.statements = s.statements)
    (hf : b.fault = s.fault.or bad'.head?) :
    Extends file first s (b.complete e fs) (ts ++ ts') bad :=
  ⟨bad', (complete_statements e).trans hs, (complete_fault e).trans hf, ho.complete ht he b⟩

/-- A simple expression that its last token closes, with the tokens in any grouping. -/
theorem Open.closes {us : List Token} {bad'' : List BadLiteral} (ho : Open file first fs ts bad)
    (ht : Takes 6 fs) (he : Derives file (.simple e) ts' bad') (hts : us = ts ++ ts')
    (hbad : bad'' = bad ++ bad') : Extends file first s (s.complete e fs) us bad'' := by
  subst hts hbad
  exact .of_within (complete_statements _) (complete_fault _) (ho.complete ht he s)

/-- A construct that waits for an expression, with the tokens in any grouping. -/
theorem Open.awaits {us : List Token} {bad'' : List BadLiteral} (ho : Open file first fs ts bad)
    (ht : Takes 4 fs) (hts : us = ts) (hbad : bad'' = bad) :
    Extends file first s { s with frames := fs, mode := .expression } us bad'' := by
  subst hts hbad
  exact .of_within rfl rfl (.expression ho ht)

/-! ## Starts of expressions -/

/-- What the first token of a simple expression does. -/
theorem startSimple_cases (h : s.startSimple file t fs = some s') :
    (∃ decode, t.literal? = some decode ∧
      s' = (s.blamed (Literal.faults decode (t.region file))).complete
        ⟨Literal.standing decode (t.region file), t.first, t.last⟩ fs) ∨
    (t.terminal = .longName ∧ s' = s.complete
      ⟨.identifier (String.ofList t.text) (some (t.region file)), t.first, t.last⟩ fs) ∨
    (t.terminal = .openParen ∧
      s' = { s with frames := .paren t.first :: fs, mode := .expression }) ∨
    (t.terminal = .openBracket ∧
      s' = { s with frames := .list t.first [] :: fs, mode := .expression }) ∨
    (t.terminal = .openExtension ∧
      s' = { s with frames := fs, mode := .extensionName t.first }) := by
  have literal {decode} (hl : t.literal? = some decode) :
      s' = (s.blamed (Literal.faults decode (t.region file))).complete
        ⟨Literal.standing decode (t.region file), t.first, t.last⟩ fs :=
    Option.some.inj (h.symm.trans (State.startSimple_literal hl))
  cases hk : t.terminal
  case integer | float | char | string =>
    have hl : ∃ decode, t.literal? = some decode := by
      simp only [Token.literal?, Token.number?, hk]
      exact ⟨_, rfl⟩
    obtain ⟨decode, hl⟩ := hl
    exact .inl ⟨decode, hl, literal hl⟩
  all_goals simp only [State.startSimple, hk] at h
  case longName =>
    cases h
    exact .inr (.inl ⟨rfl, rfl⟩)
  case openParen =>
    cases h
    exact .inr (.inr (.inl ⟨rfl, rfl⟩))
  case openBracket =>
    cases h
    exact .inr (.inr (.inr (.inl ⟨rfl, rfl⟩)))
  case openExtension =>
    cases h
    exact .inr (.inr (.inr (.inr ⟨rfl, rfl⟩)))
  all_goals cases h

theorem Open.startSimple (ho : Open file first fs ts bad) (ht : Takes 6 fs)
    (h : s.startSimple file t fs = some s') : Extends file first s s' (ts ++ [t]) bad := by
  rcases startSimple_cases h with ⟨decode, hl, rfl⟩ | ⟨hk, rfl⟩ | ⟨hk, rfl⟩ | ⟨hk, rfl⟩ | ⟨hk, rfl⟩
  · exact ho.extends_complete ht (.constant hl) rfl rfl
  · exact ho.extends_complete ht (.identifier hk) rfl (Option.or_none).symm
  · exact (ho.paren ht hk).awaits (by decide : 1 ≤ 4) rfl rfl
  · exact (ho.list ht hk).awaits (by decide : 1 ≤ 4) rfl rfl
  · exact .of_within rfl rfl (.extensionName ho ht hk)

theorem Open.startExpression (ho : Open file first fs ts bad) (ht : Takes 4 fs)
    (h : s.startExpression file t fs = some s') : Extends file first s s' (ts ++ [t]) bad := by
  unfold State.startExpression at h
  split at h
  · rename_i hk
    cases h
    exact .of_within rfl rfl (.signed ho ht hk)
  · exact ho.startSimple (ht.mono (by decide)) h

theorem Open.closeEmpty (ho : Open file first s.frames ts bad)
    (h : s.closeEmpty file t = some s') : Extends file first s s' (ts ++ [t]) bad := by
  unfold State.closeEmpty at h
  split at h
  · rename_i hk hframes
    rw [hframes] at ho
    cases h
    cases ho with
    | paren ho ht hp =>
      rw [List.append_assoc]
      exact ho.extends_complete ht (.unit hp hk) rfl (Option.or_none).symm
  · rename_i hk hframes
    rw [hframes] at ho
    cases h
    cases ho with
    | list ho ht hp =>
      rw [List.append_assoc]
      exact ho.extends_complete ht (.emptyList hp hk) rfl (Option.or_none).symm
    | listMore ho ht hp he hc =>
      rw [reverse_cons_reverse]
      exact ho.closes ht (.listSemicolon hp he hc hk) (by simp) rfl
  · rename_i hk hframes
    rw [hframes] at ho
    cases h
    cases ho with
    | extension ho ht hp hn =>
      rw [List.append_assoc]
      exact ho.extends_complete ht (.bareExtension hp hn hk) rfl (Option.or_none).symm
  · cases h

/-! ## Ends of expressions -/

/-- Closing operators keeps the account of an operand: it ends at a level from which no operator
that is left open is closed. -/
theorem Pending.settle {k : Nat} (h : Pending file first l e fs ts bad) (hk : k ≤ l) :
    ∃ l', k ≤ l' ∧ l' ≤ l ∧
      Pending file first l' (State.settle file k e fs).1 (State.settle file k e fs).2 ts bad ∧
      ∀ left op rest, (State.settle file k e fs).2 = .binary left op :: rest → op.level < k := by
  fun_induction State.settle file k e fs generalizing l with
  | case1 e left op fs hop ih =>
    obtain ⟨ts₁, ts₂, bad₁, bad₂, ho, ht, he, rfl, rfl⟩ := h
    cases ho with
    | binary ho ht' hl hop' =>
      have hjoined := Derives.binary hl hop' (he.mono ht)
      obtain ⟨l', hkl, hll, hp, hstop⟩ := ih (l := op.level)
        ⟨_, _, _, _, ho, ht', hjoined, by simp, by simp⟩ hop
      exact ⟨l', hkl, Nat.le_trans hll (Nat.le_trans op.level_le_rightOperand ht), hp, hstop⟩
  | case2 e left op fs hop =>
    refine ⟨l, hk, Nat.le_refl l, h, fun left' op' rest heq => ?_⟩
    cases heq
    exact Nat.lt_of_not_le hop
  | case3 e fs hne =>
    exact ⟨l, hk, Nat.le_refl l, h, fun left op rest heq => (hne left op rest heq).elim⟩

/-- An operator may stand over the constructs that it has left open. -/
theorem Takes.of_settle {op : Operator} (h : Takes l fs) (hl : l ≤ 5)
    (hstop : ∀ left op' rest, fs = .binary left op' :: rest → op'.level < op.leftOperand) :
    Takes op.level fs := by
  unfold Takes at h ⊢
  split at h
  · exact (Operator.rightOperand_le_level_iff _ _).mpr (hstop _ _ _ rfl)
  · exact absurd (Nat.le_trans h hl) (by decide)
  · exact h
  · exact h
  · exact h
  · exact h
  · exact op.one_le_level

/-- The elements of an open list, with the one that is complete. -/
theorem Open.list_series {start : Position} {elements : List Expr}
    (ho : Open file first (.list start elements :: fs) ts bad)
    (he : Derives file (.expr 1 e) ts' bad') :
    ∃ t ts₁ ts₂ bad₁ bad₂, Open file first fs ts₁ bad₁ ∧ Takes 6 fs ∧
      t.terminal = .openBracket ∧ t.first = start ∧
      Derives file (.series .semicolon elements.reverse e) ts₂ bad₂ ∧
      ts ++ ts' = ts₁ ++ t :: ts₂ ∧ bad ++ bad' = bad₁ ++ bad₂ := by
  cases ho with
  | list ho ht hp => exact ⟨_, _, _, _, _, ho, ht, hp, rfl, he.element, by simp, rfl⟩
  | listMore ho ht hp hi hc =>
    have hseries := hi.nextElement hc he
    rw [← reverse_cons_reverse] at hseries
    exact ⟨_, _, _, _, _, ho, ht, hp, rfl, hseries, by simp, by simp⟩

/-- The elements of an open tuple, with the one that is complete. -/
theorem Open.tuple_series {start : Position} {elements : List Expr}
    (ho : Open file first (.tuple start elements :: fs) ts bad)
    (he : Derives file (.expr 1 e) ts' bad') :
    ∃ t ts₁ ts₂ bad₁ bad₂, Open file first fs ts₁ bad₁ ∧ Takes 6 fs ∧
      t.terminal = .openParen ∧ t.first = start ∧ elements ≠ [] ∧
      Derives file (.series .comma elements.reverse e) ts₂ bad₂ ∧
      ts ++ ts' = ts₁ ++ t :: ts₂ ∧ bad ++ bad' = bad₁ ++ bad₂ := by
  cases ho with
  | tuple ho ht hp hi hc =>
    have hseries := hi.nextElement hc he
    rw [← reverse_cons_reverse] at hseries
    exact ⟨_, _, _, _, _, ho, ht, hp, rfl, List.cons_ne_nil _ _, hseries, by simp, by simp⟩

/-- The statement is complete with the token. -/
def Finishes (file : String) (first t : Token) (s s' : State) (ts : List Token)
    (bad : List BadLiteral) : Prop :=
  ∃ x, s' = ⟨x :: s.statements, [], .statement, s.fault⟩ ∧
    (ts.head? = some first → Derives file (.statement x) (ts ++ [t]) bad)

/-- An operator closes what binds at least as tightly, and waits for its right operand. -/
theorem Pending.operator {op : Operator} (h : Pending file first l e s.frames ts bad) (hl : 4 ≤ l)
    (hl' : l ≤ 5) (hop : State.operator? t = some op) :
    Extends file first s { s with
      frames := .binary (State.settle file op.leftOperand e s.frames).1 op ::
        (State.settle file op.leftOperand e s.frames).2
      mode := .expression } (ts ++ [t]) bad := by
  obtain ⟨l', hkl, hll, hp, hstop⟩ := h.settle (k := op.leftOperand)
    (Nat.le_trans op.leftOperand_le (Nat.le_trans (by decide) hl))
  obtain ⟨ts₁, ts₂, bad₁, bad₂, ho, ht, he, rfl, rfl⟩ := hp
  have hopen := Open.binary ho (ht.of_settle (Nat.le_trans hll hl') hstop) (he.mono hkl) hop
  exact hopen.awaits op.rightOperand_le (List.append_assoc _ _ _) rfl

/-- What follows a complete expression. -/
theorem Pending.endExpression (h : Pending file first l e s.frames ts bad) (hl : 4 ≤ l)
    (hl' : l ≤ 5) (hs : s.endExpression file t e = some s') :
    Extends file first s s' (ts ++ [t]) bad ∨ Finishes file first t s s' ts bad := by
  unfold State.endExpression at hs
  split at hs
  · rename_i op hop
    rw [State.closingLevel_eq] at hs
    cases hs
    exact .inl (h.operator hl hl' hop)
  · obtain ⟨l', hkl, -, hp, -⟩ := h.settle (k := 1) (Nat.le_trans (by decide) hl)
    revert hs hp
    generalize State.settle file 1 e s.frames = pair
    obtain ⟨e, fs⟩ := pair
    intro hs hp
    dsimp only at hs hp
    split at hs
    case h_11 => cases hs
    all_goals
      rename_i hk
      cases hs
      obtain ⟨ts₁, ts₂, bad₁, bad₂, ho, -, he, rfl, rfl⟩ := hp
      replace he := he.mono hkl
    -- a semicolon ends a statement or an element of a list
    · cases ho with
      | statement hlet =>
        refine .inr ⟨_, rfl, fun hfirst => .expression (fun t' ht' => ?_) he hk⟩
        have hsame : t' = first := Option.some.inj (ht'.symm.trans hfirst)
        exact hsame ▸ hlet
    · cases ho with
      | binding hlet hn hq => exact .inr ⟨_, rfl, fun _ => .binding hlet hn hq he hk⟩
    · obtain ⟨p, us, vs, bad₃, bad₄, ho', ht, hp, rfl, hi, hts, hbad⟩ := ho.list_series he
      rw [hts, hbad]
      have hopen := Open.listMore ho' ht hp hi hk
      rw [List.reverse_reverse] at hopen
      exact .inl (hopen.awaits (by decide : 1 ≤ 4) (by simp) rfl)
    -- a comma ends an element of a tuple, a colon the expression that has a type
    · cases ho with
      | paren ho ht hp =>
        have hopen := Open.tuple ho ht hp he.element hk
        exact .inl (hopen.awaits (by decide : 1 ≤ 4) (by simp) rfl)
    · obtain ⟨p, us, vs, bad₃, bad₄, ho', ht, hp, rfl, -, hi, hts, hbad⟩ := ho.tuple_series he
      rw [hts, hbad]
      have hopen := Open.tuple ho' ht hp hi hk
      rw [List.reverse_reverse] at hopen
      exact .inl (hopen.awaits (by decide : 1 ≤ 4) (by simp) rfl)
    · cases ho with
      | paren ho ht hp =>
        refine .inl (.of_within rfl rfl (.type ?_ (.inl trivial)))
        simpa using Open.constraint ho ht hp he hk
    -- a bracket is closed
    · cases ho with
      | paren ho ht hp =>
        exact .inl (ho.closes ht (.paren hp he hk) (by simp) rfl)
    · obtain ⟨p, us, vs, bad₃, bad₄, ho', ht, hp, rfl, hne, hi, hts, hbad⟩ := ho.tuple_series he
      rw [hts, hbad, List.reverse_cons]
      have hne' := List.reverse_ne_nil_iff.mpr hne
      exact .inl (ho'.closes ht (.tuple hp hi hne' hk) (by simp) rfl)
    · obtain ⟨p, us, vs, bad₃, bad₄, ho', ht, hp, rfl, hi, hts, hbad⟩ := ho.list_series he
      rw [hts, hbad, List.reverse_cons]
      exact .inl (ho'.closes ht (.list hp hi hk) (by simp) rfl)
    · cases ho with
      | extension ho ht hp hn =>
        exact .inl (ho.closes ht (.extension hp hn he hk) (by simp) rfl)

/-! ## Arguments -/

/-- What follows a function with its arguments so far. -/
theorem Open.continueApplication {f : Spanned Expr} {args : List Argument} {last : Position}
    (ho : Open file first s.frames ts bad) (ht : Takes 4 s.frames)
    (hf : Derives file (.spine f args.reverse last) ts' bad')
    (hs : s.continueApplication file t f args last = some s') :
    Extends file first s s' (ts ++ ts' ++ [t]) (bad ++ bad') ∨
      Finishes file first t s s' (ts ++ ts') (bad ++ bad') := by
  have waiting {label : Label} (hl : t.label? = some label) :
      Extends file first s
        { s with frames := .argument f args label :: s.frames, mode := .simple }
        (ts ++ ts' ++ [t]) (bad ++ bad') := by
    rw [List.append_assoc]
    exact .of_within rfl rfl (.simple (.argument ho ht hf (.inr ⟨t, hl, rfl⟩)) (Nat.le_refl 6))
  have named {label : Label} (hl : t.punned? = some label) :
      Extends file first s
        { s with
          mode := .applied f
            (.mk label (.identifier (State.labelName false t) (some (t.region file))) :: args)
            t.last }
        (ts ++ ts' ++ [t]) (bad ++ bad') := by
    have hargs := hf.nextArgument (.punned hl)
    rw [← List.reverse_cons, List.append_nil] at hargs
    rw [List.append_assoc]
    exact .of_within rfl rfl (.applied ho ht hargs)
  unfold State.continueApplication at hs
  dsimp only at hs
  split at hs
  · rename_i hk
    cases hs
    exact .inl (waiting (by rw [Token.label?, hk]))
  · rename_i hk
    cases hs
    exact .inl (waiting (by rw [Token.label?, hk]))
  · rename_i hk
    cases hs
    exact .inl (named (by rw [Token.punned?, hk]))
  · rename_i hk
    cases hs
    exact .inl (named (by rw [Token.punned?, hk]))
  · split at hs
    · rename_i hstart
      cases hs
      have hopen := Open.argument ho ht hf (.inl ⟨rfl, rfl⟩)
      rw [List.append_nil] at hopen
      exact .inl (hopen.startSimple (Nat.le_refl 6) hstart)
    · exact Pending.endExpression
        ⟨_, _, _, _, ho, ht.mono (by decide), hf.of_spine, rfl, rfl⟩ (by decide) (by decide) hs

/-! ## Types -/

/-- The elements of an open tuple type, with the one that is complete. -/
theorem Open.type_series {p : Position} {elements : List TypeExpr} {ty : Spanned TypeExpr}
    (ho : Open file first (.typeTuple p elements :: fs) ts bad)
    (ht : Derives file (.typeApp ty) ts' []) :
    ∃ ts₁ ts₂, Open file first fs ts₁ bad ∧ AwaitsType fs ∧ elements ≠ [] ∧
      Derives file (.typeSeries p elements.reverse ty) ts₂ [] ∧ ts ++ ts' = ts₁ ++ ts₂ := by
  cases ho with
  | typeTuple ho hw hi hc =>
    have hseries := hi.nextComponent hc ht
    rw [← reverse_cons_reverse] at hseries
    exact ⟨_, _, ho, hw, List.cons_ne_nil _ _, hseries, by simp⟩

/-- Where a type ends, the elements of a tuple type are complete. -/
theorem Open.closeTypeTuple {ty : Spanned TypeExpr} (ho : Open file first fs ts bad)
    (ht : Derives file (.typeApp ty) ts' []) :
    ∃ ts₁ ts₂, Open file first (State.closeTypeTuple file ty fs).2 ts₁ bad ∧
      Derives file (.type (State.closeTypeTuple file ty fs).1) ts₂ [] ∧ ts ++ ts' = ts₁ ++ ts₂ := by
  unfold State.closeTypeTuple
  split
  · obtain ⟨ts₁, ts₂, ho', -, hne, hi, hts⟩ := ho.type_series ht
    rw [List.reverse_cons]
    exact ⟨ts₁, ts₂, ho', .typeTuple hi (List.reverse_ne_nil_iff.mpr hne), hts⟩
  · exact ⟨_, _, ho, .type ht, rfl⟩

/-- What follows a type. -/
theorem Open.continueType {ty : Spanned TypeExpr} (ho : Open file first s.frames ts bad)
    (hw : AwaitsComponent s.frames) (ht : Derives file (.typeApp ty) ts' [])
    (hs : s.continueType file t ty = some s') :
    Extends file first s s' (ts ++ ts' ++ [t]) bad := by
  unfold State.continueType at hs
  split at hs <;> rename_i hk
  · cases hs
    rw [List.append_assoc]
    exact .of_within rfl rfl (.typed ho hw (ht.typeApp hk))
  · split at hs
    · rename_i hframes
      cases hs
      rw [hframes] at ho
      obtain ⟨ts₁, ts₂, ho', hw', -, hi, hts⟩ := ho.type_series ht
      have hopen := Open.typeTuple ho' hw' hi hk
      rw [List.reverse_reverse] at hopen
      refine .of_within rfl rfl (.type ?_ (.inr ⟨_, _, _, rfl⟩))
      rw [hts, List.append_assoc]
      exact hopen
    · rename_i hne
      cases hs
      rw [List.append_assoc]
      have hw' := hw.resolve_right fun ⟨p, types, rest, heq⟩ => hne p types rest heq
      exact .of_within rfl rfl
        (.type (.typeTuple ho hw' ht.component hk) (.inr ⟨_, _, _, rfl⟩))
  · obtain ⟨ts₁, ts₂, ho', htype, hts⟩ := ho.closeTypeTuple ht
    rw [hts]
    revert hs ho' htype
    generalize State.closeTypeTuple file ty s.frames = pair
    obtain ⟨ty, fs⟩ := pair
    intro hs ho' htype
    dsimp only at hs ho' htype
    split at hs
    · cases hs
      cases ho' with
      | typeParen hopen hw' hp =>
        refine .of_within rfl rfl ?_
        simpa using Within.typed hopen hw' (.typeAtom (.typeParen hp htype hk))
    · cases hs
      cases ho' with
      | constraint hopen htakes hp he hc =>
        exact hopen.closes htakes (.constraint hp he hc htype hk) (by simp) rfl
    · cases hs
  · cases hs

/-! ## One token -/

/-- The number behind a sign. -/
theorem Open.signedNumber {c : Token} (ho : Open file first s.frames ts bad)
    (ht : Takes 4 s.frames) (hc : c.terminal = .sign)
    (hs : s.signedNumber file t c.first (c.text == ['-']) = some s') :
    Extends file first s s' (ts ++ [c] ++ [t]) bad := by
  rw [State.signedNumber_eq] at hs
  obtain ⟨decode, hl, rfl⟩ := Option.map_eq_some_iff.mp hs
  rw [List.append_assoc]
  exact ⟨_, rfl, rfl, .number ho ht (.signed hc hl)⟩

/-- One token within a statement keeps the account, or ends the statement. -/
theorem Within.shift (h : Within file first s.frames s.mode ts bad)
    (hs : s.shift file t = some s') :
    Extends file first s s' (ts ++ [t]) bad ∨ Finishes file first t s s' ts bad := by
  obtain ⟨ss, fs, m, fault⟩ := s
  cases h with
  | expression ho ht =>
    simp only [State.shift] at hs
    split at hs
    · rename_i hstart
      cases hs
      exact .inl (ho.startExpression ht hstart)
    · exact .inl (Open.closeEmpty ho hs)
  | simple ho ht => exact .inl (ho.startSimple ht hs)
  | signed ho ht hc => exact .inl (Open.signedNumber ho ht hc hs)
  | applied ho ht hf => exact Open.continueApplication ho ht hf hs
  | number ho ht he =>
    exact Pending.endExpression ⟨_, _, _, _, ho, ht, he, rfl, rfl⟩ (Nat.le_refl 4) (by decide) hs
  | extensionName ho ht hp =>
    simp only [State.shift] at hs
    split at hs <;> rename_i hk
    · cases hs
      have hopen := Open.extension ho ht hp hk
      exact .inl (hopen.awaits (by decide : 1 ≤ 4) (List.append_assoc _ _ _) rfl)
    · cases hs
  | type ho hw =>
    simp only [State.shift] at hs
    split at hs <;> rename_i hk
    · cases hs
      exact .inl (.of_within rfl rfl (.typed ho hw (.typeAtom (.typeName hk))))
    · cases hs
      exact .inl (.of_within rfl rfl (.type (.typeParen ho hw hk) (.inl trivial)))
    · cases hs
  | typed ho hw ht => exact .inl (Open.continueType ho hw ht hs)

/-- A state within a statement, with what stands before the statement. -/
theorem Extends.reached {ss : List Statement} {m : Mode} {fault : Option BadLiteral}
    (h : Extends file first ⟨ss, fs, m, fault⟩ s' ts' bad')
    (hss : Derives file (.statements ss.reverse) ts bad) (hfault : fault = (bad ++ bad').head?)
    (hfirst : ts'.head? = some first) :
    ∃ more, Reached file s' (ts ++ ts') (bad ++ bad' ++ more) := by
  obtain ⟨more, hstatements, hf, hw⟩ := h
  obtain ⟨ss', fs', m', fault'⟩ := s'
  cases hstatements
  have heq : fault' = (bad ++ (bad' ++ more)).head? := by
    rw [← List.append_assoc, List.head?_append, ← hfault]
    exact hf
  subst heq
  exact ⟨more, by simpa only [List.append_assoc] using Reached.within hss hfirst hw⟩

/-- One token keeps the account. -/
theorem Reached.shift (h : Reached file s ts bad) (hs : s.shift file t = some s') :
    ∃ more, Reached file s' (ts ++ [t]) (bad ++ more) := by
  cases h with
  | between hss =>
    simp only [State.shift] at hs
    split at hs
    · rename_i hlet
      cases hs
      exact ⟨[], by simpa only [List.append_nil] using Reached.bound hss hlet⟩
    · rename_i hlet
      have hopen : Open file t [.statement] [] [] := .statement (Bool.eq_false_iff.mpr hlet)
      have hstep := hopen.startExpression (by decide : 1 ≤ 4) hs
      obtain ⟨more, hr⟩ := hstep.reached hss (by rw [List.append_nil]) rfl
      exact ⟨more, by simpa only [List.append_nil, List.nil_append] using hr⟩
  | bound hss hlet =>
    simp only [State.shift] at hs
    split at hs <;> rename_i hk
    · cases hs
      refine ⟨[], ?_⟩
      simpa using Reached.named hss hlet hk
    · cases hs
  | named hss hlet hn =>
    simp only [State.shift] at hs
    split at hs <;> rename_i hk
    · cases hs
      refine ⟨[], ?_⟩
      simpa using Reached.within hss rfl
        (.expression (.binding hlet hn hk) (by decide : 1 ≤ 4))
    · cases hs
  | within hss hfirst hw =>
    rcases hw.shift hs with hstep | ⟨x, rfl, hx⟩
    · rw [List.append_assoc]
      refine hstep.reached hss rfl ?_
      rw [List.head?_append, hfirst, Option.some_or]
    · refine ⟨[], ?_⟩
      have hstatements := hss.nextStatement (hx hfirst)
      rw [← List.reverse_cons] at hstatements
      simpa only [List.append_assoc, List.append_nil] using Reached.between hstatements

/-- Any number of tokens keep the account. -/
theorem Reached.shiftAll (h : Reached file s ts bad) (hs : s.shiftAll file ts' = some s') :
    ∃ more, Reached file s' (ts ++ ts') (bad ++ more) := by
  induction ts' generalizing s ts bad with
  | nil =>
    cases hs
    exact ⟨[], by rwa [List.append_nil, List.append_nil]⟩
  | cons t ts' ih =>
    rw [State.shiftAll_cons] at hs
    obtain ⟨s₁, h₁, h₂⟩ := Option.bind_eq_some_iff.mp hs
    obtain ⟨more, hr⟩ := h.shift h₁
    obtain ⟨more', hr'⟩ := ih hr h₂
    exact ⟨more ++ more', by simpa only [List.append_assoc, List.singleton_append] using hr'⟩

/-- The tokens of a state that is reached from the start are accounted for. -/
theorem reached_of_shiftAll (h : State.initial.shiftAll file ts = some s) :
    ∃ bad, Reached file s ts bad := by
  have hnone : Derives file (.statements (State.initial.statements.reverse)) [] [] := .noStatement
  have hinitial : Reached file .initial [] [] := .between hnone
  obtain ⟨bad, hr⟩ := hinitial.shiftAll h
  exact ⟨bad, by rwa [List.nil_append, List.nil_append] at hr⟩

/-- Tokens after which a program may end derive its statements. -/
theorem derives_of_shiftAll (h : State.shiftAll file .initial ts = some s)
    (hm : s.mode = .statement) :
    ∃ bad, Derives file (.statements s.statements.reverse) ts bad ∧ s.fault = bad.head? := by
  obtain ⟨bad, hr⟩ := reached_of_shiftAll h
  cases hr with
  | between hss => exact ⟨bad, hss, rfl⟩
  | bound => cases hm
  | named => cases hm
  | within _ _ hw =>
    cases hm
    cases hw

end MessageLang
