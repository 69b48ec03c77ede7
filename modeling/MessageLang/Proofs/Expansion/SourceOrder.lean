import MessageLang.Proofs.Expansion.Failing
import MessageLang.Proofs.Grammar.Spans
/-!
# Errors in the order of the text

Expansion visits uses in the order of the code it generates. That is the order of the text, since
the uses of a tree stand in a row, and those that fail in a row of their own.

* `Row.outermost`, `FailingSites.row`: the uses of a tree, and those that fail, stand in a row.
* `Setting.code_error_cases`, `Setting.exists_of_code_eq_error`: a failure is at the use or at an
  argument, so at a part of it.
* `compile_reports`: the errors of a text.
-/
namespace MessageLang

/-! ## Uses in a row -/

/-- The uses of a part are the part itself, or none, or those of its children. -/
theorem Node.outermost_cases (n : Node) :
    (∃ x, n = .expr x ∧ n.outermost = [x]) ∨ n.outermost = [] ∨
      n.outermost = n.children.flatMap Node.outermost := by
  cases n with
  | program p =>
    obtain ⟨ss, l⟩ := p
    refine .inr (.inr ?_)
    simp [outermost, children, outermostOfStatements_eq_flatMap, List.flatMap_map]
  | statement s => cases s <;> simp [outermost, children, Statement.outermost]
  | expr e =>
    have hargs (args : List Argument) :
        args.flatMap Argument.outermost = (args.map Argument.child).flatMap outermost := by
      rw [List.flatMap_map]
      exact List.flatMap_congr fun a _ => by cases a <;> rfl
    cases e with
    | extension => exact .inl ⟨_, rfl, rfl⟩
    | _ =>
      simp [outermost, children, Expr.outermost, outermostOfExprs_eq_flatMap,
        outermostOfArguments_eq_flatMap, outermostOfArms_eq_flatMap, List.flatMap_map, hargs]
  | argument a => cases a <;> simp [outermost, children, Argument.outermost, Argument.child]
  | arm a => cases a <;> simp [outermost, children, Arm.outermost]
  | pattern | type | missing => exact .inr (.inl rfl)

section

variable {file source : String} {text : List Char} {i j : Nat}

/-- The uses of parts in a row that stand in no payload stand in a row. -/
theorem Row.outermost {ns : List Node} (h : Row file text i ns j) :
    Row file text i ((ns.flatMap Node.outermost).map .expr) j := by
  induction h with
  | nil h => exact .nil h
  | @cons i j p q n ns hip hl hpq hc hns ihc ih =>
    have hlt := hpq.lt
    rw [List.flatMap_cons, List.map_append]
    rcases n.outermost_cases with ⟨x, rfl, hx⟩ | hnil | hchildren
    · rw [hx]
      exact .cons hip hl hpq hc ih
    · rw [hnil]
      exact ih.widen (by omega) (Nat.le_refl _)
    · rw [hchildren]
      exact (ihc.widen hip (Nat.le_refl _)).append ih

/-- Of uses that stand in a row, those that fail stand in a row. -/
theorem FailingSites.row {xs : List Expr} {sites : List (Expr × ExpansionFailure)}
    (h : FailingSites xs sites) (hr : Row file text i (xs.map .expr) j) :
    Row file text i (sites.map fun s => .expr s.1) j := by
  induction h generalizing i j with
  | nil => exact hr
  | failed _ _ ih =>
    cases hr with
    | cons hip hl hpq hc hns => exact .cons hip hl hpq hc (ih hns)
  | @expanded _ payload _ _ _ _ _ _ _ _ ihp ih =>
    cases hr with
    | cons hip _ _ hc hns =>
      have hpayload : (payload.toList.map Node.expr).flatMap Node.outermost =
          payloadOutermost payload := by
        cases payload <;> simp [payloadOutermost, Node.outermost]
      have hinner := ihp (hpayload ▸ Row.outermost hc)
      rw [List.map_append]
      exact (hinner.widen hip (Nat.le_refl _)).append (ih hns)

end

/-! ## Where failures are -/

theorem Message.contains_of_mem_arguments {e : Expr} {a : Argument} (h : a ∈ arguments e) :
    (Node.expr e).Contains a.child := by
  have hself {e : Expr} (h : a ∈ [Argument.mk .positional e]) : (Node.expr e).Contains a.child := by
    rw [List.mem_singleton.mp h]
    exact .self
  cases e with
  | apply f args l =>
    rcases List.mem_cons.mp h with rfl | ha
    · exact .child List.mem_cons_self .self
    · exact .child (List.mem_cons_of_mem _ (List.mem_map_of_mem ha)) .self
  | _ => exact hself h

/-- A use fails where it is, and then nothing is said behind the underline, or at an argument of its
payload with an optional label. -/
theorem Setting.code_error_cases {x : Expr} {failure : ExpansionFailure} (h : x.IsUse)
    (hc : standard.code x = .error failure) :
    (failure.location = x.location ∧ failure.error.label = none) ∨
      ∃ name payload l option e, x = .extension name (some payload) l ∧ payload.IsReadable ∧
        .mk (.optional option) e ∈ Message.arguments payload ∧
        failure = ⟨.optionalLabel option, e.location⟩ := by
  obtain ⟨hx, hread⟩ := h
  cases x with
  | extension name payload l =>
    unfold code at hc
    dsimp only at hc
    split at hc
    · cases hc
      exact .inl ⟨rfl, rfl⟩
    · rename_i x hx
      rcases Registry.find?_standard hx with ⟨rfl, rfl⟩ | ⟨rfl, rfl⟩
      · have hc : Message.expand .standard l payload = .error failure := hc
        cases payload with
        | none => cases hc
        | some e =>
          have he : e.IsReadable := by
            cases hread with
            | payload _ he => exact he
          simp only [Message.expand, Message.assemble] at hc
          cases hm : (Message.arguments e).mapM (Argument.contribution .standard) with
          | ok items =>
            rw [hm] at hc
            cases hc
          | error err =>
            rw [hm] at hc
            cases hc
            obtain ⟨a, ha, herr⟩ := exists_of_mapM_eq_error hm
            rcases (isReadable_arguments he a ha).contribution_cases with
              ⟨name, e', rfl, hopt⟩ | ⟨_, _, _, _, _, _, _, hok⟩
            · cases hopt.symm.trans herr
              exact .inr ⟨_, _, _, _, _, rfl, he, ha, rfl⟩
            · cases hok.symm.trans herr
      · cases hread with
        | extension => cases hc
        | payload =>
          cases hc
          exact .inl ⟨rfl, rfl⟩
  | _ => cases hx

/-- The failure of a use is at the use itself, or at a part of it. -/
theorem Setting.exists_of_code_eq_error {x : Expr} {failure : ExpansionFailure} (h : x.IsUse)
    (hc : standard.code x = .error failure) :
    ∃ n, (Node.expr x).Contains n ∧ n.location = failure.location := by
  rcases Setting.code_error_cases h hc with ⟨hl, -⟩ | ⟨_, _, _, _, _, rfl, -, ha, rfl⟩
  · exact ⟨_, .self, hl.symm⟩
  · have hpart := Message.contains_of_mem_arguments ha
    exact ⟨_, .child (List.mem_singleton_self _) hpart, rfl⟩

/-- The failure is at a piece of the text that the use takes up. -/
def ExpansionFailure.IsWithin (f : ExpansionFailure) (x : Expr) : Prop :=
  ∃ l m, x.location = some l ∧ f.location = some m ∧ l.start ≤ m.start ∧ m.start < m.stop ∧
    m.stop ≤ l.stop

/-- One error is at an earlier place than the other. -/
def Diagnostic.Precedes (d d' : Diagnostic) : Prop :=
  ∃ l m, d.location = some l ∧ d'.location = some m ∧ l.start < m.start

section

variable {file source : String} {text : List Char} {i j : Nat}
  {sites : List (Expr × ExpansionFailure)}

theorem ExpansionFailure.isWithin_of_row {x : Expr} {failure : ExpansionFailure} (h : x.IsUse)
    (hc : Setting.standard.code x = .error failure) {ns : List Node}
    (hr : Row file text i ns j) (hx : .expr x ∈ ns) : failure.IsWithin x := by
  obtain ⟨p, q, hl, hrow⟩ := hr.exists_of_mem hx
  obtain ⟨n, hn, hloc⟩ := Setting.exists_of_code_eq_error h hc
  obtain ⟨m, hm, hstart, hlt, hstop⟩ := hrow.within _ (List.mem_singleton_self _) n hn
  exact ⟨_, m, hl, hloc ▸ hm, hstart, hlt, hstop⟩

/-- Errors at uses one behind the other are one behind the other. -/
theorem pairwise_precedes (hw : ∀ s ∈ sites, s.2.IsWithin s.1)
    (hp : (sites.map fun s => Node.expr s.1).Pairwise Node.Before) :
    (sites.map fun s => s.2.diagnostic).Pairwise Diagnostic.Precedes := by
  rw [List.pairwise_map] at hp ⊢
  refine hp.imp_of_mem fun {s s'} hs hs' hbefore => ?_
  obtain ⟨l, m, hl, hm, -, hlt, hstop⟩ := hw s hs
  obtain ⟨l', m', hl', hm', hstart, -, -⟩ := hw s' hs'
  obtain ⟨k, k', hk, hk', hle⟩ := hbefore
  cases hl.symm.trans hk
  cases hl'.symm.trans hk'
  exact ⟨m, m', hm, hm', by omega⟩

/-- A use that would fail is one of those that do, or stands in the payload of one. -/
theorem FailingSites.covers {xs : List Expr} (h : FailingSites xs sites)
    (hx : ∀ x ∈ xs, x.IsUse) :
    ∀ x ∈ xs.flatMap Expr.extensions, ∀ failure, Setting.standard.code x = .error failure →
      ∃ s ∈ sites, x ∈ s.1.extensions := by
  induction h with
  | nil => exact nofun
  | failed _ _ ih =>
    obtain ⟨-, hxs⟩ := List.forall_mem_cons.mp hx
    intro x hm failure hc
    rcases List.mem_append.mp hm with hm | hm
    · exact ⟨_, List.mem_cons_self, hm⟩
    · obtain ⟨s, hs, hin⟩ := ih hxs x hm failure hc
      exact ⟨s, List.mem_cons_of_mem _ hs, hin⟩
  | @expanded name payload l _ _ _ _ hcode _ _ ihp ih =>
    obtain ⟨⟨-, hread⟩, hxs⟩ := List.forall_mem_cons.mp hx
    have hpayload : (∀ x ∈ payloadOutermost payload, x.IsUse) ∧
        payloadExtensions payload = (payloadOutermost payload).flatMap Expr.extensions := by
      cases hread with
      | extension => exact ⟨nofun, rfl⟩
      | payload _ he =>
        have hcode : Expr.IsCode true _ := he.isCode
        exact ⟨hcode.isUse, hcode.isProper.extensions_eq_flatMap⟩
    intro x hm failure hc
    rw [List.flatMap_cons, Expr.extensions_extension, List.cons_append, List.mem_cons,
      List.mem_append] at hm
    rcases hm with rfl | hm | hm
    · cases hcode.symm.trans hc
    · rw [hpayload.2] at hm
      obtain ⟨s, hs, hin⟩ := ihp hpayload.1 x hm failure hc
      exact ⟨s, List.mem_append_left _ hs, hin⟩
    · obtain ⟨s, hs, hin⟩ := ih hxs x hm failure hc
      exact ⟨s, List.mem_append_right _ hs, hin⟩

/-! ## The errors of a text -/

theorem reported_of_parse {setting : Setting} {p : Program}
    (h : Program.parse file source = .ok p) :
    reported file (compile setting file source) =
      (p.expand setting).failures.map (·.diagnostic) := by
  unfold compile
  rw [h]
  dsimp only
  split
  · rename_i hf
    rw [hf]
    rfl
  · rfl

theorem Program.row_outermost {p : Program} (h : Program.parse file source = .ok p) :
    Row file source.toList 0 (p.outermost.map .expr) source.toList.length := by
  obtain ⟨ts, ho, hd⟩ := Program.exists_inOrder_of_parse h
  cases hd with
  | @program ss _ _ hd =>
    have hrow : Row file source.toList 0 (ss.map .statement) source.toList.length := hd.sits ho
    have huses : (ss.map Node.statement).flatMap Node.outermost = outermostOfStatements ss := by
      rw [List.flatMap_map, outermostOfStatements_eq_flatMap]
      exact List.flatMap_congr fun s _ => rfl
    rw [Program.outermost, ← huses]
    exact hrow.outermost

/-- The errors of a text that was read are one for each use that fails, at a place within that use,
and in the order of the text: the uses that fail are apart from one another, and each error is
behind the one before it. All other uses that would fail stand in the payloads of these. -/
theorem compile_reports {p : Program} (h : Program.parse file source = .ok p) :
    ∃ sites, (∀ sites', FailingSites p.outermost sites' ↔ sites' = sites) ∧
      (sites.map Prod.fst).Sublist p.extensions ∧
      (∀ x ∈ p.extensions, ∀ failure, Setting.standard.code x = .error failure →
        ∃ s ∈ sites, x ∈ s.1.extensions) ∧
      reported file (compile .standard file source) = sites.map (fun s => s.2.diagnostic) ∧
      (∀ s ∈ sites, s.2.IsWithin s.1) ∧
      (sites.map fun s => Node.expr s.1).Pairwise Node.Before ∧
      (reported file (compile .standard file source)).Pairwise Diagnostic.Precedes := by
  have hread := Program.parse_isReadable h
  have hcode : ∀ s ∈ p.statements, s.IsCode := fun s hs => (hread s hs).isCode
  obtain ⟨sites, hsites, hleft, hfail⟩ := hread.reports
  have hsub : (sites.map Prod.fst).Sublist p.extensions := hleft ▸ hread.accounts.1.sublist
  have huses : ∀ s ∈ sites, s.1.IsUse := by
    intro s hs
    have hx := hsub.subset (List.mem_map_of_mem hs)
    obtain ⟨hx, hext⟩ := List.mem_filter.mp hx
    exact ⟨hext, hread.of_mem_parts hx⟩
  have hrow := hsites.row (Program.row_outermost h)
  have hwithin : ∀ s ∈ sites, s.2.IsWithin s.1 := fun s hs =>
    ExpansionFailure.isWithin_of_row (huses s hs) (hsites.code_eq_error s hs) hrow
      (List.mem_map_of_mem hs)
  have hreported : reported file (compile .standard file source) =
      sites.map (fun s => s.2.diagnostic) := by
    rw [reported_of_parse h, hfail, List.map_map]
    rfl
  refine ⟨sites, fun sites' => ⟨hsites.unique, fun heq => heq ▸ hsites⟩, hsub, ?_, hreported,
    hwithin, hrow.pairwise, ?_⟩
  · rw [Program.extensions_eq_flatMap_outermost hcode]
    exact hsites.covers (Program.isUse_of_mem_outermost hcode)
  · rw [hreported]
    exact pairwise_precedes hwithin hrow.pairwise

end

/-- The four errors of a text: two in the code of a message, where an option comes between them, one
at an argument and one at a use that fails with what stands in its payload. -/
theorem compile_reports_four : ∃ p,
    Program.parse "a.ml"
      "[%message f ~a:[%foo 1] (g [%here 2] : int sexp_option)]; [%message f ?x]; [%bar [%foo]];" =
        .ok p ∧
    ∃ sites, sites.length = 4 ∧ FailingSites p.outermost sites ∧
      (∀ s ∈ sites, s.2.IsWithin s.1) ∧ (sites.map fun s => Node.expr s.1).Pairwise Node.Before ∧
      (sites.map fun s => s.2.diagnostic).Pairwise Diagnostic.Precedes := by
  have hcheck : ((Program.parse "a.ml"
      "[%message f ~a:[%foo 1] (g [%here 2] : int sexp_option)]; [%message f ?x]; [%bar [%foo]];"
        ).toOption.any fun p => (p.expand .standard).failures.length == 4) = true := by
    decide +kernel
  obtain ⟨p, hp, hfour⟩ := exists_ok_of_any hcheck
  have hlen : (p.expand .standard).failures.length = 4 := by
    simpa using hfour
  obtain ⟨sites, hsites, -, -, hreported, hwithin, hbefore, hprecedes⟩ := compile_reports hp
  have hsites' : sites.length = 4 := by
    have hcount := congrArg List.length hreported
    rw [reported_of_parse hp, List.length_map, List.length_map, hlen] at hcount
    exact hcount.symm
  rw [hreported] at hprecedes
  exact ⟨p, hp, sites, hsites', (hsites sites).mpr rfl, hwithin, hbefore, hprecedes⟩

end MessageLang
