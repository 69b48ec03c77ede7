import MessageLang.Proofs.Grammar.Completeness
import MessageLang.Proofs.Grammar.Scanning
import MessageLang.Proofs.Grammar.Soundness
/-!
# What can go on to a program

Tokens are viable if others can follow them so that all together are a program. Every state knows
how: what is open can be closed, from the inside out, by what it awaits and the token that ends it.
So the tokens that can be shifted are exactly the viable ones.

* `IsViable`: some tokens complete the given ones to a program.
* `Fills`: tokens that derive what the innermost open construct awaits.
* `Open.isCompletable`: what fills it can be completed to a statement.
* `Reached.isViable`, `isViable_iff`: what has been shifted is viable, and nothing else is.
-/
namespace MessageLang

/-- A token at no place in particular. -/
def Token.unplaced (k : Terminal) (text : List Char) : Token := ⟨k, text, .start, .start⟩

namespace Token

def semicolon : Token := unplaced .semicolon [';']

def closeParen : Token := unplaced .closeParen [')']

def closeBracket : Token := unplaced .closeBracket [']']

/-- A name, which may stand wherever an expression or a type may start. -/
def anyName : Token := unplaced .longName ['x']

theorem isLexeme_anyName : anyName.terminal.IsLexeme anyName.text :=
  .word ⟨'x', [], rfl, rfl, nofun⟩

end Token

/-- The texts of the tokens are lexemes of their classes. -/
def AreLexemes (ts : List Token) : Prop := ∀ t ∈ ts, t.terminal.IsLexeme t.text

/-- Tokens that others can complete to a program. -/
def IsViable (file : String) (ts : List Token) : Prop :=
  ∃ more p bad, AreLexemes more ∧ Derives file (.program p) (ts ++ more) bad

/-- Tokens that others can complete to a statement. -/
def IsCompletable (file : String) (ts : List Token) : Prop :=
  ∃ more x bad, AreLexemes more ∧ Derives file (.statement x) (ts ++ more) bad

variable {file : String} {first t z : Token} {s s' : State} {fs : List Frame}
  {ts us : List Token} {bad : List BadLiteral} {l : Nat} {e : Spanned Expr}
  {type : Spanned TypeExpr}

theorem areLexemes_singleton (h : t.terminal.IsLexeme t.text) : AreLexemes [t] :=
  List.forall_mem_singleton.mpr h

theorem IsCompletable.of_append (h : IsCompletable file (ts ++ us)) (hus : AreLexemes us) :
    IsCompletable file ts := by
  obtain ⟨more, x, bad, hmore, hx⟩ := h
  rw [List.append_assoc] at hx
  exact ⟨us ++ more, x, bad, List.forall_mem_append.mpr ⟨hus, hmore⟩, hx⟩

/-- One more token leaves the first one as it is. -/
theorem isCompletable_of_next (hts : ts.head? = some first) (hz : z.terminal.IsLexeme z.text)
    (h : (ts ++ [z]).head? = some first → IsCompletable file (ts ++ [z])) :
    IsCompletable file ts := by
  refine (h ?_).of_append (areLexemes_singleton hz)
  rw [List.head?_append, hts, Option.some_or]

/-- A statement behind others. -/
theorem IsCompletable.isViable {ss : List Statement} (hss : Derives file (.statements ss) us bad)
    (h : IsCompletable file ts) : IsViable file (us ++ ts) := by
  obtain ⟨more, x, bad', hmore, hx⟩ := h
  have hmany := hss.nextStatement hx
  rw [← List.append_assoc] at hmany
  exact ⟨more, _, _, hmore, hmany.program⟩

/-! ## What is awaited -/

/-- The tokens derive what the innermost open construct awaits. -/
def Fills (file : String) (fs : List Frame) (ts : List Token) : Prop :=
  match fs with
  | .binary _ op :: _ => ∃ e bad, Derives file (.expr op.rightOperand e) ts bad
  | .argument _ _ _ :: _ => ∃ e bad, Derives file (.simple e) ts bad
  | .constraint _ _ :: _ | .typeParen _ :: _ => ∃ type, Derives file (.type type) ts []
  | .typeTuple _ _ :: _ => ∃ type, Derives file (.typeApp type) ts []
  | _ => ∃ e bad, Derives file (.expr 1 e) ts bad

theorem Takes.fills (h : Takes l fs) (hl : l ≤ 5) (he : Derives file (.expr l e) ts bad) :
    Fills file fs ts := by
  cases fs with
  | nil => exact h.elim
  | cons f fs =>
    cases f with
    | argument => exact absurd (Nat.le_trans h hl) (by decide)
    | constraint | typeParen | typeTuple => exact h.elim
    | _ => exact ⟨e, bad, he.mono h⟩

theorem Takes.fills_simple (h : Takes 6 fs) (he : Derives file (.simple e) ts bad) :
    Fills file fs ts := by
  by_cases harg : ∃ f args label rest, fs = .argument f args label :: rest
  · obtain ⟨f, args, label, rest, rfl⟩ := harg
    exact ⟨e, bad, he⟩
  · have hne : ∀ f args label rest, fs ≠ .argument f args label :: rest :=
      fun f args label rest heq => harg ⟨f, args, label, rest, heq⟩
    exact (h.of_ne_argument hne).fills (by decide) (he.alone.mono (by decide))

theorem AwaitsType.fills (h : AwaitsType fs) (ht : Derives file (.type type) ts []) :
    Fills file fs ts := by
  unfold AwaitsType at h
  split at h
  · exact ⟨type, ht⟩
  · exact ⟨type, ht⟩
  · exact h.elim

theorem AwaitsComponent.fills (h : AwaitsComponent fs)
    (ht : Derives file (.typeApp type) ts []) : Fills file fs ts := by
  rcases h with h | ⟨p, types, rest, rfl⟩
  · exact h.fills ht.type
  · exact ⟨type, ht⟩

/-! ## Closing what is open -/

/-- A construct that one more token closes, and that then fills the next one. -/
theorem isCompletable_of_close (vs : List Token) (z : Token)
    (h : ∀ {us}, Fills file fs us → (ts ++ us).head? = some first → IsCompletable file (ts ++ us))
    (hus : us = ts ++ vs) (hfills : Fills file fs (vs ++ [z])) (hz : z.terminal.IsLexeme z.text)
    (hfirst : us.head? = some first) : IsCompletable file us := by
  subst hus
  refine isCompletable_of_next hfirst hz fun hfirst => ?_
  rw [List.append_assoc] at hfirst ⊢
  exact h hfills hfirst

/-- What is awaited, where it has been read, can be completed to a statement: it fills the innermost
construct, which is closed and fills the next one. -/
theorem Open.isCompletable (ho : Open file first fs ts bad) (hus : Fills file fs us)
    (hfirst : (ts ++ us).head? = some first) : IsCompletable file (ts ++ us) := by
  induction ho generalizing us with
  | statement hlet =>
    obtain ⟨e, bad, he⟩ := hus
    refine ⟨[.semicolon], _, _, areLexemes_singleton rfl, .expression (fun t ht => ?_) he rfl⟩
    have hsame : t = first := Option.some.inj (ht.symm.trans hfirst)
    exact hsame ▸ hlet
  | binding hlet hn hq =>
    obtain ⟨e, bad, he⟩ := hus
    exact ⟨[.semicolon], _, _, areLexemes_singleton rfl, .binding hlet hn hq he rfl⟩
  | @binary fs ts ts' _ _ left op t ho ht hl hop ih =>
    obtain ⟨e, bad, he⟩ := hus
    have hlevel : op.level ≤ 5 := by cases op <;> decide
    have heq : ts ++ (ts' ++ [t]) ++ us = ts ++ (ts' ++ t :: us) := by simp
    rw [heq] at hfirst ⊢
    exact ih (ht.fills hlevel (.binary hl hop he)) hfirst
  | @argument fs ts ts' ns _ _ f args last label ho ht hf ha ih =>
    obtain ⟨e, bad, he⟩ := hus
    have hspine := hf.nextArgument (ha.derives he)
    rw [← List.reverse_cons] at hspine
    have heq : ts ++ (ts' ++ ns) ++ us = ts ++ (ts' ++ (ns ++ us)) := by simp
    rw [heq] at hfirst ⊢
    exact ih ((ht.mono (by decide)).fills (Nat.le_refl 5) hspine.of_spine) hfirst
  | @paren fs ts _ t ho ht hp ih =>
    obtain ⟨e, bad, he⟩ := hus
    have hparen : Derives file (.simple _) (t :: (us ++ [.closeParen])) _ := .paren hp he rfl
    exact isCompletable_of_close (t :: us) .closeParen ih (by simp) (ht.fills_simple hparen) rfl
      hfirst
  | @tuple fs ts ts' _ _ init e t z ho ht hp hi hz ih =>
    obtain ⟨e', bad, he⟩ := hus
    have htuple : Derives file (.simple _) (t :: (ts' ++ z :: us ++ [.closeParen])) _ :=
      .tuple hp (hi.nextElement hz he) (by simp) rfl
    exact isCompletable_of_close (t :: (ts' ++ z :: us)) .closeParen ih (by simp)
      (ht.fills_simple htuple) rfl hfirst
  | @list fs ts _ t ho ht hp ih =>
    obtain ⟨e, bad, he⟩ := hus
    have hlist : Derives file (.simple _) (t :: (us ++ [.closeBracket])) _ :=
      .list hp he.element rfl
    exact isCompletable_of_close (t :: us) .closeBracket ih (by simp) (ht.fills_simple hlist) rfl
      hfirst
  | @listMore fs ts ts' _ _ init e t z ho ht hp hi hz ih =>
    obtain ⟨e', bad, he⟩ := hus
    have hlist : Derives file (.simple _) (t :: (ts' ++ z :: us ++ [.closeBracket])) _ :=
      .list hp (hi.nextElement hz he) rfl
    exact isCompletable_of_close (t :: (ts' ++ z :: us)) .closeBracket ih (by simp)
      (ht.fills_simple hlist) rfl hfirst
  | @extension fs ts _ t n ho ht hp hn ih =>
    obtain ⟨e, bad, he⟩ := hus
    have hextension : Derives file (.simple _) (t :: n :: (us ++ [.closeBracket])) _ :=
      .extension hp hn he rfl
    exact isCompletable_of_close (t :: n :: us) .closeBracket ih (by simp)
      (ht.fills_simple hextension) rfl hfirst
  | @constraint fs ts ts' _ _ e t c ho ht hp he hc ih =>
    obtain ⟨type, htype⟩ := hus
    have hconstraint : Derives file (.simple _) (t :: (ts' ++ c :: (us ++ [.closeParen]))) _ :=
      .constraint hp he hc htype rfl
    have heq : t :: (ts' ++ c :: (us ++ [.closeParen])) =
        t :: (ts' ++ c :: us) ++ [.closeParen] := by simp
    rw [heq] at hconstraint
    exact isCompletable_of_close (t :: (ts' ++ c :: us)) .closeParen ih (by simp)
      (ht.fills_simple hconstraint) rfl hfirst
  | @typeParen fs ts _ t ho hw hp ih =>
    obtain ⟨type, htype⟩ := hus
    have hparen : Derives file (.typeAtom _) (t :: (us ++ [.closeParen])) _ :=
      .typeParen hp htype rfl
    exact isCompletable_of_close (t :: us) .closeParen ih (by simp) (hw.fills hparen.typeAtom) rfl
      hfirst
  | @typeTuple fs ts ts' _ p init ty t ho hw hi hz ih =>
    obtain ⟨type, htype⟩ := hus
    have hseries := hi.nextComponent hz htype
    have heq : ts ++ (ts' ++ [t]) ++ us = ts ++ (ts' ++ t :: us) := by simp
    rw [heq] at hfirst ⊢
    exact ih (hw.fills (.typeTuple hseries (by simp))) hfirst

/-- What has been read of a statement can be completed. -/
theorem Within.isCompletable {m : Mode} (h : Within file first fs m ts bad)
    (hfirst : ts.head? = some first) : IsCompletable file ts := by
  cases h with
  | expression ho ht =>
    refine isCompletable_of_next hfirst Token.isLexeme_anyName fun hfirst => ?_
    exact ho.isCompletable ((ht.mono (by decide)).fills_simple (.identifier rfl)) hfirst
  | simple ho ht =>
    refine isCompletable_of_next hfirst Token.isLexeme_anyName fun hfirst => ?_
    exact ho.isCompletable (ht.fills_simple (.identifier rfl)) hfirst
  | signed ho ht hs =>
    have hnumber : (Token.unplaced .integer ['0']).terminal.IsLexeme ['0'] := by decide
    refine isCompletable_of_next hfirst hnumber fun hfirst => ?_
    rw [List.append_assoc] at hfirst ⊢
    exact ho.isCompletable (ht.fills (by decide) (.signed hs rfl)) hfirst
  | applied ho ht hf =>
    exact ho.isCompletable ((ht.mono (by decide)).fills (Nat.le_refl 5) hf.of_spine) hfirst
  | number ho ht he => exact ho.isCompletable (ht.fills (by decide) he) hfirst
  | extensionName ho ht hp =>
    have hname : (Token.unplaced .extensionName ['x']).terminal.IsLexeme ['x'] :=
      .word ⟨'x', [], rfl, rfl, nofun⟩
    refine isCompletable_of_next hfirst hname fun hfirst => ?_
    refine isCompletable_of_next (z := .closeBracket) hfirst rfl fun hfirst => ?_
    rw [List.append_assoc, List.append_assoc] at hfirst ⊢
    exact ho.isCompletable (ht.fills_simple (.bareExtension hp rfl rfl)) hfirst
  | type ho hw =>
    refine isCompletable_of_next hfirst Token.isLexeme_anyName fun hfirst => ?_
    exact ho.isCompletable (hw.fills (.typeAtom (.typeName rfl))) hfirst
  | typed ho hw ht => exact ho.isCompletable (hw.fills ht) hfirst

/-! ## Viable tokens -/

/-- A binding goes on with its value. -/
theorem isCompletable_binding {n : Token} (hlet : t.isLet = true) (hn : n.terminal = .name) :
    IsCompletable file [t, n] := by
  have hvalue : Derives file (.simple _) [Token.anyName] [] := .identifier rfl
  refine ⟨[.unplaced .equals ['='], .anyName, .semicolon], _, _, ?_,
    .binding hlet hn rfl (hvalue.alone.mono (by decide)) rfl⟩
  refine List.forall_mem_cons.mpr ⟨rfl, List.forall_mem_cons.mpr ⟨Token.isLexeme_anyName, ?_⟩⟩
  exact areLexemes_singleton rfl

/-- What a state has taken is viable. -/
theorem Reached.isViable (h : Reached file s ts bad) : IsViable file ts := by
  cases h with
  | between hss => exact ⟨[], _, _, nofun, by rw [List.append_nil]; exact hss.program⟩
  | @bound _ _ _ t hss hlet =>
    have hname : (Token.unplaced .name ['x']).terminal.IsLexeme ['x'] := ⟨'x', [], rfl, rfl, nofun⟩
    have hbinding : IsCompletable file ([t] ++ [.unplaced .name ['x']]) :=
      isCompletable_binding hlet rfl
    exact (hbinding.of_append (areLexemes_singleton hname)).isViable hss
  | named hss hlet hn => exact (isCompletable_binding hlet hn).isViable hss
  | within hss hfirst hw => exact (hw.isCompletable hfirst).isViable hss

/-- Tokens can be shifted if and only if they are viable. -/
theorem isViable_iff : IsViable file ts ↔ ∃ s, State.initial.shiftAll file ts = some s := by
  constructor
  · rintro ⟨more, p, bad, -, h⟩
    have hrun := h.shiftAll
    rw [State.shiftAll_append] at hrun
    obtain ⟨s, hs, -⟩ := Option.bind_eq_some_iff.mp hrun
    exact ⟨s, hs⟩
  · rintro ⟨s, hs⟩
    obtain ⟨bad, hr⟩ := reached_of_shiftAll hs
    exact hr.isViable

end MessageLang
