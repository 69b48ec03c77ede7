import MessageLang.Proofs.Grammar.Pieces
import MessageLang.Proofs.Syntax.Integers
/-!
# The literal that is blamed

The literals of a text are the numbers, characters and strings among its tokens, a number with the
sign before it unless that is an operator. Which signs are operators is seen from the token before
them. A text that is a program but for bad literals is refused at the first of those: by an error
that is reported, or, if that literal has too many digits, by an exception that escapes.

* `literalsOf`: the literals among tokens.
* `State.Awaits`, `State.Notes`: what a state knows of the tokens before it, and what one token more
  adds to the bad literals that it remembers.
* `Literal.Occurrence.faults_cases`: what is remembered for a literal.
* `Program.parse_blames`: what a text is refused for.
* `Program.parse_escapes`: a text that is refused without a report.
-/
namespace MessageLang

/-! ## Literals among tokens -/

namespace Terminal

def isLiteral : Terminal → Bool
  | integer | float | char | string => true
  | _ => false

/-- Whether an operand may end with a token, so that a sign behind it is an operator. -/
def closesOperand : Terminal → Bool
  | longName | labelledName | optionalName | closeParen | closeBracket => true
  | k => k.isLiteral

end Terminal

/-- The sign that belongs to a number behind a token: the token itself, if it is a sign and no
operand ends before it. -/
def Token.signOf (operand : Bool) (t : Token) : Option Token :=
  if t.terminal = .sign ∧ operand = false then some t else none

namespace Literal

/-- A literal in a text: its token, and the sign that belongs to it. -/
structure Occurrence where
  sign : Option Token
  token : Token

namespace Occurrence

def isNegative (o : Occurrence) : Bool := o.sign.any (·.text == ['-'])

/-- Where a literal is, its sign included. -/
def region (file : String) (o : Occurrence) : Location :=
  .between file (o.sign.getD o.token).first o.token.last

/-- The token of a literal is a lexeme of its class, and this is one of literals. -/
def IsProper (o : Occurrence) : Prop :=
  o.token.terminal.IsLexeme o.token.text ∧ o.token.terminal.isLiteral = true

/-- A literal is an integer with too many digits. -/
def IsOverlong (o : Occurrence) : Prop :=
  o.token.terminal = .integer ∧ HasTooManyDigits o.token.text

/-- A literal is bad: an integer that has too many digits or is out of range, or a character or a
string with a decimal escape above 255. -/
def IsBad (o : Occurrence) : Prop :=
  match o.token.terminal with
  | .integer => HasTooManyDigits o.token.text ∨ OutOfRange o.isNegative o.token.text
  | .char | .string => Text.Escape.HasLargeEscape (between o.token.text)
  | _ => False

/-- What reads a literal. -/
def decoder? (o : Occurrence) : Option Decoder :=
  match o.token.terminal with
  | .char => some (quoted .char o.token.text)
  | .string => some (quoted .string o.token.text)
  | _ => o.token.number? o.isNegative

/-- The bad literals that are remembered for a literal. -/
def faults (file : String) (o : Occurrence) : List BadLiteral :=
  match o.decoder? with
  | some decode => Literal.faults decode (o.region file)
  | none => []

end Occurrence
end Literal

/-- The literals among tokens, in their order. `sign` is the sign that belongs to a number at their
start, `operand` says whether an operand ends in front of them. -/
def literalsOf (sign : Option Token) (operand : Bool) : List Token → List Literal.Occurrence
  | [] => []
  | t :: ts =>
    let later := literalsOf (t.signOf operand) t.terminal.closesOperand ts
    if t.terminal.isLiteral then ⟨sign, t⟩ :: later else later

/-! ## One token -/

section

variable {file : String} {s s' : State} {t : Token} {fs : List Frame} {sign : Option Token}
  {operand : Bool}

theorem Token.isLiteral_of_number? {negative : Bool} {decode : Literal.Decoder}
    (h : t.number? negative = some decode) : t.terminal.isLiteral = true := by
  unfold Token.number? at h
  split at h
  · rename_i hk
    rw [hk]
    rfl
  · rename_i hk
    rw [hk]
    rfl
  · cases h

theorem Literal.Occurrence.isLiteral_of_decoder? {o : Occurrence} {decode : Decoder}
    (h : o.decoder? = some decode) : o.token.terminal.isLiteral = true := by
  unfold decoder? at h
  split at h
  · rename_i hk
    rw [hk]
    rfl
  · rename_i hk
    rw [hk]
    rfl
  · exact Token.isLiteral_of_number? h

theorem Literal.Occurrence.decoder?_none : (⟨none, t⟩ : Occurrence).decoder? = t.literal? := rfl

theorem Literal.Occurrence.decoder?_some {z : Token} {decode : Decoder}
    (h : t.number? (z.text == ['-']) = some decode) :
    (⟨some z, t⟩ : Occurrence).decoder? = some decode := by
  rw [← h]
  unfold Token.number? at h
  split at h
  case h_1 hk | h_2 hk =>
    simp only [decoder?, hk]
    rfl
  case h_3 => cases h

theorem Terminal.closesOperand_of_isLiteral {k : Terminal} (h : k.isLiteral = true) :
    k.closesOperand = true ∧ k ≠ .sign := by
  cases k <;> simp_all [isLiteral, closesOperand]

theorem Token.signOf_of_ne (h : t.terminal ≠ .sign) : t.signOf operand = none :=
  if_neg fun hs => h hs.1

/-- No faults are remembered for a token that is no literal. -/
theorem Literal.Occurrence.faults_of_not_isLiteral (h : t.terminal.isLiteral = false) :
    (⟨sign, t⟩ : Literal.Occurrence).faults file = [] := by
  unfold faults
  split
  · rename_i decode hd
    rw [show t.terminal.isLiteral = true from isLiteral_of_decoder? hd] at h
    cases h
  · rfl

namespace State

/-- What a state knows of the tokens before it: the sign that belongs to a number that must come
next, and, where a sign may come next, whether an operand ends there. -/
def Awaits (s : State) (sign : Option Token) (operand : Bool) : Prop :=
  match s.mode with
  | .signed first negative => ∃ t, sign = some t ∧ t.first = first ∧ (t.text == ['-']) = negative
  | .applied _ _ _ | .number _ => sign = none ∧ operand = true
  | .statement | .expression | .simple => sign = none ∧ operand = false
  | _ => sign = none

/-- A token leads to a state that knows of it and remembers its faults. -/
structure Notes (file : String) (s : State) (sign : Option Token) (operand : Bool) (t : Token)
    (s' : State) : Prop where
  awaits : s'.Awaits (t.signOf operand) t.terminal.closesOperand
  fault : s'.fault = (s.blamed ((⟨sign, t⟩ : Literal.Occurrence).faults file)).fault

/-- Behind a token that is no literal nothing more is remembered. -/
theorem Notes.of_fault (ht : t.terminal.isLiteral = false)
    (ha : s'.Awaits (t.signOf operand) t.terminal.closesOperand) (hf : s'.fault = s.fault) :
    Notes file s sign operand t s' :=
  ⟨ha, by rw [Literal.Occurrence.faults_of_not_isLiteral ht, blamed_nil, hf]⟩

/-- A token that is no sign and that no operand ends with. -/
theorem Notes.of_awaits (hs : t.terminal ≠ .sign) (hc : t.terminal.closesOperand = false)
    (ha : s'.Awaits none false) (hf : s'.fault = s.fault) : Notes file s sign operand t s' := by
  refine .of_fault ?_ (by rw [Token.signOf_of_ne hs, hc]; exact ha) hf
  cases hl : t.terminal.isLiteral with
  | false => rfl
  | true =>
    rw [(Terminal.closesOperand_of_isLiteral hl).1] at hc
    cases hc

theorem complete_fault (s : State) (e : Spanned Expr) (fs : List Frame) :
    (s.complete e fs).fault = s.fault := by
  unfold complete
  split <;> rfl

/-- Behind a simple expression an operand ends. -/
theorem awaits_complete (e : Spanned Expr) (h : t.terminal.closesOperand = true) :
    (s.complete e fs).Awaits (t.signOf operand) t.terminal.closesOperand := by
  have hsign : t.terminal ≠ .sign := by
    intro hk
    rw [hk] at h
    cases h
  rw [Token.signOf_of_ne hsign, h]
  unfold complete
  split <;> exact ⟨rfl, rfl⟩

/-- A token that is no literal completes a simple expression. -/
theorem Notes.of_complete (e : Spanned Expr) (hl : t.terminal.isLiteral = false)
    (hc : t.terminal.closesOperand = true) :
    Notes file s sign operand t (s.complete e fs) :=
  .of_fault hl (awaits_complete e hc) (complete_fault s e fs)

theorem notes_startSimple (h : startSimple file s t fs = some s') :
    Notes file s none operand t s' := by
  cases hd : t.literal? with
  | some decode =>
    rw [startSimple_literal hd] at h
    cases h
    rw [← Literal.Occurrence.decoder?_none] at hd
    have hl := Literal.Occurrence.isLiteral_of_decoder? hd
    have hfaults : (⟨none, t⟩ : Literal.Occurrence).faults file =
        Literal.faults decode (t.region file) := by
      simp only [Literal.Occurrence.faults, hd]
      rfl
    refine ⟨awaits_complete _ (Terminal.closesOperand_of_isLiteral hl).1, ?_⟩
    rw [complete_fault, hfaults]
  | none =>
    unfold startSimple at h
    split at h
    case h_5 hk =>
      cases h
      exact .of_complete _ (by rw [hk]; rfl) (by rw [hk]; rfl)
    case h_6 hk | h_7 hk =>
      cases h
      exact .of_awaits (by rw [hk]; decide) (by rw [hk]; rfl) ⟨rfl, rfl⟩ rfl
    case h_8 hk =>
      cases h
      exact .of_awaits (by rw [hk]; decide) (by rw [hk]; rfl) rfl rfl
    case h_9 => cases h
    all_goals
      rename_i hk
      simp [Token.literal?, Token.number?, hk] at hd

theorem notes_closeEmpty (h : closeEmpty file s t = some s') :
    Notes file s none operand t s' := by
  unfold closeEmpty at h
  split at h
  case h_4 => cases h
  all_goals
    rename_i hk _
    cases h
    exact .of_complete _ (by rw [hk]; rfl) (by rw [hk]; rfl)

theorem notes_startExpression (h : startExpression file s t fs = some s') :
    Notes file s none false t s' := by
  unfold startExpression at h
  split at h
  · rename_i hk
    cases h
    refine .of_fault (by rw [hk]; rfl) ?_ rfl
    rw [Token.signOf, if_pos ⟨hk, rfl⟩]
    exact ⟨t, rfl, rfl, rfl⟩
  · exact notes_startSimple h

theorem notes_endExpression {e : Spanned Expr} (h : endExpression file s t e = some s') :
    Notes file s none true t s' := by
  unfold endExpression at h
  split at h
  · rename_i op hop
    cases h
    have hc : t.terminal.closesOperand = false ∧ t.terminal.isLiteral = false := by
      unfold operator? at hop
      split at hop
      case h_4 => cases hop
      all_goals
        rename_i hk
        rw [hk]
        exact ⟨rfl, rfl⟩
    refine .of_fault hc.2 ?_ rfl
    rw [Token.signOf, if_neg (by simp), hc.1]
    exact ⟨rfl, rfl⟩
  · dsimp only at h
    split at h
    case h_11 => cases h
    case h_7 hk _ | h_8 hk _ | h_9 hk _ | h_10 hk _ =>
      cases h
      exact .of_complete _ (by rw [hk]; rfl) (by rw [hk]; rfl)
    case h_6 hk _ =>
      cases h
      exact .of_awaits (by rw [hk]; decide) (by rw [hk]; rfl) rfl rfl
    all_goals
      rename_i hk _
      cases h
      exact .of_awaits (by rw [hk]; decide) (by rw [hk]; rfl) ⟨rfl, rfl⟩ rfl

theorem notes_continueApplication {g : Spanned Expr} {args : List Argument} {last : Position}
    (h : continueApplication file s t g args last = some s') : Notes file s none true t s' := by
  unfold continueApplication at h
  split at h
  case h_1 hk | h_2 hk =>
    cases h
    exact .of_awaits (by rw [hk]; decide) (by rw [hk]; rfl) ⟨rfl, rfl⟩ rfl
  case h_3 hk | h_4 hk =>
    cases h
    refine .of_fault (by rw [hk]; rfl) ?_ rfl
    rw [Token.signOf_of_ne (by rw [hk]; decide), hk]
    exact ⟨rfl, rfl⟩
  case h_5 =>
    split at h
    · rename_i hs
      cases h
      exact notes_startSimple hs
    · exact notes_endExpression h

theorem notes_continueType {type : Spanned TypeExpr} (h : continueType file s t type = some s') :
    Notes file s none operand t s' := by
  have awaits_type {s' : State} (hs : t.terminal ≠ .sign)
      (ha : s'.Awaits none t.terminal.closesOperand) :
      s'.Awaits (t.signOf operand) t.terminal.closesOperand := by
    rw [Token.signOf_of_ne hs]
    exact ha
  unfold continueType at h
  split at h
  case h_1 hk =>
    cases h
    exact .of_fault (by rw [hk]; rfl) (awaits_type (by rw [hk]; decide) rfl) rfl
  case h_2 hk =>
    split at h <;> cases h <;> exact .of_awaits (by rw [hk]; decide) (by rw [hk]; rfl) rfl rfl
  case h_3 hk =>
    dsimp only at h
    split at h
    · cases h
      exact .of_fault (by rw [hk]; rfl) (awaits_type (by rw [hk]; decide) rfl) rfl
    · cases h
      exact .of_complete _ (by rw [hk]; rfl) (by rw [hk]; rfl)
    · cases h
  case h_4 => cases h

theorem notes_signedNumber {z : Token}
    (h : signedNumber file s t z.first (z.text == ['-']) = some s') :
    Notes file s (some z) operand t s' := by
  rw [signedNumber_eq, Option.map_eq_some_iff] at h
  obtain ⟨decode, hd, rfl⟩ := h
  have hl := Token.isLiteral_of_number? hd
  obtain ⟨hc, hsign⟩ := Terminal.closesOperand_of_isLiteral hl
  refine ⟨?_, ?_⟩
  · rw [Token.signOf_of_ne hsign, hc]
    exact ⟨rfl, rfl⟩
  · have hfaults : (⟨some z, t⟩ : Literal.Occurrence).faults file =
        Literal.faults decode (.between file z.first t.last) := by
      simp only [Literal.Occurrence.faults, Literal.Occurrence.decoder?_some hd]
      rfl
    rw [hfaults]

/-- One token more: the state behind it remembers the literal that the token completes, if that is
bad. -/
theorem notes_shift (h : s.shift file t = some s') (ha : s.Awaits sign operand) :
    Notes file s sign operand t s' := by
  unfold shift at h
  unfold Awaits at ha
  split at h <;> rename_i hm <;> simp only [hm] at ha
  case h_1 =>
    obtain ⟨rfl, rfl⟩ := ha
    split at h
    · rename_i hlet
      cases h
      rw [Bool.and_eq_true, beq_iff_eq] at hlet
      refine .of_fault (by rw [hlet.1]; rfl) ?_ rfl
      rw [Token.signOf_of_ne (by rw [hlet.1]; decide)]
      exact rfl
    · exact notes_startExpression h
  case h_2 =>
    subst ha
    split at h
    · rename_i hk
      cases h
      exact .of_awaits (by rw [hk]; decide) (by rw [hk]; rfl) rfl rfl
    · cases h
  case h_3 | h_9 =>
    subst ha
    split at h
    · rename_i hk
      cases h
      exact .of_awaits (by rw [hk]; decide) (by rw [hk]; rfl) ⟨rfl, rfl⟩ rfl
    · cases h
  case h_4 =>
    obtain ⟨rfl, rfl⟩ := ha
    split at h
    · rename_i hs
      cases h
      exact notes_startExpression hs
    · exact notes_closeEmpty h
  case h_5 =>
    obtain ⟨rfl, rfl⟩ := ha
    exact notes_startSimple h
  case h_6 =>
    obtain ⟨z, rfl, rfl, rfl⟩ := ha
    exact notes_signedNumber h
  case h_7 =>
    obtain ⟨rfl, rfl⟩ := ha
    exact notes_continueApplication h
  case h_8 =>
    obtain ⟨rfl, rfl⟩ := ha
    exact notes_endExpression h
  case h_10 =>
    subst ha
    split at h
    · rename_i hk
      cases h
      refine .of_fault (by rw [hk]; rfl) ?_ rfl
      rw [Token.signOf_of_ne (by rw [hk]; decide)]
      exact rfl
    · rename_i hk
      cases h
      refine .of_awaits (by rw [hk]; decide) (by rw [hk]; rfl) ?_ rfl
      unfold Awaits
      simp only [hm]
    · cases h
  case h_11 =>
    subst ha
    exact notes_continueType h

/-! ## Lists of tokens -/

/-- The state behind tokens remembers the first bad literal among them. -/
theorem fault_of_shiftAll {ts : List Token} (h : s.shiftAll file ts = some s')
    (ha : s.Awaits sign operand) :
    s'.fault = (s.blamed ((literalsOf sign operand ts).flatMap (·.faults file))).fault := by
  induction ts generalizing s sign operand with
  | nil =>
    cases h
    rw [literalsOf, List.flatMap_nil, blamed_nil]
  | cons t ts ih =>
    rw [shiftAll_cons, Option.bind_eq_some_iff] at h
    obtain ⟨s₁, hs, h⟩ := h
    obtain ⟨ha₁, hf⟩ := notes_shift hs ha
    have hlater := ih h ha₁
    rw [hlater, literalsOf]
    cases hl : t.terminal.isLiteral with
    | true =>
      rw [if_pos rfl, List.flatMap_cons, blamed_append]
      simp only [blamed, hf]
    | false =>
      rw [Literal.Occurrence.faults_of_not_isLiteral hl, blamed_nil] at hf
      simp only [blamed, hf, Bool.false_eq_true, if_false]

end State
end

/-! ## Bad literals -/

namespace Literal

/-- A character or string is refused if it has a decimal escape above 255, and has a constant
else. -/
theorem quoted_cases (kind : LiteralKind) (text : List Char) (l : Option Location) :
    (Text.Escape.HasLargeEscape (between text) ∧
        ∃ digits, quoted kind text l = .error (.illegalEscape digits)) ∨
      (¬ Text.Escape.HasLargeEscape (between text) ∧ ∃ c, quoted kind text l = .ok c) := by
  rw [← Text.Escape.decode_eq_error_iff, quoted]
  cases Text.Escape.decode (between text) with
  | ok => exact .inr ⟨nofun, _, rfl⟩
  | error digits => exact .inl ⟨⟨digits, rfl⟩, digits, rfl⟩

namespace Occurrence

variable {file : String} {o : Occurrence}

/-- The code of the error that a bad literal is. -/
def code (o : Occurrence) : String := if o.token.terminal = .integer then "E0002" else "E0001"

/-- An error is the one that a bad literal stands for: one that escapes if the literal has too many
digits, and one that is reported with the code of the literal else. -/
def Raises (o : Occurrence) (e : LiteralError) : Prop :=
  (o.IsOverlong ∧ e.escapes = true) ∨
    (¬ o.IsOverlong ∧ e.escapes = false ∧
      ∀ place, (ParseError.badLiteral ⟨e, place⟩).code.toText = o.code)

/-- A literal is read, or it is bad and its error is the one that it stands for. -/
theorem decoder?_cases (ho : o.IsProper) (l : Option Location) :
    ∃ decode, o.decoder? = some decode ∧ ((¬ o.IsBad ∧ ∃ c, decode l = .ok c) ∨
      (o.IsBad ∧ ∃ e, decode l = .error e ∧ o.Raises e)) := by
  obtain ⟨hlexeme, hliteral⟩ := ho
  unfold decoder? IsBad Raises IsOverlong code
  cases hk : o.token.terminal <;> rw [hk] at hliteral <;> try cases hliteral
  case char | string =>
    refine ⟨_, rfl, ?_⟩
    rcases quoted_cases _ o.token.text l with ⟨hbad, digits, herr⟩ | ⟨hgood, hok⟩
    · exact .inr ⟨hbad, _, herr, .inr ⟨(fun h => nomatch h.1), rfl, fun _ => rfl⟩⟩
    · exact .inl ⟨hgood, hok⟩
  case float =>
    refine ⟨fun l => .ok (float o.isNegative o.token.text l), ?_, .inl ⟨not_false, _, rfl⟩⟩
    simp only [Token.number?, hk]
  case integer =>
    refine ⟨integer o.isNegative o.token.text, by simp only [Token.number?, hk], ?_⟩
    rw [hk] at hlexeme
    rcases integer_cases hlexeme o.isNegative l with
      ⟨hmany, herr⟩ | ⟨hfew, hout, kind, herr⟩ | ⟨hfew, hin, hok⟩
    · exact .inr ⟨.inl hmany, _, herr, .inl ⟨⟨rfl, hmany⟩, rfl⟩⟩
    · exact .inr ⟨.inr hout, _, herr, .inr ⟨fun h => hfew h.2, rfl, fun _ => rfl⟩⟩
    · exact .inl ⟨not_or.mpr ⟨hfew, hin⟩, hok⟩

/-- What is remembered for a literal: nothing, or the literal itself if it is bad. -/
theorem faults_cases (ho : o.IsProper) :
    (¬ o.IsBad ∧ o.faults file = []) ∨
      (o.IsBad ∧ ∃ e, o.faults file = [⟨e, o.region file⟩] ∧ o.Raises e) := by
  obtain ⟨decode, hd, h⟩ := decoder?_cases ho (some (o.region file))
  simp only [faults, hd, Literal.faults]
  rcases h with ⟨hgood, c, hok⟩ | ⟨hbad, e, herr, hraises⟩
  · rw [hok]
    exact .inl ⟨hgood, rfl⟩
  · rw [herr]
    exact .inr ⟨hbad, e, rfl, hraises⟩

theorem location_of_mem_faults {b : BadLiteral} (h : b ∈ o.faults file) :
    b.location = o.region file := by
  unfold faults at h
  split at h
  · unfold Literal.faults at h
    split at h
    · cases h
    · rw [List.mem_singleton.mp h]
  · cases h

/-- Nothing is remembered for literals that are not bad. -/
theorem flatMap_faults_eq_nil {os : List Occurrence} (hos : ∀ o ∈ os, o.IsProper)
    (hgood : ∀ o ∈ os, ¬ o.IsBad) : os.flatMap (·.faults file) = [] := by
  refine List.flatMap_eq_nil_iff.mpr fun o ho => ?_
  rcases faults_cases (hos o ho) with ⟨-, hnone⟩ | ⟨hbad, -⟩
  · exact hnone
  · exact absurd hbad (hgood o ho)

/-- Of literals the first bad one is remembered. -/
theorem exists_head?_faults {pre post : List Occurrence} (hos : ∀ x ∈ pre ++ o :: post, x.IsProper)
    (hpre : ∀ x ∈ pre, ¬ x.IsBad) (hbad : o.IsBad) :
    ∃ e, ((pre ++ o :: post).flatMap (·.faults file)).head? = some ⟨e, o.region file⟩ ∧
      o.Raises e := by
  obtain ⟨hos, ho⟩ := List.forall_mem_append.mp hos
  rcases faults_cases (ho o List.mem_cons_self) with ⟨hgood, -⟩ | ⟨-, e, hf, hraises⟩
  · exact absurd hbad hgood
  · refine ⟨e, ?_, hraises⟩
    rw [List.flatMap_append, flatMap_faults_eq_nil hos hpre, List.flatMap_cons, hf]
    rfl

end Occurrence
end Literal

/-- A literal among tokens is one of them. Its sign is one of them, or the sign before them. -/
theorem mem_of_mem_literalsOf {ts : List Token} : ∀ {sign : Option Token} {operand : Bool},
    ∀ o ∈ literalsOf sign operand ts, o.token ∈ ts ∧ o.token.terminal.isLiteral = true ∧
      ∀ z, o.sign = some z → some z = sign ∨ z ∈ ts := by
  induction ts with
  | nil => exact fun o ho => absurd ho List.not_mem_nil
  | cons t ts ih =>
    intro sign operand o ho
    have hlater (ho : o ∈ literalsOf (t.signOf operand) t.terminal.closesOperand ts) :
        o.token ∈ t :: ts ∧ o.token.terminal.isLiteral = true ∧
          ∀ z, o.sign = some z → some z = sign ∨ z ∈ t :: ts := by
      obtain ⟨htoken, hliteral, hsign⟩ := ih o ho
      refine ⟨List.mem_cons_of_mem _ htoken, hliteral, fun z hz => .inr ?_⟩
      rcases hsign z hz with heq | hz
      · unfold Token.signOf at heq
        split at heq
        · cases heq
          exact List.mem_cons_self
        · cases heq
      · exact List.mem_cons_of_mem _ hz
    rw [literalsOf] at ho
    cases hl : t.terminal.isLiteral with
    | false =>
      rw [hl] at ho
      exact hlater ho
    | true =>
      rw [hl] at ho
      rcases List.mem_cons.mp ho with rfl | ho
      · exact ⟨List.mem_cons_self, hl, fun z hz => .inl hz.symm⟩
      · exact hlater ho

/-! ## Texts -/

section

variable {file source : String} {ts : List Token} {s : State} {q : Position} {p : Program}
  {bad : List BadLiteral}

theorem Lexes.isProper {s' : State} {p' q : Position} {cs rest : List Char} {sign : Option Token}
    {operand : Bool} (hts : Lexes file s p' cs ts s' q rest) :
    ∀ o ∈ literalsOf sign operand ts, o.IsProper := by
  intro o ho
  obtain ⟨htoken, hliteral, -⟩ := mem_of_mem_literalsOf o ho
  exact ⟨hts.areLexemes _ htoken, hliteral⟩

/-- A text is refused for the bad literal that is remembered at its end. -/
theorem Program.parse_of_fault {b : BadLiteral}
    (hr : readFrom file .initial .start .start source.toList = .ok s) (hfile : file.isEmpty = false)
    (hb : s.fault = some b) : Program.parse file source = .error (.badLiteral b) := by
  simp only [parse, hr, bind, Except.bind, hfile, hb, Bool.false_eq_true, if_false]

/-- A text whose tokens are a program but for bad literals is read up to its end. -/
theorem readFrom_of_derives (hts : Lexes file .initial .start source.toList ts s q [])
    (h : Derives file (.program p) ts bad) :
    readFrom file .initial .start .start source.toList =
      .ok ⟨p.statements.reverse, [], .statement,
        ((literalsOf none false ts).flatMap (·.faults file)).head?⟩ := by
  have hs := hts.shiftAll
  rw [h.shiftAll] at hs
  obtain ⟨last, hr⟩ : ∃ last, readFrom file .initial .start .start source.toList =
      readFrom file s last q [] := hts.readFrom_eq
  have hfault : bad.head? = ((literalsOf none false ts).flatMap (·.faults file)).head? :=
    State.fault_of_shiftAll h.shiftAll (show State.initial.Awaits none false from ⟨rfl, rfl⟩)
  cases hs
  rw [hr, readFrom, ← hfault]

/-- A text that is no program but for bad literals is refused for that, and no literal is blamed.
A text that is a program but for bad literals is refused for the first of those. If this has too
many digits, an exception escapes; else the error is reported at the literal, sign included. If no
literal is bad, the program is read. -/
theorem Program.parse_blames (file source : String) :
    ((∀ ts s q, Lexes file .initial .start source.toList ts s q [] →
        ∀ p bad, ¬ Derives file (.program p) ts bad) →
      ∃ what line column, Program.parse file source = .error (.unexpected what line column)) ∧
    ∀ ts s q, Lexes file .initial .start source.toList ts s q [] →
      ∀ p bad, Derives file (.program p) ts bad → file.isEmpty = false →
        (∀ pre o post, literalsOf none false ts = pre ++ o :: post → (∀ x ∈ pre, ¬ x.IsBad) →
          o.IsBad → ∃ e, Program.parse file source = .error (.badLiteral e) ∧
            (o.IsOverlong → (ParseError.badLiteral e).escapes = true) ∧
            (¬ o.IsOverlong → (ParseError.badLiteral e).escapes = false ∧
              e.location = o.region file ∧ (ParseError.badLiteral e).code.toText = o.code)) ∧
        ((∀ o ∈ literalsOf none false ts, ¬ o.IsBad) → Program.parse file source = .ok p) := by
  refine ⟨fun hno => ?_, fun ts s q hts p bad h hfile => ?_⟩
  · cases hr : readFrom file .initial .start .start source.toList with
    | error e =>
      obtain ⟨what, _, _, _, _, place, rfl, -⟩ := exists_stops_of_readFrom hr
      exact ⟨what, place.line, place.column, by simp only [parse, hr, bind, Except.bind]⟩
    | ok s =>
      obtain ⟨ts, q, hts, hm⟩ := exists_lexes_of_readFrom hr
      obtain ⟨bad, hd, -⟩ := derives_of_shiftAll hts.shiftAll hm
      exact absurd hd.program (hno ts s q hts _ bad)
  · have hr := readFrom_of_derives hts h
    have hproper : ∀ o ∈ literalsOf none false ts, o.IsProper := hts.isProper
    refine ⟨fun pre o post he hpre hbad => ?_, fun hgood => ?_⟩
    · rw [he] at hr hproper
      obtain ⟨e, hfirst, hraises⟩ := Literal.Occurrence.exists_head?_faults hproper hpre hbad
      refine ⟨_, Program.parse_of_fault hr hfile hfirst, ?_⟩
      rcases hraises with ⟨hlong, hescapes⟩ | ⟨hshort, hreported, hcode⟩
      · exact ⟨fun _ => hescapes, fun h => absurd hlong h⟩
      · exact ⟨fun h => absurd h hshort, fun _ => ⟨hreported, rfl, hcode _⟩⟩
    · rw [Literal.Occurrence.flatMap_faults_eq_nil hproper hgood] at hr
      cases h with
      | program =>
        simp only [parse, hr, bind, Except.bind, hfile, List.head?_nil, Bool.false_eq_true,
          if_false, List.reverse_reverse]
        rfl

end

/-- The tokens of a negative number that is out of range, and of a large escape behind it. -/
def Program.piecesOfSigned : List Piece :=
  [(.sign, ['-']), (.integer, "2147483649l".toList), (.caret, ['^']),
    (.char, ['\'', '\\', '3', '0', '0', '\'']), (.semicolon, [';'])]

/-- Of two bad literals the first is blamed, with its sign. -/
theorem Program.parse_blames_signed : ∃ e,
    Program.parse "a.ml" "-2147483649l^'\\300';" = .error (.badLiteral e) ∧
      (ParseError.badLiteral e).escapes = false ∧
      e.location = ⟨"a.ml", 1, 1, 0, 12, 1, 13⟩ ∧
      (ParseError.badLiteral e).code.toText = "E0002" := by
  have hlexes : ∃ s q, Lexes "a.ml" .initial .start "-2147483649l^'\\300';".toList
      (tokensAt .start piecesOfSigned) s q [] ∧ s.mode = .statement :=
    ⟨_, _,
      .token (w := ['-']) (by decide +kernel) (by decide +kernel) rfl rfl
        (.token (w := "2147483649l".toList) (by decide +kernel) (by decide +kernel) rfl rfl
          (.token (w := ['^']) (by decide +kernel) (by decide +kernel) rfl rfl
            (.token (w := ['\'', '\\', '3', '0', '0', '\'']) (by decide +kernel)
              (by decide +kernel) rfl rfl
              (.token (w := [';']) (by decide +kernel) (by decide +kernel) rfl rfl .nil)))), rfl⟩
  obtain ⟨s, q, hlexes, hm⟩ := hlexes
  obtain ⟨bad, hd, -⟩ := derives_of_shiftAll hlexes.shiftAll hm
  have hlexeme : Terminal.IsLexeme .integer "2147483649l".toList := by decide +kernel
  have hreported : Literal.integer true "2147483649l".toList none =
      .error (.outOfRange .int32) := rfl
  obtain ⟨hfew, hbad⟩ : ¬ Literal.HasTooManyDigits "2147483649l".toList ∧
      Literal.OutOfRange true "2147483649l".toList := by
    rcases Literal.integer_cases hlexeme true none with
      ⟨-, herr⟩ | ⟨hfew, hout, -⟩ | ⟨-, -, c, hok⟩
    · cases herr.symm.trans hreported
    · exact ⟨hfew, hout⟩
    · cases hok.symm.trans hreported
  obtain ⟨o, post, hfirst, hbad, hshort, hregion, hcode⟩ : ∃ o post,
      literalsOf none false (tokensAt .start piecesOfSigned) = [] ++ o :: post ∧ o.IsBad ∧
        ¬ o.IsOverlong ∧ o.region "a.ml" = ⟨"a.ml", 1, 1, 0, 12, 1, 13⟩ ∧ o.code = "E0002" :=
    ⟨_, _, rfl, .inr hbad, fun h => hfew h.2, rfl, rfl⟩
  obtain ⟨e, hparse, -, hreport⟩ := ((Program.parse_blames "a.ml" _).2 _ s q hlexes _ bad
    hd.program rfl).1 [] o post hfirst (fun _ hx => absurd hx List.not_mem_nil) hbad
  obtain ⟨hescapes, hplace, hcode'⟩ := hreport hshort
  exact ⟨e, hparse, hescapes, hplace.trans hregion, hcode'.trans hcode⟩

/-! ## A literal that is never reported -/

/-- A text of one integer, a bad one, is a program but for that, and is refused for it. -/
theorem Program.exists_parse_integer (file : String) (hfile : file.isEmpty = false)
    {w : List Char} (hw : Terminal.IsInteger w) {e : LiteralError}
    (he : ∀ l, Literal.integer false w l = .error e) : ∃ ts s q p bad t place,
      Lexes file .initial .start (w ++ [';']) ts s q [] ∧ Derives file (.program p) ts bad ∧
        literalsOf none false ts = [⟨none, t⟩] ∧ t.terminal = .integer ∧ t.text = w ∧
        Program.parse file (String.ofList (w ++ [';'])) = .error (.badLiteral ⟨e, place⟩) := by
  have hlexeme : Terminal.IsLexeme .integer w := hw
  have hfollows : Terminal.integer.Follows [';'] := (ends_cons (by decide)).follows _
  have hsemicolon : Terminal.IsLexeme .semicolon [';'] := rfl
  let t : Token := ⟨.integer, w, .start, Position.start.advance w⟩
  have hshift : State.initial.shift file t =
      some ⟨[], [.statement], .applied ⟨.unit (some (t.region file)), t.first, t.last⟩ [] t.last,
        some ⟨e, t.region file⟩⟩ := by
    have hsimple : State.initial.shift file t =
        State.initial.startSimple file t [.statement] := by
      simp [State.shift, State.initial, State.startExpression, t]
    have hliteral : t.literal? = some (Literal.integer false w) := rfl
    rw [hsimple, State.startSimple_literal hliteral, Literal.faults, Literal.standing, he]
    rfl
  obtain ⟨s, q, hlexes, hm, hfault⟩ : ∃ s q, Lexes file .initial .start (w ++ [';'])
      [t, ⟨.semicolon, [';'], t.last, t.last.advance [';']⟩] s q [] ∧ s.mode = .statement ∧
        s.fault = some ⟨e, t.region file⟩ :=
    ⟨_, _,
      .token (hlexeme.first?_append hfollows (State.isSought_of_expects rfl))
        (hlexeme.width_append_of_follows hfollows) rfl hshift
        (.token (hsemicolon.first?_append trivial (State.isSought_of_expects rfl)) rfl rfl rfl .nil),
      rfl, rfl⟩
  obtain ⟨bad, hd, -⟩ := derives_of_shiftAll hlexes.shiftAll hm
  obtain ⟨last, hr⟩ : ∃ last, readFrom file .initial .start .start (w ++ [';']) =
      readFrom file s last q [] := hlexes.readFrom_eq
  rw [readFrom, hm, ← String.toList_ofList (l := w ++ [';'])] at hr
  exact ⟨_, s, q, _, bad, t, t.region file, hlexes, hd.program, rfl, rfl, rfl,
    Program.parse_of_fault hr hfile hfault⟩

/-- A text of one literal, an integer that is out of range, is a program but for that literal. It is
refused by an exception that escapes, since the integer has too many digits. -/
theorem Program.parse_escapes : ∃ ts s q p bad o,
    Lexes "main.sxm" .initial .start (Literal.overlong '1' ++ [';']) ts s q [] ∧
      Derives "main.sxm" (.program p) ts bad ∧ literalsOf none false ts = [o] ∧
      o.token.terminal = .integer ∧ Literal.OutOfRange o.isNegative o.token.text ∧
      ∃ e, Program.parse "main.sxm" (String.ofList (Literal.overlong '1' ++ [';'])) = .error e ∧
        e.escapes = true := by
  have hones := Literal.writes_overlong (c := '1') (d := 1) (by decide) (by decide)
  obtain ⟨ts, s, q, p, bad, t, place, hlexes, hd, hliterals, hinteger, htext, hparse⟩ :=
    Program.exists_parse_integer "main.sxm" rfl (Literal.isInteger_overlong rfl)
      (hones.integer_of_tooMany (Literal.lt_length_overlong 1) false)
  refine ⟨ts, s, q, p, bad, _, hlexes, hd, hliterals, hinteger, ?_, _, hparse, rfl⟩
  have hout := Literal.outOfRange_overlong
  rw [← htext] at hout
  exact hout

end MessageLang
