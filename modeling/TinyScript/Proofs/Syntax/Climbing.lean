import TinyScript.Proofs.Syntax.Productions

/-!
# Climbing the levels of operators

The levels of the grammar are left recursive. `level_iff` turns them around: an expression of a level is
a unary expression followed by operators of that level or tighter ones with their right operands, where
each operator is at most as tight as the one before it. That is the order in which operators are climbed.

Like a primary expression, one that begins with a word of its own is told by its first token.
-/

namespace TinyScript.Syntax.Grammar

open List

variable {x : Expr} {ts : List Token} {n : Nat} {E : Phrase Expr}

/-! ## Levels turned around -/

/-- Operators of level `m` or tighter ones, the first at most as tight as level `k`, with their right
operands, joined to the expression `l` on their left. -/
inductive Climb (E : Phrase Expr) (m : Nat) : Nat → Expr → Phrase Expr
  | stop {k l} : Climb E m k l [] l
  | join {k l q op t us r ts x} : m ≤ q → q ≤ k → Joins q op t → Level E (q + 1) us r →
      Climb E m q (.bin op l r) ts x → Climb E m k l (t :: (us ++ ts)) x

theorem Level.weaken {m k : Nat} (h : Level E k ts x) (hmk : m ≤ k)
    (hk : k ≤ 10) : Level E m ts x := by
  induction hmk with
  | refl => exact h
  | step hle ih => exact ih (.operand (by omega) h) (by omega)

theorem Climb.anti {m m' k : Nat} {l : Expr} (h : Climb E m k l ts x) (hm : m' ≤ m) :
    Climb E m' k l ts x := by
  induction h with
  | stop => exact .stop
  | join hq hqk ht hr _ ih => exact .join (by omega) hqk ht hr ih

/-- One more operator, of the loosest level. -/
theorem Climb.snoc {m k : Nat} {l r : Expr} {op : BinOp} {t : Token} {us : List Token}
    (h : Climb E m k l ts x) (hmk : m ≤ k) (ht : Joins m op t) (hr : Level E (m + 1) us r) :
    Climb E m k l (ts ++ t :: us) (.bin op x r) := by
  induction h with
  | @stop k l =>
    have hone := Climb.join (Nat.le_refl m) hmk ht hr (.stop (l := .bin op l r))
    rwa [append_nil] at hone
  | join hq hqk hu hs _ ih =>
    rw [cons_append, append_assoc]
    exact .join hq hqk hu hs (ih hq)

/-- What was climbed from an operand of a level is of the level that the climb started from. -/
theorem Climb.level {m k j : Nat} {l : Expr} {us : List Token} (h : Climb E m k l ts x)
    (hl : Level E j us l) (hkj : k ≤ j) (hmj : m ≤ j) (hj : j ≤ 10) : Level E m (us ++ ts) x := by
  induction h generalizing us j with
  | stop =>
    rw [append_nil]
    exact hl.weaken hmj hj
  | @join k l q op t vs r ts x hq hqk ht hr _ ih =>
    have hjoin : Level E q (us ++ t :: vs) (.bin op l r) := .join (hl.weaken (by omega) hj) ht hr
    have hq9 := ht.level_le
    have hall := ih hjoin (Nat.le_refl q) hq (by omega)
    rwa [append_assoc] at hall

/-- **Levels are climbed.** -/
theorem level_iff {m : Nat} (hm : m ≤ 10) :
    Level E m ts x ↔ Seq (Unary E) (Climb E m 9) ts x := by
  constructor
  · intro h
    induction h with
    | unary hu =>
      have hseq := Seq.mk hu (Climb.stop (E := E) (m := 10) (k := 9))
      rwa [append_nil] at hseq
    | operand hk _ ih =>
      obtain ⟨hu, hc⟩ := ih (by omega)
      exact .mk hu (hc.anti (Nat.le_succ _))
    | join _ ht hr ihl _ =>
      obtain ⟨hu, hc⟩ := ihl hm
      rw [append_assoc]
      exact .mk hu (hc.snoc ht.level_le ht hr)
  · rintro ⟨hu, hc⟩
    exact hc.level (.unary hu) (by omega) hm (Nat.le_refl _)

/-! ## Where operands stop -/

/-- The operator at the front of what was climbed, if there is one. -/
theorem Climb.head {m k : Nat} {l : Expr} (h : Climb E m k l ts x) :
    ts = [] ∨ ∃ t us q op, ts = t :: us ∧ m ≤ q ∧ q ≤ k ∧ Joins q op t := by
  cases h with
  | stop => exact .inl rfl
  | join hq hqk ht _ _ => exact .inr ⟨_, _, _, _, rfl, hq, hqk, ht⟩

/-- An operator extends no expression whose level is tighter than its own. -/
theorem Joins.not_operators {q level : Nat} {op : BinOp} {t : Token} (h : Joins q op t)
    (hq : q < level) (l : Option Token) : ¬operators level l t := by
  rintro (⟨k, op', hk, hjoin⟩ | ⟨hparen, -⟩)
  · have hqk := (h.unique hjoin).1
    omega
  · rcases h.kind with ho | hs
    · cases ho.symm.trans hparen
    · cases hs.symm.trans hparen

theorem Stops.of_append_left {level : Nat} (as : List Token) {bs rest : List Token}
    (h : Stops (operators level) (as ++ bs) rest) : Stops (operators level) bs rest := by
  cases bs with
  | nil => exact fun t ht hop => h t ht (operators_of_none hop _)
  | cons b bs => rwa [stops_append_left _ _ (cons_ne_nil b bs)] at h

/-- An operand stops at a level if it stops at a tighter one and no operator of the level follows. -/
theorem stops_operators_iff {m k : Nat} (h : m ≤ k) {used rest : List Token} :
    Stops (operators m) used rest ↔ Stops (operators k) used rest ∧ Stops (operators m) [] rest := by
  refine ⟨fun hs => ⟨fun t ht hop => hs t ht (operators_anti h hop), Stops.of_append_left used ?_⟩, ?_⟩
  · rwa [append_nil]
  · rintro ⟨hcall, hjoin⟩ t ht (hop | hparen)
    · exact hjoin t ht (.inl hop)
    · exact hcall t ht (.inr hparen)

/-- A right operand stops where the climb goes on or ends. -/
theorem Climb.stops_operand {m q : Nat} {l : Expr} {us rest : List Token} (h : Climb E m q l ts x)
    (hq : m ≤ q) (hs : Stops (operators m) (us ++ ts) rest) :
    Stops (operators (q + 1)) us (ts ++ rest) := by
  rcases h.head with rfl | ⟨t, vs, q', op, rfl, -, hq', ht⟩
  · rw [append_nil] at hs
    exact fun t ht hop => hs t ht (operators_anti (by omega) hop)
  · exact (stops_cons ..).2 (ht.not_operators (by omega) _)

theorem Starts.level {k : Nat} : Starts (Level E k) Operand := by
  intro ts x h
  induction h with
  | unary hu => exact Starts.unary hu
  | operand _ _ ih => exact ih
  | join _ _ _ ih _ =>
    obtain ⟨t, us, rfl, ht⟩ := ih
    exact ⟨t, us ++ _, rfl, ht⟩

/-- An operand stops where the climb begins or, if nothing is climbed, where the whole stops. -/
theorem Splits.climb {m : Nat} (hm : m ≤ 10) :
    Splits (Unary E) (Climb E m 9) (operators 10) (operators m) (operators m) := by
  intro as x bs y rest _ hc
  rcases hc.head with rfl | ⟨t, us, q, op, rfl, -, hq, ht⟩
  · rw [append_nil, nil_append]
    exact stops_operators_iff hm
  · rw [stops_append_left _ _ (cons_ne_nil t us)]
    exact (and_iff_right ((stops_cons ..).2 (ht.not_operators (by omega) _))).symm

/-! ## Forms of expressions -/

/-- What follows the word `let`. -/
def LetEnd (E : Phrase Expr) : Phrase Expr :=
  Seq (Separated (Mark .comma) (Assign E)) fun assigns => Seq (Tok (Word "in")) fun _ =>
    Map (.letIn assigns) E

/-- What follows the word `if`. -/
def IfEnd (E : Phrase Expr) : Phrase Expr :=
  Seq (Separated (Word "elif") (Branch E)) fun conds => Seq (Tok (Word "else")) fun _ =>
    Map (.ifElse conds) E

/-- What follows the word `for`. -/
def ForEnd (E : Phrase Expr) : Phrase Expr :=
  Map (fun l => .forIn l.handle l.iter l.filter l.body) (Loop E)

/-- What follows the word `reduce`. -/
def ReduceEnd (E : Phrase Expr) : Phrase Expr :=
  Seq Name fun carry => Seq (Tok (Sign "=")) fun _ => Seq E fun init => Seq (Tok (Word "for")) fun _ =>
    Map (fun l => .reduce carry init l.handle l.iter l.filter l.body) (Loop E)

/-- What follows the word `fn`. -/
def LambdaEnd (E : Phrase Expr) : Phrase Expr :=
  Seq Params fun ps => Seq (Tok (Sign "=>")) fun _ => Map (.lambda ps) E

/-- An expression is told by its first token, too. -/
theorem after_isExpr_iff {t : Token} :
    After t IsExpr ts x ↔
      (Word "let" t ∧ LetEnd IsExpr ts x) ∨ (Word "if" t ∧ IfEnd IsExpr ts x)
      ∨ (Word "for" t ∧ ForEnd IsExpr ts x) ∨ (Word "reduce" t ∧ ReduceEnd IsExpr ts x)
      ∨ (Word "fn" t ∧ LambdaEnd IsExpr ts x) ∨ (Word "def" t ∧ Map Def.toExpr (DefinitionEnd IsExpr) ts x)
      ∨ Level IsExpr 1 (t :: ts) x := by
  constructor
  · intro h
    cases h with
    | letIn ht has hu hbody =>
      exact .inl ⟨ht, Seq.mk has (Seq.mk (Tok.mk hu) (.mk hbody))⟩
    | ifElse ht hcs hu hother =>
      exact .inr (.inl ⟨ht, Seq.mk hcs (Seq.mk (Tok.mk hu) (.mk hother))⟩)
    | forIn ht hl =>
      exact .inr (.inr (.inl ⟨ht, .mk hl⟩))
    | reduce ht hn hu hinit hv hl =>
      exact .inr (.inr (.inr (.inl ⟨ht, Seq.mk (Name.mk hn) (Seq.mk (Tok.mk hu)
        (Seq.mk hinit (Seq.mk (Tok.mk hv) (.mk hl))))⟩)))
    | lambda ht hps hu hbody =>
      exact .inr (.inr (.inr (.inr (.inl ⟨ht, Seq.mk hps (Seq.mk (Tok.mk hu) (.mk hbody))⟩))))
    | define hd =>
      rw [definition_eq] at hd
      generalize hw : t :: ts = ws at hd
      obtain ⟨⟨ht⟩, hend⟩ := hd
      obtain ⟨rfl, rfl⟩ := List.cons.inj hw
      exact .inr (.inr (.inr (.inr (.inr (.inl ⟨ht, .mk hend⟩)))))
    | binary hl =>
      exact .inr (.inr (.inr (.inr (.inr (.inr hl)))))
  · rintro (⟨ht, ⟨has, ⟨⟨hu⟩, ⟨hbody⟩⟩⟩⟩ | ⟨ht, ⟨hcs, ⟨⟨hu⟩, ⟨hother⟩⟩⟩⟩ | ⟨ht, ⟨hl⟩⟩ |
      ⟨ht, ⟨⟨hn⟩, ⟨⟨hu⟩, ⟨hinit, ⟨⟨hv⟩, ⟨hl⟩⟩⟩⟩⟩⟩ | ⟨ht, ⟨hps, ⟨⟨hu⟩, ⟨hbody⟩⟩⟩⟩ | ⟨ht, ⟨hd⟩⟩ | hl)
    · exact .letIn ht has hu hbody
    · exact .ifElse ht hcs hu hother
    · exact .forIn ht hl
    · exact .reduce ht hn hu hinit hv hl
    · exact .lambda ht hps hu hbody
    · exact .define (definition_eq ▸ Seq.mk (Tok.mk ht) hd)
    · exact .binary hl

section FirstToken

variable {t : Token}

/-- An expression that begins with none of these words is one of operators. -/
theorem after_operand (h : ∀ w ∈ forms, ¬Word w t) : After t IsExpr = After t (Level IsExpr 1) := by
  funext ts x
  simp only [forms, mem_cons, not_mem_nil, or_false, forall_eq_or_imp, forall_eq] at h
  simp only [after_isExpr_iff, h, false_and, false_or]
  rfl

/-- An expression that begins with one of these words is not one of operators. -/
theorem not_level_of_form {w : Text} (hw : w ∈ forms) (h : Word w t) (ts : List Token) (x : Expr) :
    ¬Level IsExpr 1 (t :: ts) x := fun hl => (Starts.level.head hl).2 w hw h

theorem Word.iff_eq {v w : Text} (h : Word v t) : Word w t ↔ v = w :=
  ⟨fun h' => h.2.symm.trans h'.2, fun heq => heq ▸ h⟩

theorem after_let (h : Word "let" t) : After t IsExpr = LetEnd IsExpr := by
  funext ts x
  simp +decide [after_isExpr_iff, not_level_of_form (by decide) h, h.iff_eq]

theorem after_if (h : Word "if" t) : After t IsExpr = IfEnd IsExpr := by
  funext ts x
  simp +decide [after_isExpr_iff, not_level_of_form (by decide) h, h.iff_eq]

theorem after_for (h : Word "for" t) : After t IsExpr = ForEnd IsExpr := by
  funext ts x
  simp +decide [after_isExpr_iff, not_level_of_form (by decide) h, h.iff_eq]

theorem after_reduce (h : Word "reduce" t) : After t IsExpr = ReduceEnd IsExpr := by
  funext ts x
  simp +decide [after_isExpr_iff, not_level_of_form (by decide) h, h.iff_eq]

theorem after_fn (h : Word "fn" t) : After t IsExpr = LambdaEnd IsExpr := by
  funext ts x
  simp +decide [after_isExpr_iff, not_level_of_form (by decide) h, h.iff_eq]

theorem after_def (h : Word "def" t) : After t IsExpr = Map Def.toExpr (DefinitionEnd IsExpr) := by
  funext ts x
  simp +decide [after_isExpr_iff, not_level_of_form (by decide) h, h.iff_eq]

end FirstToken

theorem Starts.isExpr : Starts IsExpr Opening := by
  have hword : ∀ {w : Text} {t : Token}, Word w t → Opening t := fun h => opening_of_mark (by decide) h.1
  intro ts x h
  cases h with
  | letIn ht _ _ _ => exact ⟨_, _, rfl, hword ht⟩
  | ifElse ht _ _ _ => exact ⟨_, _, rfl, hword ht⟩
  | forIn ht _ => exact ⟨_, _, rfl, hword ht⟩
  | reduce ht _ _ _ _ _ => exact ⟨_, _, rfl, hword ht⟩
  | lambda ht _ _ _ => exact ⟨_, _, rfl, hword ht⟩
  | define hd => exact Starts.definition.mono (fun _ => hword) hd
  | binary hl => exact Starts.level.mono (fun _ ht => ht.1) hl

/-- A word that extends no expression ends a sequence of phrases that end in an expression. -/
theorem Splits.separated {α β : Type} {P : Phrase α} {F : α → Unit → Phrase β} {sep : Token → Prop}
    {w : Text} {e : Extension} (hw : spelled w = []) (hsep : ∀ t, Word w t → ¬sep t) :
    Splits P (fun x => Seq (Tok (Word w)) (F x)) (separators sep (operators 1)) e e := by
  refine .of_starts (fun _ => (Starts.tok _).seq) fun l t ht => ?_
  rintro (hs | hop)
  · exact hsep t ht hs
  · exact closing_of_word hw ht l hop

end TinyScript.Syntax.Grammar
