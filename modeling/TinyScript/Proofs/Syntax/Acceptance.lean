import TinyScript.Proofs.Syntax.Reading

/-!
# The parser accepts the grammar

`parsed_iff_derived`: tokens are parsed to a tree if and only if the grammar derives that tree from them.
This holds for single expressions and for programs.

If they are not parsed, the error tells why. One at the end of the input means that some more tokens
would complete what was begun; one at a token, that none would (`outcome_expr`, `outcome_program`).
-/

namespace TinyScript.Syntax.Grammar

open Parse List

variable {ts : List Token} {ds : List Def} {src : Text} {n : Nat} {e : Parse Expr}

/-! ## Expressions behind their first word -/

section Forms

variable (hE : Reads n e IsExpr (operators 1))
include hE

/-- A token of its own and an expression behind it end most phrases. -/
theorem Reads.last {β : Type} {w : Token → Prop} {p : Parse Unit} (hp : Reads n p (Tok w) never)
    (g : Expr → β) : Reads n (p >>= fun _ => e >>= fun x => pure (g x))
      (Seq (Tok w) fun _ => Map g IsExpr) (operators 1) :=
  hp.bind (fun _ => hE.map g) (fun _ => .map _ .isExpr) (.of_never fun _ => Starts.isExpr.map)

omit hE in
/-- A token and an expression can complete what was begun. -/
theorem Completable.last {β : Type} {w : Token → Prop} (h : Completable (Tok w) []) (g : Expr → β) :
    Completable (Seq (Tok w) fun _ => Map g IsExpr) [] := h.seq_left fun _ => .map g .isExpr

/-- The verdict on an assignment, as on all productions, comes from those on its parts. -/
theorem Reads.assign : Reads n (Parse.assign e) (Assign IsExpr) (operators 1) := by
  have hsign : Completable (Tok (Sign "=")) [] := .sign (by decide)
  rw [assign_eq]
  refine Reads.name.bind (fun name => ?_) (fun _ => hsign.last _)
    (.of_never fun _ => (Starts.tok _).seq)
  exact hE.last (.expectOperator hsign) _

theorem Reads.letIn : Reads n (Parse.letIn e) (LetEnd IsExpr) (operators 1) := by
  have hword : Completable (Tok (Word "in")) [] := .word (by decide)
  have hassigns : Reads n (Parse.separated (fun t => t.kind = .comma) (Parse.assign e))
      (Separated (Mark .comma) (Assign IsExpr)) (separators (Mark .comma) (operators 1)) :=
    hE.assign.separated (fun t => by simp [Mark]) Starts.assign
      (fun l t ht => closing_of_mark (by decide) ht l) fun l t ht => operators_of_none ht l
  refine hassigns.bind (fun assigns => ?_) (fun _ => hword.last _)
    (.separated (by decide) fun _ ht hc => by cases ht.1.symm.trans hc)
  exact hE.last (.expectWord hword) _

theorem Reads.branch : Reads n (Parse.branch e) (Branch IsExpr) (operators 1) := by
  have hword : Completable (Tok (Word "then")) [] := .word (by decide)
  rw [branch_eq]
  refine hE.bind (fun c => ?_) (fun _ => hword.last _) (.word (by decide))
  exact hE.last (.expectWord hword) _

theorem Reads.ifElse : Reads n (Parse.ifElse e) (IfEnd IsExpr) (operators 1) := by
  have hword : Completable (Tok (Word "else")) [] := .word (by decide)
  have hbranches : Reads n (Parse.separated (fun t => t.kind = .symbol && t.text = "elif") (Parse.branch e))
      (Separated (Word "elif") (Branch IsExpr)) (separators (Word "elif") (operators 1)) :=
    hE.branch.separated (fun t => word_test) (Starts.branch Starts.isExpr)
      (fun l t ht => closing_of_word (by decide) ht l) fun l t ht => operators_of_none ht l
  refine hbranches.bind (fun conds => ?_) (fun _ => hword.last _)
    (.separated (by decide) fun _ ht hc => by cases ht.2.symm.trans hc.2)
  exact hE.last (.expectWord hword) _

/-- A filter may be missing, where the word `if` does not follow. -/
theorem Reads.filter : Reads n (Parse.filter e) (Filter IsExpr) filters := by
  intro stop ts hlen
  have honly : ∀ us x, Filter IsExpr us x → (us = [] ∧ x = none) ∨ ∃ t vs, us = t :: vs ∧ filters none t := by
    intro us x hf
    cases hf with
    | none => exact .inl ⟨rfl, rfl⟩
    | some ht _ => exact .inr ⟨_, _, rfl, .inl ⟨rfl, ht⟩⟩
  rw [Parse.filter, result_atWord_bind]
  cases ts with
  | nil => exact .empty .none (stops_nil _ _) honly
  | cons t ts =>
    rw [head?_cons, Option.any_some]
    by_cases ht : Word "if" t
    · have hafter : After t (Filter IsExpr) = Map some IsExpr := by
        funext us x
        refine propext ⟨fun h => ?_, fun ⟨hx⟩ => .some ht hx⟩
        cases h with
        | some _ hx => exact .mk hx
      rw [if_pos (word_test.2 ht), result_next_cons_bind]
      refine .of_after (fun _ _ => .inl ⟨rfl, ht⟩) ?_
      have hv := (hE.map some stop ts (Nat.le_of_succ_le hlen)).behind Starts.isExpr.map t
      rw [hafter]
      refine hv.congr (fun _ _ => Iff.rfl) fun us x rest _ => ?_
      rw [stops_after, stops_after, stops_filters (cons_ne_nil t us)]
    · rw [if_neg (mt word_test.1 ht)]
      refine .empty .none ((stops_cons ..).2 ?_) honly
      rintro (⟨-, hif⟩ | ⟨hne, -⟩)
      · exact ht hif
      · exact hne rfl

omit hE in
theorem Completable.loopEnd {name : Text} {iter : Expr} (filter : Option Expr) :
    Completable (LoopEnd IsExpr name iter filter) [] :=
  .seq_left (.word (by decide)) fun _ => .map _ .isExpr

omit hE in
/-- A loop can be completed without a filter. -/
theorem Completable.filtered {name : Text} (iter : Expr) :
    Completable (Seq (Filter IsExpr) (LoopEnd IsExpr name iter)) [] :=
  .seq_left (.of_phrase .none) .loopEnd

omit hE in
theorem Completable.loop : Completable (Grammar.Loop IsExpr) [] := by
  rw [loop_eq]
  refine .seq_left .name fun _ => .seq_left (.word (by decide)) fun _ => ?_
  exact .seq_left .isExpr .filtered

theorem Reads.loop : Reads n (Parse.loop e) (Grammar.Loop IsExpr) (operators 1) := by
  have hin : Completable (Tok (Word "in")) [] := .word (by decide)
  have hdo : Completable (Tok (Word "do")) [] := .word (by decide)
  rw [loop_eq]
  refine Reads.name.bind (fun name => ?_)
    (fun _ => hin.seq_left fun _ => .seq_left .isExpr .filtered) (.of_never fun _ => (Starts.tok _).seq)
  refine (Reads.expectWord hin).bind (fun _ => ?_) (fun _ => .seq_left .isExpr .filtered)
    (.of_never fun _ => Starts.isExpr.seq)
  refine hE.bind (fun iter => ?_) .filtered .iter
  refine hE.filter.bind (fun filter => ?_) .loopEnd .filter
  exact hE.last (.expectWord hdo) _

theorem Reads.reduce : Reads n (Parse.reduce e) (ReduceEnd IsExpr) (operators 1) := by
  have hsign : Completable (Tok (Sign "=")) [] := .sign (by decide)
  have hfor : Completable (Tok (Word "for")) [] := .word (by decide)
  have hloop : ∀ g : Parse.Loop → Expr, Completable (Seq (Tok (Word "for")) fun _ => Map g (Grammar.Loop IsExpr)) [] :=
    fun g => hfor.seq_left fun _ => .map g .loop
  refine Reads.name.bind (fun carry => ?_)
    (fun _ => hsign.seq_left fun _ => .seq_left .isExpr fun _ => hloop _) (.of_never fun _ => (Starts.tok _).seq)
  refine (Reads.expectOperator hsign).bind (fun _ => ?_)
    (fun _ => .seq_left .isExpr fun _ => hloop _) (.of_never fun _ => Starts.isExpr.seq)
  refine hE.bind (fun init => ?_) (fun _ => hloop _) (.word (by decide))
  exact (Reads.expectWord hfor).bind (fun _ => hE.loop.map _) (fun _ => .map _ .loop)
    (.of_never fun _ => Starts.loop.map)

theorem Reads.lambda : Reads n (Parse.lambda e) (LambdaEnd IsExpr) (operators 1) := by
  have hsign : Completable (Tok (Sign "=>")) [] := .sign (by decide)
  refine Reads.params.bind (fun ps => ?_) (fun _ => hsign.last _)
    (.of_never fun _ => (Starts.tok _).seq)
  exact hE.last (.expectOperator hsign) _

theorem Reads.definitionEnd : Reads n (do
    let name ← Parse.name
    let ps ← Parse.params
    Parse.expectOperator "="
    return ⟨name, ps, ← e⟩) (DefinitionEnd IsExpr) (operators 1) := by
  have hsign : Completable (Tok (Sign "=")) [] := .sign (by decide)
  refine Reads.name.bind (fun name => ?_) (fun _ => .seq_left .params fun _ => hsign.last _)
    (.of_never fun _ => Starts.params.seq)
  refine Reads.params.bind (fun ps => ?_) (fun _ => hsign.last _) (.of_never fun _ => (Starts.tok _).seq)
  exact hE.last (.expectOperator hsign) _

end Forms

theorem Completable.definitionEnd : Completable (DefinitionEnd IsExpr) [] :=
  .seq_left .name fun _ => .seq_left .params fun _ => .last (.sign (by decide)) _

theorem Reads.define (hE : ∀ m, m < n → Reads m e IsExpr (operators 1)) :
    Reads n (Parse.define e) (Definition IsExpr) (operators 1) := by
  have hdef : Completable (Tok (Word "def")) [] := .word (by decide)
  rw [definition_eq]
  refine (Reads.expectWord hdef).bind_stops ?_ (fun _ => .definitionEnd)
    (.of_never fun _ => Starts.definitionEnd)
  rintro us _ stop rest ⟨-⟩ - hlen
  exact (hE rest.length (by simp at hlen; omega)).definitionEnd stop rest (Nat.le_refl _)

theorem after_definition {E : Phrase Expr} {t : Token} (ht : Word "def" t) :
    After t (Definition E) = DefinitionEnd E := by
  rw [definition_eq]
  funext us d
  refine propext ⟨fun h => ?_, fun h => Seq.mk (Tok.mk ht) h⟩
  have hseq : Seq (Tok (Word "def")) (fun _ => DefinitionEnd E) (t :: us) d := h
  generalize hw : t :: us = ws at hseq
  obtain ⟨⟨-⟩, hend⟩ := hseq
  exact (List.cons.inj hw).2 ▸ hend

/-! ## All expressions -/

/-- The first token tells which production to use. -/
theorem Reads.form (hE : ∀ m, m < n → Reads m e IsExpr (operators 1)) :
    Reads n (Parse.form e) IsExpr (operators 1) := by
  refine .of_after Starts.isExpr (fun stop => ⟨_, rfl, rfl⟩) .isExpr fun stop t ts hlen => ?_
  have hEs := hE ts.length hlen
  have hself := Nat.le_refl ts.length
  rw [Parse.form, result_atWord_bind, head?_cons, Option.any_some]
  by_cases hlet : Word "let" t
  · rw [if_pos (word_test.2 hlet), result_next_cons_bind, after_let hlet]
    exact (hEs.letIn stop ts hself).behind Starts.assign.separated.seq t
  rw [if_neg (mt word_test.1 hlet), result_atWord_bind, head?_cons, Option.any_some]
  by_cases hif : Word "if" t
  · rw [if_pos (word_test.2 hif), result_next_cons_bind, after_if hif]
    exact (hEs.ifElse stop ts hself).behind (Starts.branch Starts.isExpr).separated.seq t
  rw [if_neg (mt word_test.1 hif), result_atWord_bind, head?_cons, Option.any_some]
  by_cases hfor : Word "for" t
  · rw [if_pos (word_test.2 hfor), result_next_cons_bind, after_for hfor]
    exact (hEs.loop.map _ stop ts hself).behind Starts.loop.map t
  rw [if_neg (mt word_test.1 hfor), result_atWord_bind, head?_cons, Option.any_some]
  by_cases hreduce : Word "reduce" t
  · rw [if_pos (word_test.2 hreduce), result_next_cons_bind, after_reduce hreduce]
    exact (hEs.reduce stop ts hself).behind Starts.name.seq t
  rw [if_neg (mt word_test.1 hreduce), result_atWord_bind, head?_cons, Option.any_some]
  by_cases hfn : Word "fn" t
  · rw [if_pos (word_test.2 hfn), result_next_cons_bind, after_fn hfn]
    exact (hEs.lambda stop ts hself).behind Starts.params.seq t
  rw [if_neg (mt word_test.1 hfn), result_atWord_bind, head?_cons, Option.any_some]
  by_cases hdef : Word "def" t
  · rw [if_pos (word_test.2 hdef)]
    have hv := (Reads.define hE).map Def.toExpr stop (t :: ts) hlen
    rw [after_def hdef, ← after_definition hdef, ← after_map]
    exact hv.after_of Starts.definition.map
  · have hforms : ∀ w ∈ forms, ¬Word w t := by simp [forms, hlet, hif, hfor, hreduce, hfn, hdef]
    rw [if_neg (mt word_test.1 hdef), after_operand hforms]
    exact (Reads.binary hE _ 1 (by decide) (by decide) stop (t :: ts) hlen).after_of Starts.level

/-- **What the parser for expressions reads.** With one unit of fuel more than there are tokens, it never
runs out of it. -/
theorem reads_expr (n : Nat) : Reads n (Parse.expr (n + 1)) IsExpr (operators 1) := by
  induction n with
  | zero => exact .form fun m hm => absurd hm (Nat.not_lt_zero m)
  | succ n ih => exact .form fun m hm => ih.anti (Nat.le_of_lt_succ hm)

/-! ## Programs -/

/-- A program with a token in it begins with a definition. -/
theorem isProgram_cons_iff {t : Token} :
    IsProgram (t :: ts) ds ↔ Seq (Definition IsExpr) (fun d => Map (d :: ·) IsProgram) (t :: ts) ds := by
  generalize hw : t :: ts = ws
  constructor
  · rintro (- | ⟨hd, hds⟩)
    · cases hw
    · exact .mk hd (.mk hds)
  · rintro ⟨hd, ⟨hds⟩⟩
    exact .cons hd hds

/-- The definitions read so far, and those still to be read. -/
theorem after_program (acc : List Def) (t : Token) :
    After t (Seq (Definition IsExpr) fun d => Map ((d :: acc).reverse ++ ·) IsProgram)
      = After t (Map (acc.reverse ++ ·) IsProgram) := by
  have hfirst : After t IsProgram = After t (Seq (Definition IsExpr) fun d => Map (d :: ·) IsProgram) := by
    funext ts ds
    exact propext isProgram_cons_iff
  rw [after_map, hfirst, ← after_map, map_seq]
  simp only [map_map, reverse_cons, append_assoc, singleton_append]

/-- No definition extends the body of the one before it. -/
theorem IsProgram.stops (h : IsProgram ts ds) (used : List Token) :
    Stops (operators 1) used ts := by
  cases h with
  | nil => exact stops_nil _ _
  | cons hd _ =>
    obtain ⟨t, us, rfl, ht⟩ := Starts.definition hd
    exact (stops_cons ..).2 (closing_of_word (by decide) ht _)

theorem isProgram_nil (h : IsProgram [] ds) : ds = [] := by
  generalize hw : [] = ws at h
  cases h with
  | nil => rfl
  | cons hd _ => exact absurd (List.append_eq_nil_iff.1 hw.symm).1 (Starts.definition.ne_nil hd)

/-- A definition stops where the next one begins or the program ends. -/
theorem Splits.program {g : Def → List Def → List Def} :
    Splits (Definition IsExpr) (fun d => Map (g d) IsProgram) (operators 1) always always := by
  rintro as d bs _ rest _ ⟨hds⟩
  rw [stops_always, stops_always]
  refine ⟨?_, fun h => h.2⟩
  rintro rfl
  rw [append_nil]
  exact ⟨hds.stops _, rfl⟩

/-- Definitions up to the end. The induction is on the fuel. -/
theorem Reads.defsLoop (hE : Reads n e IsExpr (operators 1)) (fuel : Nat) (acc : List Def) (stop : Pos)
    (hlen : ts.length ≤ n) (hfuel : ts.length < fuel) :
    Verdict (Map (acc.reverse ++ ·) IsProgram) always ts
      ((Parse.defsLoop e fuel acc).result stop ts) := by
  induction fuel generalizing acc stop ts with
  | zero => cases hfuel
  | succ fuel ih =>
    rw [Parse.defsLoop, result_peek_bind]
    cases ts with
    | nil =>
      have hnil : Map (acc.reverse ++ ·) IsProgram [] (acc.reverse ++ []) := .mk .nil
      rw [append_nil] at hnil
      refine .empty hnil (stops_nil _ _) ?_
      rintro us _ ⟨hds⟩
      cases us with
      | nil => exact .inl ⟨rfl, by rw [isProgram_nil hds, append_nil]⟩
      | cons t us => exact .inr ⟨t, us, rfl, trivial⟩
    | cons t ts =>
      have hreads : Reads (t :: ts).length (Parse.define e >>= fun d => Parse.defsLoop e fuel (d :: acc))
          (Seq (Definition IsExpr) fun d => Map ((d :: acc).reverse ++ ·) IsProgram) always := by
        refine (Reads.define fun m hm => hE.anti (by omega)).bind_stops
          (fun us d stop rest hd _ hrest => ?_) (fun d => .map _ (.of_phrase .nil)) .program
        have hpos := Starts.definition.length_pos hd
        exact ih (d :: acc) stop (by omega) (by omega)
      have hv := (hreads stop (t :: ts) (Nat.le_refl _)).after_of Starts.definition.seq
      exact .of_after (fun _ _ => trivial) (after_program acc t ▸ hv)

/-! ## Whole texts -/

/-- What the result of parsing says about all of the tokens. -/
inductive Outcome {α : Type} (P : Phrase α) (ts : List Token) : Except SyntaxError α → Prop
  | parsed {x} : P ts x → (∀ y, P ts y → y = x) → Outcome P ts (.ok x)
  | unfinished {err} : err.atEnd → (∀ x, ¬P ts x) → Completable P ts → Outcome P ts (.error err)
  | refused {err} : err.atEnd = false → (∀ us x, ¬P (ts ++ us) x) → Outcome P ts (.error err)

/-- The outcome tells exactly which phrase was parsed. -/
theorem Outcome.ok_iff {α : Type} {P : Phrase α} {r : Except SyntaxError α}
    (h : Outcome P ts r) (x : α) : r = .ok x ↔ P ts x := by
  cases h with
  | parsed hx honly => exact ⟨fun heq => Except.ok.inj heq ▸ hx, fun hy => congrArg _ (honly x hy).symm⟩
  | unfinished _ hn _ => exact ⟨nofun, fun hx => absurd hx (hn x)⟩
  | refused _ hn => exact ⟨nofun, fun hx => absurd hx (by simpa using hn [] x)⟩

/-- **The outcome of parsing tokens** as an expression. -/
theorem outcome_expr (ts : Tokens) : Outcome IsExpr ts.items ts.expr := by
  have hv := reads_expr ts.items.length ts.stop ts.items (Nat.le_refl _)
  generalize hr : (Parse.expr (ts.items.length + 1)).result ts.stop ts.items = r at hv
  rw [result] at hr
  rw [Tokens.expr, hr]
  cases hv with
  | @found x rest hfront honly =>
    cases rest with
    | nil =>
      obtain ⟨us, heq, hx, -⟩ := hfront
      rw [append_nil] at heq
      refine .parsed (heq ▸ hx) fun y hy => (honly [] (fun _ => rfl) y [] ?_).1
      exact .all (by rwa [append_nil])
    | cons t rest =>
      -- an expression at the front that stops before the end is the only one, whatever is added
      refine .refused rfl fun more y hy => ?_
      cases (honly more (fun hnil => by cases hnil) y [] (.all hy)).2
  | unfinished he ha hc => exact .unfinished he (fun x hx => ha x [] (.all hx)) hc
  | refused he hn => exact .refused he fun us x hx => hn us x [] (.all hx)

theorem outcome_program (ts : Tokens) :
    Outcome (fun us (p : Program) => IsProgram us p.defs) ts.items ts.program := by
  have hv := (reads_expr ts.items.length).defsLoop (ts.items.length + 1) [] ts.stop (Nat.le_refl _)
    (Nat.lt_succ_self _)
  generalize hr : (Parse.defsLoop (Parse.expr (ts.items.length + 1)) (ts.items.length + 1) []).result
    ts.stop ts.items = r at hv
  rw [result] at hr
  simp only [Tokens.program, hr]
  cases hv with
  | @found _ rest hfront honly =>
    obtain ⟨us, heq, ⟨hds⟩, hs⟩ := hfront
    obtain rfl := (stops_always us rest).1 hs
    rw [append_nil] at heq
    refine .parsed (heq ▸ hds) fun p hp => congrArg Program.mk (honly [] (fun _ => rfl) p.defs [] ?_).1
    exact .all (.mk (by rwa [append_nil]))
  | unfinished he ha hc =>
    refine .unfinished he (fun p hp => ha p.defs [] (.all (.mk hp))) ?_
    refine hc.imp (g := Program.mk) fun us ds h => ?_
    obtain ⟨hds⟩ := h
    exact hds
  | refused he hn => exact .refused he fun us p hp => hn us p.defs [] (.all (.mk hp))

/-- What a text is parsed to is what the grammar derives from its tokens. -/
theorem Outcome.parse_iff {α : Type} {P : Phrase α} {read : Tokens → Except SyntaxError α}
    (h : ∀ ts, Outcome P ts.items (read ts)) {x : α} :
    tokenize src >>= read = .ok x ↔ ∃ ts, tokenize src = .ok ts ∧ P ts.items x := by
  cases tokenize src with
  | error e => exact ⟨nofun, fun ⟨_, hts, _⟩ => nomatch hts⟩
  | ok ts =>
    refine ((h ts).ok_iff x).trans ⟨fun hx => ⟨ts, rfl, hx⟩, ?_⟩
    rintro ⟨_, ⟨⟩, hx⟩
    exact hx

/-- The parser for expressions accepts exactly the grammar. -/
theorem parseExpr_iff {x : Expr} :
    parseExpr src = .ok x ↔ ∃ ts, tokenize src = .ok ts ∧ IsExpr ts.items x :=
  Outcome.parse_iff outcome_expr

/-- And so does the parser for programs. -/
theorem parseProgram_iff {p : Program} :
    parseProgram src = .ok p ↔ ∃ ts, tokenize src = .ok ts ∧ IsProgram ts.items p.defs :=
  Outcome.parse_iff outcome_program

/-- **The parser accepts exactly the grammar.** The tokens of a text are parsed to an expression, and to a
program, if and only if the grammar derives it from them. -/
theorem parsed_iff_derived (ts : Tokens) :
    (∀ x, ts.expr = .ok x ↔ IsExpr ts.items x) ∧
      ∀ p, ts.program = .ok p ↔ IsProgram ts.items p.defs :=
  ⟨(outcome_expr ts).ok_iff, (outcome_program ts).ok_iff⟩

end TinyScript.Syntax.Grammar
