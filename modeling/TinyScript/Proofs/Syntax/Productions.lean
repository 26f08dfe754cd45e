import TinyScript.Proofs.Syntax.Phrase

/-!
# The productions as sequences

An expression is extended by a binary operator and, if it ends in a name, by an opening parenthesis; the
keywords, commas and closing brackets that follow an expression inside a larger phrase do neither.

Every production is brought into the form of a sequence, as parsers for it are. Which production a primary
expression is of is told by its first token.
-/

namespace TinyScript.Syntax.Grammar

variable {α : Type}

/-! ## Tokens behind an expression -/

/-- What extends an expression of a level: operators of the level and tighter ones, and an opening
parenthesis behind a name. -/
def operators (level : Nat) : Extension := fun l t =>
  (∃ k op, level ≤ k ∧ Joins k op t) ∨ (Mark .leftParen t ∧ ∃ n ∈ l, Ident n)

/-- Tighter operators are among those of a looser level. -/
theorem operators_anti {k level : Nat} (h : level ≤ k) {l : Option Token} {t : Token}
    (ht : operators k l t) : operators level l t := by
  rcases ht with ⟨j, op, hj, hjoin⟩ | hcall
  · exact .inl ⟨j, op, Nat.le_trans h hj, hjoin⟩
  · exact .inr hcall

theorem operators_of_none {level : Nat} {t : Token} (ht : operators level none t) (l : Option Token) :
    operators level l t := by
  rcases ht with hjoin | ⟨-, n, hn, -⟩
  · exact .inl hjoin
  · cases hn

theorem Joins.kind {k : Nat} {op : BinOp} {t : Token} (h : Joins k op t) :
    t.kind = .operator ∨ t.kind = .symbol := h.1

theorem Joins.level_le {k : Nat} {op : BinOp} {t : Token} (h : Joins k op t) : k ≤ 9 := by
  obtain ⟨-, row, hrow, -, -⟩ := h
  obtain ⟨hlt, -⟩ := List.getElem?_eq_some_iff.1 hrow
  have hlen : operatorLevels.length = 9 := rfl
  omega

/-- The operator that a spelling stands for, with its level. -/
def spelled (t : Text) : List (Nat × BinOp) :=
  operatorLevels.zipIdx.flatMap fun row => (row.1.filter (·.1 = t)).map fun p => (row.2 + 1, p.2)

theorem Joins.mem_spelled {k : Nat} {op : BinOp} {t : Token} (h : Joins k op t) :
    (k, op) ∈ spelled t.text := by
  obtain ⟨-, row, hrow, hk, hmem⟩ := h
  refine List.mem_flatMap.2 ⟨(row, k - 1), List.mem_zipIdx_iff_getElem?.2 hrow, ?_⟩
  refine List.mem_map.2 ⟨(t.text, op), List.mem_filter.2 ⟨hmem, by simp⟩, ?_⟩
  rw [Nat.sub_add_cancel hk]

/-- No spelling stands for two operators. -/
theorem spelled_length_le (t : Text) : (spelled t).length ≤ 1 := by
  by_cases h : ∃ row ∈ operatorLevels, ∃ p ∈ row, p.1 = t
  · obtain ⟨row, hrow, p, hp, rfl⟩ := h
    revert p row
    decide
  · have hnil : spelled t = [] := by
      refine List.flatMap_eq_nil_iff.2 fun row hrow => ?_
      rw [List.map_eq_nil_iff, List.filter_eq_nil_iff]
      intro p hp heq
      exact h ⟨row.1, List.fst_mem_of_mem_zipIdx hrow, p, hp, by simpa using heq⟩
    simp [hnil]

/-- A token is one operator only, on one level. -/
theorem Joins.unique {j k : Nat} {op op' : BinOp} {t : Token} (h : Joins j op t) (h' : Joins k op' t) :
    j = k ∧ op = op' := by
  have hlen := spelled_length_le t.text
  have hmem := h.mem_spelled
  have hmem' := h'.mem_spelled
  cases hs : spelled t.text with
  | nil => simp [hs] at hmem
  | cons p ps =>
    have hps : ps = [] := List.eq_nil_of_length_eq_zero (by simpa [hs] using hlen)
    rw [hs, hps, List.mem_singleton] at hmem hmem'
    exact Prod.mk.inj (hmem.trans hmem'.symm)

/-- A token that extends no expression, whatever the expression ends in. -/
def Closing (t : Token) : Prop := ∀ l, ¬operators 1 l t

/-- A word that spells no operator ends an expression. -/
theorem closing_of_word {w : Text} (hw : spelled w = []) {t : Token} (h : Word w t) : Closing t := by
  rintro l (⟨k, op, -, hjoin⟩ | ⟨hparen, -⟩)
  · have hmem := hjoin.mem_spelled
    rw [h.2, hw] at hmem
    cases hmem
  · cases h.1.symm.trans hparen

/-- A token of a class other than words, signs and opening parentheses ends an expression. -/
theorem closing_of_mark {kind : TokenKind} (hk : kind ≠ .operator ∧ kind ≠ .symbol ∧ kind ≠ .leftParen)
    {t : Token} (h : Mark kind t) : Closing t := by
  rintro l (⟨k, op, -, hjoin⟩ | ⟨hparen, -⟩)
  · rcases hjoin.kind with ho | hs
    · exact hk.1 (h.symm.trans ho)
    · exact hk.2.1 (h.symm.trans hs)
  · exact hk.2.2 (h.symm.trans hparen)

/-- A token that closes no bracket. -/
def Opening (t : Token) : Prop := ¬Mark .rightParen t ∧ ¬Mark .rightSquare t ∧ ¬Mark .rightCurly t

theorem opening_of_mark {kind : TokenKind}
    (hk : kind ≠ .rightParen ∧ kind ≠ .rightSquare ∧ kind ≠ .rightCurly) {t : Token} (h : Mark kind t) :
    Opening t :=
  ⟨fun h' => hk.1 (h.symm.trans h'), fun h' => hk.2.1 (h.symm.trans h'),
    fun h' => hk.2.2 (h.symm.trans h')⟩

/-! ## Names and sequences -/

theorem Starts.name : Starts Name Ident := by
  rintro ts x ⟨h⟩
  exact ⟨_, [], rfl, h⟩

theorem Completable.name : Completable Name [] := by
  refine ⟨[(.symbol, "x")], by decide, "x", fun us hus => ?_⟩
  obtain ⟨t, ts, rfl, ht, hts⟩ := List.map_eq_cons_iff.1 hus
  obtain ⟨hkind, htext⟩ := Prod.mk.inj ht
  rw [List.map_eq_nil_iff.1 hts, ← htext]
  exact .mk ⟨hkind, by rw [htext]; decide⟩

variable {P : Phrase α} {closing : TokenKind} {w : Token → Prop}

theorem Starts.separated {sep w : Token → Prop} (h : Starts P w) : Starts (Separated sep P) w := by
  intro ts xs hs
  cases hs with
  | one hp => exact h hp
  | cons hp _ _ =>
    obtain ⟨t, us, rfl, ht⟩ := h hp
    exact ⟨t, us ++ _, rfl, ht⟩

/-- A separator extends a sequence, and so does what extends its last item. -/
def separators (sep : Token → Prop) (ext : Extension) : Extension := fun l t => sep t ∨ ext l t

/-- What stops a sequence stops its last item. -/
theorem Stops.item {sep : Token → Prop} {ext : Extension} {used rest : List Token}
    (h : Stops (separators sep ext) used rest) : Stops ext used rest :=
  fun t ht hext => h t ht (.inr hext)

/-- `[p {"," p}]` and a closing token. -/
def Enclosed (closing : TokenKind) (P : Phrase α) : Phrase (List α) :=
  Seq (Listed P) fun xs => Map (fun _ => xs) (Tok (Mark closing))

/-- At least one item and a closing token. -/
def Filled (closing : TokenKind) (P : Phrase α) : Phrase (List α) :=
  Seq (Separated (Mark .comma) P) fun xs => Map (fun _ => xs) (Tok (Mark closing))

/-- Nothing but the closing token, or items before it. -/
theorem enclosed_iff {ts : List Token} {xs : List α} :
    Enclosed closing P ts xs ↔ (∃ t, ts = [t] ∧ xs = [] ∧ Mark closing t) ∨ Filled closing P ts xs := by
  constructor
  · rintro ⟨hlist, ⟨⟨ht⟩⟩⟩
    cases hlist with
    | none => exact .inl ⟨_, rfl, rfl, ht⟩
    | some hs => exact .inr (.mk hs (.mk (.mk ht)))
  · rintro (⟨t, rfl, rfl, ht⟩ | ⟨hs, ⟨⟨ht⟩⟩⟩)
    · exact Seq.mk (Listed.none (p := P)) (.mk (.mk ht))
    · exact Seq.mk (Listed.some hs) (.mk (.mk ht))

theorem Starts.enclosed (h : Starts P w) : Starts (Enclosed closing P) fun _ => True := by
  intro ts xs he
  rcases enclosed_iff.1 he with ⟨t, rfl, -, -⟩ | hf
  · exact ⟨t, [], rfl, trivial⟩
  · exact (h.separated.seq hf).imp fun t ⟨us, heq, _⟩ => ⟨us, heq, trivial⟩

/-- Productions as sequences: parameters. -/
theorem params_eq : Params = Seq (Tok (Mark .leftParen)) fun _ => Enclosed .rightParen Name := by
  funext ts ns
  refine propext ⟨?_, ?_⟩
  · rintro ⟨ht, hns, hu⟩
    exact Seq.mk (Tok.mk ht) (Seq.mk hns (.mk (.mk hu)))
  · rintro ⟨⟨ht⟩, ⟨hns, ⟨⟨hu⟩⟩⟩⟩
    exact Params.mk ht hns hu

theorem Starts.params : Starts Params (Mark .leftParen) := params_eq ▸ (Starts.tok _).seq

/-! ## Parts of expressions -/

section Parts

variable {n : Nat} {E : Phrase Expr}

theorem assign_eq : Assign E
    = Seq Name fun n => Seq (Tok (Sign "=")) fun _ => Map (fun x => (n, x)) E := by
  funext ts x
  refine propext ⟨?_, ?_⟩
  · rintro ⟨hn, ht, hx⟩
    exact Seq.mk (Name.mk hn) (Seq.mk (Tok.mk ht) (Map.mk hx))
  · rintro ⟨⟨hn⟩, ⟨⟨ht⟩, ⟨hx⟩⟩⟩
    exact Assign.mk hn ht hx

theorem Starts.assign : Starts (Assign E) Ident := assign_eq ▸ Starts.name.seq

theorem branch_eq : Branch E
    = Seq E fun c => Seq (Tok (Word "then")) fun _ => Map (fun x => (c, x)) E := by
  funext ts x
  refine propext ⟨?_, ?_⟩
  · rintro ⟨hc, ht, hx⟩
    exact Seq.mk hc (Seq.mk (Tok.mk ht) (Map.mk hx))
  · rintro ⟨hc, ⟨⟨ht⟩, ⟨hx⟩⟩⟩
    exact Branch.mk hc ht hx

theorem Starts.branch (hS : Starts E Opening) : Starts (Branch E) Opening := branch_eq ▸ hS.seq

/-- An expression, and behind it a word that does not extend it. -/
theorem Splits.word {β : Type} {F : Expr → Unit → Phrase β} {w : Text} {e : Extension}
    (hw : spelled w = []) : Splits E (fun x => Seq (Tok (Word w)) (F x)) (operators 1) e e :=
  .of_starts (fun _ => (Starts.tok _).seq) fun l _ ht => closing_of_word hw ht l

/-- What extends a filter: the word `if` where there is none yet, or what extends its condition. -/
def filters : Extension := fun l t => (l = none ∧ Word "if" t) ∨ (l ≠ none ∧ operators 1 l t)

theorem stops_filters {used rest : List Token} (h : used ≠ []) :
    Stops filters used rest ↔ Stops (operators 1) used rest := by
  have hlast : used.getLast? ≠ none := by simpa using h
  simp [Stops, filters, hlast]

/-- What follows the filter of a loop. -/
def LoopEnd (E : Phrase Expr) (name : Text) (iter : Expr) (filter : Option Expr) : Phrase Parse.Loop :=
  Seq (Tok (Word "do")) fun _ => Map (fun body => ⟨name, iter, filter, body⟩) E

/-- The filter of a loop may be empty. -/
theorem loop_eq : Loop E = Seq Name fun name => Seq (Tok (Word "in")) fun _ => Seq E fun iter =>
    Seq (Filter E) (LoopEnd E name iter) := by
  funext ts l
  refine propext ⟨?_, ?_⟩
  · rintro ⟨hn, ht, hiter, hfilter, hu, hbody⟩
    exact Seq.mk (Name.mk hn) (Seq.mk (Tok.mk ht) (Seq.mk hiter (Seq.mk hfilter
      (Seq.mk (Tok.mk hu) (Map.mk hbody)))))
  · rintro ⟨⟨hn⟩, ⟨⟨ht⟩, ⟨hiter, ⟨hfilter, ⟨⟨hu⟩, ⟨hbody⟩⟩⟩⟩⟩⟩
    exact Loop.mk hn ht hiter hfilter hu hbody

theorem Starts.loop : Starts (Loop E) Ident := loop_eq ▸ Starts.name.seq

theorem Splits.filter {name : Text} {iter : Expr} :
    Splits (Filter E) (LoopEnd E name iter) filters (operators 1) (operators 1) := by
  refine .of_starts (fun _ => (Starts.tok _).seq) fun l t ht => ?_
  rintro (⟨-, hif⟩ | ⟨-, hop⟩)
  · cases ht.2.symm.trans hif.2
  · exact closing_of_word (by decide) ht l hop

theorem Splits.iter {name : Text} :
    Splits E (fun iter => Seq (Filter E) (LoopEnd E name iter)) (operators 1) (operators 1)
      (operators 1) := by
  have hstart : ∀ iter, Starts (Seq (Filter E) (LoopEnd E name iter)) Closing := by
    rintro iter ts l ⟨hfilter, hend⟩
    cases hfilter with
    | none =>
      obtain ⟨⟨ht⟩, hbody⟩ := hend
      exact ⟨_, _, rfl, closing_of_word (by decide) ht⟩
    | some ht _ => exact ⟨_, _, rfl, closing_of_word (by decide) ht⟩
  exact .of_starts hstart fun l t ht => ht l

/-- What follows the word `def`. -/
def DefinitionEnd (E : Phrase Expr) : Phrase Def :=
  Seq Name fun name => Seq Params fun ps => Seq (Tok (Sign "=")) fun _ =>
    Map (fun body => ⟨name, ps, body⟩) E

theorem definition_eq : Definition E = Seq (Tok (Word "def")) fun _ => DefinitionEnd E := by
  funext ts d
  refine propext ⟨?_, ?_⟩
  · rintro ⟨ht, hn, hps, hu, hbody⟩
    exact Seq.mk (Tok.mk ht) (Seq.mk (Name.mk hn) (Seq.mk hps (Seq.mk (Tok.mk hu) (Map.mk hbody))))
  · rintro ⟨⟨ht⟩, ⟨⟨hn⟩, ⟨hps, ⟨⟨hu⟩, ⟨hbody⟩⟩⟩⟩⟩
    exact Definition.mk ht hn hps hu hbody

theorem Starts.definition : Starts (Definition E) (Word "def") := definition_eq ▸ (Starts.tok _).seq

theorem Starts.definitionEnd : Starts (DefinitionEnd E) Ident := Starts.name.seq

/-- A symbol, or a string in its place. -/
inductive Key : Phrase Text
  | symbol {t} : Mark .symbol t → Key [t] t.text
  | string {t} : Mark .string t → Key [t] (Text.unquote t.text)

theorem Starts.key : Starts Key Opening := by
  rintro ts k (h | h)
  · exact ⟨_, [], rfl, opening_of_mark (by decide) h⟩
  · exact ⟨_, [], rfl, opening_of_mark (by decide) h⟩

theorem entry_eq : Entry E = Seq Key fun k => Seq (Tok (Mark .colon)) fun _ =>
    Map (fun x => (k, x)) E := by
  funext ts x
  refine propext ⟨?_, ?_⟩
  · rintro (⟨ht, hu, hx⟩ | ⟨ht, hu, hx⟩)
    · exact Seq.mk (Key.symbol ht) (Seq.mk (Tok.mk hu) (Map.mk hx))
    · exact Seq.mk (Key.string ht) (Seq.mk (Tok.mk hu) (Map.mk hx))
  · rintro ⟨hkey, ⟨⟨hu⟩, ⟨hx⟩⟩⟩
    cases hkey with
    | symbol ht => exact Entry.symbol ht hu hx
    | string ht => exact Entry.string ht hu hx

theorem Starts.entry : Starts (Entry E) Opening := entry_eq ▸ Starts.key.seq

end Parts

/-! ## Primary and unary expressions -/

section Operands

variable {n : Nat} {E : Phrase Expr}

/-- What follows an opening parenthesis: an expression and a closing one, or just that. -/
inductive ParensEnd (E : Phrase Expr) : Phrase Expr
  | unit {u} : Mark .rightParen u → ParensEnd E [u] (.lit .unit "()")
  | parens {ts u x} : E ts x → Mark .rightParen u → ParensEnd E (ts ++ [u]) x

/-- What follows a name: nothing, or arguments. -/
inductive NameEnd (E : Phrase Expr) (name : Text) : Phrase Expr
  | lookup : NameEnd E name [] (.lookup name)
  | call {t ts xs} : Mark .leftParen t → Enclosed .rightParen E ts xs →
      NameEnd E name (t :: ts) (.call name xs)

variable {t : Token} {ts : List Token}

/-- A primary expression is told by its first token. -/
theorem after_primary_iff {x : Expr} :
    After t (Primary E) ts x ↔
      ((Mark .decimal t ∨ Mark .float t) ∧ Done (.lit .number t.text) ts x)
      ∨ (Mark .string t ∧ Done (.lit .string t.text) ts x)
      ∨ ((Word "true" t ∨ Word "false" t) ∧ Done (.lit .bool t.text) ts x)
      ∨ (Word "nil" t ∧ Done (.lit .nil t.text) ts x)
      ∨ (Mark .leftParen t ∧ ParensEnd E ts x)
      ∨ (Ident t ∧ NameEnd E t.text ts x)
      ∨ (Mark .leftSquare t ∧ Map .list (Enclosed .rightSquare E) ts x)
      ∨ (Mark .leftCurly t ∧ Map .dict (Enclosed .rightCurly (Entry E)) ts x) := by
  constructor
  · intro h
    cases h with
    | number h => exact .inl ⟨h, rfl, rfl⟩
    | string h => exact .inr (.inl ⟨h, rfl, rfl⟩)
    | truth h => exact .inr (.inr (.inl ⟨h, rfl, rfl⟩))
    | nil h => exact .inr (.inr (.inr (.inl ⟨h, rfl, rfl⟩)))
    | unit h hu => exact .inr (.inr (.inr (.inr (.inl ⟨h, .unit hu⟩))))
    | parens h hx hu => exact .inr (.inr (.inr (.inr (.inl ⟨h, .parens hx hu⟩))))
    | lookup h => exact .inr (.inr (.inr (.inr (.inr (.inl ⟨h, .lookup⟩)))))
    | call h ht hxs hu =>
      exact .inr (.inr (.inr (.inr (.inr (.inl ⟨h, .call ht (Seq.mk hxs (.mk (.mk hu)))⟩)))))
    | list h hxs hu =>
      exact .inr (.inr (.inr (.inr (.inr (.inr (.inl ⟨h, .mk (Seq.mk hxs (.mk (.mk hu)))⟩))))))
    | dict h hes hu =>
      exact .inr (.inr (.inr (.inr (.inr (.inr (.inr ⟨h, .mk (Seq.mk hes (.mk (.mk hu)))⟩))))))
  · rintro (⟨h, rfl, rfl⟩ | ⟨h, rfl, rfl⟩ | ⟨h, rfl, rfl⟩ | ⟨h, rfl, rfl⟩ | ⟨h, hend⟩ | ⟨h, hend⟩ |
      ⟨h, ⟨⟨hxs, ⟨⟨hu⟩⟩⟩⟩⟩ | ⟨h, ⟨⟨hes, ⟨⟨hu⟩⟩⟩⟩⟩)
    · exact .number h
    · exact .string h
    · exact .truth h
    · exact .nil h
    · cases hend with
      | unit hu => exact .unit h hu
      | parens hx hu => exact .parens h hx hu
    · cases hend with
      | lookup => exact .lookup h
      | call ht hargs =>
        obtain ⟨hxs, ⟨⟨hu⟩⟩⟩ := hargs
        exact .call h ht hxs hu
    · exact .list h hxs hu
    · exact .dict h hes hu

/-- The words that begin an expression of their own. -/
def forms : List Text := ["let", "if", "for", "reduce", "fn", "def"]

/-- A token that can begin an operand: neither a sign nor a word that begins an expression of its own. -/
def Operand (t : Token) : Prop := Opening t ∧ ∀ w ∈ forms, ¬Word w t

theorem operand_of_mark {kind : TokenKind} (h : Mark kind t)
    (hk : kind ≠ .rightParen ∧ kind ≠ .rightSquare ∧ kind ≠ .rightCurly) (hs : kind ≠ .symbol) :
    Operand t := ⟨opening_of_mark hk h, fun _ _ hw => hs (h.symm.trans hw.1)⟩

theorem operand_of_text (hs : t.kind = .symbol) (h : t.text ∉ forms) : Operand t :=
  ⟨opening_of_mark (by decide) hs, fun _ hmem hw => h (hw.2 ▸ hmem)⟩

/-- No keyword is a name. -/
theorem operand_of_ident (h : Ident t) : Operand t := by
  refine operand_of_text h.1 fun hmem => ?_
  have hkey : isKeyword t.text := by
    revert hmem
    generalize t.text = w
    revert w
    decide
  exact Bool.noConfusion (h.2.symm.trans hkey)

/-- A primary expression does not begin with a sign. -/
theorem Starts.primary : Starts (Primary E) fun t => Operand t ∧ t.kind ≠ .operator := by
  have hmark : ∀ {kind : TokenKind} {t : Token}, Mark kind t →
      ((kind ≠ .rightParen ∧ kind ≠ .rightSquare ∧ kind ≠ .rightCurly) ∧ kind ≠ .symbol) ∧ kind ≠ .operator →
      Operand t ∧ t.kind ≠ .operator :=
    fun h hk => ⟨operand_of_mark h hk.1.1 hk.1.2, fun h' => hk.2 (h.symm.trans h')⟩
  have hword : ∀ {w : Text} {t : Token}, Word w t → w ∉ forms → Operand t ∧ t.kind ≠ .operator :=
    fun h hw => ⟨operand_of_text h.1 (h.2 ▸ hw), fun h' => by cases h.1.symm.trans h'⟩
  have hident : ∀ {t : Token}, Ident t → Operand t ∧ t.kind ≠ .operator :=
    fun h => ⟨operand_of_ident h, fun h' => by cases h.1.symm.trans h'⟩
  intro ts x h
  cases h with
  | number h =>
    rcases h with h | h
    · exact ⟨_, _, rfl, hmark h (by decide)⟩
    · exact ⟨_, _, rfl, hmark h (by decide)⟩
  | string h => exact ⟨_, _, rfl, hmark h (by decide)⟩
  | truth h =>
    rcases h with h | h
    · exact ⟨_, _, rfl, hword h (by decide)⟩
    · exact ⟨_, _, rfl, hword h (by decide)⟩
  | nil h => exact ⟨_, _, rfl, hword h (by decide)⟩
  | unit h _ => exact ⟨_, _, rfl, hmark h (by decide)⟩
  | parens h _ _ => exact ⟨_, _, rfl, hmark h (by decide)⟩
  | lookup h => exact ⟨_, _, rfl, hident h⟩
  | call h _ _ _ => exact ⟨_, _, rfl, hident h⟩
  | list h _ _ => exact ⟨_, _, rfl, hmark h (by decide)⟩
  | dict h _ _ => exact ⟨_, _, rfl, hmark h (by decide)⟩

/-! What follows a first token of each sort. -/

section FirstToken

variable {t : Token}

theorem after_number (h : t.kind = .decimal ∨ t.kind = .float) :
    After t (Primary E) = Done (.lit .number t.text) := by
  funext ts x
  rcases h with h | h <;> simp [after_primary_iff, Mark, Word, Ident, h]

theorem after_string (h : t.kind = .string) : After t (Primary E) = Done (.lit .string t.text) := by
  funext ts x
  simp [after_primary_iff, Mark, Word, Ident, h]

theorem after_leftParen (h : t.kind = .leftParen) : After t (Primary E) = ParensEnd E := by
  funext ts x
  simp [after_primary_iff, Mark, Word, Ident, h]

theorem after_leftSquare (h : t.kind = .leftSquare) :
    After t (Primary E) = Map .list (Enclosed .rightSquare E) := by
  funext ts x
  simp [after_primary_iff, Mark, Word, Ident, h]

theorem after_leftCurly (h : t.kind = .leftCurly) :
    After t (Primary E) = Map .dict (Enclosed .rightCurly (Entry E)) := by
  funext ts x
  simp [after_primary_iff, Mark, Word, Ident, h]

theorem after_truth (h : t.kind = .symbol) (hw : t.text = "true" ∨ t.text = "false") :
    After t (Primary E) = Done (.lit .bool t.text) := by
  have hkey : isKeyword t.text ∧ t.text ≠ "nil" := by rcases hw with hw | hw <;> rw [hw] <;> decide
  funext ts x
  simp [after_primary_iff, Mark, Word, Ident, h, hw, hkey]

theorem after_nil (h : t.kind = .symbol) (hw : t.text = "nil") :
    After t (Primary E) = Done (.lit .nil t.text) := by
  have hkey : isKeyword t.text ∧ t.text ≠ "true" ∧ t.text ≠ "false" := by rw [hw]; decide
  funext ts x
  simp only [after_primary_iff, Mark, Word, Ident, h, hkey]
  simp [hw]

theorem after_ident (h : Ident t) : After t (Primary E) = NameEnd E t.text := by
  have hword : t.text ≠ "true" ∧ t.text ≠ "false" ∧ t.text ≠ "nil" := by
    refine ⟨?_, ?_, ?_⟩ <;> intro hw <;> have hkey := h.2 <;> rw [hw] at hkey <;> exact absurd hkey (by decide)
  funext ts x
  simp [after_primary_iff, Mark, Word, Ident, h.1, h.2, hword]

/-- No primary expression begins with any other token. -/
theorem not_after_primary (h : t.kind ∉ ([.decimal, .float, .string, .leftParen, .leftSquare, .leftCurly]
      : List TokenKind))
    (hs : t.kind = .symbol → isKeyword t.text ∧ t.text ∉ (["true", "false", "nil"] : List Text))
    (ts : List Token) (x : Expr) : ¬After t (Primary E) ts x := by
  simp only [List.mem_cons, List.not_mem_nil, or_false, not_or] at h hs
  rw [after_primary_iff]
  simp only [Mark, Word, Ident, h, false_and, false_or, or_false]
  rintro (⟨⟨hk, hw⟩ | ⟨hk, hw⟩, -⟩ | ⟨⟨hk, hw⟩, -⟩ | ⟨⟨hk, hw⟩, -⟩)
  · exact (hs hk).2.1 hw
  · exact (hs hk).2.2.1 hw
  · exact (hs hk).2.2.2 hw
  · exact Bool.noConfusion (hw.symm.trans (hs hk).1)

end FirstToken

/-- The unit, or an expression in parentheses. -/
theorem parensEnd_iff {x : Expr} :
    ParensEnd E ts x ↔
    (∃ u, ts = [u] ∧ x = .lit .unit "()" ∧ Mark .rightParen u)
      ∨ Seq E (fun x => Map (fun _ => x) (Tok (Mark .rightParen))) ts x := by
  constructor
  · rintro (hu | ⟨hx, hu⟩)
    · exact .inl ⟨_, rfl, rfl, hu⟩
    · exact .inr (Seq.mk hx (.mk (.mk hu)))
  · rintro (⟨u, rfl, rfl, hu⟩ | ⟨hx, ⟨⟨hu⟩⟩⟩)
    · exact .unit hu
    · exact .parens hx hu

theorem Splits.parens : Splits E (fun x => Map (fun _ => x) (Tok (Mark .rightParen)))
    (operators 1) never never :=
  .of_starts (fun _ => (Starts.tok _).map) fun l _ ht => closing_of_mark (by decide) ht l

/-! Unary operators are signs, and no primary expression begins with a sign. -/

theorem Starts.unary : Starts (Unary E) Operand := by
  intro ts x h
  cases h with
  | neg ht _ => exact ⟨_, _, rfl, operand_of_mark ht.1 (by decide) (by decide)⟩
  | not ht _ => exact ⟨_, _, rfl, operand_of_mark ht.1 (by decide) (by decide)⟩
  | primary hp => exact Starts.primary.mono (fun _ ht => ht.1) hp

/-- What follows a sign in front of an operand is an operand again. -/
theorem unary_sign (ht : t.kind = .operator) {x : Expr} (h : Unary E (t :: ts) x) :
    ∃ y, Unary E ts y ∧ ((Sign "-" t ∧ x = .unary .neg y) ∨ (Sign "!" t ∧ x = .unary .not y)) := by
  cases h with
  | neg hs hy => exact ⟨_, hy, .inl ⟨hs, rfl⟩⟩
  | not hs hy => exact ⟨_, hy, .inr ⟨hs, rfl⟩⟩
  | primary hp => exact absurd ht (Starts.primary.head hp).2

end Operands

end TinyScript.Syntax.Grammar
