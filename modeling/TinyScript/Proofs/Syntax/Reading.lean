import TinyScript.Proofs.Syntax.Climbing

/-!
# What the parsers read

One verdict for each parser, from single tokens up to operators. The parsers that are given the parser for expressions
as an argument are given its verdict as a hypothesis; the knot is tied in `TinyScript.Proofs.Syntax.Acceptance`. Loops
carry fuel. There is always more of it than there are tokens, and every round takes at least one.
-/

namespace TinyScript.Syntax.Grammar

open Parse List

variable {α : Type} {n : Nat}

/-! ## Single tokens -/

theorem word_test {w : Text} {t : Token} :
    (decide (t.kind = .symbol) && decide (t.text = w)) = true ↔ Word w t := by simp [Word]

theorem sign_test {s : Text} {t : Token} :
    (decide (t.kind = .operator) && decide (t.text = s)) = true ↔ Sign s t := by simp [Sign]

/-- A parser for phrases of one token. -/
theorem Reads.single {p : Parse α} {P : Phrase α} (hP : ∀ ts x, P ts x → ∃ t, ts = [t])
    (hc : Completable P []) (hnil : ∀ stop, ∃ e, p.result stop [] = .error e ∧ e.atEnd)
    (hcons : ∀ stop t ts, (∃ x, P [t] x ∧ (∀ y, P [t] y → y = x) ∧ p.result stop (t :: ts) = .ok (x, ts)) ∨
      ((∀ x, ¬P [t] x) ∧ ∃ e, p.result stop (t :: ts) = .error e ∧ e.atEnd = false)) :
    Reads n p P never := by
  have hstart : Starts P fun _ => True := by
    intro ts x hp
    obtain ⟨t, rfl⟩ := hP ts x hp
    exact ⟨t, [], rfl, trivial⟩
  refine .of_after hstart hnil hc fun stop t ts _ => ?_
  have hafter : ∀ us x, After t P us x → us = [] ∧ P [t] x := by
    intro us x hp
    obtain ⟨u, heq⟩ := hP _ x hp
    obtain ⟨rfl, rfl⟩ := List.cons.inj heq
    exact ⟨rfl, hp⟩
  rcases hcons stop t ts with ⟨x, hp, honly, hr⟩ | ⟨hno, e, hr, he⟩
  · rw [hr]
    exact .empty hp (stops_never _ _) fun us y hy => .inl ((hafter us y hy).imp_right (honly y))
  · rw [hr]
    exact .none he fun us x hx => hno x (hafter us x hx).2

/-- A token of a sort that is told by a test. -/
theorem Reads.tok {w : Token → Prop} {p : Parse Unit} {test : Token → Bool} {problem : Text → Problem}
    (hw : ∀ t, test t ↔ w t) (hc : Completable (Tok w) [])
    (hp : p = next >>= fun t => if t.any test then pure () else fail t problem) :
    Reads n p (Tok w) never := by
  subst hp
  refine .single ?_ hc (fun stop => ⟨_, rfl, rfl⟩) fun stop t ts => ?_
  · rintro ts x ⟨-⟩
    exact ⟨_, rfl⟩
  · by_cases ht : w t
    · refine .inl ⟨(), .mk ht, fun _ _ => rfl, ?_⟩
      simp [(hw t).2 ht, result_pure]
    · have htest : test t = false := Bool.eq_false_iff.2 fun h => ht ((hw t).1 h)
      refine .inr ⟨?_, ⟨_, by simp only [result_next_cons_bind, Option.any_some, htest]; rfl, rfl⟩⟩
      rintro x ⟨h⟩
      exact ht h

/-- A word that can be added on a new line. -/
theorem Completable.word {w : Text} (hw : (.symbol, w) ∈ closers) : Completable (Tok (Word w)) [] :=
  .tok _ hw fun _ h => Prod.mk.inj h

theorem Completable.sign {s : Text} (hs : (.operator, s) ∈ closers) : Completable (Tok (Sign s)) [] :=
  .tok _ hs fun _ h => Prod.mk.inj h

variable {kind : TokenKind} {ts : List Token} {P : Phrase α} {closing : TokenKind} {E : Phrase Expr}
  {t : Token}

theorem Completable.mark (l : Text) (hl : (kind, l) ∈ closers) :
    Completable (Tok (Mark kind)) [] := .tok _ hl fun _ h => (Prod.mk.inj h).1

/-- A token of a kind that can be added. -/
theorem Reads.expectKind (what : Text) (hc : Completable (Tok (Mark kind)) []) :
    Reads n (Parse.expectKind kind what) (Tok (Mark kind)) never :=
  .tok (fun _ => by simp [Mark]) hc rfl

theorem Reads.expectWord {w : Text} (hc : Completable (Tok (Word w)) []) :
    Reads n (Parse.expectWord w) (Tok (Word w)) never :=
  .tok (fun _ => word_test) hc rfl

theorem Reads.expectOperator {s : Text} (hc : Completable (Tok (Sign s)) []) :
    Reads n (Parse.expectOperator s) (Tok (Sign s)) never :=
  .tok (fun _ => sign_test) hc rfl

theorem Reads.name : Reads n Parse.name Name never := by
  refine .single ?_ .name (fun stop => ⟨_, rfl, rfl⟩) fun stop t ts => ?_
  · rintro ts x ⟨-⟩
    exact ⟨_, rfl⟩
  · have hr : Parse.name.result stop (t :: ts)
        = (if t.kind = .symbol && !isKeyword t.text then pure t.text
            else fail (some t) .expectedName : Parse Text).result stop ts := rfl
    rw [hr]
    by_cases ht : Ident t
    · exact .inl ⟨t.text, .mk ht, fun y ⟨_⟩ => rfl, by simp [ht.1, ht.2, result_pure]⟩
    · have htest : (t.kind = .symbol && !isKeyword t.text) = false := by
        simpa [Ident] using ht
      refine .inr ⟨?_, ⟨_, by simp only [htest]; rfl, rfl⟩⟩
      rintro x ⟨h⟩
      exact ht h

theorem Completable.key : Completable Key [] :=
  Completable.name.imp (g := id) fun vs x hn => by
    obtain ⟨ht⟩ := hn
    exact .symbol ht.1

theorem Reads.key : Reads n Parse.key Key never := by
  refine .single ?_ .key (fun stop => ⟨_, rfl, rfl⟩) fun stop t ts => ?_
  · rintro ts x (- | -)
    · exact ⟨_, rfl⟩
    · exact ⟨_, rfl⟩
  · have hr : Parse.key.result stop (t :: ts)
        = (if t.kind = .symbol then pure t.text
            else if t.kind = .string then pure (Text.unquote t.text)
            else fail (some t) .expectedKey : Parse Text).result stop ts := rfl
    rw [hr]
    by_cases hs : t.kind = .symbol
    · refine .inl ⟨t.text, .symbol hs, fun y hy => ?_, by simp [hs, result_pure]⟩
      cases hy with
      | symbol => rfl
      | string hq => cases hs.symm.trans hq
    · by_cases hq : t.kind = .string
      · refine .inl ⟨_, .string hq, fun y hy => ?_, by simp [hq, result_pure]⟩
        cases hy with
        | symbol hs' => exact absurd hs' hs
        | string => rfl
      · refine .inr ⟨?_, ⟨_, by rw [if_neg hs, if_neg hq]; rfl, rfl⟩⟩
        rintro x (h | h)
        · exact hs h
        · exact hq h

/-- A token that stands for itself, or else a phrase, which never begins with such a token. -/
theorem Verdict.or_token {p : Parse α} {P Q : Phrase α} {x : α} {w : Token → Prop} {stop : Pos}
    (h : Verdict P never ts (p.result stop ts)) (hS : Starts P w) (hw : ∀ t, w t → ¬Mark kind t)
    (hc : Completable P []) (hQ : ∀ ts y, Q ts y ↔ (∃ t, ts = [t] ∧ y = x ∧ Mark kind t) ∨ P ts y) :
    Verdict Q never ts ((do if ← atKind kind then let _ ← next; return x else p : Parse α).result stop ts) := by
  have hstart : Starts Q fun _ => True := by
    intro ts y hq
    rcases (hQ ts y).1 hq with ⟨t, rfl, -⟩ | hp
    · exact ⟨t, [], rfl, trivial⟩
    · exact hS.mono (fun _ _ => trivial) hp
  rw [result_atKind_bind]
  cases ts with
  | nil =>
    obtain ⟨e, hr, he⟩ := h.at_nil hS hc
    rw [head?_nil, Option.any_none, if_neg Bool.false_ne_true, hr]
    exact .unfinished he (fun _ _ => hstart.not_front_nil) (hc.imp (g := id) fun us y hp => (hQ us y).2 (.inr hp))
  | cons t ts =>
    refine .of_after (fun y hq => absurd rfl (hstart.ne_nil hq)) ?_
    by_cases ht : t.kind = kind
    · rw [head?_cons, Option.any_some, if_pos (by simpa using ht), result_next_cons_bind, result_pure]
      refine .empty ((hQ _ _).2 (.inl ⟨t, rfl, rfl, ht⟩)) (stops_never _ _) fun us y hq => .inl ?_
      rcases (hQ _ _).1 hq with ⟨t', heq, rfl, -⟩ | hp
      · exact ⟨(List.cons.inj heq).2, rfl⟩
      · exact absurd ht (hw t (hS.head hp))
    · rw [head?_cons, Option.any_some, if_neg (by simpa using ht)]
      refine (h.after_of hS).congr (fun us y => ⟨fun hp => (hQ _ _).2 (.inr hp), fun hq => ?_⟩) fun _ _ _ _ => Iff.rfl
      rcases (hQ _ _).1 hq with ⟨t', heq, -, ht'⟩ | hp
      · obtain ⟨rfl, -⟩ := List.cons.inj heq
        exact absurd ht' ht
      · exact hp

/-! ## Sequences -/

/-- More items, each behind a separator. -/
inductive Tail (sep : Token → Prop) (P : Phrase α) : Phrase (List α)
  | nil : Tail sep P [] []
  | cons {t us x vs xs} : sep t → P us x → Tail sep P vs xs → Tail sep P (t :: (us ++ vs)) (x :: xs)

theorem Tail.separated {sep : Token → Prop} {vs : List Token} {xs : List α} (h : Tail sep P vs xs)
    {us : List Token} {x : α} (hp : P us x) : Separated sep P (us ++ vs) (x :: xs) := by
  induction h generalizing us x with
  | nil => rw [append_nil]; exact .one hp
  | cons ht hq _ ih => exact .cons hp ht (ih hq)

theorem separated_eq {sep : Token → Prop} : Separated sep P = Seq P fun x => Map (x :: ·) (Tail sep P) := by
  funext ts xs
  refine propext ⟨fun h => ?_, ?_⟩
  · induction h with
    | @one ts x hp =>
      rw [← append_nil ts]
      exact Seq.mk hp (Map.mk (g := (x :: ·)) Tail.nil)
    | @cons ts us t x xs hp ht _ ih =>
      obtain ⟨hq, ⟨htail⟩⟩ := ih
      exact Seq.mk hp (Map.mk (g := (x :: ·)) (Tail.cons ht hq htail))
  · rintro ⟨hp, ⟨htail⟩⟩
    exact htail.separated hp

/-! Items in brackets. -/

/-- What follows an item in brackets. -/
def ItemsEnd (closing : TokenKind) (P : Phrase α) : Phrase (List α) :=
  Seq (Tail (Mark .comma) P) fun xs => Map (fun _ => xs) (Tok (Mark closing))

theorem filled_eq :
    Filled closing P = Seq P fun x => Map (x :: ·) (ItemsEnd closing P) := by
  funext ts xs
  rw [Filled, separated_eq]
  refine propext ⟨?_, ?_⟩
  · rintro ⟨⟨hp, ⟨htail⟩⟩, ⟨⟨ht⟩⟩⟩
    rw [append_assoc]
    exact Seq.mk hp (.mk (Seq.mk htail (.mk (.mk ht))))
  · rintro ⟨hp, ⟨⟨htail, ⟨⟨ht⟩⟩⟩⟩⟩
    rw [← append_assoc]
    exact Seq.mk (Seq.mk hp (.mk htail)) (.mk (.mk ht))

section Items

variable {closing : TokenKind} {P : Phrase α}

/-- Behind an item comes the closing token, or a comma and more. -/
theorem itemsEnd_cons_iff {t : Token} {ts : List Token} {xs : List α} :
    ItemsEnd closing P (t :: ts) xs ↔ (Mark closing t ∧ Done [] ts xs)
      ∨ (Mark .comma t ∧ Filled closing P ts xs) := by
  rw [filled_eq]
  constructor
  · generalize hw : t :: ts = ws
    rintro ⟨htail, ⟨⟨hu⟩⟩⟩
    cases htail with
    | nil =>
      obtain ⟨rfl, rfl⟩ := List.cons.inj hw
      exact .inl ⟨hu, rfl, rfl⟩
    | cons ht hp htail =>
      obtain ⟨rfl, rfl⟩ := List.cons.inj hw
      rw [append_eq, append_assoc]
      exact .inr ⟨ht, Seq.mk hp (.mk (Seq.mk htail (.mk (.mk hu))))⟩
  · rintro (⟨ht, rfl, rfl⟩ | ⟨ht, ⟨hp, ⟨⟨htail, ⟨⟨hu⟩⟩⟩⟩⟩⟩)
    · exact Seq.mk (Tail.nil (P := P)) (.mk (.mk ht))
    · rw [← append_assoc]
      exact Seq.mk (Tail.cons ht hp htail) (.mk (.mk hu))

/-- Behind the closing token nothing is left to read. -/
theorem after_itemsEnd {t : Token} (hne : closing ≠ .comma) (ht : Mark closing t) :
    After t (ItemsEnd closing P) = Done [] := by
  funext us xs
  refine propext (itemsEnd_cons_iff.trans ⟨?_, fun h => .inl ⟨ht, h⟩⟩)
  rintro (⟨-, h⟩ | ⟨hcomma, -⟩)
  · exact h
  · exact absurd (ht.symm.trans hcomma) hne

theorem Starts.itemsEnd : Starts (ItemsEnd closing P) fun t => Mark .comma t ∨ Mark closing t := by
  rintro ts xs ⟨htail, ⟨⟨hu⟩⟩⟩
  cases htail with
  | nil => exact ⟨_, _, rfl, .inr hu⟩
  | cons ht _ _ => exact ⟨_, _, rfl, .inl ht⟩

/-- The items read so far, and those still to be read. -/
theorem filled_acc (acc : List α) : Map (acc.reverse ++ ·) (Filled closing P)
    = Seq P fun x => Map ((x :: acc).reverse ++ ·) (ItemsEnd closing P) := by
  rw [filled_eq, map_seq]
  simp only [map_map, reverse_cons, append_assoc, singleton_append]

variable {item : Parse α} {ext : Extension} {w : Token → Prop}

theorem Completable.itemsEnd (hc : Completable (Tok (Mark closing)) []) :
    Completable (ItemsEnd closing P) [] :=
  Completable.seq_right Tail.nil (hc.map _)

variable (hc : Completable (Tok (Mark closing)) [])
  (hcomma : ∀ l t, Mark .comma t → ¬ext l t) (hclose : ∀ l t, Mark closing t → ¬ext l t) (hS : Starts P w)
include hc hcomma hclose hS

/-- An item, and the loop behind it. -/
theorem item_verdict (acc : List α) {loop : List α → Parse (List α)} {stop : Pos} {ts : List Token}
    (hitem : Reads ts.length item P ext)
    (hloop : ∀ x stop rest, rest.length < ts.length →
      Verdict (Map ((x :: acc).reverse ++ ·) (ItemsEnd closing P)) never rest
        ((loop (x :: acc)).result stop rest)) :
    Verdict (Map (acc.reverse ++ ·) (Filled closing P)) never ts
      ((item >>= fun x => loop (x :: acc)).result stop ts) := by
  have hreads : Reads ts.length (item >>= fun x => loop (x :: acc))
      (Seq P fun x => Map ((x :: acc).reverse ++ ·) (ItemsEnd closing P)) never := by
    refine hitem.bind_stops (fun us x stop rest hp _ hlen => ?_)
      (fun x => (Completable.itemsEnd hc).map _) (.of_starts (fun _ => Starts.itemsEnd.map) ?_)
    · have hpos := hS.length_pos hp
      exact hloop x stop rest (by omega)
    · rintro l t (ht | ht)
      · exact hcomma l t ht
      · exact hclose l t ht
  rw [filled_acc]
  exact hreads stop ts (Nat.le_refl _)

/-- What the loop says behind an item. -/
theorem itemsLoop_verdict (hne : closing ≠ .comma) (what : Text) (fuel : Nat) {acc : List α}
    (hacc : acc ≠ []) (stop : Pos)
    {ts : List Token} (hfuel : ts.length < fuel) (hitem : Reads ts.length item P ext) :
    Verdict (Map (acc.reverse ++ ·) (ItemsEnd closing P)) never ts
      ((itemsLoop closing what item fuel acc).result stop ts) := by
  induction fuel generalizing acc stop ts with
  | zero => cases hfuel
  | succ fuel ih =>
    have hsome : (!acc.isEmpty) := by simpa using hacc
    simp only [itemsLoop, result_atKind_bind, hsome, if_true]
    cases ts with
    | nil =>
      rw [head?_nil, Option.any_none, if_neg Bool.false_ne_true, result_expectKind_nil_bind]
      exact .unfinished rfl (fun _ _ => Starts.itemsEnd.map.not_front_nil) ((Completable.itemsEnd hc).map _)
    | cons t ts =>
      rw [length_cons] at hfuel
      refine .of_after (fun _ hp => absurd rfl (Starts.itemsEnd.map.ne_nil hp)) ?_
      rw [after_map, head?_cons, Option.any_some]
      by_cases hclosing : t.kind = closing
      · rw [after_itemsEnd hne hclosing, map_done, append_nil, if_pos (by simpa using hclosing),
          result_next_cons_bind, result_pure]
        exact .done _ (stops_never _ _)
      · rw [if_neg (by simpa using hclosing), result_expectKind_cons_bind]
        by_cases hsep : t.kind = .comma
        · have hafter : After t (ItemsEnd closing P) = Filled closing P := by
            funext us xs
            refine propext (itemsEnd_cons_iff.trans ⟨?_, fun hf => .inr ⟨hsep, hf⟩⟩)
            rintro (⟨ht, -⟩ | ⟨-, hf⟩)
            · exact absurd ht hclosing
            · exact hf
          rw [if_pos hsep, hafter]
          refine item_verdict hc hcomma hclose hS acc (hitem.anti (Nat.le_succ _)) ?_
          intro x stop rest hlen
          exact ih (by simp) stop (by omega) (hitem.anti (Nat.le_succ_of_le (Nat.le_of_lt hlen)))
        · rw [if_neg hsep]
          refine .none rfl ?_
          rintro us x ⟨hp⟩
          rcases itemsEnd_cons_iff.1 hp with ⟨ht, -⟩ | ⟨ht, -⟩
          · exact hclosing ht
          · exact hsep ht

/-- What the loop says in front of the first item. -/
theorem Reads.items (hne : closing ≠ .comma) (hopen : ∀ t, w t → ¬Mark closing t) (hitem : Reads n item P ext)
    (hcP : Completable P []) (what : Text) :
    Reads n (Parse.items closing what item) (Enclosed closing P) never := by
  intro stop ts hlen
  have hfirst : Verdict (Filled closing P) never ts
      ((item >>= fun x => itemsLoop closing what item ts.length [x]).result stop ts) := by
    refine (item_verdict hc hcomma hclose hS [] (hitem.anti hlen) ?_).congr ?_
      fun _ _ _ _ => Iff.rfl
    · intro x stop rest hrest
      exact itemsLoop_verdict hc hcomma hclose hS hne what _ (by simp) stop hrest (hitem.anti (by omega))
    · exact fun us xs => ⟨fun ⟨h⟩ => h, fun h => .mk h⟩
  have hcF : Completable (Filled closing P) [] := by
    rw [filled_eq]
    exact hcP.seq_left fun x => (Completable.itemsEnd hc).map _
  exact hfirst.or_token hS.separated.seq hopen hcF fun _ _ => enclosed_iff

end Items

theorem Completable.enclosed (hc : Completable (Tok (Mark closing)) []) :
    Completable (Enclosed closing P) [] :=
  Completable.seq_right Listed.none (hc.map _)

/-! Items between separators. -/

section Separated

variable {sep : Token → Prop} {test : Token → Bool} {P : Phrase α} {item : Parse α} {ext : Extension}
  {w : Token → Prop}

/-- What the loop has read so far stands in front. -/
theorem separated_acc (acc : List α) : Map (acc.reverse ++ ·) (Separated sep P)
    = Seq P fun x => Map ((x :: acc).reverse ++ ·) (Tail sep P) := by
  rw [separated_eq, map_seq]
  simp only [map_map, reverse_cons, append_assoc, singleton_append]

theorem tail_cons_iff {t : Token} {ts : List Token} {xs : List α} :
    Tail sep P (t :: ts) xs ↔ sep t ∧ Separated sep P ts xs := by
  rw [separated_eq]
  constructor
  · rintro (- | ⟨ht, hp, htail⟩)
    exact ⟨ht, .mk hp (.mk htail)⟩
  · rintro ⟨ht, ⟨hp, ⟨htail⟩⟩⟩
    exact .cons ht hp htail

theorem Splits.tail {g : α → List α → List α} (hsep : ∀ l t, sep t → ¬ext l t)
    (hnone : ∀ l t, ext none t → ext l t) :
    Splits P (fun x => Map (g x) (Tail sep P)) ext (separators sep ext) (separators sep ext) := by
  rintro as x bs _ rest hp ⟨htail⟩
  cases htail with
  | nil =>
    rw [append_nil, nil_append]
    refine ⟨fun hs => ⟨hs.item, ?_⟩, ?_⟩
    · rintro t ht (hsep | hext)
      · exact hs t ht (.inl hsep)
      · exact hs t ht (.inr (hnone _ t hext))
    · rintro ⟨hs, hs'⟩ t ht (hsep | hext)
      · exact hs' t ht (.inl hsep)
      · exact hs t ht hext
  | @cons t us y vs ys ht hq _ =>
    rw [stops_append_left _ _ (cons_ne_nil t _)]
    exact (and_iff_right ((stops_cons ..).2 (hsep _ t ht))).symm

/-- **The loop for items with separators.** The induction is on the fuel. -/
theorem separatedLoop_verdict (htest : ∀ t, test t ↔ sep t) (hS : Starts P w)
    (hsep : ∀ l t, sep t → ¬ext l t) (hnone : ∀ l t, ext none t → ext l t) (fuel : Nat) (acc : List α)
    (stop : Pos) {ts : List Token}
    (hfuel : ts.length < fuel) (hitem : Reads ts.length item P ext) :
    Verdict (Map (acc.reverse ++ ·) (Separated sep P)) (separators sep ext) ts
      ((separatedLoop test item fuel acc).result stop ts) := by
  induction fuel generalizing acc stop ts with
  | zero => cases hfuel
  | succ fuel ih =>
    rw [separated_acc]
    refine hitem.bind_stops (fun us x stop rest hp hs hlen => ?_)
      (fun x => (Completable.of_phrase Tail.nil).map _) (.tail hsep hnone) stop ts (Nat.le_refl _)
    have hnil : Map ((x :: acc).reverse ++ ·) (Tail sep P) [] ((x :: acc).reverse ++ []) := .mk .nil
    rw [append_nil] at hnil
    have honly : ∀ us y, Map ((x :: acc).reverse ++ ·) (Tail sep P) us y →
        (us = [] ∧ y = (x :: acc).reverse) ∨ ∃ t vs, us = t :: vs ∧ separators sep ext none t := by
      rintro us y ⟨htail⟩
      cases htail with
      | nil => exact .inl ⟨rfl, append_nil _⟩
      | cons ht _ _ => exact .inr ⟨_, _, rfl, .inl ht⟩
    simp only [result_peek_bind]
    cases rest with
    | nil => exact .empty hnil (stops_nil _ _) honly
    | cons t rest =>
      by_cases ht : sep t
      · rw [head?_cons, Option.any_some, if_pos ((htest t).2 ht), result_next_cons_bind]
        refine .of_after (fun _ _ => .inl ht) ?_
        have hafter : After t (Tail sep P) = Separated sep P := by
          funext vs ys
          exact propext (tail_cons_iff.trans (and_iff_right ht))
        rw [after_map, hafter]
        rw [length_cons] at hlen
        exact (ih (x :: acc) stop (by omega) (hitem.anti (by omega))).behind hS.separated.map t
      · rw [head?_cons, Option.any_some, if_neg (fun h => ht ((htest t).1 h)), result_pure]
        refine .empty hnil ((stops_cons ..).2 ?_) honly
        rintro (hsep | hext)
        · exact ht hsep
        · exact (stops_cons ..).1 hs (hnone _ t hext)

theorem Reads.separated (hitem : Reads n item P ext) (htest : ∀ t, test t ↔ sep t)
    (hS : Starts P w) (hsep : ∀ l t, sep t → ¬ext l t) (hnone : ∀ l t, ext none t → ext l t) :
    Reads n (Parse.separated test item) (Separated sep P) (separators sep ext) := by
  intro stop ts hlen
  have hloop := separatedLoop_verdict htest hS hsep hnone _ [] stop (Nat.lt_succ_self _)
    (hitem.anti hlen)
  refine hloop.congr (fun us xs => ⟨?_, .mk⟩) fun _ _ _ _ => Iff.rfl
  rintro ⟨h⟩
  exact h

end Separated

theorem Reads.params : Reads n Parse.params Params never := by
  rw [params_eq]
  have hopen : Completable (Tok (Mark .leftParen)) [] := .mark "(" (by decide)
  have hclose : Completable (Tok (Mark .rightParen)) [] := .mark ")" (by decide)
  have hnames : Reads n (Parse.items .rightParen "','" Parse.name) (Enclosed .rightParen Name) never :=
    .items hclose (fun _ _ _ h => h) (fun _ _ _ h => h) Starts.name (by decide)
      (fun _ ht hmark => by cases ht.1.symm.trans hmark) .name .name _
  exact (Reads.expectKind _ hopen).bind (fun _ => hnames) (fun _ => .enclosed hclose)
    (.of_never fun _ => Starts.name.enclosed)

theorem Completable.params : Completable Params [] := by
  rw [params_eq]
  exact .seq_left (.mark "(" (by decide)) fun _ => .enclosed (.mark ")" (by decide))

/-! ## Primary and unary expressions -/

theorem Completable.number {P : Phrase Expr} (h : ∀ t, Mark .decimal t → P [t] (.lit .number t.text)) :
    Completable P [] := by
  refine ⟨[(.decimal, "1")], by decide, .lit .number "1", fun us hus => ?_⟩
  obtain ⟨t, ts, rfl, ht, hts⟩ := List.map_eq_cons_iff.1 hus
  obtain ⟨hkind, htext⟩ := Prod.mk.inj ht
  rw [List.map_eq_nil_iff.1 hts, ← htext]
  exact h t hkind

theorem Completable.unary : Completable (Unary E) [] :=
  .number fun _ ht => .primary (.number (.inl ht))

theorem Completable.level {m : Nat} (hm : m ≤ 10) : Completable (Level E m) [] :=
  Completable.unary.imp (g := id) fun _ _ hu => (Level.unary hu).weaken hm (Nat.le_refl _)

theorem Completable.isExpr : Completable IsExpr [] :=
  (Completable.level (by decide)).imp (g := id) fun _ _ hl => .binary hl

variable {e : Parse Expr}

/-- Expressions, or phrases that end in one, in brackets. -/
theorem Reads.brackets {item : Parse α} (hitem : Reads n item P (operators 1)) (hS : Starts P Opening)
    (hcP : Completable P []) (hc : Completable (Tok (Mark closing)) [])
    (hclosing : closing = .rightParen ∨ closing = .rightSquare ∨ closing = .rightCurly) (what : Text) :
    Reads n (Parse.items closing what item) (Enclosed closing P) never := by
  have hmark : (closing ≠ .operator ∧ closing ≠ .symbol ∧ closing ≠ .leftParen) ∧ closing ≠ .comma := by
    rcases hclosing with rfl | rfl | rfl <;> decide
  refine .items hc (fun l _ ht => closing_of_mark (by decide) ht l) (fun l _ ht => closing_of_mark hmark.1 ht l)
    hS hmark.2 (fun t ht => ?_) hitem hcP what
  rcases hclosing with rfl | rfl | rfl
  · exact ht.1
  · exact ht.2.1
  · exact ht.2.2

theorem Completable.entry : Completable (Entry IsExpr) [] := by
  rw [entry_eq]
  exact Completable.key.seq_left fun _ => .seq_left (.mark ":" (by decide)) fun _ => .map _ .isExpr

theorem Reads.entry (hE : Reads n e IsExpr (operators 1)) :
    Reads n (Parse.entry e) (Entry IsExpr) (operators 1) := by
  rw [entry_eq]
  have hcolon : Completable (Tok (Mark .colon)) [] := .mark ":" (by decide)
  refine Reads.key.bind (fun key => ?_) (fun _ => hcolon.seq_left fun _ => .map _ .isExpr)
    (.of_never fun _ => (Starts.tok _).seq)
  exact (Reads.expectKind _ hcolon).bind (fun _ => hE.map _) (fun _ => .map _ .isExpr)
    (.of_never fun _ => Starts.isExpr.map)

theorem Reads.parens (hE : Reads n e IsExpr (operators 1)) :
    Reads n (Parse.parens e) (ParensEnd IsExpr) never := by
  have hclose : Completable (Tok (Mark .rightParen)) [] := .mark ")" (by decide)
  have hseq : Reads n (do let x ← e; Parse.expectKind .rightParen "')'"; pure x)
      (Seq IsExpr fun x => Map (fun _ => x) (Tok (Mark .rightParen))) never :=
    hE.bind (fun x => (Reads.expectKind _ hclose).map fun _ => x)
      (fun x => hclose.map _) .parens
  intro stop ts hlen
  exact (hseq stop ts hlen).or_token Starts.isExpr.seq (fun _ ht => ht.1)
    (Completable.isExpr.seq_left fun _ => hclose.map _) fun _ _ => parensEnd_iff

/-- Nothing extends an operand but an opening parenthesis behind a name. -/
theorem stops_operators_ten {used rest : List Token} (h : ∀ t ∈ used.getLast?, ¬Ident t) :
    Stops (operators 10) used rest := by
  rintro t - (⟨k, op, hk, hjoin⟩ | ⟨-, u, hu, hident⟩)
  · have hle := hjoin.level_le
    omega
  · exact h u hu hident

/-- A phrase whose last token closes a bracket. -/
theorem Reads.closed {p : Parse α} (hkind : kind ≠ .symbol) (h : Reads n p P never)
    (hlast : ∀ ts x, P ts x → ∃ us u, ts = us ++ [u] ∧ Mark kind u) : Reads n p P (operators 10) := by
  refine h.congr (fun _ _ => Iff.rfl) fun us x rest hp => ?_
  refine iff_of_true (stops_never _ _) (stops_operators_ten ?_)
  obtain ⟨us, u, rfl, hu⟩ := hlast _ _ hp
  rw [getLast?_concat]
  rintro _ ⟨⟩ hident
  exact hkind (hu.symm.trans hident.1)

/-- What is in brackets ends with the closing one, so nothing extends it. -/
theorem enclosed_last {xs : List α} (h : Enclosed closing P ts xs) :
    ∃ us u, ts = us ++ [u] ∧ Mark closing u := by
  obtain ⟨_, ⟨⟨hu⟩⟩⟩ := h
  exact ⟨_, _, rfl, hu⟩

theorem parensEnd_last {x : Expr} (h : ParensEnd E ts x) : ∃ us u, ts = us ++ [u] ∧ Mark .rightParen u := by
  rcases parensEnd_iff.1 h with ⟨u, rfl, -, hu⟩ | ⟨-, ⟨⟨hu⟩⟩⟩
  · exact ⟨[], u, rfl, hu⟩
  · exact ⟨_, _, rfl, hu⟩

theorem map_last {β : Type} {g : α → β} (h : ∀ ts x, P ts x → ∃ us u, ts = us ++ [u] ∧ Mark kind u)
    (ts : List Token) (y : β) : Map g P ts y → ∃ us u, ts = us ++ [u] ∧ Mark kind u := by
  rintro ⟨hp⟩
  exact h _ _ hp

theorem Starts.parensEnd : Starts (ParensEnd IsExpr) fun _ => True := by
  intro ts x h
  rcases parensEnd_iff.1 h with ⟨u, rfl, -⟩ | hseq
  · exact ⟨u, [], rfl, trivial⟩
  · exact Starts.isExpr.seq.mono (fun _ _ => trivial) hseq

/-- Arguments behind a name are told by their parenthesis. -/
theorem after_nameEnd {name : Text} {u : Token} (hu : Mark .leftParen u) :
    After u (NameEnd E name) = Map (.call name) (Enclosed .rightParen E) := by
  funext ts x
  refine propext ⟨fun h => ?_, fun ⟨hargs⟩ => .call hu hargs⟩
  cases h with
  | call _ hargs => exact .mk hargs

/-- A name with or without arguments. -/
theorem word_verdict (hE : Reads n e IsExpr (operators 1)) (ht : Ident t) (stop : Pos) (hlen : ts.length ≤ n) :
    Verdict (NameEnd IsExpr t.text) ((operators 10).after t) ts ((Parse.word e t).result stop ts) := by
  have hword : t.text ≠ "true" ∧ t.text ≠ "false" ∧ t.text ≠ "nil" := by
    refine ⟨?_, ?_, ?_⟩ <;> intro hw <;> have hkey := ht.2 <;> rw [hw] at hkey <;> exact absurd hkey (by decide)
  simp only [Parse.word, hword.1, hword.2.1, hword.2.2, decide_false, Bool.or_self, Bool.false_eq_true,
    if_false, ht.2, result_atKind_bind]
  have honly : ∀ us x, NameEnd IsExpr t.text us x →
      (us = [] ∧ x = .lookup t.text) ∨ ∃ u vs, us = u :: vs ∧ (operators 10).after t none u := by
    intro us x hend
    cases hend with
    | lookup => exact .inl ⟨rfl, rfl⟩
    | call hu _ => exact .inr ⟨_, _, rfl, .inr ⟨hu, t, rfl, ht⟩⟩
  cases ts with
  | nil => exact .empty .lookup (stops_nil _ _) honly
  | cons u us =>
    rw [head?_cons, Option.any_some]
    by_cases hu : u.kind = .leftParen
    · have hclose : Completable (Tok (Mark .rightParen)) [] := .mark ")" (by decide)
      have hargs := ((hE.anti (Nat.le_of_succ_le hlen)).brackets Starts.isExpr .isExpr hclose
        (.inl rfl) "',' or ')'").map (Expr.call t.text)
      rw [if_pos (by simpa using hu), result_next_cons_bind]
      refine .of_after (fun _ _ => .inr ⟨hu, t, rfl, ht⟩) ?_
      rw [after_nameEnd hu]
      have hv := hargs.closed (by decide) (map_last fun _ _ => enclosed_last) stop us (Nat.le_refl _)
      exact (hv.behind Starts.isExpr.enclosed.map t).behind Starts.isExpr.enclosed.map u
    · rw [if_neg (by simpa using hu), result_pure]
      refine .empty .lookup ((stops_cons ..).2 ?_) honly
      rintro (⟨k, op, hk, hjoin⟩ | ⟨hparen, -⟩)
      · have hle := hjoin.level_le
        omega
      · exact hu hparen

/-- A keyword that is no literal begins no primary expression. -/
theorem result_word_keyword (hkey : isKeyword t.text) (htruth : ¬(t.text = "true" ∨ t.text = "false"))
    (hnil : t.text ≠ "nil") (stop : Pos) (ts : List Token) :
    (Parse.word e t).result stop ts = .error ⟨t.pos, .strayKeyword t.text, false⟩ := by
  simp only [not_or] at htruth
  simp [Parse.word, hkey, htruth, hnil]

/-- The verdict on primary expressions, by their first tokens. -/
theorem Reads.primary (hE : ∀ m, m < n → Reads m e IsExpr (operators 1)) :
    Reads n (Parse.primary e) (Primary IsExpr) (operators 10) := by
  refine .of_after Starts.primary (fun stop => ⟨_, rfl, rfl⟩)
    (.number fun _ ht => .number (.inl ht)) fun stop t ts hlen => ?_
  have hEs := hE ts.length hlen
  have hdone : ∀ x : Expr, ¬Ident t → Verdict (Done x) ((operators 10).after t) ts (.ok (x, ts)) := by
    intro x ht
    refine .done x ((stops_after ..).2 (stops_operators_ten ?_))
    rintro _ ⟨⟩
    exact ht
  have hplain : t.kind ≠ .symbol → ¬Ident t := fun hk ht => hk ht.1
  simp only [Parse.primary, result_next_cons_bind]
  cases hk : t.kind with
  | decimal =>
    rw [after_number (.inl hk)]
    exact hdone _ (hplain (by simp [hk]))
  | float =>
    rw [after_number (.inr hk)]
    exact hdone _ (hplain (by simp [hk]))
  | string =>
    rw [after_string hk]
    exact hdone _ (hplain (by simp [hk]))
  | leftParen =>
    rw [after_leftParen hk]
    have hparens := hEs.parens.closed (by decide) (fun _ _ => parensEnd_last) stop ts (Nat.le_refl _)
    exact hparens.behind Starts.parensEnd t
  | leftSquare =>
    have hclose : Completable (Tok (Mark .rightSquare)) [] := .mark "]" (by decide)
    have hlist := (hEs.brackets Starts.isExpr .isExpr hclose (.inr (.inl rfl)) "',' or ']'").map Expr.list
    rw [after_leftSquare hk]
    have hv := hlist.closed (by decide) (map_last fun _ _ => enclosed_last) stop ts (Nat.le_refl _)
    exact hv.behind Starts.isExpr.enclosed.map t
  | leftCurly =>
    have hclose : Completable (Tok (Mark .rightCurly)) [] := .mark "\x7d" (by decide)
    have hdict := (hEs.entry.brackets Starts.entry .entry hclose (.inr (.inr rfl)) "',' or '\x7d'").map Expr.dict
    rw [after_leftCurly hk]
    have hv := hdict.closed (by decide) (map_last fun _ _ => enclosed_last) stop ts (Nat.le_refl _)
    exact hv.behind Starts.entry.enclosed.map t
  | symbol =>
    by_cases hkey : isKeyword t.text
    · have hword : ¬Ident t := fun ht => Bool.noConfusion (ht.2.symm.trans hkey)
      by_cases htruth : t.text = "true" ∨ t.text = "false"
      · have hr : (Parse.word e t).result stop ts = .ok (.lit .bool t.text, ts) := by
          rcases htruth with hw | hw <;> simp [Parse.word, hw, result_pure]
        rw [after_truth hk htruth, hr]
        exact hdone _ hword
      · by_cases hnil : t.text = "nil"
        · have hr : (Parse.word e t).result stop ts = .ok (.lit .nil t.text, ts) := by
            simp only [Parse.word, hnil]
            rfl
          rw [after_nil hk hnil, hr]
          exact hdone _ hword
        · rw [result_word_keyword hkey htruth hnil]
          exact .none rfl (not_after_primary (by simp [hk]) fun _ => ⟨hkey, by simp_all⟩)
    · have hident : Ident t := ⟨hk, by simpa using hkey⟩
      rw [after_ident hident]
      exact word_verdict hEs hident stop (Nat.le_refl _)
  | _ => exact .none rfl (not_after_primary (by simp [hk]) (by simp [hk]))

/-- A unary expression that begins with no unary operator is primary. -/
theorem after_unary (hneg : ¬Sign "-" t) (hnot : ¬Sign "!" t) : After t (Unary E) = After t (Primary E) := by
  funext us x
  refine propext ⟨fun h => ?_, .primary⟩
  cases h with
  | neg hs _ => exact absurd hs hneg
  | not hs _ => exact absurd hs hnot
  | primary hp => exact hp

theorem after_neg (ht : Sign "-" t) : After t (Unary E) = Map (.unary .neg) (Unary E) := by
  funext us x
  refine propext ⟨fun h => ?_, fun ⟨hu⟩ => .neg ht hu⟩
  obtain ⟨y, hy, ⟨-, rfl⟩ | ⟨hnot, -⟩⟩ := unary_sign ht.1 h
  · exact .mk hy
  · cases ht.2.symm.trans hnot.2

theorem after_not (ht : Sign "!" t) : After t (Unary E) = Map (.unary .not) (Unary E) := by
  funext us x
  refine propext ⟨fun h => ?_, fun ⟨hu⟩ => .not ht hu⟩
  obtain ⟨y, hy, ⟨hneg, -⟩ | ⟨-, rfl⟩⟩ := unary_sign ht.1 h
  · cases ht.2.symm.trans hneg.2
  · exact .mk hy

/-- Signs, one by one. The induction is on the fuel. -/
theorem Reads.unaryLoop (hp : Reads n (Parse.primary e) (Primary IsExpr) (operators 10)) (fuel m : Nat)
    (hm : m ≤ fuel) (hn : m ≤ n) : Reads m (Parse.unaryLoop e fuel) (Unary IsExpr) (operators 10) := by
  have hnil : ∀ fuel stop, ∃ err, (Parse.unaryLoop e fuel).result stop [] = .error err ∧ err.atEnd := by
    intro fuel stop
    cases fuel <;> exact ⟨_, rfl, rfl⟩
  induction fuel generalizing m with
  | zero =>
    obtain rfl := Nat.le_zero.1 hm
    exact .of_after Starts.unary (hnil 0) .unary fun _ _ _ hlt => absurd hlt (Nat.not_lt_zero _)
  | succ fuel ih =>
    refine .of_after Starts.unary (hnil _) .unary fun stop t ts hlt => ?_
    have htail := ih ts.length (by omega) (by omega)
    rw [Parse.unaryLoop, result_atOperator_bind, head?_cons, Option.any_some]
    by_cases hneg : Sign "-" t
    · rw [if_pos (sign_test.2 hneg), result_next_cons_bind, after_neg hneg]
      exact (htail.map _ stop ts (Nat.le_refl _)).behind Starts.unary.map t
    · rw [if_neg (mt sign_test.1 hneg), result_atOperator_bind, head?_cons, Option.any_some]
      by_cases hnot : Sign "!" t
      · rw [if_pos (sign_test.2 hnot), result_next_cons_bind, after_not hnot]
        exact (htail.map _ stop ts (Nat.le_refl _)).behind Starts.unary.map t
      · rw [if_neg (mt sign_test.1 hnot), after_unary hneg hnot]
        exact (hp stop (t :: ts) (Nat.le_trans hlt hn)).after_of Starts.primary

theorem Reads.unary (hE : ∀ m, m < n → Reads m e IsExpr (operators 1)) :
    Reads n (Parse.unary e) (Unary IsExpr) (operators 10) := fun stop ts hlen =>
  (Reads.primary hE).unaryLoop (ts.length + 1) ts.length (Nat.le_succ _) hlen stop ts (Nat.le_refl _)

/-! ## Operators -/

/-- The parser and the grammar agree on operators. -/
theorem joins_iff {k : Nat} {op : BinOp} : Joins k op t ↔ t.operator? = some op ∧ op.precedence = k := by
  have htest : (decide (t.kind = .operator) || decide (t.kind = .symbol))
      ↔ t.kind = .operator ∨ t.kind = .symbol := by simp
  constructor
  · rintro ⟨hkind, row, hrow, hk, hmem⟩
    have htable : ∀ r ∈ operatorLevels.zipIdx, ∀ p ∈ r.1,
        BinOp.ofSymbol? p.1 = some p.2 ∧ p.2.precedence = r.2 + 1 := by decide
    obtain ⟨hsymbol, hprec⟩ := htable (row, k - 1) (List.mem_zipIdx_iff_getElem?.2 hrow) _ hmem
    exact ⟨by rw [Token.operator?, if_pos (htest.2 hkind), hsymbol], hprec.trans (Nat.sub_add_cancel hk)⟩
  · rintro ⟨hop, rfl⟩
    have hrow : ∀ p ∈ (.and, "and") :: (.or, "or") :: BinOp.table, 1 ≤ p.1.precedence
        ∧ (Text.ofString p.2, p.1) ∈ operatorLevels[p.1.precedence - 1]?.getD [] := by decide
    rw [Token.operator?] at hop
    split at hop
    · next hkind =>
      obtain ⟨p, hp, rfl, htext⟩ : ∃ p ∈ (.and, "and") :: (.or, "or") :: BinOp.table,
          p.1 = op ∧ Text.ofString p.2 = t.text := by
        rw [BinOp.ofSymbol?] at hop
        split at hop
        · next hw => exact ⟨(.and, "and"), by simp, Option.some.inj hop, hw.symm⟩
        · split at hop
          · next hw => exact ⟨(.or, "or"), by simp, Option.some.inj hop, hw.symm⟩
          · obtain ⟨p, hfind, rfl⟩ := Option.map_eq_some_iff.1 hop
            have hmem := mem_of_find?_eq_some hfind
            have hspell := find?_some hfind
            exact ⟨p, by simp [hmem], rfl, by simpa using hspell⟩
      obtain ⟨hpos, hmem⟩ := hrow p hp
      refine ⟨htest.1 hkind, _, ?_, hpos, htext ▸ hmem⟩
      cases hlevel : operatorLevels[p.1.precedence - 1]? with
      | none => simp [hlevel] at hmem
      | some row => rfl
    · cases hop

/-- No operator at the front is tighter than a level. -/
def NoTighter (k : Nat) (ts : List Token) : Prop := ∀ t ∈ ts.head?, ∀ q op, Joins q op t → q ≤ k

theorem noTighter_nine (ts : List Token) : NoTighter 9 ts := fun _ _ _ _ h => h.level_le

/-- Behind an operand that stopped, there are no operators of its level. -/
theorem Stops.noTighter {k : Nat} {used rest : List Token} (h : Stops (operators (k + 1)) used rest) :
    NoTighter k rest := fun t ht q op hjoin =>
  Nat.le_of_not_lt fun hlt => h t ht (.inl ⟨q, op, hlt, hjoin⟩)

/-- An operator in front of what is climbed. -/
theorem after_climb {m k q : Nat} {op : BinOp} {l : Expr} (hm : m ≤ q) (hk : q ≤ k) (ht : Joins q op t) :
    After t (Climb E m k l) = Seq (Level E (q + 1)) fun r => Climb E m q (.bin op l r) := by
  funext us x
  refine propext ⟨fun h => ?_, fun ⟨hr, hc⟩ => .join hm hk ht hr hc⟩
  cases h with
  | join _ _ ht' hr hc =>
    obtain ⟨rfl, rfl⟩ := ht.unique ht'
    exact .mk hr hc

/-- The right operand of an operator stops where looser operators stand. -/
theorem Splits.operand {m q : Nat} {op : BinOp} {l : Expr} (hq : m ≤ q) :
    Splits (Level E (q + 1)) (fun r => Climb E m q (.bin op l r)) (operators (q + 1)) (operators m)
      (operators m) := by
  intro as r bs x rest _ hc
  refine ⟨fun hs => ⟨hc.stops_operand hq hs, hs.of_append_left as⟩, ?_⟩
  rintro ⟨hstop, hs⟩
  rcases hc.head with rfl | ⟨t, us, q', op', rfl, -⟩
  · rw [append_nil]
    exact (stops_operators_iff (by omega)).2 ⟨hstop, hs⟩
  · rwa [stops_append_left _ _ (cons_ne_nil t us)]

/-- What the loop over operators says behind an operand: each operator it takes is at most as tight as the
one before, since the operand in between has stopped there. -/
theorem climbLoop_verdict {operand : Nat → Parse Expr} {m : Nat}
    (hoperand : ∀ q, m ≤ q → q ≤ 9 → Reads n (operand (q + 1)) (Level IsExpr (q + 1)) (operators (q + 1)))
    (fuel k : Nat) (l : Expr) (stop : Pos) (hlen : ts.length ≤ n) (hfuel : ts.length < fuel)
    (hk : NoTighter k ts) :
    Verdict (Climb IsExpr m k l) (operators m) ts ((climbLoop operand m fuel l).result stop ts) := by
  induction fuel generalizing k l stop ts with
  | zero => cases hfuel
  | succ fuel ih =>
    have honly : ∀ us x, Climb IsExpr m k l us x →
        (us = [] ∧ x = l) ∨ ∃ t vs, us = t :: vs ∧ operators m none t := by
      intro us x hc
      cases hc with
      | stop => exact .inl ⟨rfl, rfl⟩
      | join hq _ ht _ _ => exact .inr ⟨_, _, rfl, .inl ⟨_, _, hq, ht⟩⟩
    rw [climbLoop, result_operatorFrom?_bind]
    cases ts with
    | nil => exact .empty .stop (stops_nil _ _) honly
    | cons t ts =>
      rw [head?_cons, Option.bind_some]
      cases hop : t.operator?.filter fun op => m ≤ op.precedence with
      | none =>
        refine .empty .stop ((stops_cons ..).2 ?_) honly
        rintro (⟨q, op, hq, hjoin⟩ | ⟨-, u, hu, -⟩)
        · obtain ⟨hsome, rfl⟩ := joins_iff.1 hjoin
          simp only [hsome, Option.filter_some, hq, decide_true, if_true] at hop
          cases hop
        · cases hu
      | some op =>
        obtain ⟨hsome, hlevel⟩ := Option.filter_eq_some_iff.1 hop
        have hjoin : Joins op.precedence op t := joins_iff.2 ⟨hsome, rfl⟩
        have hq : m ≤ op.precedence := by simpa using hlevel
        rw [length_cons] at hlen hfuel
        refine .of_after (fun _ _ => .inl ⟨_, op, hq, hjoin⟩) ?_
        rw [after_climb hq (hk t rfl _ op hjoin) hjoin]
        have hreads : Reads ts.length
            (operand (op.precedence + 1) >>= fun r => climbLoop operand m fuel (.bin op l r))
            (Seq (Level IsExpr (op.precedence + 1)) fun r => Climb IsExpr m op.precedence (.bin op l r))
            (operators m) := by
          refine ((hoperand _ hq hjoin.level_le).anti (by omega)).bind_stops ?_ (fun r => .of_phrase .stop)
            (.operand hq)
          intro us r stop rest _ hs hrest
          exact ih _ _ stop (by omega) (by omega) hs.noTighter
        exact (hreads stop ts (Nat.le_refl _)).behind Starts.level.seq t

/-- The verdict on operators from a level on. -/
theorem Reads.binary (hE : ∀ m, m < n → Reads m e IsExpr (operators 1)) (k level : Nat)
    (hk : 10 ≤ k + level) (hlevel : level ≤ 10) :
    Reads n (Parse.binary e k level) (Level IsExpr level) (operators level) := by
  have hunary := Reads.unary hE
  induction k generalizing level with
  | zero =>
    obtain rfl : level = 10 := by omega
    refine hunary.congr (fun us x => ⟨.unary, fun h => ?_⟩) fun _ _ _ _ => Iff.rfl
    obtain ⟨hu, hc⟩ := (level_iff (Nat.le_refl _)).1 h
    rcases hc.head with rfl | ⟨_, _, _, _, -, hq, hq', -⟩
    · cases hc
      rwa [append_nil]
    · omega
  | succ k ih =>
    have hseq : Reads n (Parse.binary e (k + 1) level) (Seq (Unary IsExpr) (Climb IsExpr level 9))
        (operators level) := by
      refine hunary.bind_stops ?_ (fun _ => .of_phrase .stop) (.climb hlevel)
      intro us x stop rest _ _ hlen
      refine climbLoop_verdict (fun q hq hq9 => ih (q + 1) (by omega) (by omega)) _ 9 x stop (by omega) ?_
        (noTighter_nine rest)
      exact Nat.lt_succ_self _
    exact hseq.congr (fun us x => (level_iff hlevel).symm) fun _ _ _ _ => Iff.rfl

end TinyScript.Syntax.Grammar
