import TinyScript.Proofs.Syntax.Grammar

/-!
# Phrases and parsers

What a parser makes of every input, stated against a relation `P : Phrase α`. `Verdict P ext ts r` says
what the result `r` on the tokens `ts` means:

* success: a phrase with that tree stands at the front and stops there, and it is the only one;
* failure at the end of the input: no phrase stands at the front, but `ts` can be completed to one;
* failure at a token: no phrase stands at the front, whatever is added to `ts`.

`ext` says which token extends a phrase. It can matter how the phrase ends: an opening parenthesis turns
a name into a call, but nothing else. `Reads` is the verdict on all inputs up to a length. Verdicts compose
along `bind` (`Reads.bind`) if `Splits` holds: where the whole stops, each part does.
-/

namespace TinyScript.Syntax.Grammar

variable {us rest : List Token} {α β : Type}

/-! ## Where phrases stop -/

/-- Which tokens extend a phrase, given its last token. -/
abbrev Extension := Option Token → Token → Prop

/-- No token does. -/
def never : Extension := fun _ _ => False

/-- Every token does. -/
def always : Extension := fun _ _ => True

/-- Whether a phrase is not extended by what follows it. -/
def Stops (ext : Extension) (used rest : List Token) : Prop := ∀ t ∈ rest.head?, ¬ext used.getLast? t

@[simp] theorem stops_nil (ext : Extension) (used : List Token) : Stops ext used [] := by simp [Stops]

@[simp] theorem stops_cons (ext : Extension) (used : List Token) (t : Token) (rest : List Token) :
    Stops ext used (t :: rest) ↔ ¬ext used.getLast? t := by simp [Stops]

@[simp] theorem stops_never (used rest : List Token) : Stops never used rest := fun _ _ h => h

@[simp] theorem stops_always (used rest : List Token) : Stops always used rest ↔ rest = [] := by
  cases rest <;> simp [always]

theorem getLast?_append_of_ne_nil (as : List Token) {bs : List Token} (h : bs ≠ []) :
    (as ++ bs).getLast? = bs.getLast? := by
  rw [List.getLast?_append, List.getLast?_eq_some_getLast h, Option.some_or]

theorem stops_append_left (ext : Extension) (as : List Token) {bs : List Token} (h : bs ≠ [])
    (rest : List Token) : Stops ext (as ++ bs) rest ↔ Stops ext bs rest := by
  rw [Stops, Stops, getLast?_append_of_ne_nil as h]

/-! ## Beginnings -/

/-- Phrases are not empty, and their first tokens are of a sort. -/
def Starts (P : Phrase α) (w : Token → Prop) : Prop := ∀ ⦃ts x⦄, P ts x → ∃ t us, ts = t :: us ∧ w t

variable {P : Phrase α} {w : Token → Prop}

theorem Starts.ne_nil (h : Starts P w) {ts : List Token} {x : α}
    (hp : P ts x) : ts ≠ [] := by
  obtain ⟨t, us, rfl, -⟩ := h hp
  simp

theorem Starts.length_pos (h : Starts P w) {ts : List Token} {x : α}
    (hp : P ts x) : 0 < ts.length := List.length_pos_iff.2 (h.ne_nil hp)

theorem Starts.head (h : Starts P w) {t : Token} {ts : List Token}
    {x : α} (hp : P (t :: ts) x) : w t := by
  obtain ⟨t', us, heq, hw⟩ := h hp
  obtain ⟨rfl, rfl⟩ := List.cons.inj heq
  exact hw

theorem Starts.mono {w' : Token → Prop} (h : Starts P w) (hw : ∀ t, w t → w' t) :
    Starts P w' := by
  intro ts x hp
  obtain ⟨t, us, rfl, ht⟩ := h hp
  exact ⟨t, us, rfl, hw t ht⟩

/-! ## Phrases made of phrases -/

/-- A single token. -/
inductive Tok (w : Token → Prop) : Phrase Unit
  | mk {t} : w t → Tok w [t] ()

/-- A phrase and one behind it, which may depend on the first. -/
inductive Seq (P : Phrase α) (F : α → Phrase β) : Phrase β
  | mk {ts us x y} : P ts x → F x us y → Seq P F (ts ++ us) y

/-- A phrase that stands for something made of what it stood for. -/
inductive Map (g : α → β) (P : Phrase α) : Phrase β
  | mk {ts x} : P ts x → Map g P ts (g x)

theorem map_seq {γ : Type} (g : β → γ) (P : Phrase α) (F : α → Phrase β) :
    Map g (Seq P F) = Seq P fun x => Map g (F x) := by
  funext ts z
  refine propext ⟨?_, ?_⟩
  · rintro ⟨⟨hp, hf⟩⟩
    exact .mk hp (.mk hf)
  · rintro ⟨hp, ⟨hf⟩⟩
    exact .mk (.mk hp hf)

theorem map_map {γ : Type} (g : β → γ) (h : α → β) (P : Phrase α) :
    Map g (Map h P) = Map (fun x => g (h x)) P := by
  funext ts z
  refine propext ⟨?_, ?_⟩
  · rintro ⟨⟨hp⟩⟩
    exact .mk hp
  · rintro ⟨hp⟩
    exact .mk (.mk hp)

/-- Nothing more is needed. -/
def Done (x : α) : Phrase α := fun ts y => ts = [] ∧ y = x

theorem map_done (g : α → β) (x : α) : Map g (Done x) = Done (g x) := by
  funext ts y
  refine propext ⟨?_, ?_⟩
  · rintro ⟨rfl, rfl⟩
    exact ⟨rfl, rfl⟩
  · rintro ⟨rfl, rfl⟩
    exact .mk ⟨rfl, rfl⟩

/-- What may follow a first token. -/
def After (t : Token) (P : Phrase α) : Phrase α := fun us x => P (t :: us) x

theorem after_map (t : Token) (g : α → β) (P : Phrase α) :
    After t (Map g P) = Map g (After t P) := by
  funext ts z
  refine propext ⟨?_, ?_⟩
  · rintro ⟨hp⟩
    exact .mk hp
  · rintro ⟨hp⟩
    exact .mk hp

/-- The extensions of what follows a first token. -/
def Extension.after (ext : Extension) (t : Token) : Extension := fun l => ext (some (l.getD t))

@[simp] theorem stops_after (ext : Extension) (t : Token) (used rest : List Token) :
    Stops (ext.after t) used rest ↔ Stops ext (t :: used) rest := by
  rw [Stops, Stops, Extension.after, List.getLast?_cons]

theorem Starts.tok (w : Token → Prop) : Starts (Tok w) w := by
  rintro ts x ⟨h⟩
  exact ⟨_, [], rfl, h⟩

variable {F : α → Phrase β} {n : Nat} {t : Token} {r : Except SyntaxError (α × List Token)}
  {ext : Extension} {ts : List Token}

theorem Starts.seq (h : Starts P w) : Starts (Seq P F) w := by
  rintro ts y ⟨hp, hf⟩
  obtain ⟨t, us, rfl, ht⟩ := h hp
  exact ⟨t, us ++ _, rfl, ht⟩

theorem Starts.map {g : α → β} (h : Starts P w) : Starts (Map g P) w := by
  rintro ts y ⟨hp⟩
  exact h hp

/-- Where a sequence stops, both of its parts do, and the other way round. -/
def Splits (P : Phrase α) (F : α → Phrase β) (extP extF ext : Extension) : Prop :=
  ∀ ⦃as x bs y⦄ (rest : List Token), P as x → F x bs y →
    (Stops ext (as ++ bs) rest ↔ Stops extP as (bs ++ rest) ∧ Stops extF bs rest)

/-- The second part begins with a token that does not extend the first. -/
theorem Splits.of_starts {extP : Extension} (h : ∀ x, Starts (F x) w)
    (hw : ∀ l t, w t → ¬extP l t) : Splits P F extP ext ext := by
  intro as x bs y rest _ hf
  obtain ⟨t, us, rfl, ht⟩ := h x hf
  simp [stops_append_left ext as (List.cons_ne_nil t us) rest, hw _ t ht]

/-- Nothing extends the first part. -/
theorem Splits.of_never (h : ∀ x, Starts (F x) w) :
    Splits P F never ext ext := .of_starts h fun _ _ _ h => h

/-- A phrase that is not empty stops where it does also behind another token. -/
theorem stops_after_of_starts (hP : Starts P w) (ext : Extension) (t : Token)
    {x : α} (rest : List Token) (hp : P us x) : Stops (ext.after t) us rest ↔ Stops ext us rest := by
  rw [stops_after, ← List.singleton_append, stops_append_left _ _ (hP.ne_nil hp)]

/-! ## Completing a phrase -/

/-- What is left of a token without its position. -/
def lexeme (t : Token) : TokenKind × Text := (t.kind, t.text)

/-- The lexemes that are enough to complete whatever was begun. -/
def closers : List (TokenKind × Text) :=
  [(.decimal, "1"), (.symbol, "x"), (.symbol, "in"), (.symbol, "then"), (.symbol, "else"),
   (.symbol, "for"), (.symbol, "do"), (.symbol, "def"), (.operator, "="), (.operator, "=>"), (.colon, ":"),
   (.leftParen, "("), (.rightParen, ")"), (.rightSquare, "]"), (.rightCurly, "\x7d")]

/-- Some tokens complete `ts` to a phrase, wherever they stand. -/
def Completable (P : Phrase α) (ts : List Token) : Prop :=
  ∃ shape, (∀ l ∈ shape, l ∈ closers) ∧ ∃ x, ∀ us : List Token, us.map lexeme = shape → P (ts ++ us) x

theorem Completable.exists (h : Completable P ts) :
    ∃ us x, P (ts ++ us) x := by
  obtain ⟨shape, -, x, hx⟩ := h
  exact ⟨shape.map fun l => ⟨l.1, l.2, {}⟩, x, hx _ (by simp [lexeme, Function.comp_def])⟩

theorem Completable.of_phrase {x : α} (h : P ts x) :
    Completable P ts := by
  refine ⟨[], by simp, x, fun us hus => ?_⟩
  rw [List.map_eq_nil_iff.1 hus, List.append_nil]
  exact h

theorem Completable.imp {Q : Phrase β} {g : α → β}
    (h : Completable P ts) (hPQ : ∀ vs x, P (ts ++ vs) x → Q (us ++ vs) (g x)) : Completable Q us := by
  obtain ⟨shape, hclose, x, hx⟩ := h
  exact ⟨shape, hclose, g x, fun vs hvs => hPQ vs x (hx vs hvs)⟩

theorem Completable.map (g : α → β) (h : Completable P ts) :
    Completable (Map g P) ts := h.imp fun _ _ hp => .mk hp

/-- A single closing token. -/
theorem Completable.tok (l : TokenKind × Text) (hl : l ∈ closers) (hw : ∀ t, lexeme t = l → w t) :
    Completable (Tok w) [] := by
  refine ⟨[l], by simpa using hl, (), fun us hus => ?_⟩
  obtain ⟨t, ts, rfl, ht, hts⟩ := List.map_eq_cons_iff.1 hus
  rw [List.map_eq_nil_iff.1 hts]
  exact .mk (hw t ht)

theorem Completable.seq_left (h : Completable P ts)
    (hF : ∀ x, Completable (F x) []) : Completable (Seq P F) ts := by
  obtain ⟨shape, hclose, x, hx⟩ := h
  obtain ⟨shape', hclose', y, hy⟩ := hF x
  refine ⟨shape ++ shape', ?_, y, fun us hus => ?_⟩
  · intro l hl
    exact (List.mem_append.1 hl).elim (hclose l) (hclose' l)
  · obtain ⟨vs, vs', rfl, hvs, hvs'⟩ := List.map_eq_append_iff.1 hus
    rw [← List.append_assoc]
    exact .mk (hx vs hvs) (hy vs' hvs')

theorem Completable.seq_right {x : α} (hp : P us x)
    (h : Completable (F x) ts) : Completable (Seq P F) (us ++ ts) := by
  obtain ⟨shape, hclose, y, hy⟩ := h
  refine ⟨shape, hclose, y, fun vs hvs => ?_⟩
  rw [List.append_assoc]
  exact .mk hp (hy vs hvs)

theorem Completable.of_after (h : Completable (After t P) ts) :
    Completable P (t :: ts) := h.imp (g := id) fun _ _ hp => hp

/-! ## Verdicts -/

/-- A phrase for `x` stands at the front, stops there, and leaves `rest`. -/
def Front (P : Phrase α) (ext : Extension) (ts : List Token) (x : α) (rest : List Token) : Prop :=
  ∃ us, ts = us ++ rest ∧ P us x ∧ Stops ext us rest

theorem Front.all {x : α} (h : P ts x) : Front P ext ts x [] :=
  ⟨ts, (List.append_nil ts).symm, h, stops_nil _ _⟩

/-- No phrase that is not empty stands in front of nothing. -/
theorem Starts.not_front_nil (hP : Starts P w) {x : α} : ¬Front P ext [] x rest := by
  rintro ⟨us, heq, hp, -⟩
  exact hP.ne_nil hp (List.append_eq_nil_iff.1 heq.symm).1

/-- Unless an empty phrase can stop in front of the first token, only what follows that token matters. -/
theorem front_after_iff (hnil : ∀ x, P [] x → ext none t) {x : α} :
    Front P ext (t :: ts) x rest ↔ Front (After t P) (ext.after t) ts x rest := by
  constructor
  · rintro ⟨us, heq, hp, hs⟩
    cases us with
    | nil =>
      rw [List.nil_append] at heq
      rw [← heq, stops_cons] at hs
      exact absurd (hnil x hp) hs
    | cons t' us =>
      obtain ⟨rfl, rfl⟩ := List.cons.inj heq
      exact ⟨us, rfl, hp, (stops_after ..).2 hs⟩
  · rintro ⟨us, rfl, hp, hs⟩
    exact ⟨t :: us, rfl, hp, (stops_after ..).1 hs⟩

theorem front_map_iff {g : α → β} {y : β} :
    Front (Map g P) ext ts y rest ↔ ∃ x, y = g x ∧ Front P ext ts x rest := by
  constructor
  · rintro ⟨us, heq, ⟨hp⟩, hs⟩
    exact ⟨_, rfl, us, heq, hp, hs⟩
  · rintro ⟨x, rfl, us, heq, hp, hs⟩
    exact ⟨us, heq, .mk hp, hs⟩

theorem front_seq_iff {extP extF : Extension} (hsplit : Splits P F extP extF ext) {y : β} :
    Front (Seq P F) ext ts y rest ↔ ∃ x mid, Front P extP ts x mid ∧ Front (F x) extF mid y rest := by
  constructor
  · rintro ⟨_, rfl, ⟨hp, hf⟩, hs⟩
    obtain ⟨hsp, hsf⟩ := (hsplit rest hp hf).1 hs
    exact ⟨_, _, ⟨_, List.append_assoc .., hp, hsp⟩, _, rfl, hf, hsf⟩
  · rintro ⟨x, _, ⟨us, rfl, hp, hsp⟩, vs, rfl, hf, hsf⟩
    exact ⟨us ++ vs, (List.append_assoc ..).symm, .mk hp hf, (hsplit rest hp hf).2 ⟨hsp, hsf⟩⟩

/-- What the result of a parser says about the phrases at the front of its input. A phrase that was found
is the only one, and if something is left, then whatever is added to the input. -/
inductive Verdict (P : Phrase α) (ext : Extension) (ts : List Token) :
    Except SyntaxError (α × List Token) → Prop
  | found {x rest} : Front P ext ts x rest →
      (∀ more, (rest = [] → more = []) → ∀ y rest', Front P ext (ts ++ more) y rest' →
        y = x ∧ rest' = rest ++ more) →
      Verdict P ext ts (.ok (x, rest))
  | unfinished {e} : e.atEnd → (∀ x rest, ¬Front P ext ts x rest) → Completable P ts →
      Verdict P ext ts (.error e)
  | refused {e} : e.atEnd = false → (∀ more x rest, ¬Front P ext (ts ++ more) x rest) →
      Verdict P ext ts (.error e)

/-- The verdict only depends on what stands at the front, and on how it can be completed. -/
theorem Verdict.of_front {Q : Phrase α} {ext' : Extension} (h : Verdict P ext ts r)
    (hfront : ∀ more x rest, Front Q ext' (us ++ more) x rest ↔ Front P ext (ts ++ more) x rest)
    (hc : Completable P ts → Completable Q us) : Verdict Q ext' us r := by
  have hself := hfront []
  simp only [List.append_nil] at hself
  cases h with
  | found hp honly =>
    exact .found ((hself _ _).2 hp) fun more hmore y rest' hq => honly more hmore y rest' ((hfront more _ _).1 hq)
  | unfinished he ha hcomp => exact .unfinished he (fun x rest hq => ha x rest ((hself x rest).1 hq)) (hc hcomp)
  | refused he hn => exact .refused he fun more x rest hq => hn more x rest ((hfront more x rest).1 hq)

theorem Verdict.of_after (hnil : ∀ x, P [] x → ext none t) (h : Verdict (After t P) (ext.after t) ts r) :
    Verdict P ext (t :: ts) r :=
  h.of_front (fun _ _ _ => front_after_iff hnil) Completable.of_after

theorem Verdict.after_of (h : Verdict P ext (t :: ts) r) (hP : Starts P w) :
    Verdict (After t P) (ext.after t) ts r :=
  h.of_front (fun _ _ _ => (front_after_iff fun _ hp => absurd rfl (hP.ne_nil hp)).symm) id

/-- No phrase begins like the input. -/
theorem Verdict.none {e : SyntaxError} (he : e.atEnd = false) (hP : ∀ us x, ¬P us x) :
    Verdict P ext ts (.error e) :=
  .refused he fun _ x _ ⟨us, _, hp, _⟩ => hP us x hp

/-- Nothing is read, since the phrase is empty and stops where it is. Every other phrase begins with a token
that would extend it. -/
theorem Verdict.empty {x : α} (hp : P [] x) (hs : Stops ext [] ts)
    (honly : ∀ us y, P us y → (us = [] ∧ y = x) ∨ ∃ t vs, us = t :: vs ∧ ext .none t) :
    Verdict P ext ts (.ok (x, ts)) := by
  refine .found ⟨[], rfl, hp, hs⟩ fun more hmore y rest' hfront => ?_
  obtain ⟨us, heq, hq, -⟩ := hfront
  rcases honly us y hq with ⟨rfl, rfl⟩ | ⟨t, vs, rfl, ht⟩
  · exact ⟨rfl, heq.symm⟩
  · cases ts with
    | nil => cases (hmore rfl).symm.trans heq
    | cons t' ts =>
      obtain ⟨rfl, -⟩ := List.cons.inj heq
      exact absurd ht ((stops_cons ..).1 hs)

theorem Verdict.done (x : α) (hs : Stops ext [] ts) : Verdict (Done x) ext ts (.ok (x, ts)) :=
  .empty ⟨rfl, rfl⟩ hs fun _ _ h => .inl h

/-- Verdicts on relations that agree. -/
theorem Verdict.congr {Q : Phrase α} {ext' : Extension} (h : Verdict P ext ts r)
    (hPQ : ∀ us x, P us x ↔ Q us x) (hext : ∀ us x rest, P us x → (Stops ext us rest ↔ Stops ext' us rest)) :
    Verdict Q ext' ts r := by
  refine h.of_front (fun more x rest => exists_congr fun us => and_congr_right fun _ => ?_)
    fun hc => hc.imp (g := id) fun _ _ => (hPQ _ _).1
  rw [← hPQ]
  exact and_congr_right fun hp => (hext us x rest hp).symm

/-- At the end of the input no phrase is refused that can still be begun. -/
theorem Verdict.at_nil (h : Verdict P ext [] r) (hP : Starts P w) (hc : Completable P []) :
    ∃ e, r = .error e ∧ e.atEnd := by
  cases h with
  | found hfront _ => exact absurd hfront hP.not_front_nil
  | unfinished he _ _ => exact ⟨_, rfl, he⟩
  | refused _ hn =>
    obtain ⟨us, x, hx⟩ := hc.exists
    exact absurd (.all hx) (hn us x [])

/-- What a phrase that is not empty stops at does not depend on the token in front of it. -/
theorem Verdict.behind (hP : Starts P w) (h : Verdict P ext ts r) (t : Token) :
    Verdict P (ext.after t) ts r :=
  h.congr (fun _ _ => Iff.rfl) fun _ _ rest hp => (stops_after_of_starts hP ext t rest hp).symm

end TinyScript.Syntax.Grammar

/-! ## Runs of parsers -/

namespace TinyScript.Syntax.Parse

variable {α β : Type}

/-- What a parser makes of tokens. -/
def result (p : Parse α) (stop : Pos) (ts : List Token) : Except SyntaxError (α × List Token) :=
  (p.run stop).run ts

theorem result_pure (x : α) (stop : Pos) (ts : List Token) :
    (pure x : Parse α).result stop ts = .ok (x, ts) := rfl

theorem result_bind_ok {p : Parse α} {f : α → Parse β} {stop : Pos} {ts rest : List Token} {x : α}
    (h : p.result stop ts = .ok (x, rest)) : (p >>= f).result stop ts = (f x).result stop rest := by
  have hbind : (p >>= f).result stop ts = p.result stop ts >>= fun r => (f r.1).result stop r.2 := rfl
  rw [hbind, h]
  rfl

theorem result_bind_error {p : Parse α} {f : α → Parse β} {stop : Pos} {ts : List Token}
    {e : SyntaxError} (h : p.result stop ts = .error e) : (p >>= f).result stop ts = .error e := by
  have hbind : (p >>= f).result stop ts = p.result stop ts >>= fun r => (f r.1).result stop r.2 := rfl
  rw [hbind, h]
  rfl

@[simp] theorem result_peek_bind {f : Option Token → Parse β} (stop : Pos) (ts : List Token) :
    (peek >>= f).result stop ts = (f ts.head?).result stop ts := rfl

@[simp] theorem result_atKind_bind {f : Bool → Parse β} (k : TokenKind) (stop : Pos) (ts : List Token) :
    (atKind k >>= f).result stop ts = (f (ts.head?.any fun t => t.kind = k)).result stop ts := rfl

@[simp] theorem result_atWord_bind {f : Bool → Parse β} (w : Text) (stop : Pos) (ts : List Token) :
    (atWord w >>= f).result stop ts
      = (f (ts.head?.any fun t => t.kind = .symbol && t.text = w)).result stop ts := rfl

@[simp] theorem result_atOperator_bind {f : Bool → Parse β} (op : Text) (stop : Pos) (ts : List Token) :
    (atOperator op >>= f).result stop ts
      = (f (ts.head?.any fun t => t.kind = .operator && t.text = op)).result stop ts := rfl

@[simp] theorem result_operatorFrom?_bind {f : Option BinOp → Parse β} (level : Nat) (stop : Pos)
    (ts : List Token) : (operatorFrom? level >>= f).result stop ts
      = (f ((ts.head?.bind Token.operator?).filter fun op => level ≤ op.precedence)).result stop ts := rfl

@[simp] theorem result_next_cons_bind {f : Option Token → Parse β} (stop : Pos) (t : Token)
    (ts : List Token) : (next >>= f).result stop (t :: ts) = (f (some t)).result stop ts := rfl

@[simp] theorem result_fail_some (t : Token) (problem : Text → Problem) (stop : Pos) (ts : List Token) :
    (fail (some t) problem : Parse α).result stop ts = .error ⟨t.pos, problem t.text, false⟩ := rfl

theorem result_expectKind_nil_bind {f : Unit → Parse β} (kind : TokenKind) (what : Text) (stop : Pos) :
    (expectKind kind what >>= f).result stop [] = .error ⟨stop, .expected what endText, true⟩ := rfl

theorem result_expectKind_cons_bind {f : Unit → Parse β} (kind : TokenKind) (what : Text) (stop : Pos)
    (t : Token) (ts : List Token) : (expectKind kind what >>= f).result stop (t :: ts)
      = if t.kind = kind then (f ()).result stop ts else .error ⟨t.pos, .expected what t.text, false⟩ := by
  by_cases h : t.kind = kind
  · have hr : (expectKind kind what).result stop (t :: ts) = .ok ((), ts) := by
      simp [expectKind, h, result_pure]
    rw [result_bind_ok hr, if_pos h]
  · have hr : (expectKind kind what).result stop (t :: ts)
        = .error ⟨t.pos, .expected what t.text, false⟩ := by simp [expectKind, h]
    rw [result_bind_error hr, if_neg h]

end TinyScript.Syntax.Parse

/-! ## What parsers read -/

namespace TinyScript.Syntax.Grammar

variable {α β : Type}

/-- The verdict on all inputs of at most `n` tokens. -/
def Reads (n : Nat) (p : Parse α) (P : Phrase α) (ext : Extension) : Prop :=
  ∀ stop ts, ts.length ≤ n → Verdict P ext ts (p.result stop ts)

variable {p : Parse α} {P : Phrase α} {ext : Extension} {n : Nat}

theorem Reads.anti {m n : Nat} (h : Reads n p P ext) (hmn : m ≤ n) :
    Reads m p P ext := fun stop ts hlen => h stop ts (Nat.le_trans hlen hmn)

theorem Reads.congr {Q : Phrase α} {ext' : Extension} (h : Reads n p P ext)
    (hPQ : ∀ us x, P us x ↔ Q us x) (hext : ∀ us x rest, P us x → (Stops ext us rest ↔ Stops ext' us rest)) :
    Reads n p Q ext' :=
  fun stop ts hlen => (h stop ts hlen).congr hPQ hext

/-- **Sequencing.** If the first part stops where the second begins, the verdict on the whole comes from the
verdicts on the parts. The second part is only ever asked about tokens where the first stopped. -/
theorem Reads.bind_stops {f : α → Parse β} {F : α → Phrase β}
    {extP extF ext : Extension} (hp : Reads n p P extP)
    (hf : ∀ us x stop rest, P us x → Stops extP us rest → us.length + rest.length ≤ n →
      Verdict (F x) extF rest ((f x).result stop rest))
    (hF : ∀ x, Completable (F x) [])
    (hsplit : Splits P F extP extF ext) : Reads n (p >>= f) (Seq P F) ext := by
  intro stop ts hlen
  have hpv := hp stop ts hlen
  generalize hr : p.result stop ts = r at hpv
  cases hpv with
  | @found x rest hfront honly =>
    rw [Parse.result_bind_ok hr]
    -- a sequence at the front has the same first part, so its second part stands in front of `rest`
    have hsecond : ∀ more, (rest = [] → more = []) → ∀ y rest', Front (Seq P F) ext (ts ++ more) y rest' →
        Front (F x) extF (rest ++ more) y rest' := by
      intro more hmore y rest' hseq
      obtain ⟨x', mid, hfirst, hsecond⟩ := (front_seq_iff hsplit).1 hseq
      obtain ⟨rfl, rfl⟩ := honly more hmore x' mid hfirst
      exact hsecond
    have hfirst := hfront
    obtain ⟨us, rfl, hus, hs⟩ := hfront
    have hfv := hf us x stop rest hus hs (by rwa [List.length_append] at hlen)
    generalize (f x).result stop rest = r' at hfv
    cases hfv with
    | @found y rest' hfront' honly' =>
      refine .found ((front_seq_iff hsplit).2 ⟨x, rest, hfirst, hfront'⟩) fun more hmore z rest'' hseq => ?_
      refine honly' more hmore z rest'' (hsecond more (fun hnil => hmore ?_) z rest'' hseq)
      obtain ⟨vs, rfl, -⟩ := hfront'
      exact (List.append_eq_nil_iff.1 hnil).2
    | unfinished he ha hc =>
      refine .unfinished he (fun y rest' hseq => ha y rest' ?_) (hc.seq_right hus)
      simpa using hsecond [] (fun _ => rfl) y rest' (by simpa using hseq)
    | refused he hn =>
      refine .refused he fun more y rest' hseq => hn more y rest' (hsecond more (fun hnil => ?_) y rest' hseq)
      obtain ⟨vs, z, hz⟩ := (hF x).exists
      exact absurd (.all (by simpa [hnil] using hz)) (hn vs z [])
  | unfinished he ha hc =>
    rw [Parse.result_bind_error hr]
    refine .unfinished he (fun y rest hseq => ?_) (hc.seq_left hF)
    obtain ⟨x, mid, hfirst, -⟩ := (front_seq_iff hsplit).1 hseq
    exact ha x mid hfirst
  | refused he hn =>
    rw [Parse.result_bind_error hr]
    refine .refused he fun more y rest hseq => ?_
    obtain ⟨x, mid, hfirst, -⟩ := (front_seq_iff hsplit).1 hseq
    exact hn more x mid hfirst

theorem Reads.bind {f : α → Parse β} {F : α → Phrase β} {extP extF ext : Extension} (hp : Reads n p P extP)
    (hf : ∀ x, Reads n (f x) (F x) extF) (hF : ∀ x, Completable (F x) [])
    (hsplit : Splits P F extP extF ext) : Reads n (p >>= f) (Seq P F) ext :=
  hp.bind_stops (fun _ x stop rest _ _ hlen => hf x stop rest (by omega)) hF hsplit

/-- A parser followed by a plain computation. -/
theorem Reads.map (g : α → β) (hp : Reads n p P ext) : Reads n (p >>= fun x => pure (g x)) (Map g P) ext := by
  intro stop ts hlen
  have hpv := hp stop ts hlen
  generalize hr : p.result stop ts = r at hpv
  cases hpv with
  | found hfront honly =>
    rw [Parse.result_bind_ok hr, Parse.result_pure]
    refine .found (front_map_iff.2 ⟨_, rfl, hfront⟩) fun more hmore y rest' hy => ?_
    obtain ⟨x, rfl, hx⟩ := front_map_iff.1 hy
    obtain ⟨rfl, rfl⟩ := honly more hmore x rest' hx
    exact ⟨rfl, rfl⟩
  | unfinished he ha hc =>
    rw [Parse.result_bind_error hr]
    refine .unfinished he (fun y rest hy => ?_) (hc.map g)
    obtain ⟨x, rfl, hx⟩ := front_map_iff.1 hy
    exact ha x rest hx
  | refused he hn =>
    rw [Parse.result_bind_error hr]
    refine .refused he fun more y rest hy => ?_
    obtain ⟨x, rfl, hx⟩ := front_map_iff.1 hy
    exact hn more x rest hx

/-- A phrase that is not empty is looked for behind each first token; at the end of the input it can
still be begun. -/
theorem Reads.of_after {w : Token → Prop} (hP : Starts P w)
    (hnil : ∀ stop, ∃ e, p.result stop [] = .error e ∧ e.atEnd) (hc : Completable P [])
    (h : ∀ stop t ts, ts.length < n → Verdict (After t P) (ext.after t) ts (p.result stop (t :: ts))) :
    Reads n p P ext := by
  intro stop ts hlen
  cases ts with
  | nil =>
    obtain ⟨e, hr, he⟩ := hnil stop
    rw [hr]
    exact .unfinished he (fun _ _ => hP.not_front_nil) hc
  | cons t ts => exact (h stop t ts hlen).of_after fun x hp => absurd rfl (hP.ne_nil hp)

end TinyScript.Syntax.Grammar
