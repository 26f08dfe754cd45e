import TinyScript.Proofs.Syntax.Acceptance
import TinyScript.Proofs.Syntax.Scanning

/-!
# Which texts can be continued

A text that is neither an expression nor a program can become one by adding lines if and only if the error says that the
input ended too early (`atEnd_iff_continuable`). The tokens that complete what was begun are spelled out, one on each
new line; the other way round, the tokens of a longer text begin with those of the shorter one.
-/

namespace TinyScript.Syntax.Grammar

/-! ## Lines -/

/-- The tokens begin with the word `def`. -/
def BeginsDef (ts : List Token) : Prop := ∃ t ∈ ts.head?, Word "def" t

/-- A program if the tokens begin with `def`, and an expression otherwise. -/
inductive IsLine : Phrase Line
  | program {ts p} : BeginsDef ts → IsProgram ts p.defs → IsLine ts (.program p)
  | expr {ts x} : ¬BeginsDef ts → IsExpr ts x → IsLine ts (.expr x)

theorem beginsDef_test {ts : List Token} :
    (ts.head?.any fun (t : Token) => t.kind = .symbol && t.text = "def") = true ↔ BeginsDef ts := by
  cases ts with
  | nil => simp [BeginsDef]
  | cons t ts => simp [BeginsDef, Word]

/-- The outcome for one sort of phrase is that for another that agrees on everything that begins alike. -/
theorem Outcome.map {α β : Type} {P : Phrase α} {Q : Phrase β} {ts : List Token}
    {r : Except SyntaxError α} (h : Outcome P ts r) (g : α → β)
    (hg : ∀ us x, P (ts ++ us) x → Q (ts ++ us) (g x)) (hQ : ∀ us y, Q (ts ++ us) y → ∃ x, y = g x ∧ P (ts ++ us) x) :
    Outcome Q ts (r >>= fun x => pure (g x)) := by
  have hself : ∀ y, Q ts y → ∃ x, y = g x ∧ P ts x := by simpa using hQ []
  cases h with
  | parsed hx honly =>
    refine .parsed (by simpa using hg [] _ (by simpa using hx)) fun y hy => ?_
    obtain ⟨x, rfl, hx⟩ := hself y hy
    rw [honly x hx]
  | unfinished he hn hc =>
    refine .unfinished he (fun y hy => ?_) (hc.imp hg)
    obtain ⟨x, -, hx⟩ := hself y hy
    exact hn x hx
  | refused he hn =>
    refine .refused he fun us y hy => ?_
    obtain ⟨x, -, hx⟩ := hQ us y hy
    exact hn us x hx

theorem Completable.line : Completable IsLine [] := by
  refine ⟨[(.decimal, "1")], by decide, .expr (.lit .number "1"), fun us hus => ?_⟩
  obtain ⟨t, ts, rfl, ht, hts⟩ := List.map_eq_cons_iff.1 hus
  obtain ⟨hkind, htext⟩ := Prod.mk.inj ht
  have hnumber : Unary IsExpr [t] (.lit .number t.text) := .primary (.number (.inl hkind))
  rw [List.map_eq_nil_iff.1 hts, ← htext]
  refine .expr ?_ (.binary ((Level.unary hnumber).weaken (by decide) (by decide)))
  simp [BeginsDef, Word, hkind]

theorem outcome_line (ts : Tokens) : Outcome IsLine ts.items ts.line := by
  rw [Tokens.line]
  by_cases hdef : BeginsDef ts.items
  · rw [if_pos (beginsDef_test.2 hdef)]
    have hkeeps : ∀ us, BeginsDef (ts.items ++ us) := by
      obtain ⟨t, ht, hword⟩ := hdef
      obtain ⟨rest, hrest⟩ := List.head?_eq_some_iff.1 ht
      exact fun us => ⟨t, by simp [hrest], hword⟩
    refine (outcome_program ts).map _ (fun us p hp => .program (hkeeps us) hp) fun us l hl => ?_
    cases hl with
    | program _ hp => exact ⟨_, rfl, hp⟩
    | expr hno _ => exact absurd (hkeeps us) hno
  · rw [if_neg (mt beginsDef_test.1 hdef)]
    by_cases hnil : ts.items = []
    · -- nothing is there yet, and what comes may be of either sort
      have hbegun := outcome_expr ts
      rw [hnil] at hbegun ⊢
      generalize ts.expr = r at hbegun
      cases hbegun with
      | parsed hx => exact absurd rfl (Starts.isExpr.ne_nil hx)
      | unfinished he hn _ =>
        refine .unfinished he (fun l hl => ?_) .line
        cases hl with
        | program hyes _ => simp [BeginsDef] at hyes
        | expr _ hx => exact hn _ hx
      | refused _ hn =>
        obtain ⟨us, x, hx⟩ := Completable.isExpr.exists
        exact absurd hx (hn us x)
    · have hkeeps : ∀ us, ¬BeginsDef (ts.items ++ us) := by
        obtain ⟨t, rest, hrest⟩ := List.exists_cons_of_ne_nil hnil
        intro us
        rw [hrest] at hdef ⊢
        exact hdef
      refine (outcome_expr ts).map _ (fun us x hx => .expr (hkeeps us) hx) fun us l hl => ?_
      cases hl with
      | program hyes _ => exact absurd hyes (hkeeps us)
      | expr _ hx => exact ⟨_, rfl, hx⟩

/-! ## Spelling tokens out -/

/-- Lexemes, each on a line of its own. -/
def spell : List (TokenKind × Text) → Text
  | [] => Text.empty
  | l :: shape => l.2 ++ "\n" ++ spell shape

theorem chars_append_newline (s t : Text) : (s ++ "\n" ++ t).chars = s.chars ++ '\n' :: t.chars := by
  have hnewline : s ++ "\n" ++ t = ⟨s.bytes ++ 10 :: t.bytes⟩ := by
    rw [← List.singleton_append, ← List.append_assoc]
    rfl
  rw [hnewline]
  exact Text.chars_append_cons (by decide) s t.bytes

/-- Each closing lexeme is read as itself, whatever stands before it. -/
theorem closer_step {l : TokenKind × Text} (hl : l ∈ closers) : ∃ c cs, l.2.chars = c :: cs ∧
    Text.ofChars (c :: cs) = l.2 ∧ ∀ prev, step prev c cs = .token l.1 (c :: cs) := by
  simp only [closers, List.mem_cons, List.not_mem_nil, or_false] at hl
  rcases hl with rfl | rfl | rfl | rfl | rfl | rfl | rfl | rfl | rfl | rfl | rfl | rfl | rfl | rfl | rfl <;>
    exact ⟨_, _, rfl, rfl, fun _ => rfl⟩

theorem scanned_closer {l : TokenKind × Text} (hl : l ∈ closers) (prev : Option Token) (pos : Pos) :
    ∃ stop, Scanned prev pos l.2.chars [⟨l.1, l.2, pos⟩] stop := by
  obtain ⟨c, cs, hchars, htext, hstep⟩ := closer_step hl
  refine ⟨pos.advance (c :: cs), ?_⟩
  rw [hchars, ← htext]
  refine .token (hstep prev) ?_
  rw [List.drop_length]
  exact .nil

/-- A new line, and behind it a shape spelled out. -/
theorem scanned_spell {shape : List (TokenKind × Text)} (h : ∀ l ∈ shape, l ∈ closers)
    (prev : Option Token) (pos : Pos) : ∃ us stop, us.map lexeme = shape ∧
      Scanned prev pos ('\n' :: (spell shape).chars) us stop := by
  have hgap : ∀ prev cs, step prev '\n' cs = .gap ['\n'] := fun _ _ => rfl
  induction shape generalizing prev pos with
  | nil => exact ⟨[], _, rfl, .gap (hgap _ _) .nil⟩
  | cons l shape ih =>
    let t : Token := ⟨l.1, l.2, pos.advance ['\n']⟩
    obtain ⟨stop, hl⟩ := scanned_closer (h l List.mem_cons_self) prev t.pos
    obtain ⟨us, stop', hus, hmore⟩ := ih (fun l hl => h l (List.mem_cons_of_mem _ hl)) (some t) stop
    refine ⟨t :: us, stop', ?_, .gap (hgap _ _) ?_⟩
    · rw [List.map_cons, hus]
      rfl
    · rw [spell, chars_append_newline]
      exact hl.append hmore

/-! ## Continuations -/

/-- Some more lines make a text parse. -/
def Continuable (s : Text) : Prop := ∃ t l, parseLine (s ++ "\n" ++ t) = .ok l

theorem parseLine_eq {s : Text} {ts : Tokens} (h : tokenize s = .ok ts) : parseLine s = ts.line := by
  rw [parseLine, h]
  rfl

/-- Tokens that can be completed are those of a text that can be continued. -/
theorem continuable_of_completable {s : Text} {ts : Tokens} (hs : tokenize s = .ok ts)
    (h : Completable IsLine ts.items) : Continuable s := by
  obtain ⟨shape, hclose, l, hl⟩ := h
  obtain ⟨us, stop, hus, hmore⟩ := scanned_spell hclose (ts.items.getLast?.or none) ts.stop
  have hscan := (tokenize_iff.1 hs).append hmore
  rw [← chars_append_newline] at hscan
  have htok : tokenize (s ++ "\n" ++ spell shape) = .ok ⟨ts.items ++ us, stop⟩ := tokenize_iff.2 hscan
  exact ⟨spell shape, l, (Outcome.parse_iff outcome_line).2 ⟨_, htok, hl us hus⟩⟩

/-- The tokens of a text that can be continued are some of those of a line. -/
theorem isLine_of_continued {s t : Text} {ts : Tokens} {l : Line} (hs : tokenize s = .ok ts)
    (h : parseLine (s ++ "\n" ++ t) = .ok l) : ∃ us, IsLine (ts.items ++ us) l := by
  obtain ⟨ws, htok, hl⟩ := (Outcome.parse_iff outcome_line).1 h
  have hscan := tokenize_iff.1 htok
  rw [chars_append_newline] at hscan
  obtain ⟨us, hus⟩ := (tokenize_iff.1 hs).split hscan
  exact ⟨us, hus ▸ hl⟩

/-- **An error at the end of the input means that the text can be continued.** -/
theorem atEnd_iff_continuable {s : Text} {ts : Tokens} {e : SyntaxError} (hs : tokenize s = .ok ts)
    (h : parseLine s = .error e) : e.atEnd ↔ Continuable s := by
  have hline := outcome_line ts
  rw [parseLine_eq hs] at h
  rw [h] at hline
  cases hline with
  | unfinished he _ hc => exact iff_of_true he (continuable_of_completable hs hc)
  | refused he hn =>
    refine iff_of_false (by simp [he]) ?_
    rintro ⟨t, l, hl⟩
    obtain ⟨us, hline⟩ := isLine_of_continued hs hl
    exact hn us l hline

end TinyScript.Syntax.Grammar
