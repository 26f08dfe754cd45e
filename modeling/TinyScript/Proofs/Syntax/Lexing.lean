import TinyScript.Proofs.Syntax.Scanning

/-!
# Scanning in front of what follows

`Lexes after cs Q` says that the characters `cs` can be scanned and that `Q` holds of their tokens. What stood before
them counts in one way only: behind an operand, which `after` tells, a minus sign is not the sign of a number.

There is one rule per class of tokens, which takes a token off the front. Its side condition, if it has one, is on the
character behind the token. So a text that was a token somewhere (`TokenText`) is one wherever that condition holds.
-/

namespace TinyScript.Syntax

open Text (isLetter isDigit isBlank)

variable {t : Text} {c : Char}

/-- The characters are scanned to tokens of which `Q` holds, from any position on and behind any token
that ends an operand or does not, as `after` says. -/
def Lexes (after : Bool) (cs : List Char) (Q : List Token → Prop) : Prop :=
  ∀ prev pos, prev.any Token.endsOperand = after → ∃ ts stop, Scanned prev pos cs ts stop ∧ Q ts

/-- Whether a token of a class, with a text, ends an operand. -/
def endsWith (kind : TokenKind) (t : Text) : Bool := Token.endsOperand ⟨kind, t, {}⟩

section Rules

variable {after : Bool} {P Q : List Token → Prop}

theorem Lexes.mono {cs : List Char} (h : Lexes after cs P) (hPQ : ∀ ts, P ts → Q ts) : Lexes after cs Q := by
  intro prev pos hprev
  obtain ⟨ts, stop, hscan, hts⟩ := h prev pos hprev
  exact ⟨ts, stop, hscan, hPQ ts hts⟩

theorem Lexes.nil (h : Q []) : Lexes after [] Q := fun _ pos _ => ⟨[], pos, .nil, h⟩

/-- White space is skipped. -/
theorem Lexes.blank (hc : isBlank c) {cs : List Char} (h : Lexes after cs Q) :
    Lexes after (c :: cs) Q := by
  intro prev pos hprev
  obtain ⟨ts, stop, hscan, hts⟩ := h prev (pos.advance [c]) hprev
  exact ⟨ts, stop, .gap (by rw [step, if_pos hc]) hscan, hts⟩

theorem Lexes.space {cs : List Char} (h : Lexes after cs Q) : Lexes after (' ' :: cs) Q := h.blank rfl

/-- A token at the front, if it is cut off where its text ends. -/
theorem Lexes.token (kind : TokenKind) (c : Char) (text : List Char) {rest : List Char}
    (hstep : ∀ prev : Option Token, prev.any Token.endsOperand = after →
      step prev c (text ++ rest) = .token kind (c :: text))
    (h : Lexes (endsWith kind (Text.ofChars (c :: text))) rest fun us =>
      ∀ t : Token, t.kind = kind → t.text = Text.ofChars (c :: text) → Q (t :: us)) :
    Lexes after (c :: text ++ rest) Q := by
  intro prev pos hprev
  obtain ⟨us, stop, hscan, hus⟩ := h (some ⟨kind, Text.ofChars (c :: text), pos⟩) (pos.advance (c :: text)) rfl
  refine ⟨_ :: us, stop, .token (hstep prev hprev) ?_, hus _ rfl rfl⟩
  have hrest : (c :: (text ++ rest)).drop (c :: text).length = rest := by
    rw [← List.cons_append, List.drop_left]
  exact hrest.symm ▸ hscan

end Rules

/-! ## Marks and operators -/

theorem step_mark {kind : TokenKind} (h : punctuation? c = some kind) (prev : Option Token)
    (cs : List Char) : step prev c cs = .token kind [c] := by
  unfold punctuation? at h
  split at h <;> cases h <;> rfl

variable {Q : List Token → Prop} {rest : List Char} {after : Bool} {prev : Option Token}

theorem Lexes.mark {kind : TokenKind} (hc : punctuation? c = some kind)
    (h : Lexes (endsWith kind (Text.ofChars [c])) rest fun us => ∀ t : Token, t.kind = kind → Q (t :: us)) :
    Lexes after (c :: rest) Q := by
  have h := h.mono fun us hus (t : Token) hkind (_ : t.text = Text.ofChars [c]) => hus t hkind
  exact Lexes.token kind c [] (fun prev _ => step_mark hc prev rest) h

/-- Whether a character begins nothing but an operator. -/
def isSignChar (c : Char) : Bool :=
  !isBlank c && c ≠ '#' && c ≠ '"' && !isDigit c && !(c = '_' || isLetter c) && (punctuation? c).isNone

theorem step_operator {cs op : List Char} (hc : isSignChar c)
    (hminus : c = '-' → cs.head?.any isDigit = false) (hop : operator? (c :: cs) = some op) :
    step prev c cs = .token .operator op := by
  simp only [isSignChar, Bool.and_eq_true, Bool.not_eq_true', decide_eq_true_eq, Option.isNone_iff_eq_none] at hc
  obtain ⟨⟨⟨⟨⟨hblank, hhash⟩, hquote⟩, hdigit⟩, hname⟩, hmark⟩ := hc
  have hnumber : (c = '-' && cs.head?.any isDigit && !(prev.any Token.endsOperand)) = false := by
    by_cases h : c = '-'
    · simp [hminus h]
    · simp [h]
  simp [step, hblank, hhash, hquote, hdigit, hnumber, hname, hmark, hop]

/-- An operator that is followed by a space is cut off there. -/
theorem operator?_space {op : List Char} (h : op ∈ operatorSpellings) (cs : List Char) :
    operator? (op ++ ' ' :: cs) = some op := by
  simp only [operatorSpellings, List.mem_cons, List.not_mem_nil, or_false] at h
  rcases h with rfl | rfl | rfl | rfl | rfl | rfl | rfl | rfl | rfl | rfl | rfl | rfl | rfl | rfl | rfl
    | rfl | rfl | rfl | rfl <;> rfl

/-- An operator before a space is one token. -/
theorem Lexes.operator {op : List Char} (hop : op ∈ operatorSpellings)
    (h : Lexes false rest fun us => ∀ t : Token, t.kind = .operator →
      t.text = Text.ofChars op → Q (t :: us)) : Lexes after (op ++ ' ' :: rest) Q := by
  have hfirst : ∀ op ∈ operatorSpellings, op.head?.any isSignChar := by decide
  have hfirst := hfirst op hop
  cases op with
  | nil => cases hfirst
  | cons c op =>
    refine Lexes.token .operator c op (fun prev _ => ?_) h.space
    refine step_operator hfirst (fun hc => ?_) (operator?_space hop rest)
    subst hc
    have halone : ∀ op ∈ operatorSpellings, op.head? = some '-' → op = ['-'] := by decide
    obtain rfl : op = [] := (List.cons.inj (halone _ hop rfl)).2
    rfl

/-- A minus sign in front of something that is no digit. -/
theorem Lexes.minus (hrest : rest.head?.any isDigit = false) (h : Lexes false rest fun us => ∀ t : Token,
      t.kind = .operator → t.text = "-" → Q (t :: us)) : Lexes after ('-' :: rest) Q :=
  Lexes.token .operator '-' [] (fun _ _ => step_operator rfl (fun _ => hrest) rfl) h

/-- An exclamation mark that does not begin `!=`. -/
theorem Lexes.bang (hrest : ∀ c ∈ rest.head?, c ≠ '=') (h : Lexes false rest fun us => ∀ t : Token,
      t.kind = .operator → t.text = "!" → Q (t :: us)) : Lexes after ('!' :: rest) Q := by
  refine Lexes.token .operator '!' [] (fun prev _ => step_operator rfl (fun h => absurd h (by decide)) ?_) h
  cases rest with
  | nil => rfl
  | cons c rest =>
    have hc : c ≠ '=' := hrest c rfl
    simp [operator?, operatorSpellings, List.isPrefixOf, hc.symm]

/-! ## What a token can be -/

/-- The characters of a symbol: what begins one, and what continues it. -/
def isSymbol : List Char → Bool
  | [] => false
  | c :: cs => (c = '_' || isLetter c) && !isBlank c && !isDigit c && cs.all isNameChar

/-- Whether a character begins a number without a sign. -/
def beginsNumber (c : Char) : Bool := isDigit c && !isBlank c && c ≠ '#' && c ≠ '"'

/-- What a step can find at the front, `c :: cs`. -/
inductive Found (c : Char) (cs : List Char) : TokenKind → List Char → Prop
  | string {body} : c = '"' → stringBody? cs = some body → Found c cs .string (c :: body)
  | number {kind} : beginsNumber c → numberKind? (numberRun (c :: cs)) = some kind →
      Found c cs kind (numberRun (c :: cs))
  | signed {kind} : c = '-' → cs.head?.any isDigit → numberKind? (numberRun cs) = some kind →
      Found c cs kind (c :: numberRun cs)
  | symbol {text} : isSymbol text → Found c cs .symbol text
  | mark {kind} : punctuation? c = some kind → Found c cs kind [c]
  | operator {op} : operator? (c :: cs) = some op → Found c cs .operator op

theorem number_eq_token {sign digits text : List Char} {kind : TokenKind}
    (h : number sign digits = .token kind text) :
    numberKind? (numberRun digits) = some kind ∧ text = sign ++ numberRun digits := by
  rw [number] at h
  split at h
  · next hkind =>
    obtain ⟨rfl, rfl⟩ := Front.token.inj h
    exact ⟨hkind, rfl⟩
  · cases h

/-- Each way of scanning finds its own kind of token. -/
theorem found_of_step {cs text : List Char} {kind : TokenKind}
    (h : step prev c cs = .token kind text) : Found c cs kind text := by
  rw [step] at h
  split at h
  · cases h
  next hblank =>
  split at h
  · cases h
  next hhash =>
  split at h
  · next hquote =>
    split at h
    · next body hbody =>
      obtain ⟨rfl, rfl⟩ := Front.token.inj h
      exact .string hquote hbody
    · cases h
  next hquote =>
  split at h
  · next hdigit =>
    obtain ⟨hkind, rfl⟩ := number_eq_token h
    exact .number (by simp [beginsNumber, hdigit, hblank, hhash, hquote]) hkind
  next hdigit =>
  split at h
  · next hminus =>
    simp only [Bool.and_eq_true, decide_eq_true_eq] at hminus
    obtain ⟨⟨rfl, hhead⟩, -⟩ := hminus
    obtain ⟨hkind, rfl⟩ := number_eq_token h
    exact .signed rfl hhead hkind
  split at h
  · next hname =>
    obtain ⟨rfl, rfl⟩ := Front.token.inj h
    have hchar : isNameChar c := by rw [isNameChar, hname, Bool.true_or]
    refine .symbol ?_
    rw [List.takeWhile_cons, if_pos hchar]
    simp [isSymbol, hname, hblank, hdigit, List.all_takeWhile]
  split at h
  · next hmark =>
    obtain ⟨rfl, rfl⟩ := Front.token.inj h
    exact .mark hmark
  · split at h
    · next hop =>
      obtain ⟨rfl, rfl⟩ := Front.token.inj h
      exact .operator hop
    · cases h

theorem numberKind?_eq {cs : List Char} {kind : TokenKind} (h : numberKind? cs = some kind) :
    kind = .decimal ∨ kind = .float := by
  simp only [numberKind?] at h
  split at h
  · cases h
  · split at h
    · exact .inl (Option.some.inj h).symm
    · exact .inl (Option.some.inj h).symm
    · split at h
      · exact .inr (Option.some.inj h).symm
      · cases h
    · cases h

/-- A mark is a token of its own kind. -/
theorem punctuation?_ne {kind : TokenKind} (h : punctuation? c = some kind) :
    kind ∉ [.symbol, .decimal, .float, .string] := by
  unfold punctuation? at h
  split at h <;> cases h <;> decide

/-! ## Token texts -/

/-- A text that was found as a token of a class in some source text. -/
def TokenText (kind : TokenKind) (t : Text) : Prop :=
  ∃ src ts, tokenize src = .ok ts ∧ ∃ tok ∈ ts.items, tok.kind = kind ∧ tok.text = t

/-- Every token was found somewhere. -/
theorem Scanned.exists_found {pos stop : Pos} {cs : List Char} {ts : List Token}
    (h : Scanned prev pos cs ts stop) {tok : Token} (htok : tok ∈ ts) :
    ∃ c cs text, Found c cs tok.kind text ∧ tok.text = Text.ofChars text := by
  induction h with
  | nil => cases htok
  | gap _ _ ih => exact ih htok
  | token hstep _ ih =>
    rcases List.mem_cons.1 htok with rfl | htok
    · exact ⟨_, _, _, found_of_step hstep, rfl⟩
    · exact ih htok

theorem TokenText.exists_found {kind : TokenKind} (h : TokenText kind t) :
    ∃ c cs text, Found c cs kind text ∧ t = Text.ofChars text := by
  obtain ⟨src, ts, hsrc, tok, htok, rfl, rfl⟩ := h
  exact (tokenize_iff.1 hsrc).exists_found htok

/-! ## Symbols -/

theorem takeWhile_append_of_all {p : Char → Bool} {cs rest : List Char} (hcs : cs.all p)
    (hrest : ∀ c ∈ rest.head?, p c = false) : (cs ++ rest).takeWhile p = cs := by
  rw [List.takeWhile_append_of_pos (List.all_eq_true.1 hcs)]
  cases rest with
  | nil => simp
  | cons c rest => simp [hrest c rfl]

theorem step_symbol {cs rest : List Char} (h : isSymbol (c :: cs))
    (hrest : ∀ d ∈ rest.head?, isNameChar d = false) :
    step prev c (cs ++ rest) = .token .symbol (c :: cs) := by
  simp only [isSymbol, Bool.and_eq_true, Bool.not_eq_true'] at h
  obtain ⟨⟨⟨hname, hblank⟩, hdigit⟩, hcs⟩ := h
  have hnone : (['#', '"', '-'].all fun d => !(d = '_' || isLetter d)) = true := by decide
  have hother (d : Char) (hd : d ∈ ['#', '"', '-']) : c ≠ d := by
    rintro rfl
    have hc := List.all_eq_true.1 hnone c hd
    rw [hname] at hc
    cases hc
  have hchar : isNameChar c := by rw [isNameChar, hname, Bool.true_or]
  have hword : (c :: (cs ++ rest)).takeWhile isNameChar = c :: cs := by
    rw [List.takeWhile_cons, if_pos hchar, takeWhile_append_of_all hcs hrest]
  simp [step, hblank, hdigit, hname, hword, hother]

/-- A symbol in front of something that does not continue it. -/
theorem Lexes.symbol {cs rest : List Char} (hcs : isSymbol cs)
    (hrest : ∀ c ∈ rest.head?, isNameChar c = false)
    (h : Lexes (endsWith .symbol (Text.ofChars cs)) rest fun us => ∀ t : Token, t.kind = .symbol →
      t.text = Text.ofChars cs → Q (t :: us)) : Lexes after (cs ++ rest) Q := by
  cases cs with
  | nil => cases hcs
  | cons c cs => exact Lexes.token .symbol c cs (fun prev _ => step_symbol hcs hrest) h

theorem TokenText.symbol (h : TokenText .symbol t) :
    ∃ cs, isSymbol cs ∧ t = Text.ofChars cs := by
  obtain ⟨c, cs, text, hfound, rfl⟩ := h.exists_found
  cases hfound with
  | number _ hkind => simpa using numberKind?_eq hkind
  | signed _ _ hkind => simpa using numberKind?_eq hkind
  | symbol hsymbol => exact ⟨text, hsymbol, rfl⟩
  | mark hmark => exact absurd (by decide) (punctuation?_ne hmark)

/-! ## Numbers -/

/-- Whether a character can continue a number. -/
def continuesNumber (c : Char) : Bool := c = 'u' || isDigit c || c = '.'

/-- A number can be cut out of the source. -/
theorem numberRun_cut (cs : List Char) (hrest : ∀ c ∈ rest.head?, continuesNumber c = false) :
    numberRun (numberRun cs ++ rest) = numberRun cs := by
  induction cs with
  | nil =>
    cases rest with
    | nil => rfl
    | cons c rest =>
      have hc := hrest c rfl
      simp only [continuesNumber, Bool.or_eq_false_iff, decide_eq_false_iff_not] at hc
      simp [numberRun, hc]
  | cons c cs ih =>
    rw [numberRun]
    split
    · next hu => simp [numberRun, hu]
    · next hu =>
      split
      · next hdigit => rw [List.cons_append, numberRun, if_neg hu, if_pos hdigit, ih]
      · next hdigit =>
        cases rest with
        | nil => rfl
        | cons c rest =>
          have hc := hrest c rfl
          simp only [continuesNumber, Bool.or_eq_false_iff, decide_eq_false_iff_not] at hc
          simp [numberRun, hc]

/-- The characters of a number: digits as they are cut off by the lexer, with a sign or without. -/
inductive IsNumber (kind : TokenKind) : Bool → List Char → Prop
  | unsigned {c cs} : beginsNumber c → numberKind? (numberRun (c :: cs)) = some kind →
      IsNumber kind false (numberRun (c :: cs))
  | signed {cs} : cs.head?.any isDigit → numberKind? (numberRun cs) = some kind →
      IsNumber kind true ('-' :: numberRun cs)

variable {kind : TokenKind}

theorem TokenText.number (h : TokenText kind t) (hkind : kind = .decimal ∨ kind = .float) :
    ∃ signed cs, IsNumber kind signed cs ∧ t = Text.ofChars cs := by
  obtain ⟨c, cs, text, hfound, rfl⟩ := h.exists_found
  cases hfound with
  | string _ _ => simp at hkind
  | number hc hnumber => exact ⟨false, _, .unsigned hc hnumber, rfl⟩
  | signed hc hhead hnumber =>
    subst hc
    exact ⟨true, _, .signed hhead hnumber, rfl⟩
  | symbol _ => simp at hkind
  | mark hmark => rcases hkind with rfl | rfl <;> exact absurd (by decide) (punctuation?_ne hmark)
  | operator _ => simp at hkind

theorem numberRun_cons (hc : isDigit c) (cs : List Char) :
    numberRun (c :: cs) = c :: numberRun cs := by
  have hu : c ≠ 'u' := by
    rintro rfl
    revert hc
    decide
  simp [numberRun, hu, hc]

theorem number_cut (sign : List Char) {cs rest : List Char} (hkind : numberKind? (numberRun cs) = some kind)
    (hrest : ∀ c ∈ rest.head?, continuesNumber c = false) :
    number sign (numberRun cs ++ rest) = .token kind (sign ++ numberRun cs) := by
  simp only [number, numberRun_cut cs hrest, hkind]

/-- A number in front of something that does not continue it. A sign is taken with it only where no
operand ends. -/
theorem Lexes.number {after signed : Bool} {cs rest : List Char} (hcs : IsNumber kind signed cs)
    (hsigned : signed → after = false) (hrest : ∀ c ∈ rest.head?, continuesNumber c = false)
    (h : Lexes true rest fun us => ∀ t : Token, t.kind = kind → t.text = Text.ofChars cs → Q (t :: us)) :
    Lexes after (cs ++ rest) Q := by
  have hends {ds : List Char} (hkind : numberKind? ds = some kind) (t : Text) : endsWith kind t := by
    rcases numberKind?_eq hkind with rfl | rfl <;> rfl
  cases hcs with
  | @unsigned c cs hc hkind =>
    have hcut := number_cut [] hkind hrest
    simp only [beginsNumber, Bool.and_eq_true, Bool.not_eq_true', decide_eq_true_eq] at hc
    obtain ⟨⟨⟨hdigit, hblank⟩, hhash⟩, hquote⟩ := hc
    rw [numberRun_cons hdigit] at hkind hcut h ⊢
    refine Lexes.token kind c (numberRun cs) (fun prev _ => ?_) ((hends hkind _).symm ▸ h)
    simpa [step, hblank, hhash, hquote, hdigit] using hcut
  | @signed cs hhead hkind =>
    refine Lexes.token kind '-' (numberRun cs) (fun prev hprev => ?_) ((hends hkind _).symm ▸ h)
    have hdigit : (numberRun cs ++ rest).head?.any isDigit := by
      cases cs with
      | nil => cases hhead
      | cons d cs =>
        rw [numberRun_cons hhead]
        exact hhead
    have hsign : ('-' = '-' && (numberRun cs ++ rest).head?.any isDigit
        && !(prev.any Token.endsOperand)) := by
      rw [hdigit, hprev, hsigned rfl]
      rfl
    rw [step, if_neg (by decide), if_neg (by decide), if_neg (by decide), if_neg (by decide), if_pos hsign]
    exact number_cut ['-'] hkind hrest

/-! ## Strings -/

/-- A string too. -/
theorem stringBody?_cut {cs body : List Char} (h : stringBody? cs = some body) (rest : List Char) :
    stringBody? (body ++ rest) = some body := by
  fun_induction stringBody? cs generalizing body with
  | case1 => cases h
  | case2 => cases h
  | case3 cs =>
    obtain rfl := Option.some.inj h
    simp [stringBody?]
  | case4 c cs ih =>
    obtain ⟨b, hb, rfl⟩ := Option.map_eq_some_iff.1 h
    simp [stringBody?, ih hb]
  | case5 c cs h1 h2 h3 ih =>
    obtain ⟨b, hb, rfl⟩ := Option.map_eq_some_iff.1 h
    have hc : c ≠ '\\' := by
      rintro rfl
      cases cs with
      | nil => exact h1 rfl rfl
      | cons d cs => exact h3 d cs rfl rfl
    rw [List.cons_append, stringBody?, ih hb]
    · rfl
    · exact fun h => absurd h hc
    · exact h2
    · exact fun _ _ h => absurd h hc

/-- The characters of a string with its quotes. -/
def IsString (cs : List Char) : Prop := ∃ ds body, cs = '"' :: body ∧ stringBody? ds = some body

theorem TokenText.string (h : TokenText .string t) : ∃ cs, IsString cs ∧ t = Text.ofChars cs := by
  obtain ⟨c, cs, text, hfound, rfl⟩ := h.exists_found
  cases hfound with
  | @string body hc hbody =>
    subst hc
    exact ⟨_, ⟨cs, body, rfl, hbody⟩, rfl⟩
  | number _ hkind => simpa using numberKind?_eq hkind
  | signed _ _ hkind => simpa using numberKind?_eq hkind
  | mark hmark => exact absurd (by decide) (punctuation?_ne hmark)

/-- A string, whatever follows it. -/
theorem Lexes.string {cs rest : List Char} (hcs : IsString cs)
    (h : Lexes true rest fun us => ∀ t : Token, t.kind = .string → t.text = Text.ofChars cs → Q (t :: us)) :
    Lexes after (cs ++ rest) Q := by
  obtain ⟨ds, body, rfl, hbody⟩ := hcs
  refine Lexes.token .string '"' body (fun prev _ => ?_) h
  have hquote : isBlank '"' = false := by decide
  simp [step, hquote, stringBody?_cut hbody rest]

end TinyScript.Syntax
