import Mathlib.Data.List.TakeWhile
import TinyScript.Proofs.Syntax.Lexing

/-!
# A source text and its tokens

The lexer leaves out no character and reads none twice. A source text is laid out with tiles, each of them a white
space character, a comment or a token (`Laid`), and the tokens among the tiles are what `tokenize` gives. The position
of a token is told by the characters before it alone (`Pos.behind`). If there is an error, the tiles reach up to what
is at fault (`Offends`). `Covered` is the invariant of `scan`.
-/

namespace TinyScript.Syntax

open Text (isLetter isDigit isBlank)

variable {tiles : List Tile} {prev : Option Token} {c : Char}

/-! ## Positions -/

/-- The position behind some characters at the beginning of a text: newlines are counted, and the characters
since the last one. -/
def Pos.behind (cs : List Char) : Pos :=
  ⟨cs.count '\n' + 1, (cs.reverse.takeWhile (· ≠ '\n')).length + 1⟩

theorem Pos.behind_concat (cs : List Char) (c : Char) : behind (cs ++ [c]) = (behind cs).next c := by
  by_cases hc : c = '\n'
  · subst hc
    simp [behind, next]
  · have hcount : (cs ++ [c]).count '\n' = cs.count '\n' := by simp [List.count_append, hc]
    simp [behind, next, hc, hcount]

theorem Pos.behind_append (cs text : List Char) : behind (cs ++ text) = (behind cs).advance text := by
  induction text generalizing cs with
  | nil => rw [List.append_nil]; rfl
  | cons c text ih => rw [List.append_cons, ih, behind_concat]; rfl

/-! ## Tiles -/

/-- What a source text is laid out with. -/
inductive Tile where
  | blank (c : Char)
  | comment (text : List Char)
  | token (t : Token)

namespace Tile

/-- The characters that a tile takes. -/
def chars : Tile → List Char
  | blank c => [c]
  | comment text => '#' :: text
  | token t => t.text.chars

/-- The token, if a tile is one. -/
def token? : Tile → Option Token
  | token t => some t
  | _ => none

/-- A tile is in its place between the characters before it and those behind it. A comment runs up to a
newline or to the end. A token has the position where it begins, it is what is found there, and a name is not
cut short. -/
def Fits (before after : List Char) : Tile → Prop
  | blank c => isBlank c
  | comment text => '\n' ∉ text ∧ ∀ c ∈ after.head?, c = '\n'
  | token t => t.pos = .behind before ∧ t.text.chars ≠ [] ∧
      (∃ c cs, t.text.chars ++ after = c :: cs ∧ Found c cs t.kind t.text.chars) ∧
      (t.kind = .symbol → ∀ c ∈ after.head?, isNameChar c = false)

end Tile

/-- All tiles are in their places, one behind the other, from `before` up to `rest`. -/
def Laid (before : List Char) : List Tile → List Char → Prop
  | [], _ => True
  | tile :: tiles, rest =>
    tile.Fits before (tiles.flatMap Tile.chars ++ rest) ∧ Laid (before ++ tile.chars) tiles rest

/-- One more tile at the end. -/
theorem Laid.concat {before : List Char} {tile : Tile} {rest : List Char}
    (h : Laid before tiles (tile.chars ++ rest)) (htile : tile.Fits (before ++ tiles.flatMap Tile.chars) rest) :
    Laid before (tiles ++ [tile]) rest := by
  induction tiles generalizing before with
  | nil => simpa [Laid] using htile
  | cons first tiles ih =>
    obtain ⟨hfirst, htiles⟩ := h
    refine ⟨by simpa using hfirst, ih htiles ?_⟩
    rwa [List.flatMap_cons, ← List.append_assoc] at htile

/-! ## What is at fault -/

/-- The characters inside a string, which do not close it. -/
inductive Inside : List Char → Prop
  | nil : Inside []
  | plain {c cs} : c ≠ '"' → c ≠ '\\' → Inside cs → Inside (c :: cs)
  | escaped {c cs} : Inside cs → Inside ('\\' :: c :: cs)

theorem Inside.stringBody? {body : List Char} (h : Inside body) (rest : List Char) :
    stringBody? (body ++ '"' :: rest) = some (body ++ ['"']) := by
  induction h with
  | nil => simp [Syntax.stringBody?]
  | @plain c cs hquote hback _ ih =>
    rw [List.cons_append, Syntax.stringBody?, ih]
    · rfl
    · exact fun h => absurd h hback
    · exact hquote
    · exact fun _ _ h => absurd h hback
  | escaped _ ih => simp [Syntax.stringBody?, ih]

/-- What stands at the front of the remaining characters is no token: a string that nothing closes, digits and
points that are no number, with a sign or without, or a character that begins nothing. -/
inductive Offends : List Char → Problem → Prop
  | string {cs} : (∀ body rest, Inside body → cs ≠ body ++ '"' :: rest) → Offends ('"' :: cs) .openString
  | number {sign digits} : sign = [] ∨ sign = ['-'] → digits.head?.any isDigit →
      numberKind? (numberRun digits) = none →
      Offends (sign ++ digits) (.malformedNumber (Text.ofChars (sign ++ numberRun digits)))
  | character {c cs} : isSignChar c → operator? (c :: cs) = none → Offends (c :: cs) (.strayCharacter c)

theorem number_eq_fault {sign digits : List Char} {problem : Problem} {atEnd : Bool}
    (h : number sign digits = .fault problem atEnd) : numberKind? (numberRun digits) = none ∧
      problem = .malformedNumber (Text.ofChars (sign ++ numberRun digits)) := by
  rw [number] at h
  split at h
  · cases h
  · next hkind =>
    obtain ⟨rfl, -⟩ := Front.fault.inj h
    exact ⟨hkind, rfl⟩

theorem offends_of_step {cs : List Char} {problem : Problem} {atEnd : Bool}
    (h : step prev c cs = .fault problem atEnd) : Offends (c :: cs) problem := by
  rw [step] at h
  split at h
  · cases h
  next hblank =>
  split at h
  · cases h
  next hhash =>
  split at h
  · next hquote =>
    split at h
    · cases h
    · next hbody =>
      obtain ⟨rfl, -⟩ := Front.fault.inj h
      subst hquote
      refine .string fun body rest hinside hcs => ?_
      rw [hcs, hinside.stringBody?] at hbody
      cases hbody
  next hquote =>
  split at h
  · next hdigit =>
    obtain ⟨hkind, rfl⟩ := number_eq_fault h
    exact .number (.inl rfl) hdigit hkind
  next hdigit =>
  split at h
  · next hminus =>
    simp only [Bool.and_eq_true, decide_eq_true_eq] at hminus
    obtain ⟨⟨rfl, hhead⟩, -⟩ := hminus
    obtain ⟨hkind, rfl⟩ := number_eq_fault h
    exact .number (.inr rfl) hhead hkind
  split at h
  · cases h
  next hname =>
  split at h
  · cases h
  next hmark =>
  split at h
  · cases h
  next hop =>
  obtain ⟨rfl, -⟩ := Front.fault.inj h
  have hname : (c = '_' || isLetter c) = false := by simpa using hname
  exact .character (by simp [isSignChar, hblank, hhash, hquote, hdigit, hname, hmark]) hop

/-! ## Scanning lays tiles -/

theorem head?_drop_takeWhile (p : Char → Bool) (cs : List Char) {d : Char}
    (hd : d ∈ (cs.drop (cs.takeWhile p).length).head?) : p d = false := by
  induction cs with
  | nil => simp at hd
  | cons c cs ih =>
    cases hc : p c with
    | false => simp_all
    | true => exact ih (by simpa [hc] using hd)

theorem number_ne_gap (sign digits text : List Char) : number sign digits ≠ .gap text := by
  rw [number]
  split <;> exact fun h => by cases h

/-- A gap is a white space character, or a comment up to the end of its line. -/
theorem exists_tile_of_gap {cs text : List Char}
    (h : step prev c cs = .gap text) : ∃ tile : Tile, tile.chars = text ∧ tile.token? = none ∧
      ∀ before, tile.Fits before ((c :: cs).drop text.length) := by
  rw [step] at h
  split at h
  · next hblank =>
    obtain rfl := Front.gap.inj h
    exact ⟨.blank c, rfl, rfl, fun _ => hblank⟩
  split at h
  · next hhash =>
    obtain rfl := Front.gap.inj h
    subst hhash
    refine ⟨.comment (cs.takeWhile (· ≠ '\n')), rfl, rfl, fun _ => ⟨fun hmem => ?_, fun d hd => ?_⟩⟩
    · simpa using List.mem_takeWhile_imp hmem
    · simpa using head?_drop_takeWhile (· ≠ '\n') cs hd
  -- nothing else at the front is a gap
  split at h
  · split at h <;> cases h
  split at h
  · exact absurd h (number_ne_gap _ _ _)
  split at h
  · exact absurd h (number_ne_gap _ _ _)
  split at h
  · cases h
  split at h
  · cases h
  · split at h <;> cases h

theorem numberKind?_ne_symbol (cs : List Char) : numberKind? cs ≠ some .symbol := by
  simp only [numberKind?]
  repeat' split
  all_goals exact fun h => by cases h

theorem punctuation?_ne_symbol (c : Char) : punctuation? c ≠ some .symbol := by
  unfold punctuation?
  split <;> exact fun h => by cases h

/-- A name takes all the characters that continue it. -/
theorem symbol_of_step {cs text : List Char}
    (h : step prev c cs = .token .symbol text) : text = (c :: cs).takeWhile isNameChar := by
  rw [step] at h
  split at h
  · cases h
  split at h
  · cases h
  split at h
  · split at h <;> cases h
  split at h
  · exact absurd (number_eq_token h).1 (numberKind?_ne_symbol _)
  split at h
  · exact absurd (number_eq_token h).1 (numberKind?_ne_symbol _)
  split at h
  · exact (Front.token.inj h).2.symm
  split at h
  · next hmark => exact absurd (hmark.trans (congrArg some (Front.token.inj h).1)) (punctuation?_ne_symbol c)
  · split at h <;> cases h

theorem fits_of_token {cs text : List Char} {kind : TokenKind}
    (h : step prev c cs = .token kind text) (before : List Char) :
    (Tile.token ⟨kind, Text.ofChars text, .behind before⟩).Fits before ((c :: cs).drop text.length) := by
  obtain ⟨hne, hbegins⟩ := step_text (congrArg Front.text? h)
  have hwhole : text ++ (c :: cs).drop text.length = c :: cs := by
    rw [List.prefix_iff_eq_append.1 hbegins]
  simp only [Tile.Fits, Text.chars_ofChars, true_and]
  refine ⟨hne, ⟨c, cs, hwhole, found_of_step h⟩, ?_⟩
  rintro rfl d hd
  rw [symbol_of_step h] at hd
  exact head?_drop_takeWhile isNameChar _ hd

/-- How far a text has been scanned: the tiles up to here, their tokens with the last one first, the position
behind them and the characters that remain. -/
structure Covered (src : List Char) (tiles : List Tile) (acc : List Token) (pos : Pos) (cs : List Char) :
    Prop where
  whole : src = tiles.flatMap Tile.chars ++ cs
  tokens : acc.reverse = tiles.filterMap Tile.token?
  laid : Laid [] tiles cs
  behind : pos = .behind (tiles.flatMap Tile.chars)

/-- A step lays one tile. -/
theorem Covered.concat {src : List Char} {acc : List Token} {pos : Pos} {tile : Tile}
    {cs : List Char} (h : Covered src tiles acc pos (tile.chars ++ cs))
    (htile : tile.Fits (tiles.flatMap Tile.chars) cs) :
    Covered src (tiles ++ [tile]) (tile.token?.toList ++ acc) (pos.advance tile.chars) cs where
  whole := by simp [h.whole]
  tokens := by
    rw [List.reverse_append, h.tokens, List.filterMap_append]
    cases htoken : tile.token? <;> simp [htoken]
  laid := h.laid.concat htile
  behind := by rw [h.behind, ← Pos.behind_append, List.flatMap_append, List.flatMap_singleton]

/-- What a scan that began with some tiles ends in: tiles for the whole text, or tiles up to a fault. -/
theorem Covered.scan {src : List Char} {fuel : Nat} {acc : List Token} {pos : Pos}
    {cs : List Char} (h : Covered src tiles acc pos cs) (hfuel : cs.length < fuel) :
    (∀ ts, scan fuel acc pos cs = .ok ts → ∃ tiles, Covered src tiles ts.items.reverse ts.stop []) ∧
      ∀ e, scan fuel acc pos cs = .error e →
        ∃ tiles acc rest, Covered src tiles acc e.pos rest ∧ Offends rest e.problem := by
  induction fuel generalizing tiles acc pos cs with
  | zero => cases hfuel
  | succ fuel ih =>
    cases cs with
    | nil =>
      rw [Syntax.scan]
      refine ⟨fun ts hts => ?_, fun e he => by cases he⟩
      obtain rfl := Except.ok.inj hts
      exact ⟨tiles, by simpa using h⟩
    | cons c cs =>
      rw [Syntax.scan]
      have hstep : ∀ {text}, (step acc.head? c cs).text? = some text →
          text ++ (c :: cs).drop text.length = c :: cs ∧ ((c :: cs).drop text.length).length < fuel :=
        fun htext => ⟨(List.prefix_iff_eq_append.1 (step_text htext).2),
          Nat.lt_of_lt_of_le (length_drop_text_lt htext) (Nat.le_of_lt_succ hfuel)⟩
      cases hfront : step acc.head? c cs with
      | gap text =>
        obtain ⟨hsplit, hshort⟩ := hstep (congrArg Front.text? hfront)
        obtain ⟨tile, rfl, htoken, hfits⟩ := exists_tile_of_gap hfront
        have hnext := Covered.concat (by rwa [hsplit]) (hfits _)
        rw [htoken] at hnext
        exact ih hnext hshort
      | token kind text =>
        obtain ⟨hsplit, hshort⟩ := hstep (congrArg Front.text? hfront)
        have hchars : (Tile.token ⟨kind, Text.ofChars text, pos⟩).chars = text := Text.chars_ofChars text
        have hfits := fits_of_token hfront (tiles.flatMap Tile.chars)
        rw [← h.behind] at hfits
        have hnext := Covered.concat (by rwa [hchars, hsplit]) hfits
        rw [hchars] at hnext
        exact ih hnext hshort
      | fault problem atEnd =>
        refine ⟨fun ts hts => (by cases hts), fun e he => ?_⟩
        obtain rfl := Except.error.inj he
        exact ⟨tiles, acc, c :: cs, h, offends_of_step hfront⟩

/-- **The tokens of a text tile it.** If a text can be scanned, it is a sequence of tiles: white space characters,
comments that run up to a newline or to the end, and tokens. The tokens among them, in order, are those that are
given. Each is where it is said to be, by the newlines and characters before it, and so is the end, which is no
token's class. If there is an error, the tiles reach up to a string that is not closed, a number that is none, or
a character that begins nothing, and the error is at its first character. -/
theorem tokenize_tiles (src : Text) :
    (∀ ts, tokenize src = .ok ts → ∃ tiles, src.chars = tiles.flatMap Tile.chars ∧
      ts.items = tiles.filterMap Tile.token? ∧ Laid [] tiles [] ∧ ts.stop = .behind src.chars ∧
      ∀ t ∈ ts.items, t.kind.code ≠ endCode) ∧
    ∀ e, tokenize src = .error e → ∃ tiles rest, src.chars = tiles.flatMap Tile.chars ++ rest ∧
      Laid [] tiles rest ∧ e.pos = .behind (tiles.flatMap Tile.chars) ∧ Offends rest e.problem := by
  have hstart : Covered src.chars [] [] {} src.chars := ⟨rfl, rfl, trivial, rfl⟩
  obtain ⟨hok, herror⟩ := hstart.scan (Nat.lt_succ_self _)
  refine ⟨fun ts hts => ?_, fun e he => ?_⟩
  · obtain ⟨tiles, h⟩ := hok ts hts
    have hwhole : src.chars = tiles.flatMap Tile.chars := by simpa using h.whole
    refine ⟨tiles, hwhole, by simpa using h.tokens, h.laid, by rw [h.behind, hwhole], fun t _ => ?_⟩
    cases t.kind <;> decide
  · obtain ⟨tiles, acc, rest, h, hoffends⟩ := herror e he
    exact ⟨tiles, rest, h.whole, h.laid, h.behind, hoffends⟩

/-- Tokens behind a comment and a tab, the last of which is a string if it is closed. -/
theorem tokenize_tiles_commented :
    (tokenize "a # b\n\t-\"c\"" = .ok ⟨[⟨.symbol, "a", ⟨1, 1⟩⟩, ⟨.operator, "-", ⟨2, 2⟩⟩,
        ⟨.string, "\"c\"", ⟨2, 3⟩⟩], ⟨2, 6⟩⟩ ∧
      ∃ tiles, Text.chars "a # b\n\t-\"c\"" = tiles.flatMap Tile.chars ∧
        [⟨.symbol, "a", ⟨1, 1⟩⟩, ⟨.operator, "-", ⟨2, 2⟩⟩, ⟨.string, "\"c\"", ⟨2, 3⟩⟩] =
          tiles.filterMap Tile.token? ∧ Laid [] tiles []) ∧
    tokenize "a # b\n\t-\"c" = .error ⟨⟨2, 3⟩, .openString, true⟩ ∧
      ∃ tiles rest, Text.chars "a # b\n\t-\"c" = tiles.flatMap Tile.chars ++ rest ∧ Laid [] tiles rest ∧
        ⟨2, 3⟩ = Pos.behind (tiles.flatMap Tile.chars) ∧ Offends rest .openString := by
  obtain ⟨tiles, hwhole, htokens, hlaid, -⟩ := (tokenize_tiles "a # b\n\t-\"c\"").1 _ rfl
  exact ⟨⟨rfl, tiles, hwhole, htokens, hlaid⟩, rfl, (tokenize_tiles "a # b\n\t-\"c").2 _ rfl⟩

end TinyScript.Syntax
