import TinyScript.Console.Repl
import TinyScript.Proofs.Syntax.Continuation

/-!
# Entries of several lines

An entry that lexes, is not blank and cannot be parsed is continued if and only if more lines can make it parse;
otherwise the error is shown at once (`loop_continues_exactly`). A line that begins with a dot does not lex, so commands
and entries never compete for it (`not_tokenize_dot`).
-/

namespace TinyScript

/-! ## Lines that begin with a dot -/

namespace Text

theorem piecesFrom_zero (a : UInt8) (bs : List UInt8) :
    piecesFrom 0 (a :: bs) = ((front a bs).1.any isBlank, a :: bs.take ((front a bs).2 - 1))
      :: piecesFrom ((front a bs).2 - 1) bs := rfl

/-- A text is read as blanks, and then as the character that its first other piece begins with. -/
theorem decodeFrom_of_pieces {b : UInt8} (hb : b < 0x80) {skip : Nat} {bs rest : List UInt8}
    {blank : Bool} {ps : List (Bool × List UInt8)}
    (h : (piecesFrom skip bs).dropWhile Prod.fst = (blank, b :: rest) :: ps) :
    ∃ blanks after, (∀ c ∈ blanks, isBlank c) ∧
      (decodeFrom skip bs).map (fun p => p.1.getD replacement) = blanks ++ Char.ofNat b.toNat :: after := by
  induction bs generalizing skip with
  | nil => simp [piecesFrom] at h
  | cons a bs ih =>
    cases skip with
    | succ skip => exact ih h
    | zero =>
      rw [piecesFrom_zero, List.dropWhile_cons] at h
      rw [decodeFrom, List.map_cons]
      cases hc : (front a bs).1.any isBlank with
      | true =>
        rw [hc, if_pos rfl] at h
        obtain ⟨blanks, after, hblanks, heq⟩ := ih h
        refine ⟨(front a bs).1.getD replacement :: blanks, after, ?_, by rw [heq, List.cons_append]⟩
        have hblank : isBlank ((front a bs).1.getD replacement) := by
          cases hfront : (front a bs).1 with
          | none => simp [hfront] at hc
          | some c => simpa [hfront] using hc
        intro c hmem
        rcases List.mem_cons.1 hmem with rfl | hmem
        · exact hblank
        · exact hblanks c hmem
      | false =>
        rw [hc, if_neg Bool.false_ne_true] at h
        obtain ⟨hpiece, -⟩ := List.cons.inj h
        obtain ⟨rfl, -⟩ := List.cons.inj (Prod.mk.inj hpiece).2
        rw [front_ascii hb]
        exact ⟨[], _, by simp, rfl⟩

theorem ne_nil_of_mem_pieces {skip : Nat} {bs : List UInt8} {p : Bool × List UInt8}
    (h : p ∈ piecesFrom skip bs) : p.2 ≠ [] := by
  induction bs generalizing skip with
  | nil => simp [piecesFrom] at h
  | cons a bs ih =>
    cases skip with
    | succ skip => exact ih h
    | zero =>
      rw [piecesFrom_zero] at h
      rcases List.mem_cons.1 h with rfl | h
      · simp
      · exact ih h

/-- A text that begins with an ASCII byte once its blanks are gone. -/
theorem chars_of_trim {b : UInt8} (hb : b < 0x80) {t : Text} {rest : List UInt8}
    (h : t.trim.bytes = b :: rest) :
    ∃ blanks after, (∀ c ∈ blanks, isBlank c) ∧ t.chars = blanks ++ Char.ofNat b.toNat :: after := by
  have hbegin : ((t.pieces.dropWhile Prod.fst).reverse.dropWhile Prod.fst).reverse
      <+: t.pieces.dropWhile Prod.fst := by
    rw [← List.reverse_suffix, List.reverse_reverse]
    exact List.dropWhile_suffix _
  rw [trim, ofPieces] at h
  -- the first piece that is left is the first one that is not blank
  generalize ((t.pieces.dropWhile Prod.fst).reverse.dropWhile Prod.fst).reverse = kept at h hbegin
  cases kept with
  | nil => cases h
  | cons p ps =>
    obtain ⟨more, hmore⟩ := hbegin
    have hfirst : p ∈ t.pieces.dropWhile Prod.fst := by
      rw [← hmore]
      simp
    have hmem : p ∈ t.pieces := (List.dropWhile_suffix _).subset hfirst
    obtain ⟨blank, bytes⟩ := p
    cases bytes with
    | nil => exact absurd rfl (ne_nil_of_mem_pieces hmem)
    | cons b' bytes =>
      obtain ⟨rfl, -⟩ := List.cons.inj h
      exact decodeFrom_of_pieces hb hmore.symm

end Text

namespace Syntax

theorem not_scanned_dot {blanks after : List Char} (h : ∀ c ∈ blanks, Text.isBlank c)
    (prev : Option Token) (pos stop : Pos) (ts : List Token) :
    ¬Scanned prev pos (blanks ++ '.' :: after) ts stop := by
  induction blanks generalizing pos with
  | nil =>
    have hstep : step prev '.' after = .fault (.strayCharacter '.') false := rfl
    intro hscan
    cases hscan with
    | gap hgap _ => cases hstep.symm.trans hgap
    | token htok _ => cases hstep.symm.trans htok
  | cons c blanks ih =>
    have hstep : ∀ cs, step prev c cs = .gap [c] := fun cs => by
      rw [step, if_pos (h c List.mem_cons_self)]
    intro hscan
    cases hscan with
    | gap hgap hrest =>
      obtain rfl := Front.gap.inj ((hstep _).symm.trans hgap)
      exact ih (fun c hc => h c (List.mem_cons_of_mem _ hc)) _ hrest
    | token htok _ => cases (hstep _).symm.trans htok

/-- A line that begins with a dot does not lex. -/
theorem not_tokenize_dot {t : Text} (h : t.trim.startsWith "." = true) (ts : Tokens) :
    tokenize t ≠ .ok ts := by
  intro hlex
  have hdot : ∃ rest, t.trim.bytes = 46 :: rest := by
    rw [Text.startsWith, Text.stripStart?] at h
    generalize t.trim.bytes = bs at h
    cases bs with
    | nil => cases h
    | cons b bs =>
      by_cases hb : (46 : UInt8) = b
      · exact ⟨bs, by rw [hb]⟩
      · have hnone : Text.stripBytes? (Text.ofString ".").bytes (b :: bs) = none := if_neg hb
        rw [hnone] at h
        cases h
  obtain ⟨rest, hrest⟩ := hdot
  obtain ⟨blanks, after, hblanks, hchars⟩ := Text.chars_of_trim (by decide) hrest
  have hscan := tokenize_iff.1 hlex
  rw [hchars] at hscan
  exact not_scanned_dot hblanks _ _ _ _ hscan

end Syntax

namespace Console

open Syntax (tokenize parseLine SyntaxError Tokens)
open Syntax.Grammar (Continuable atEnd_iff_continuable continuable_of_completable)

/-! ## Entries -/

/-- What comes of an entry that lexes but does not parse. -/
theorem treatLine_of_error (c : Config) {pending : Option Text} {t s : Text} {ts : Tokens} {e : SyntaxError}
    (hs : gathered pending t = s) (hlex : tokenize s = .ok ts) (hfail : parseLine s = .error e) :
    treatLine c pending t = if s.trim.isEmpty then pure (.read none)
      else if e.atEnd then pure (.read (some s)) else do showLine e.message; return .read none := by
  have hdot : (pending.isNone && t.trim.startsWith ".") = false := by
    cases pending with
    | none =>
      subst hs
      exact Bool.eq_false_iff.2 fun h => Syntax.not_tokenize_dot h ts hlex
    | some before => rfl
  simp only [treatLine, hdot, hs, hfail]
  rfl

theorem loop_of_treatLine {c : Config} {pending next : Option Text} {line : Text} (rest : List Input)
    (h : treatLine c pending line = pure (.read next)) :
    loop c pending (.line line :: rest) = (do emit (.prompt pending.isSome); loop c next rest) := by
  simp only [loop, loopIn, liftM, monadLift_self, h]
  rfl

theorem loop_of_message {c : Config} {pending : Option Text} {line message : Text} (rest : List Input)
    (h : treatLine c pending line = (do showLine message; return .read none)) :
    loop c pending (.line line :: rest)
      = (do emit (.prompt pending.isSome); showLine message; loop c none rest) := by
  simp only [loop, loopIn, liftM, monadLift_self, h]
  rfl

/-- **The console asks for another line exactly when the entry can be completed.** Let an entry lex but not
parse. Its error is one at the end of the input if and only if more lines make it parse. In that case the
loop goes on with the entry pending; otherwise it shows the error and begins anew. Only a blank entry is
dropped without either. -/
theorem loop_continues_exactly {s : Text} {ts : Tokens} {e : SyntaxError} (hlex : tokenize s = .ok ts)
    (hfail : parseLine s = .error e) :
    (e.atEnd = true ↔ Continuable s) ∧
      ∀ (c : Config) (pending : Option Text) (line : Text) (rest : List Input), gathered pending line = s →
        (s.trim.isEmpty = true → loop c pending (.line line :: rest)
          = (do emit (.prompt pending.isSome); loop c none rest)) ∧
        (s.trim.isEmpty = false → Continuable s → loop c pending (.line line :: rest)
          = (do emit (.prompt pending.isSome); loop c (some s) rest)) ∧
        (s.trim.isEmpty = false → ¬Continuable s → loop c pending (.line line :: rest)
          = (do emit (.prompt pending.isSome); showLine e.message; loop c none rest)) := by
  have hend := atEnd_iff_continuable hlex hfail
  refine ⟨hend, fun c pending line rest hs => ?_⟩
  have htreat := treatLine_of_error c hs hlex hfail
  refine ⟨fun hblank => ?_, fun hblank hcont => ?_, fun hblank hcont => ?_⟩
  · rw [if_pos hblank] at htreat
    exact loop_of_treatLine rest htreat
  · rw [if_neg (by simp [hblank]), if_pos (hend.2 hcont)] at htreat
    exact loop_of_treatLine rest htreat
  · rw [if_neg (by simp [hblank]), if_neg (mt hend.1 hcont)] at htreat
    exact loop_of_message rest htreat

/-- An entry of two lines that ends inside a parenthesis. -/
theorem loop_continues_parenthesis :
    Continuable "let x = 1\nin (x" ∧ loop {} (some "let x = 1") [.line "in (x"]
      = (do emit (.prompt true); loop {} (some "let x = 1\nin (x") []) := by
  have hlex : (tokenize "let x = 1\nin (x").isOk = true := by decide +kernel
  have hfail : (parseLine "let x = 1\nin (x").isOk = false := by decide +kernel
  have hmore : (parseLine ("let x = 1\nin (x" ++ "\n" ++ ")")).isOk = true := by decide +kernel
  cases htok : tokenize "let x = 1\nin (x" with
  | error e => simp [htok, Except.isOk, Except.toBool] at hlex
  | ok ts =>
    cases hparse : parseLine "let x = 1\nin (x" with
    | ok l => simp [hparse, Except.isOk, Except.toBool] at hfail
    | error e =>
      cases hdone : parseLine ("let x = 1\nin (x" ++ "\n" ++ ")") with
      | error e => simp [hdone, Except.isOk, Except.toBool] at hmore
      | ok l =>
        have hcont : Continuable "let x = 1\nin (x" := ⟨")", l, hdone⟩
        have hgather : gathered (some "let x = 1") "in (x" = "let x = 1\nin (x" := by decide +kernel
        have h := (loop_continues_exactly htok hparse).2 {} _ _ [] hgather
        exact ⟨hcont, h.2.1 (by decide +kernel) hcont⟩

/-- An empty entry lexes, does not parse and can be continued, but no other line is asked for. -/
theorem empty_entry_not_continued :
    ¬∀ (s : Text) (ts : Tokens) (e : SyntaxError), tokenize s = .ok ts → parseLine s = .error e →
      Continuable s → ∀ (c : Config) (rest : List Input),
        loop c none (.line s :: rest) = (do emit (.prompt false); loop c (some s) rest) := by
  intro h
  have hlex : tokenize "" = .ok ⟨[], {}⟩ := rfl
  have hfail : (parseLine "").isOk = false := by decide +kernel
  cases hparse : parseLine "" with
  | ok l => simp [hparse, Except.isOk, Except.toBool] at hfail
  | error e =>
    have hcont : Continuable "" := continuable_of_completable hlex .line
    have hasked := h "" _ e hlex hparse hcont {} []
    have hgather : gathered none "" = "" := rfl
    have htreat : treatLine {} none "" = pure (.read none) := by
      rw [treatLine_of_error {} hgather hlex hparse]
      rfl
    have hdropped := (loop_of_treatLine [] htreat).symm.trans hasked
    -- the two runs show different prompts
    have hevents : Step.done (([] : List Input), [Event.prompt false, .prompt false]) (default : Machine)
        = .done ([], [.prompt true, .prompt false]) default := congrFun (congrFun hdropped []) default
    exact absurd (Step.done.inj hevents).1 (by decide)

end Console

end TinyScript
