import TinyScript.Syntax.Lexer
import TinyScript.Proofs.Text.Utf8

/-!
# Scanning text piece by piece

`Scanned prev pos cs ts stop` says that the characters `cs`, read behind the token `prev` from the position `pos` on,
are the tokens `ts` and end at `stop`. It is what `scan` finds (`tokenize_iff`). No token but an open string reaches
across the end of a line, so what is added on a new line changes none of the tokens (`Scanned.append`, `Scanned.split`).
-/

namespace TinyScript.Syntax

open Text (isLetter isDigit isBlank)
open List

/-! ## Single steps -/

/-- The text of what stands at the front, if there is no fault. -/
def Front.text? : Front → Option (List Char)
  | gap text => some text
  | token _ text => some text
  | fault _ _ => none

theorem numberRun_begins (cs : List Char) : numberRun cs <+: cs := by
  induction cs with
  | nil => exact prefix_refl _
  | cons c cs ih =>
    rw [numberRun]
    split
    · exact ⟨cs, rfl⟩
    · split
      · exact (prefix_cons_inj c).2 ih
      · exact nil_prefix

theorem stringBody?_begins {cs body : List Char} (h : stringBody? cs = some body) : body <+: cs := by
  fun_induction stringBody? cs generalizing body with
  | case1 => cases h
  | case2 => cases h
  | case3 cs =>
    cases h
    exact ⟨cs, rfl⟩
  | case4 c cs ih =>
    obtain ⟨b, hb, rfl⟩ := Option.map_eq_some_iff.1 h
    exact (prefix_cons_inj _).2 ((prefix_cons_inj _).2 (ih hb))
  | case5 c cs _ _ _ ih =>
    obtain ⟨b, hb, rfl⟩ := Option.map_eq_some_iff.1 h
    exact (prefix_cons_inj _).2 (ih hb)

theorem operator?_begins {cs op : List Char} (h : operator? cs = some op) : op ≠ [] ∧ op <+: cs := by
  have hne : ∀ op ∈ operatorSpellings, op ≠ [] := by decide
  have hspell := find?_some h
  exact ⟨hne op (mem_of_find?_eq_some h), List.isPrefixOf_iff_prefix.1 hspell⟩

theorem number_text {sign digits text : List Char} (h : (number sign digits).text? = some text) :
    text = sign ++ numberRun digits := by
  rw [number] at h
  split at h
  · exact (Option.some.inj h).symm
  · cases h

/-- What a step takes stands at the front, and it is not nothing. -/
theorem step_text {prev : Option Token} {c : Char} {cs text : List Char}
    (h : (step prev c cs).text? = some text) : text ≠ [] ∧ text <+: c :: cs := by
  rw [step] at h
  split at h
  · obtain rfl := Option.some.inj h
    exact ⟨by simp, ⟨cs, rfl⟩⟩
  split at h
  · obtain rfl := Option.some.inj h
    exact ⟨by simp, (prefix_cons_inj c).2 (List.takeWhile_prefix _)⟩
  split at h
  · split at h
    · next body hbody =>
      obtain rfl := Option.some.inj h
      exact ⟨by simp, (prefix_cons_inj c).2 (stringBody?_begins hbody)⟩
    · cases h
  split at h
  · next hdigit =>
    rw [number_text h, nil_append]
    refine ⟨?_, numberRun_begins _⟩
    rw [numberRun]
    split
    · simp
    · simp [hdigit]
  split at h
  · rw [number_text h]
    exact ⟨by simp, (prefix_cons_inj c).2 (numberRun_begins cs)⟩
  split at h
  · next hname =>
    obtain rfl := Option.some.inj h
    have hchar : isNameChar c := by
      rw [isNameChar, hname, Bool.true_or]
    exact ⟨by simp [hchar], List.takeWhile_prefix _⟩
  split at h
  · obtain rfl := Option.some.inj h
    exact ⟨by simp, ⟨cs, rfl⟩⟩
  · split at h
    · next op hop =>
      obtain rfl := Option.some.inj h
      exact operator?_begins hop
    · cases h

/-! ## Steps in front of a new line -/

section NewLine

variable (ds : List Char)

theorem numberRun_append (cs : List Char) : numberRun (cs ++ '\n' :: ds) = numberRun cs := by
  induction cs with
  | nil => rfl
  | cons c cs ih => simp [numberRun, ih]

theorem takeWhile_append_newline {p : Char → Bool} (hp : p '\n' = false) (cs : List Char) :
    (cs ++ '\n' :: ds).takeWhile p = cs.takeWhile p := by
  induction cs with
  | nil => simp [hp]
  | cons c cs ih => simp [takeWhile_cons, ih]

theorem stringBody?_append {cs body : List Char} (h : stringBody? cs = some body) :
    stringBody? (cs ++ '\n' :: ds) = some body := by
  fun_induction stringBody? cs generalizing body with
  | case1 => cases h
  | case2 => cases h
  | case3 cs => exact h
  | case4 c cs ih =>
    obtain ⟨b, hb, rfl⟩ := Option.map_eq_some_iff.1 h
    simp [stringBody?, ih hb]
  | case5 c cs h1 h2 h3 ih =>
    obtain ⟨b, hb, rfl⟩ := Option.map_eq_some_iff.1 h
    rw [cons_append, stringBody?, ih hb]
    · rfl
    · intro _ hnil
      simp at hnil
    · exact h2
    · intro _ _ hc _
      cases cs with
      | nil => exact h1 hc rfl
      | cons d cs => exact h3 d cs hc rfl

theorem operator?_append (c : Char) (cs : List Char) :
    operator? (c :: (cs ++ '\n' :: ds)) = operator? (c :: cs) := by
  cases cs with
  | nil => simp [operator?, operatorSpellings, find?_cons, List.isPrefixOf]
  | cons d cs => simp [operator?, operatorSpellings, find?_cons, List.isPrefixOf]

/-- What stands at the front is not changed by what comes on a new line, unless it is an open string. -/
theorem step_append {prev : Option Token} {c : Char} {cs : List Char}
    (h : step prev c cs ≠ .fault .openString true) :
    step prev c (cs ++ '\n' :: ds) = step prev c cs := by
  have hdigit : isDigit '\n' = false := by decide
  have hname : isNameChar '\n' = false := by decide
  have hhead : (cs ++ '\n' :: ds).head?.any isDigit = cs.head?.any isDigit := by
    cases cs with
    | nil => simp [hdigit]
    | cons c cs => rfl
  have hnumber : ∀ sign ys, number sign (ys ++ '\n' :: ds) = number sign ys := by
    intro sign ys
    simp only [number, numberRun_append]
  have hgap : (cs ++ '\n' :: ds).takeWhile (· ≠ '\n') = cs.takeWhile (· ≠ '\n') :=
    takeWhile_append_newline ds (by decide) cs
  have hdigits := hnumber [] (c :: cs)
  have hword := takeWhile_append_newline ds hname (c :: cs)
  rw [cons_append] at hdigits hword
  have hstring : c = '"' → stringBody? (cs ++ '\n' :: ds) = stringBody? cs := by
    rintro rfl
    cases hbody : stringBody? cs with
    | none =>
      have hblank : isBlank '"' = false := by decide
      exact absurd (by simp [step, hblank, hbody]) h
    | some body => exact stringBody?_append ds hbody
  simp only [step, hgap, hdigits, hhead, hnumber, hword, operator?_append]
  split
  · rfl
  split
  · rfl
  split
  · next hquote => rw [hstring hquote]
  · rfl

end NewLine

/-! ## Whole texts -/

/-- Which tokens some characters are, behind a token and from a position on, and where they end. -/
inductive Scanned : Option Token → Pos → List Char → List Token → Pos → Prop
  | nil {prev pos} : Scanned prev pos [] [] pos
  | gap {prev pos c cs text ts stop} : step prev c cs = .gap text →
      Scanned prev (pos.advance text) ((c :: cs).drop text.length) ts stop →
      Scanned prev pos (c :: cs) ts stop
  | token {prev pos c cs kind text ts stop} : step prev c cs = .token kind text →
      Scanned (some ⟨kind, Text.ofChars text, pos⟩) (pos.advance text) ((c :: cs).drop text.length) ts stop →
      Scanned prev pos (c :: cs) (⟨kind, Text.ofChars text, pos⟩ :: ts) stop

/-- Every step leaves fewer characters. -/
theorem length_drop_text_lt {prev : Option Token} {c : Char} {cs text : List Char}
    (h : (step prev c cs).text? = some text) : ((c :: cs).drop text.length).length < (c :: cs).length := by
  have hpos := List.length_pos_iff.2 (step_text h).1
  rw [length_drop, length_cons]
  omega

/-- The scanner is given more fuel than there are characters, and every step takes one. -/
theorem scan_iff {fuel : Nat} {acc : List Token} {pos : Pos} {cs : List Char} (hfuel : cs.length < fuel)
    {toks : Tokens} : scan fuel acc pos cs = .ok toks ↔
      ∃ ts, toks.items = acc.reverse ++ ts ∧ Scanned acc.head? pos cs ts toks.stop := by
  induction fuel generalizing acc pos cs with
  | zero => cases hfuel
  | succ fuel ih =>
    cases cs with
    | nil =>
      rw [scan]
      constructor
      · intro h
        obtain rfl := Except.ok.inj h
        exact ⟨[], (append_nil _).symm, .nil⟩
      · rintro ⟨ts, hitems, hscan⟩
        cases hscan
        cases toks
        simp_all
    | cons c cs =>
      rw [scan]
      have hshort : ∀ text, (step acc.head? c cs).text? = some text →
          ((c :: cs).drop text.length).length < fuel := fun text h =>
        Nat.lt_of_lt_of_le (length_drop_text_lt h) (Nat.le_of_lt_succ hfuel)
      cases hstep : step acc.head? c cs with
      | gap text =>
        rw [ih (hshort text (by rw [hstep]; rfl))]
        refine exists_congr fun ts => and_congr_right fun _ => ⟨.gap hstep, fun h => ?_⟩
        cases h with
        | gap hstep' h =>
          obtain rfl := Front.gap.inj (hstep.symm.trans hstep')
          exact h
        | token hstep' _ => cases hstep.symm.trans hstep'
      | token kind text =>
        rw [ih (hshort text (by rw [hstep]; rfl))]
        constructor
        · rintro ⟨ts, hitems, h⟩
          exact ⟨_ :: ts, by simpa using hitems, .token hstep h⟩
        · rintro ⟨ts, hitems, h⟩
          cases h with
          | gap hstep' _ => cases hstep.symm.trans hstep'
          | token hstep' h =>
            obtain ⟨rfl, rfl⟩ := Front.token.inj (hstep.symm.trans hstep')
            exact ⟨_, by simpa using hitems, h⟩
      | fault problem atEnd =>
        refine ⟨nofun, ?_⟩
        rintro ⟨ts, -, h⟩
        cases h with
        | gap hstep' _ => cases hstep.symm.trans hstep'
        | token hstep' _ => cases hstep.symm.trans hstep'

/-- **The lexer finds what the relation describes.** -/
theorem tokenize_iff {src : Text} {ts : Tokens} :
    tokenize src = .ok ts ↔ Scanned none {} src.chars ts.items ts.stop := by
  rw [tokenize, scan_iff (Nat.lt_succ_self _)]
  simp

section NewLine

variable {prev : Option Token} {pos stop stop' : Pos} {cs ds : List Char} {ts : List Token}

theorem drop_append_newline {c : Char} {text : List Char} (h : (step prev c cs).text? = some text) :
    (c :: (cs ++ '\n' :: ds)).drop text.length = (c :: cs).drop text.length ++ '\n' :: ds := by
  rw [← cons_append, drop_append_of_le_length (step_text h).2.length_le]

/-- What was scanned stays as it is if a new line is added, and scanning goes on behind it. -/
theorem Scanned.append {us : List Token} (h : Scanned prev pos cs ts stop)
    (hmore : Scanned (ts.getLast?.or prev) stop ('\n' :: ds) us stop') :
    Scanned prev pos (cs ++ '\n' :: ds) (ts ++ us) stop' := by
  induction h with
  | nil => exact hmore
  | gap hstep _ ih =>
    have htext := congrArg Front.text? hstep
    rw [cons_append]
    refine .gap ((step_append ds (by simp [hstep])).trans hstep) ?_
    rw [drop_append_newline htext]
    exact ih hmore
  | @token prev pos c cs kind text ts stop hstep _ ih =>
    have htext := congrArg Front.text? hstep
    rw [cons_append, cons_append]
    refine .token ((step_append ds (by simp [hstep])).trans hstep) ?_
    rw [drop_append_newline htext]
    refine ih ?_
    rw [getLast?_cons] at hmore
    cases hlast : ts.getLast? with
    | none => simpa [hlast] using hmore
    | some t => simpa [hlast] using hmore

/-- The tokens of a text are the first ones if a new line is added. -/
theorem Scanned.split {ws : List Token} (h : Scanned prev pos cs ts stop)
    (h' : Scanned prev pos (cs ++ '\n' :: ds) ws stop') : ∃ us, ws = ts ++ us := by
  induction h generalizing ws with
  | nil => exact ⟨ws, rfl⟩
  | gap hstep _ ih =>
    have htext := congrArg Front.text? hstep
    have hsame := (step_append ds (by simp [hstep])).trans hstep
    cases h' with
    | gap hstep' h' =>
      obtain rfl := Front.gap.inj (hsame.symm.trans hstep')
      exact ih (drop_append_newline htext ▸ h')
    | token hstep' _ => cases hsame.symm.trans hstep'
  | token hstep _ ih =>
    have htext := congrArg Front.text? hstep
    have hsame := (step_append ds (by simp [hstep])).trans hstep
    cases h' with
    | gap hstep' _ => cases hsame.symm.trans hstep'
    | token hstep' h' =>
      obtain ⟨rfl, rfl⟩ := Front.token.inj (hsame.symm.trans hstep')
      obtain ⟨us, rfl⟩ := ih (drop_append_newline htext ▸ h')
      exact ⟨us, rfl⟩

end NewLine

end TinyScript.Syntax
