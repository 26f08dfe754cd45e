import TinyScript.Syntax.Printer
import TinyScript.Proofs.Syntax.Acceptance
import TinyScript.Proofs.Syntax.Codec
import TinyScript.Proofs.Syntax.Lexing
import TinyScript.Proofs.Syntax.Node

/-!
# Printed trees parse back

`Printable` is the fragment of trees whose source text can be read again, and `parse_print` says that parsing the text
of such a tree gives the tree. The parser accepts exactly the grammar, so it is enough that the grammar derives the
tree from the tokens of its text. `Spells t P` says that the text `t`, in front of whatever ends it, is scanned to
tokens of which `P` holds. The induction is over the tree (`Printable.spells`).
-/

namespace TinyScript

namespace Text

theorem chars_ofString_append (s : String) (t : Text) : (ofString s ++ t).chars = s.toList ++ t.chars :=
  chars_ofChars_append s.toList t

theorem join_cons_cons (sep t u : Text) (ts : List Text) :
    join sep (t :: u :: ts) = t ++ (sep ++ join sep (u :: ts)) := by
  rw [join, join, List.map_cons, ← append_assoc sep]
  rfl

end Text

namespace Syntax

open Text (isLetter isDigit isBlank)
open Grammar

/-! ## The fragment -/

/-- Whether an expression is one of the forms that begin with a keyword, which nothing closes. -/
def Expr.isOpen : Expr → Bool
  | .letIn .. | .ifElse .. | .forIn .. | .reduce .. | .lambda .. | .define .. => true
  | _ => false

/-- Whether an expression is a number without a sign. -/
def Expr.isUnsigned : Expr → Bool
  | .lit .number raw => raw.chars.head? ≠ some '-'
  | _ => false

/-- A name: a symbol of the lexer that is no keyword. -/
def IsName (n : Text) : Prop := TokenText .symbol n ∧ isKeyword n = false

/-- The trees whose source text can be read again. -/
inductive Printable : Expr → Prop
  | number {raw} : TokenText .decimal raw ∨ TokenText .float raw → Printable (.lit .number raw)
  | string {raw} : TokenText .string raw → Printable (.lit .string raw)
  | truth {raw} : raw = "true" ∨ raw = "false" → Printable (.lit .bool raw)
  | nil : Printable (.lit .nil "nil")
  | unit : Printable (.lit .unit "()")
  | lookup {n} : IsName n → Printable (.lookup n)
  | bin {op l r} : (∀ n, op ≠ .other n) → l.isOpen = false → r.isOpen = false →
      Printable l → Printable r → Printable (.bin op l r)
  | unary {op r} : (∀ n, op ≠ .other n) → r.isOpen = false → (op = .neg → r.isUnsigned = false) →
      Printable r → Printable (.unary op r)
  | letIn {assigns body} : assigns ≠ [] → (∀ a ∈ assigns, IsName a.1) → (∀ a ∈ assigns, Printable a.2) →
      Printable body → Printable (.letIn assigns body)
  | ifElse {conds other} : conds ≠ [] → (∀ c ∈ conds, Printable c.1) → (∀ c ∈ conds, Printable c.2) →
      Printable other → Printable (.ifElse conds other)
  | call {callee args} : IsName callee → (∀ a ∈ args, Printable a) → Printable (.call callee args)
  | list {items} : (∀ a ∈ items, Printable a) → Printable (.list items)
  | dict {entries} : (∀ e ∈ entries, TokenText .symbol e.1) → (∀ e ∈ entries, Printable e.2) →
      Printable (.dict entries)
  | lambda {params body} : (∀ p ∈ params, IsName p) → Printable body → Printable (.lambda params body)
  | forIn {handle iter filter body} : IsName handle → Printable iter → (∀ f ∈ filter, Printable f) →
      Printable body → Printable (.forIn handle iter filter body)
  | reduce {carry init handle iter filter body} : IsName carry → Printable init → IsName handle →
      Printable iter → (∀ f ∈ filter, Printable f) → Printable body →
      Printable (.reduce carry init handle iter filter body)
  | define {name params body} : IsName name → (∀ p ∈ params, IsName p) → Printable body →
      Printable (.define name params body)

/-- The text of a literal, as the lexer finds it. -/
def IsLiteral : LitKind → Text → Prop
  | .number, raw => TokenText .decimal raw ∨ TokenText .float raw
  | .string, raw => TokenText .string raw
  | .bool, raw => raw = "true" ∨ raw = "false"
  | .nil, raw => raw = "nil"
  | .unit, raw => raw = "()"
  | .other _, _ => False

/-- Whether an expression is an operation. -/
def Expr.isOperation : Expr → Bool
  | .bin .. | .unary .. => true
  | _ => false

/-- A node whose literal, names and operator can be written in a source. -/
def Expr.Legible : Expr → Prop
  | .lit kind raw => IsLiteral kind raw
  | .bin op _ _ => ∀ n, op ≠ .other n
  | .unary op _ => ∀ n, op ≠ .other n
  | .letIn assigns _ => assigns ≠ [] ∧ ∀ a ∈ assigns, IsName a.1
  | .ifElse conds _ => conds ≠ []
  | .missing => False
  | x => ∀ n ∈ x.names, IsName n

/-- A node whose operands are closed, and whose minus sign is not taken for the sign of a number. -/
def Expr.Closed : Expr → Prop
  | .bin _ l r => l.isOpen = false ∧ r.isOpen = false
  | .unary op r => r.isOpen = false ∧ (op = .neg → r.isUnsigned = false)
  | _ => True

/-- A node that is printed as it has to be written: it is closed, and its keys need no quotes. -/
def Expr.Faithful (x : Expr) : Prop := x.Closed ∧ ∀ k ∈ x.keys, TokenText .symbol k

theorem Printable.all {x : Expr} (h : Printable x) : x.All fun y => y.Legible ∧ y.Faithful := by
  induction h with
  | number h => exact .node ⟨h, trivial, nofun⟩ nofun
  | string h => exact .node ⟨h, trivial, nofun⟩ nofun
  | truth h => exact .node ⟨h.imp (congrArg _) (congrArg _), trivial, nofun⟩ nofun
  | nil | unit => exact .node ⟨rfl, trivial, nofun⟩ nofun
  | lookup h => exact .node ⟨List.forall_mem_singleton.2 h, trivial, nofun⟩ nofun
  | bin hop hl hr _ _ ihl ihr =>
    exact .node ⟨hop, ⟨hl, hr⟩, nofun⟩ (List.forall_mem_cons.2 ⟨ihl, List.forall_mem_singleton.2 ihr⟩)
  | unary hop hr hneg _ ih => exact .node ⟨hop, ⟨hr, hneg⟩, nofun⟩ (List.forall_mem_singleton.2 ih)
  | letIn hne hnames _ _ ihs ihb =>
    refine .node ⟨⟨hne, hnames⟩, trivial, nofun⟩ (List.forall_mem_append.2 ⟨List.forall_mem_map.2 ihs, ?_⟩)
    exact List.forall_mem_singleton.2 ihb
  | ifElse hne _ _ _ ihc iht ihe =>
    refine .node ⟨hne, trivial, nofun⟩ (List.forall_mem_append.2 ⟨?_, List.forall_mem_singleton.2 ihe⟩)
    exact List.forall_mem_append.2 ⟨List.forall_mem_map.2 ihc, List.forall_mem_map.2 iht⟩
  | call hn _ ih => exact .node ⟨List.forall_mem_singleton.2 hn, trivial, nofun⟩ ih
  | list _ ih => exact .node ⟨nofun, trivial, nofun⟩ ih
  | dict hkeys _ ih => exact .node ⟨nofun, trivial, List.forall_mem_map.2 hkeys⟩ (List.forall_mem_map.2 ih)
  | lambda hps _ ih => exact .node ⟨hps, trivial, nofun⟩ (List.forall_mem_singleton.2 ih)
  | forIn hn _ _ _ ihi ihf ihb =>
    refine .node ⟨List.forall_mem_singleton.2 hn, trivial, nofun⟩ (List.forall_mem_cons.2 ⟨ihi, ?_⟩)
    refine List.forall_mem_append.2 ⟨fun f hf => ihf f (Option.mem_toList.1 hf), ?_⟩
    exact List.forall_mem_singleton.2 ihb
  | reduce hc _ hn _ _ _ ihs ihi ihf ihb =>
    refine .node ⟨List.forall_mem_cons.2 ⟨hc, List.forall_mem_singleton.2 hn⟩, trivial, nofun⟩
      (List.forall_mem_cons.2 ⟨ihs, List.forall_mem_cons.2 ⟨ihi, ?_⟩⟩)
    refine List.forall_mem_append.2 ⟨fun f hf => ihf f (Option.mem_toList.1 hf), ?_⟩
    exact List.forall_mem_singleton.2 ihb
  | define hn hps _ ih =>
    exact .node ⟨List.forall_mem_cons.2 ⟨hn, hps⟩, trivial, nofun⟩ (List.forall_mem_singleton.2 ih)

/-! ## What printed text spells -/

/-- The characters that can stand behind a printed expression. -/
def enders : List Char := [' ', ',', ')', ']', '}', '\n']

/-- A text that ends an expression in front of it. -/
def Ends (t : Text) : Prop := ∀ c ∈ t.chars.head?, c ∈ enders

theorem ends_empty : Ends Text.empty := nofun

theorem ends_append {s : String} (h : s.toList.head?.any (· ∈ enders)) (t : Text) : Ends (s ++ t) := by
  intro c hc
  rw [Text.chars_ofString_append] at hc
  cases hs : s.toList with
  | nil =>
    rw [hs] at h
    cases h
  | cons d ds =>
    rw [hs] at h hc
    obtain rfl : d = c := Option.some.inj hc
    exact of_decide_eq_true h

theorem Ends.not_name {t : Text} (h : Ends t) : ∀ c ∈ t.chars.head?, isNameChar c = false := by
  have hall : (enders.all fun c => !isNameChar c) = true := by decide
  intro c hc
  simpa using List.all_eq_true.1 hall c (h c hc)

theorem Ends.not_number {t : Text} (h : Ends t) : ∀ c ∈ t.chars.head?, continuesNumber c = false := by
  have hall : (enders.all fun c => !continuesNumber c) = true := by decide
  intro c hc
  simpa using List.all_eq_true.1 hall c (h c hc)

/-- The text is scanned to tokens of which `P` holds, in front of anything that ends it, where no operand
ends before it; an operand ends behind it. -/
def Spells (t : Text) (P : List Token → Prop) : Prop :=
  ∀ ⦃rest : Text⦄ ⦃Q : List Token → Prop⦄, Ends rest →
    Lexes true rest.chars (fun us => ∀ ts, P ts → Q (ts ++ us)) → Lexes false (t ++ rest).chars Q

theorem Spells.mono {t : Text} {P P' : List Token → Prop} (h : Spells t P) (hP : ∀ ts, P ts → P' ts) :
    Spells t P' := by
  intro rest Q hrest hlex
  exact h hrest (hlex.mono fun us hus ts hts => hus ts (hP ts hts))

section Pieces

variable {after : Bool} {Q : List Token → Prop} {rest : Text} {s : String}

/-- A mark. -/
theorem lexes_mark {c : Char} {kind : TokenKind} (hs : s.toList = [c]) (hc : punctuation? c = some kind)
    (h : Lexes (endsWith kind s) rest.chars fun us => ∀ t, Mark kind t → Q (t :: us)) :
    Lexes after (s ++ rest).chars Q := by
  rw [Text.ofString, hs] at h
  rw [Text.chars_ofString_append, hs]
  exact Lexes.mark hc h

/-- A mark and a space. -/
theorem lexes_mark_space {c : Char} {kind : TokenKind} (hs : s.toList = [c, ' ']) (hc : punctuation? c = some kind)
    (h : Lexes (endsWith kind (Text.ofChars [c])) rest.chars fun us => ∀ t, Mark kind t → Q (t :: us)) :
    Lexes after (s ++ rest).chars Q := by
  rw [Text.chars_ofString_append, hs]
  exact Lexes.mark hc h.space

/-- A keyword and a space. -/
theorem lexes_word (w : String) (hs : s.toList = w.toList ++ [' ']) (hw : isSymbol w.toList)
    (hkey : endsWith .symbol w = false)
    (h : Lexes false rest.chars fun us => ∀ t, Word w t → Q (t :: us)) : Lexes after (s ++ rest).chars Q := by
  rw [Text.chars_ofString_append, hs, List.append_assoc]
  refine Lexes.symbol hw (by rintro _ ⟨⟩; decide) ?_
  rw [show endsWith .symbol (Text.ofChars w.toList) = false from hkey]
  exact Lexes.space (h.mono fun us hus t hkind htext => hus t ⟨hkind, htext⟩)

/-- A keyword between spaces. -/
theorem lexes_spaced_word (w : String) (hs : s.toList = ' ' :: (w.toList ++ [' '])) (hw : isSymbol w.toList)
    (hkey : endsWith .symbol w = false)
    (h : Lexes false rest.chars fun us => ∀ t, Word w t → Q (t :: us)) : Lexes after (s ++ rest).chars Q := by
  rw [Text.chars_ofString_append, hs, List.cons_append, List.append_assoc]
  refine Lexes.space (Lexes.symbol hw (by rintro _ ⟨⟩; decide) ?_)
  rw [show endsWith .symbol (Text.ofChars w.toList) = false from hkey]
  exact Lexes.space (h.mono fun us hus t hkind htext => hus t ⟨hkind, htext⟩)

/-- An operator sign between spaces. -/
theorem lexes_spaced_sign (op : String) (hs : s.toList = ' ' :: (op.toList ++ [' ']))
    (hop : op.toList ∈ operatorSpellings)
    (h : Lexes false rest.chars fun us => ∀ t, Sign op t → Q (t :: us)) : Lexes after (s ++ rest).chars Q := by
  rw [Text.chars_ofString_append, hs, List.cons_append, List.append_assoc]
  refine Lexes.space (Lexes.operator hop ?_)
  exact h.mono fun us hus t hkind htext => hus t ⟨hkind, htext⟩

/-- A name in front of something that does not continue it. -/
theorem IsName.lexes {n : Text} (hn : IsName n)
    (hrest : ∀ c ∈ rest.chars.head?, isNameChar c = false)
    (h : Lexes true rest.chars fun us => ∀ t, Ident t → t.text = n → Q (t :: us)) :
    Lexes after (n ++ rest).chars Q := by
  obtain ⟨cs, hcs, rfl⟩ := hn.1.symbol
  rw [Text.chars_ofChars_append]
  refine Lexes.symbol hcs hrest ?_
  have hends : endsWith .symbol (Text.ofChars cs) := by simp [endsWith, Token.endsOperand, hn.2]
  rw [hends]
  exact h.mono fun us hus t hkind htext => hus t ⟨hkind, by rw [htext, hn.2]⟩ htext

theorem IsName.spells {n : Text} (hn : IsName n) : Spells n fun ts => Name ts n := by
  intro rest Q hrest h
  refine hn.lexes hrest.not_name (h.mono fun us hus t ht htext => ?_)
  exact hus [t] (htext ▸ .mk ht)

/-! ## Lists -/

/-- What is written with commas between, and nothing else, is listed. -/
theorem Spells.join {α : Type} {P : Phrase α} {f : α → Text} {xs : List α} (hne : xs ≠ [])
    (h : ∀ a ∈ xs, Spells (f a) fun ts => P ts a) :
    Spells (Text.join ", " (xs.map f)) fun ts => Separated (Mark .comma) P ts xs := by
  induction xs with
  | nil => exact absurd rfl hne
  | cons a xs ih =>
    have ha := h a List.mem_cons_self
    cases xs with
    | nil =>
      have hone : Text.join ", " ([a].map f) = f a := Text.append_empty _
      rw [hone]
      exact ha.mono fun _ => .one
    | cons b xs =>
      have ih := ih (List.cons_ne_nil _ _) fun a ha => h a (List.mem_cons_of_mem _ ha)
      rw [List.map_cons] at ih
      intro rest Q hrest hlex
      simp only [List.map_cons, Text.join_cons_cons, Text.append_assoc]
      refine ha (ends_append rfl _) ?_
      refine lexes_mark_space rfl rfl (ih hrest (hlex.mono ?_))
      intro us hus ts hts t ht vs hvs
      rw [← List.cons_append, ← List.append_assoc]
      exact hus _ (.cons hvs ht hts)

/-- A list that may be empty, in front of what closes it. -/
theorem lexes_listed {α : Type} {P : Phrase α} {f : α → Text} {xs : List α}
    (h : ∀ a ∈ xs, Spells (f a) fun ts => P ts a) (hrest : Ends rest)
    (hclose : ∀ after, Lexes after rest.chars fun us => ∀ ts, Listed P ts xs → Q (ts ++ us)) :
    Lexes false (Text.join ", " (xs.map f) ++ rest).chars Q := by
  cases xs with
  | nil => exact (hclose false).mono fun us hus => hus [] .none
  | cons a xs =>
    exact Spells.join (List.cons_ne_nil a xs) h hrest
      ((hclose true).mono fun us hus ts hts => hus ts (.some hts))

theorem printItems_eq (items : List Expr) : printItems items = items.map Expr.print :=
  eq_map_of_cons rfl (fun _ _ => rfl) items

theorem printAssigns_eq (assigns : List (Text × Expr)) :
    printAssigns assigns = assigns.map fun a => (a.1 ++ " = " ++ a.2.print : Text) :=
  eq_map_of_cons rfl (fun _ _ => rfl) assigns

theorem printEntries_eq (entries : List (Text × Expr)) :
    printEntries entries = entries.map fun e => (e.1 ++ ": " ++ e.2.print : Text) :=
  eq_map_of_cons rfl (fun _ _ => rfl) entries

theorem paren_not_name (t : Text) : ∀ c ∈ ("(" ++ t : Text).chars.head?, isNameChar c = false := by
  intro c hc
  rw [Text.chars_ofString_append] at hc
  obtain rfl : '(' = c := Option.some.inj hc
  decide

theorem lexes_params {ps : List Text} (hps : ∀ p ∈ ps, IsName p)
    (h : Lexes true rest.chars fun us => ∀ ts, Params ts ps → Q (ts ++ us)) :
    Lexes after ("(" ++ (Text.join ", " ps ++ (")" ++ rest))).chars Q := by
  have hnames : ∀ p ∈ ps, Spells (id p) fun ts => Name ts p := fun p hp => (hps p hp).spells
  refine lexes_mark rfl rfl ?_
  rw [← List.map_id ps]
  refine lexes_listed hnames (ends_append rfl _) fun after => ?_
  refine lexes_mark rfl rfl ?_
  refine h.mono ?_
  intro us hus u hu ts hts t ht
  simpa using hus _ (.mk ht hts hu)

end Pieces

/-! ## Parts of expressions

What the tokens of an expression are is left open: `E` says it. -/

section Parts

variable {E : Phrase Expr} {Q : List Token → Prop} {rest : Text}

theorem spells_assign {a : Text × Expr} (hn : IsName a.1) (h : Spells a.2.print fun ts => E ts a.2) :
    Spells (a.1 ++ " = " ++ a.2.print) fun ts => Assign E ts a := by
  intro rest Q hrest hlex
  simp only [Text.append_assoc]
  refine hn.lexes (ends_append rfl _).not_name ?_
  refine lexes_spaced_sign "=" rfl (by decide) ?_
  refine h hrest (hlex.mono ?_)
  intro us hus ts hts t ht n hn hname
  have hassign : Assign E (n :: t :: ts) (n.text, a.2) := .mk hn ht hts
  rw [hname] at hassign
  exact hus _ hassign

theorem spells_entry {e : Text × Expr} (hk : TokenText .symbol e.1) (h : Spells e.2.print fun ts => E ts e.2) :
    Spells (e.1 ++ ": " ++ e.2.print) fun ts => Grammar.Entry E ts e := by
  obtain ⟨cs, hcs, hkey⟩ := hk.symbol
  intro rest Q hrest hlex
  simp only [Text.append_assoc]
  simp only [hkey, Text.chars_ofChars_append, Text.chars_ofString_append, String.reduceToList,
    List.cons_append, List.nil_append]
  refine Lexes.symbol hcs (by rintro c ⟨⟩; decide) ?_
  refine Lexes.mark rfl ?_
  refine Lexes.space (h hrest (hlex.mono ?_))
  intro us hus ts hts u hu t hkind htext
  have hentry : Grammar.Entry E (t :: u :: ts) (t.text, e.2) := .symbol hkind hu hts
  rw [htext, ← hkey] at hentry
  exact hus _ hentry

/-- The branches of an `if`, behind the word in front of the first. -/
theorem exists_spells_conds {conds : List (Expr × Expr)} (hne : conds ≠ [])
    (hc : ∀ c ∈ conds, Spells c.1.print fun ts => E ts c.1)
    (ht : ∀ c ∈ conds, Spells c.2.print fun ts => E ts c.2) :
    ∃ t : Text, (∀ word, printConds word conds = word ++ t) ∧
      Spells t fun ts => Separated (Word "elif") (Branch E) ts conds := by
  induction conds with
  | nil => exact absurd rfl hne
  | cons c conds ih =>
    have hif := hc c List.mem_cons_self
    have hthen := ht c List.mem_cons_self
    have hbranch : Spells (c.1.print ++ (" then " ++ c.2.print)) fun ts => Branch E ts c := by
      intro rest Q hrest hlex
      simp only [Text.append_assoc]
      refine hif (ends_append rfl _) ?_
      refine lexes_spaced_word "then" rfl rfl rfl (hthen hrest (hlex.mono ?_))
      intro us hus ts hts t htext vs hvs
      simpa using hus _ (.mk hvs htext hts)
    cases conds with
    | nil =>
      refine ⟨_, fun word => ?_, hbranch.mono fun _ => .one⟩
      simp only [printConds, Text.append_assoc, Text.append_empty]
    | cons d conds =>
      obtain ⟨t, hprint, hspells⟩ := ih (List.cons_ne_nil _ _)
        (fun c hmem => hc c (List.mem_cons_of_mem _ hmem)) fun c hmem => ht c (List.mem_cons_of_mem _ hmem)
      refine ⟨c.1.print ++ (" then " ++ c.2.print) ++ (" elif " ++ t), fun word => ?_, ?_⟩
      · rw [printConds, hprint]
        simp only [Text.append_assoc]
      · intro rest Q hrest hlex
        rw [Text.append_assoc, Text.append_assoc " elif "]
        refine hbranch (ends_append rfl _) ?_
        refine lexes_spaced_word "elif" rfl rfl rfl (hspells hrest (hlex.mono ?_))
        intro us hus ts hts t ht vs hvs
        rw [← List.cons_append, ← List.append_assoc]
        exact hus _ (.cons hvs ht hts)

/-- The filter of a loop, between the collection and the body. -/
theorem lexes_filter {filter : Option Expr} (h : ∀ f ∈ filter, Spells f.print fun ts => E ts f)
    (hrest : Ends rest)
    (hlex : Lexes true rest.chars fun us => ∀ ts, Filter E ts filter → Q (ts ++ us)) :
    Lexes true (printFilter filter ++ rest).chars Q := by
  cases filter with
  | none => exact hlex.mono fun us hus => hus [] .none
  | some f =>
    rw [printFilter, Text.append_assoc]
    refine lexes_spaced_word "if" rfl rfl rfl (h f rfl hrest (hlex.mono ?_))
    intro us hus ts hts t ht
    exact hus _ (.some ht hts)

theorem ends_filter (filter : Option Expr) (hrest : Ends rest) : Ends (printFilter filter ++ rest) := by
  cases filter with
  | none => exact hrest
  | some f =>
    rw [printFilter, Text.append_assoc]
    exact ends_append rfl _

/-- A loop, behind the word `for`. -/
theorem lexes_loop {handle : Text} {iter : Expr} {filter : Option Expr} {body : Expr} (hn : IsName handle)
    (hi : Spells iter.print fun ts => E ts iter) (hf : ∀ f ∈ filter, Spells f.print fun ts => E ts f)
    (hb : Spells body.print fun ts => E ts body) (hrest : Ends rest)
    (hlex : Lexes true rest.chars fun us => ∀ ts, Grammar.Loop E ts ⟨handle, iter, filter, body⟩ →
      Q (ts ++ us)) : Lexes false
        (handle ++ (" in " ++ (iter.print ++ (printFilter filter ++ (" do " ++ (body.print ++ rest)))))).chars Q := by
  refine hn.lexes (ends_append rfl _).not_name ?_
  refine lexes_spaced_word "in" rfl rfl rfl ?_
  refine hi (ends_filter filter (ends_append rfl _)) ?_
  refine lexes_filter hf (ends_append rfl _) ?_
  refine lexes_spaced_word "do" rfl rfl rfl (hb hrest (hlex.mono ?_))
  intro us hus vs hvs u hu fs hfs ts hts t ht n hn hname
  have hloop := Grammar.Loop.mk hn ht hts hfs hu hvs
  rw [hname] at hloop
  simpa using hus _ hloop

/-- A definition, whatever stands before it. -/
theorem lexes_define {d : Def} (hn : IsName d.name) (hps : ∀ p ∈ d.params, IsName p)
    (hb : Spells d.body.print fun ts => E ts d.body) {after : Bool} {rest : Text} (hrest : Ends rest)
    {Q : List Token → Prop}
    (hlex : Lexes true rest.chars fun us => ∀ ts, Definition E ts d → Q (ts ++ us)) :
    Lexes after (d.print ++ rest).chars Q := by
  have hsplit : (") = " : Text) = ")" ++ " = " := rfl
  simp only [Def.print, Def.toExpr, Expr.print, hsplit, Text.append_assoc]
  refine lexes_word "def" rfl rfl rfl (hn.lexes (paren_not_name _) (lexes_params hps ?_))
  refine lexes_spaced_sign "=" rfl (by decide) ?_
  refine hb hrest (hlex.mono ?_)
  intro us hus ts hts u hu ps hps n hn hname t ht
  have hdef := Definition.mk ht hn hps hu hts
  rw [hname] at hdef
  simpa using hus _ hdef

end Parts

/-! ## Nodes -/

/-- A token that is an expression by itself. -/
inductive Leaf : Token → Expr → Prop
  | number {t} : Mark .decimal t ∨ Mark .float t → Leaf t (.lit .number t.text)
  | string {t} : Mark .string t → Leaf t (.lit .string t.text)
  | truth {t} : Word "true" t ∨ Word "false" t → Leaf t (.lit .bool t.text)
  | nil {t} : Word "nil" t → Leaf t (.lit .nil t.text)
  | lookup {t} : Ident t → Leaf t (.lookup t.text)

/-- A node that is no operation, as it is printed. -/
inductive Written (E : Phrase Expr) : Phrase Expr
  | leaf {t x} : Leaf t x → Written E [t] x
  | unit {t u} : Mark .leftParen t → Mark .rightParen u → Written E [t, u] (.lit .unit "()")
  | call {n t ts u xs} : Ident n → Mark .leftParen t → Listed E ts xs → Mark .rightParen u →
      Written E (n :: t :: (ts ++ [u])) (.call n.text xs)
  | list {t ts u xs} : Mark .leftSquare t → Listed E ts xs → Mark .rightSquare u →
      Written E (t :: (ts ++ [u])) (.list xs)
  | dict {t ts u es} : Mark .leftCurly t → Listed (Grammar.Entry E) ts es → Mark .rightCurly u →
      Written E (t :: (ts ++ [u])) (.dict es)
  | letIn {t ts u us assigns body} : Word "let" t → Separated (Mark .comma) (Assign E) ts assigns →
      Word "in" u → E us body → Written E (t :: (ts ++ u :: us)) (.letIn assigns body)
  | ifElse {t ts u us conds other} : Word "if" t → Separated (Word "elif") (Branch E) ts conds →
      Word "else" u → E us other → Written E (t :: (ts ++ u :: us)) (.ifElse conds other)
  | forIn {t ts l} : Word "for" t → Grammar.Loop E ts l →
      Written E (t :: ts) (.forIn l.handle l.iter l.filter l.body)
  | reduce {t n u ts v us init l} : Word "reduce" t → Ident n → Sign "=" u → E ts init → Word "for" v →
      Grammar.Loop E us l →
      Written E (t :: n :: u :: (ts ++ v :: us)) (.reduce n.text init l.handle l.iter l.filter l.body)
  | lambda {t ps u ts names body} : Word "fn" t → Params ps names → Sign "=>" u → E ts body →
      Written E (t :: (ps ++ u :: ts)) (.lambda names body)
  | define {ts d} : Definition E ts d → Written E ts d.toExpr

/-- An operation, as it is printed. -/
inductive Bracketed (E : Phrase Expr) : Phrase Expr
  | bin {p ls t rs u op l r} : Mark .leftParen p → E ls l → Joins op.precedence op t → E rs r →
      Mark .rightParen u → Bracketed E (p :: (ls ++ t :: (rs ++ [u]))) (.bin op l r)
  | unary {p t rs u op r} : Mark .leftParen p → Sign op.symbol t → E rs r → Mark .rightParen u →
      Bracketed E (p :: t :: (rs ++ [u])) (.unary op r)

section Nodes

variable {E : Phrase Expr}

/-- A text that does not begin with an equals sign, nor with a digit unless it may. -/
def Begins (digit : Bool) (t : Text) : Prop :=
  ∃ c cs, t.chars = c :: cs ∧ c ≠ '=' ∧ (digit = false → isDigit c = false)

theorem begins_append {digit : Bool} {s : String}
    (h : s.toList.head?.any (fun c => c ≠ '=' && !isDigit c)) (t : Text) : Begins digit (s ++ t) := by
  cases hs : s.toList with
  | nil =>
    rw [hs] at h
    cases h
  | cons c cs =>
    rw [hs, List.head?_cons, Option.any_some, Bool.and_eq_true, decide_eq_true_eq, Bool.not_eq_true'] at h
    exact ⟨c, cs ++ t.chars, by rw [Text.chars_ofString_append, hs, List.cons_append], h.1, fun _ => h.2⟩

theorem TokenText.begins {digit : Bool} {n : Text} (h : TokenText .symbol n) (t : Text) :
    Begins digit (n ++ t) := by
  obtain ⟨cs, hcs, rfl⟩ := h.symbol
  cases cs with
  | nil => cases hcs
  | cons c cs =>
    simp only [isSymbol, Bool.and_eq_true, Bool.not_eq_true'] at hcs
    refine ⟨c, cs ++ t.chars, Text.chars_ofChars_append _ _, ?_, fun _ => hcs.1.2⟩
    rintro rfl
    exact absurd hcs.1.1.1 (by decide)

theorem IsNumber.begins {kind : TokenKind} {signed : Bool} {cs : List Char} (h : IsNumber kind signed cs)
    (t : Text) : Begins (cs.head? ≠ some '-') (Text.ofChars cs ++ t) := by
  rw [Begins, Text.chars_ofChars_append]
  cases h with
  | @unsigned c cs hc _ =>
    simp only [beginsNumber, Bool.and_eq_true] at hc
    have hdigit := hc.1.1.1
    rw [numberRun_cons hdigit]
    refine ⟨c, _, rfl, ?_, fun hsign => ?_⟩
    · rintro rfl
      exact absurd hdigit (by decide)
    · obtain rfl : c = '-' := by simpa using hsign
      exact absurd hdigit (by decide)
  | signed _ _ => exact ⟨'-', _, rfl, by decide, fun _ => by decide⟩

theorem Expr.Legible.begins {x : Expr} (hx : x.Legible) (rest : Text) : Begins x.isUnsigned (x.print ++ rest) := by
  cases x with
  | lit kind raw =>
    cases kind with
    | number =>
      obtain ⟨kind, signed, cs, hcs, rfl⟩ : ∃ kind signed cs, IsNumber kind signed cs ∧ raw = Text.ofChars cs := by
        rcases hx with hraw | hraw
        · exact ⟨_, hraw.number (.inl rfl)⟩
        · exact ⟨_, hraw.number (.inr rfl)⟩
      rw [Expr.isUnsigned, Text.chars_ofChars]
      exact hcs.begins rest
    | string =>
      obtain ⟨cs, ⟨ds, body, rfl, _⟩, rfl⟩ := TokenText.string hx
      exact ⟨'"', body ++ rest.chars, Text.chars_ofChars_append _ _, by decide, fun _ => by decide⟩
    | bool => rcases hx with rfl | rfl <;> exact begins_append rfl rest
    | nil | unit =>
      obtain rfl := hx
      exact begins_append rfl rest
    | other n => exact hx.elim
  | lookup n => exact (hx n (List.mem_singleton_self n)).1.begins rest
  | call callee args =>
    simp only [Expr.print, Text.append_assoc]
    exact (hx callee (List.mem_singleton_self callee)).1.begins _
  | ifElse conds other =>
    obtain ⟨c, conds, rfl⟩ := List.exists_cons_of_ne_nil hx
    simp only [Expr.print, printConds, Text.append_assoc]
    exact begins_append rfl _
  | missing => exact hx.elim
  | _ =>
    simp only [Expr.print, Text.append_assoc]
    exact begins_append rfl _

theorem IsNumber.spells {kind : TokenKind} (hkind : kind = .decimal ∨ kind = .float) {signed : Bool} {cs : List Char}
    (hcs : IsNumber kind signed cs) :
    Spells (Text.ofChars cs) fun ts => Written E ts (.lit .number (Text.ofChars cs)) := by
  intro rest Q hrest hlex
  rw [Text.chars_ofChars_append]
  refine Lexes.number hcs (fun _ => rfl) hrest.not_number (hlex.mono fun us hus t ht htext => ?_)
  have hmark : Mark .decimal t ∨ Mark .float t := by
    rcases hkind with rfl | rfl
    · exact .inl ht
    · exact .inr ht
  exact hus [t] (htext ▸ .leaf (.number hmark))

theorem spells_number {raw : Text} {kind : TokenKind} (hkind : kind = .decimal ∨ kind = .float)
    (h : TokenText kind raw) : Spells raw fun ts => Written E ts (.lit .number raw) := by
  obtain ⟨signed, cs, hcs, rfl⟩ := h.number hkind
  exact hcs.spells hkind

/-- The words that stand for a value. -/
theorem spells_word {kind : LitKind} {w : String} (hw : isSymbol w.toList)
    (hends : endsWith .symbol w) (hlit : ∀ t, Word w t → Leaf t (.lit kind w)) :
    Spells w fun ts => Written E ts (.lit kind w) := by
  intro rest Q hrest hlex
  rw [Text.chars_ofString_append]
  refine Lexes.symbol hw hrest.not_name ?_
  rw [show endsWith .symbol (Text.ofChars w.toList) = true from hends]
  exact hlex.mono fun us hus t hkind htext => hus [t] (.leaf (hlit t ⟨hkind, htext⟩))

theorem spells_literal {kind : LitKind} {raw : Text} (h : IsLiteral kind raw) :
    Spells raw fun ts => Written E ts (.lit kind raw) := by
  cases kind with
  | number =>
    rcases h with hraw | hraw
    · exact spells_number (.inl rfl) hraw
    · exact spells_number (.inr rfl) hraw
  | string =>
    obtain ⟨cs, hcs, rfl⟩ := TokenText.string h
    intro rest Q hrest hlex
    rw [Text.chars_ofChars_append]
    refine Lexes.string hcs (hlex.mono fun us hus t ht htext => ?_)
    exact hus [t] (htext ▸ .leaf (.string ht))
  | bool =>
    rcases h with rfl | rfl
    · exact spells_word rfl rfl fun t ht => ht.2 ▸ .truth (.inl ht)
    · exact spells_word rfl rfl fun t ht => ht.2 ▸ .truth (.inr ht)
  | nil =>
    obtain rfl := h
    exact spells_word rfl rfl fun t ht => ht.2 ▸ .nil ht
  | unit =>
    obtain rfl := h
    intro rest Q hrest hlex
    have hsplit : ("()" : Text) = "(" ++ ")" := rfl
    rw [hsplit, Text.append_assoc]
    refine lexes_mark rfl rfl (lexes_mark rfl rfl ?_)
    refine hlex.mono ?_
    intro us hus u hu t ht
    exact hus [t, u] (.unit ht hu)
  | other n => exact h.elim

theorem BinOp.spelled {op : BinOp} (h : ∀ n, op ≠ .other n) :
    ∃ cs ∈ operatorSpellings, op.symbol = Text.ofChars cs := by
  cases op with
  | other n => exact absurd rfl (h n)
  | _ => exact ⟨_, by decide, rfl⟩

theorem spells_bin {op : BinOp} {l r : Expr} (hop : ∀ n, op ≠ .other n)
    (ihl : Spells l.print fun ts => E ts l) (ihr : Spells r.print fun ts => E ts r) :
    Spells (Expr.bin op l r).print fun ts => Bracketed E ts (.bin op l r) := by
  obtain ⟨cs, hcs, hsymbol⟩ := BinOp.spelled hop
  intro rest Q hrest hlex
  simp only [Expr.print, Text.append_assoc]
  refine lexes_mark rfl rfl ?_
  refine ihl (ends_append rfl _) ?_
  rw [hsymbol]
  simp only [Text.chars_ofString_append, Text.chars_ofChars_append, String.reduceToList, List.cons_append,
    List.nil_append]
  refine Lexes.space (Lexes.operator hcs ?_)
  refine ihr (ends_append rfl _) ?_
  refine lexes_mark rfl rfl ?_
  refine hlex.mono ?_
  intro us hus u hu rs hrs t hkind htext ls hls p hp
  have hjoins : Joins op.precedence op t := by
    rw [joins_iff, Token.operator?, hkind, htext, ← hsymbol]
    exact ⟨(BinOp.symbol_spec hop).1, rfl⟩
  simpa using hus _ (.bin hp hls hjoins hrs hu)

theorem spells_unary {op : UnaryOp} {r : Expr} (hop : ∀ n, op ≠ .other n)
    (hneg : op = .neg → r.isUnsigned = false) (hr : r.Legible) (ih : Spells r.print fun ts => E ts r) :
    Spells (Expr.unary op r).print fun ts => Bracketed E ts (.unary op r) := by
  intro rest Q hrest hlex
  obtain ⟨c, cs, hfirst, hne, hdigit⟩ := hr.begins (")" ++ rest)
  have hoperand : Lexes false (r.print ++ (")" ++ rest)).chars fun us =>
      ∀ t, t.kind = .operator → t.text = op.symbol → ∀ p, Mark .leftParen p → Q (p :: t :: us) := by
    refine ih (ends_append rfl _) ?_
    refine lexes_mark rfl rfl (hlex.mono ?_)
    intro us hus u hu rs hrs t hkind htext p hp
    simpa using hus _ (.unary hp ⟨hkind, htext⟩ hrs hu)
  cases op with
  | other n => exact absurd rfl (hop n)
  | neg =>
    simp only [Expr.print, UnaryOp.symbol, Text.append_assoc]
    refine lexes_mark rfl rfl ?_
    rw [Text.chars_ofString_append]
    exact Lexes.minus (by rw [hfirst]; exact hdigit (hneg rfl)) hoperand
  | not =>
    simp only [Expr.print, UnaryOp.symbol, Text.append_assoc]
    refine lexes_mark rfl rfl ?_
    rw [Text.chars_ofString_append]
    exact Lexes.bang (by rw [hfirst]; rintro _ ⟨⟩; exact hne) hoperand

/-- What the text of a node spells that is no operation. -/
theorem spells_written {x : Expr} (hx : x.Legible) (hop : x.isOperation = false)
    (hkeys : ∀ k ∈ x.keys, TokenText .symbol k) (h : ∀ c ∈ x.children, Spells c.print fun ts => E ts c) :
    Spells x.print fun ts => Written E ts x := by
  cases x with
  | lit kind raw => exact spells_literal hx
  | lookup n =>
    have hn := hx n (List.mem_singleton_self n)
    exact hn.spells.mono fun ts hts => by cases hts with | mk ht => exact .leaf (.lookup ht)
  | bin | unary => cases hop
  | letIn assigns body =>
    obtain ⟨hne, hnames⟩ := hx
    simp only [Expr.children, List.forall_mem_append, List.forall_mem_map, List.forall_mem_singleton] at h
    have hassigns := Spells.join hne fun a ha => spells_assign (hnames a ha) (h.1 a ha)
    intro rest Q hrest hlex
    simp only [Expr.print, printAssigns_eq, Text.append_assoc]
    refine lexes_word "let" rfl rfl rfl ?_
    simp only [Text.append_assoc] at hassigns
    refine hassigns (ends_append rfl _) ?_
    refine lexes_spaced_word "in" rfl rfl rfl (h.2 hrest (hlex.mono ?_))
    intro us hus vs hvs u hu ts hts t ht
    simpa using hus _ (.letIn ht hts hu hvs)
  | ifElse conds other =>
    simp only [Expr.children, List.forall_mem_append, List.forall_mem_map, List.forall_mem_singleton] at h
    obtain ⟨t, hprint, hspells⟩ := exists_spells_conds hx h.1.1 h.1.2
    intro rest Q hrest hlex
    rw [Expr.print, hprint]
    simp only [Text.append_assoc]
    refine lexes_word "if" rfl rfl rfl (hspells (ends_append rfl _) ?_)
    refine lexes_spaced_word "else" rfl rfl rfl (h.2 hrest (hlex.mono ?_))
    intro us hus vs hvs u hu ts hts t ht
    simpa using hus _ (.ifElse ht hts hu hvs)
  | call callee args =>
    intro rest Q hrest hlex
    simp only [Expr.print, printItems_eq, Text.append_assoc]
    refine (hx callee (List.mem_singleton_self callee)).lexes (paren_not_name _) ?_
    refine lexes_mark rfl rfl ?_
    refine lexes_listed h (ends_append rfl _) fun after => ?_
    refine lexes_mark rfl rfl ?_
    refine hlex.mono ?_
    intro us hus u hu ts hts t ht n hn hname
    have hcall := Written.call hn ht hts hu
    rw [hname] at hcall
    simpa using hus _ hcall
  | list items =>
    intro rest Q hrest hlex
    simp only [Expr.print, printItems_eq, Text.append_assoc]
    refine lexes_mark rfl rfl ?_
    refine lexes_listed h (ends_append rfl _) fun after => ?_
    refine lexes_mark rfl rfl ?_
    refine hlex.mono ?_
    intro us hus u hu ts hts t ht
    simpa using hus _ (.list ht hts hu)
  | dict entries =>
    simp only [Expr.children, Expr.keys, List.forall_mem_map] at h hkeys
    intro rest Q hrest hlex
    have hentries := fun e (he : e ∈ entries) => spells_entry (hkeys e he) (h e he)
    simp only [Expr.print, printEntries_eq, Text.append_assoc] at hentries ⊢
    refine lexes_mark rfl rfl ?_
    refine lexes_listed hentries (ends_append rfl _) fun after => ?_
    refine lexes_mark rfl rfl ?_
    refine hlex.mono ?_
    intro us hus u hu ts hts t ht
    simpa using hus _ (.dict ht hts hu)
  | lambda params body =>
    intro rest Q hrest hlex
    have hfn : ("fn(" : Text) = "fn" ++ "(" := rfl
    have harrow : (") => " : Text) = ")" ++ " => " := rfl
    simp only [Expr.print, hfn, harrow, Text.append_assoc]
    rw [Text.chars_ofString_append]
    refine Lexes.symbol rfl (paren_not_name _) (lexes_params hx ?_)
    refine lexes_spaced_sign "=>" rfl (by decide) ?_
    refine h body (List.mem_singleton_self body) hrest (hlex.mono ?_)
    intro us hus ts hts u hu ps hps t hkind htext
    simpa using hus _ (.lambda ⟨hkind, htext⟩ hps hu hts)
  | forIn handle iter filter body =>
    simp only [Expr.children, List.forall_mem_append, List.forall_mem_cons, Option.mem_toList] at h
    obtain ⟨hi, hf, hb, -⟩ := h
    intro rest Q hrest hlex
    simp only [Expr.print, Text.append_assoc]
    refine lexes_word "for" rfl rfl rfl ?_
    refine lexes_loop (hx handle (List.mem_singleton_self handle)) hi hf hb hrest (hlex.mono ?_)
    intro us hus ts hts t ht
    exact hus _ (.forIn ht hts)
  | reduce carry init handle iter filter body =>
    simp only [Expr.children, List.forall_mem_append, List.forall_mem_cons, Option.mem_toList] at h
    obtain ⟨hs, hi, hf, hb, -⟩ := h
    obtain ⟨hc, hn⟩ := List.forall_mem_cons.1 hx
    intro rest Q hrest hlex
    simp only [Expr.print, Text.append_assoc]
    refine lexes_word "reduce" rfl rfl rfl (hc.lexes (ends_append rfl _).not_name ?_)
    refine lexes_spaced_sign "=" rfl (by decide) ?_
    refine hs (ends_append rfl _) ?_
    refine lexes_spaced_word "for" rfl rfl rfl ?_
    refine lexes_loop (hn handle (List.mem_singleton_self handle)) hi hf hb hrest (hlex.mono ?_)
    intro us hus ls hls v hv ts hts u hu n hn hname t ht
    have hreduce := Written.reduce ht hn hu hts hv hls
    rw [hname] at hreduce
    simpa using hus _ hreduce
  | define name params body =>
    obtain ⟨hn, hps⟩ := List.forall_mem_cons.1 hx
    intro rest Q hrest hlex
    exact lexes_define (show IsName (Def.mk name params body).name from hn) hps
      (h body (List.mem_singleton_self body)) hrest (hlex.mono fun us hus ts hts => hus ts (.define hts))
  | missing => exact hx.elim

end Nodes

/-! ## Derivations -/

/-- What the tokens of a printed expression are: one of the expression and, unless it is open, one that
no operator takes apart. -/
def Printed (ts : List Token) (x : Expr) : Prop :=
  IsExpr ts x ∧ (x.isOpen = false → Primary IsExpr ts x)

variable {ts : List Token} {x : Expr}

theorem isExpr_of_primary (h : Primary IsExpr ts x) : IsExpr ts x :=
  .binary ((Level.unary (.primary h)).weaken (by omega) (by omega))

theorem Printed.of_primary (h : Primary IsExpr ts x) : Printed ts x :=
  ⟨isExpr_of_primary h, fun _ => h⟩

theorem Printed.of_open (h : IsExpr ts x) (hx : x.isOpen) :
    Printed ts x := ⟨h, fun hc => by rw [hx] at hc; cases hc⟩

theorem Printed.of_written (h : Written IsExpr ts x) : Printed ts x := by
  cases h with
  | leaf h =>
    cases h with
    | number h => exact .of_primary (.number h)
    | string h => exact .of_primary (.string h)
    | truth h => exact .of_primary (.truth h)
    | nil h => exact .of_primary (.nil h)
    | lookup h => exact .of_primary (.lookup h)
  | unit ht hu => exact .of_primary (.unit ht hu)
  | call hn ht hxs hu => exact .of_primary (.call hn ht hxs hu)
  | list ht hxs hu => exact .of_primary (.list ht hxs hu)
  | dict ht hes hu => exact .of_primary (.dict ht hes hu)
  | letIn ht hs hu hb => exact .of_open (.letIn ht hs hu hb) rfl
  | ifElse ht hs hu hb => exact .of_open (.ifElse ht hs hu hb) rfl
  | forIn ht hl => exact .of_open (.forIn ht hl) rfl
  | reduce ht hn hu hi hv hl => exact .of_open (.reduce ht hn hu hi hv hl) rfl
  | lambda ht hps hu hb => exact .of_open (.lambda ht hps hu hb) rfl
  | define hd => exact .of_open (.define hd) rfl

theorem Printed.of_bracketed (h : Bracketed Printed ts x) (hx : x.Legible)
    (hclosed : x.Closed) : Printed ts x := by
  cases h with
  | @bin p ls t rs u op l r hp hls hjoins hrs hu =>
    have hprec : 1 ≤ op.precedence ∧ op.precedence ≤ 9 := by
      obtain ⟨_, row, hrow, hpos, _⟩ := hjoins
      have hlt := (List.getElem?_eq_some_iff.1 hrow).1
      have hlen : operatorLevels.length = 9 := rfl
      omega
    have hl := (Level.unary (.primary (hls.2 hclosed.1))).weaken (show op.precedence ≤ 10 by omega) (by omega)
    have hr := (Level.unary (.primary (hrs.2 hclosed.2))).weaken (show op.precedence + 1 ≤ 10 by omega) (by omega)
    have hbin : IsExpr (ls ++ t :: rs) (.bin op l r) :=
      .binary ((Level.join hl hjoins hr).weaken hprec.1 (by omega))
    simpa using Printed.of_primary (.parens hp hbin hu)
  | @unary p t rs u op r hp ht hrs hu =>
    have hr : Unary IsExpr rs r := .primary (hrs.2 hclosed.1)
    have hunary : Unary IsExpr (t :: rs) (.unary op r) := by
      cases op with
      | neg => exact .neg ht hr
      | not => exact .not ht hr
      | other n => exact absurd rfl (hx n)
    have hx : IsExpr (t :: rs) (.unary op r) := .binary ((Level.unary hunary).weaken (by omega) (by omega))
    exact .of_primary (.parens hp hx hu)

theorem Spells.isExpr (h : Spells x.print fun ts => Printed ts x) : Spells x.print fun ts => IsExpr ts x :=
  h.mono fun _ => And.left

/-- The text of a tree that keeps its shape spells tokens from which the tree is derived. -/
theorem Expr.All.spells (h : x.All fun y => y.Legible ∧ y.Faithful) :
    Spells x.print fun ts => Printed ts x := by
  induction h with
  | @node x hx hc ih =>
    cases x with
    | bin op l r =>
      have hl := ih l List.mem_cons_self
      have hr := ih r (List.mem_cons_of_mem _ (List.mem_singleton_self r))
      exact (spells_bin hx.1 hl hr).mono fun ts hts => .of_bracketed hts hx.1 hx.2.1
    | unary op r =>
      have hr := List.mem_singleton_self r
      have hspells := spells_unary hx.1 hx.2.1.2 (hc r hr).own.1 (ih r hr)
      exact hspells.mono fun ts hts => .of_bracketed hts hx.1 hx.2.1
    | _ => exact (spells_written hx.1 rfl hx.2.2 fun c hc => (ih c hc).isExpr).mono fun ts => .of_written

/-- The text of a printable tree spells tokens from which the tree is derived. -/
theorem Printable.spells (h : Printable x) : Spells x.print fun ts => Printed ts x := h.all.spells

/-! ## Parsing back -/

theorem lexes_program {ds : List Def} (h : ∀ d ∈ ds, Printable d.toExpr) (after : Bool) :
    Lexes after (Program.mk ds).print.chars fun ts => IsProgram ts ds := by
  induction ds generalizing after with
  | nil => exact .nil .nil
  | cons d ds ih =>
    have hline : (Program.mk (d :: ds)).print = d.print ++ ("\n" ++ (Program.mk ds).print) := by
      rw [← Text.append_assoc]
      rfl
    rw [hline]
    cases h d List.mem_cons_self with
    | define hn hps hb =>
      refine lexes_define hn hps hb.spells.isExpr (ends_append rfl _) ?_
      rw [Text.chars_ofString_append]
      have ih := ih (fun d hd => h d (List.mem_cons_of_mem _ hd)) true
      exact Lexes.blank (c := '\n') rfl (ih.mono fun us hus ts hts => .cons hts hus)

theorem parseProgram_print {p : Program} (h : ∀ d ∈ p.defs, Printable d.toExpr) : parseProgram p.print = .ok p := by
  obtain ⟨ts, stop, hscan, hts⟩ := lexes_program h false none {} rfl
  exact parseProgram_iff.2 ⟨⟨ts, stop⟩, tokenize_iff.2 hscan, hts⟩

/-- What is scanned to tokens of an expression is parsed to it. -/
theorem parseExpr_print (h : Spells x.print fun ts => Printed ts x) : parseExpr x.print = .ok x := by
  have hlex : Lexes false (x.print ++ Text.empty).chars fun ts => IsExpr ts x :=
    h.isExpr ends_empty (.nil fun ts hts => by rwa [List.append_nil])
  rw [Text.append_empty] at hlex
  obtain ⟨ts, stop, hscan, hts⟩ := hlex none {} rfl
  exact parseExpr_iff.2 ⟨⟨ts, stop⟩, tokenize_iff.2 hscan, hts⟩

/-- **Printed trees parse back.** The text of a printable expression is parsed to the expression, and the
text of a program whose definitions are printable to the program. -/
theorem parse_print : (∀ x, Printable x → parseExpr x.print = .ok x) ∧
    ∀ p : Program, (∀ d ∈ p.defs, Printable d.toExpr) → parseProgram p.print = .ok p := by
  constructor
  · exact fun x hx => parseExpr_print hx.spells
  · exact fun p hp => parseProgram_print hp

theorem tokenText_of_alone {kind : TokenKind} {t : Text} {pos stop : Pos}
    (h : tokenize t = .ok ⟨[⟨kind, t, pos⟩], stop⟩) : TokenText kind t :=
  ⟨t, _, h, _, List.mem_singleton_self _, rfl, rfl⟩

/-- `def shift(n) = let k = (n - -5) in (-k)` -/
def shiftDef : Def :=
  ⟨"shift", ["n"], .letIn [("k", .bin .sub (.lookup "n") (.lit .number "-5"))] (.unary .neg (.lookup "k"))⟩

theorem printable_shiftDef : Printable shiftDef.body ∧ Printable shiftDef.toExpr := by
  have hshift : IsName "shift" := ⟨tokenText_of_alone rfl, rfl⟩
  have hn : IsName "n" := ⟨tokenText_of_alone rfl, rfl⟩
  have hk : IsName "k" := ⟨tokenText_of_alone rfl, rfl⟩
  have hfive : TokenText .decimal "-5" := tokenText_of_alone rfl
  have hbody : Printable shiftDef.body := by
    refine .letIn (List.cons_ne_nil _ _) ?_ ?_ (.unary nofun rfl (fun _ => rfl) (.lookup hk))
    · exact List.forall_mem_singleton.2 hk
    · exact List.forall_mem_singleton.2 (.bin nofun rfl rfl (.lookup hn) (.number (.inl hfive)))
  exact ⟨hbody, .define hshift (List.forall_mem_singleton.2 hn) hbody⟩

theorem parse_print_shiftDef :
    Printable shiftDef.body ∧ Printable shiftDef.toExpr ∧
      shiftDef.print = "def shift(n) = let k = (n - -5) in (-k)" ∧
      parseExpr shiftDef.body.print = .ok shiftDef.body ∧
      parseProgram (Program.mk [shiftDef]).print = .ok ⟨[shiftDef]⟩ := by
  obtain ⟨hbody, hdef⟩ := printable_shiftDef
  exact ⟨hbody, hdef, rfl, parse_print.1 _ hbody, parse_print.2 _ (List.forall_mem_singleton.2 hdef)⟩

end Syntax

end TinyScript
