import Mathlib
import TinyScript.Proofs.Syntax.Sourced

/-!
# Which parsed trees come back from their text

A tree that was parsed comes back from its text exactly if no operand is open, no minus sign stands before a number
without a sign, and every key is a symbol (`parseExpr_print_iff`). That open operands and minus signs are lost is told
by the depths of the tokens (`Layout.agree`), once it is known how the text is cut into tokens. A key that needs
quotes is lost because a string has two quotes and backslashes more than the text that it stands for, while the
printer writes the text as it is.
-/

namespace TinyScript

namespace Text

/-! ## Quotes and backslashes -/

/-- Whether a byte is a quote or a backslash. -/
def isQuoting (b : UInt8) : Bool := b = 34 || b = 92

/-- How many quotes and backslashes a text has. -/
def quoting (t : Text) : Nat := t.bytes.countP isQuoting

theorem quoting_append (t u : Text) : (t ++ u).quoting = t.quoting + u.quoting := List.countP_append

theorem quoting_join {sep : Text} (hsep : sep.quoting = 0) (ts : List Text) :
    (join sep ts).quoting = (ts.map quoting).sum := by
  induction ts with
  | nil => rfl
  | cons t ts ih =>
    cases ts with
    | nil => exact congrArg quoting (append_empty t)
    | cons u ts => rw [join_cons_cons, quoting_append, quoting_append, hsep, ih, Nat.zero_add]; rfl

theorem quoting_encode_le (c : Char) : (String.utf8EncodeChar c).countP isQuoting ≤ 1 := by
  by_cases hc : c.toNat < 128
  · have hone : (String.utf8EncodeChar c).length = 1 := by
      rw [String.utf8EncodeChar, if_pos (show c.val.toNat ≤ 127 from Nat.le_of_lt_succ hc)]
      rfl
    exact hone ▸ List.countP_le_length
  · rw [List.countP_eq_zero.2]
    · exact Nat.zero_le 1
    intro b hb hquoting
    have hhigh := high_of_mem_encode (Nat.le_of_not_lt hc) hb
    simp only [isQuoting, Bool.or_eq_true, decide_eq_true_eq] at hquoting
    rcases hquoting with rfl | rfl <;> exact absurd hhigh (by decide)

theorem quoting_replacement : (String.utf8EncodeChar replacement).countP isQuoting = 0 := by
  decide

theorem quoting_take_drop (n : Nat) (cs : List Char) :
    (ofChars cs).quoting = (ofChars (cs.take n)).quoting + (ofChars (cs.drop n)).quoting := by
  rw [quoting, quoting, quoting, ← List.countP_append, ofChars, ofChars, ofChars, ← List.flatMap_append,
    List.take_append_drop]

theorem digits?_suffix {base n v w : Nat} {bs rest : List UInt8} (h : digits? base n v bs = some (w, rest)) :
    rest <:+ bs := by
  induction n generalizing v bs with
  | zero =>
    rw [digits?] at h
    obtain ⟨-, rfl⟩ := Prod.mk.inj (Option.some.inj h)
    exact List.suffix_refl _
  | succ n ih =>
    cases bs with
    | nil => cases h
    | cons b bs =>
      rw [digits?] at h
      split at h
      · split at h
        · exact (ih h).trans (List.suffix_cons b bs)
        · cases h
      · cases h

/-- An escape stands for one quote or backslash at most. -/
theorem quoting_escape {mark c : UInt8} {bs cs rest : List UInt8} (h : escape? mark c bs = some (cs, rest)) :
    cs.countP isQuoting ≤ 1 ∧ rest.countP isQuoting ≤ bs.countP isQuoting := by
  have hsingle {b : UInt8} {tail : List UInt8} (htail : tail <:+ bs) (h : some ([b], tail) = some (cs, rest)) :
      cs.countP isQuoting ≤ 1 ∧ rest.countP isQuoting ≤ bs.countP isQuoting := by
    obtain ⟨rfl, rfl⟩ := Prod.mk.inj (Option.some.inj h)
    exact ⟨List.countP_le_length, htail.sublist.countP_le⟩
  have hunicode {n : Nat} (h : escape?.unicode? bs n = some (cs, rest)) :
      cs.countP isQuoting ≤ 1 ∧ rest.countP isQuoting ≤ bs.countP isQuoting := by
    rw [escape?.unicode?] at h
    split at h
    · next v tail hdigits =>
      split at h
      · obtain ⟨rfl, rfl⟩ := Prod.mk.inj (Option.some.inj h)
        exact ⟨quoting_encode_le _, (digits?_suffix hdigits).sublist.countP_le⟩
      · cases h
    · cases h
  revert h
  fun_cases escape? mark c bs with
  | case9 =>
    intro h
    obtain ⟨⟨v, tail⟩, hdigits, h⟩ := Option.map_eq_some_iff.1 h
    exact hsingle (digits?_suffix hdigits) (congrArg some h)
  | case10 | case11 => exact hunicode
  | case12 _ _ _ _ _ _ _ _ _ _ _ _ v tail hdigits _ => exact hsingle (digits?_suffix hdigits)
  | case13 | case14 | case16 => nofun
  | _ => exact hsingle (List.suffix_refl bs)

/-- What a character is written as has no fewer of them. -/
theorem quoting_unescape {bs cs rest : List UInt8} (h : unescape? 34 bs = some (cs, rest)) :
    cs.countP isQuoting + rest.countP isQuoting ≤ bs.countP isQuoting := by
  revert h
  fun_cases unescape? 34 bs with
  | case1 | case2 | case3 => nofun
  | case4 c bs =>
    intro h
    have hescape := quoting_escape h
    have hrest := (List.sublist_cons_self c bs).countP_le (p := isQuoting)
    rw [List.countP_cons_of_pos (by decide)]
    omega
  | case5 a bs =>
    rintro ⟨⟩
    exact Nat.le_of_eq List.countP_append.symm
  | case6 a bs _ _ _ c n =>
    rintro ⟨⟩
    exact Nat.le_of_eq (by rw [← List.countP_append, List.cons_append, List.take_append_drop])
  | case7 =>
    rintro ⟨⟩
    rw [quoting_replacement, Nat.zero_add]
    exact (List.sublist_cons_self _ _).countP_le

/-- Taking escapes away leaves fewer backslashes, and no closing quote. -/
theorem quoting_unescapeAll {fuel : Nat} {acc bs cs : List UInt8} (h : unescapeAll? 34 fuel acc bs = some cs) :
    cs.countP isQuoting + 1 ≤ acc.countP isQuoting + bs.countP isQuoting := by
  fun_induction unescapeAll? 34 fuel acc bs with
  | case1 fuel acc =>
    obtain rfl := Option.some.inj h
    rw [List.countP_reverse]
    exact Nat.le_refl _
  | case2 | case4 => cases h
  | case3 fuel acc bs _ chars rest hchar ih =>
    have hrest := ih h
    have hstep := quoting_unescape hchar
    rw [List.countP_append, List.countP_reverse] at hrest
    omega

/-- A string has two more than the text it stands for. -/
theorem quoting_unquote {t : Text} {bs : List UInt8} (ht : t.bytes = 34 :: (bs ++ [34])) :
    t.unquote.quoting + 2 ≤ t.quoting := by
  obtain ⟨b, tail, htail⟩ : ∃ b tail, bs ++ [34] = b :: tail :=
    List.exists_cons_of_ne_nil (List.append_ne_nil_of_right_ne_nil bs (List.cons_ne_nil 34 []))
  have hquoting : t.quoting = (b :: tail).countP isQuoting + 1 := by
    rw [quoting, ht, htail, List.countP_cons_of_pos (by decide)]
  have hsize : ¬ t.size < 2 := by simp [size, ht]
  have hread : unquote? t = (unescapeAll? 34 (b :: tail).length [] (b :: tail)).map Text.mk := by
    rw [unquote?, ht, htail]
    rfl
  rw [unquote, if_neg hsize, hread, hquoting]
  cases hcs : unescapeAll? 34 (b :: tail).length [] (b :: tail) with
  | some cs =>
    have hle := quoting_unescapeAll hcs
    rw [List.countP_nil, Nat.zero_add] at hle
    exact Nat.succ_le_succ hle
  | none =>
    have hinner : (⟨t.bytes.tail.dropLast⟩ : Text).quoting = bs.countP isQuoting := by
      rw [quoting, ht, List.tail_cons, List.dropLast_concat]
    rw [Option.map_none, Option.getD_none, hinner, ← htail, List.countP_append]
    exact Nat.le_refl _

/-- A stray byte is neither, and is replaced by a character that is neither. -/
theorem quoting_decodeFrom_le (skip : Nat) (bs : List UInt8) :
    (((decodeFrom skip bs).map fun p => p.1.getD replacement).flatMap String.utf8EncodeChar).countP isQuoting
      ≤ (bs.drop skip).countP isQuoting := by
  induction bs generalizing skip with
  | nil => simp [decodeFrom]
  | cons a bs ih =>
    cases skip with
    | succ skip => exact ih skip
    | zero =>
      have hrest := ih ((front a bs).2 - 1)
      rw [decodeFrom, List.map_cons, List.flatMap_cons, List.countP_append, List.drop_zero]
      cases hc : (front a bs).1 with
      | none =>
        rw [Option.getD_none, quoting_replacement, Nat.zero_add]
        exact Nat.le_trans hrest (((List.drop_sublist _ bs).trans (List.sublist_cons_self a bs)).countP_le)
      | some c =>
        rw [Option.getD_some, encode_front hc]
        refine Nat.le_trans (Nat.add_le_add_left hrest _) (Nat.le_of_eq ?_)
        rw [← List.countP_append, List.cons_append, List.take_append_drop]

theorem quoting_repair_le (t : Text) : t.repair.quoting ≤ t.quoting := quoting_decodeFrom_le 0 t.bytes

theorem quoting_ofString {s : String} (h : (ofString s).bytes.all (fun b => !isQuoting b)) :
    (ofString s).quoting = 0 :=
  List.countP_eq_zero.2 fun b hb => by simpa using List.all_eq_true.1 h b hb

end Text

namespace Syntax

open Grammar

/-- Tokens have no more of them than the source text. -/
theorem Scanned.quoting_le {prev : Option Token} {pos stop : Pos} {cs : List Char} {ts : List Token}
    (h : Scanned prev pos cs ts stop) : (ts.map fun t => t.text.quoting).sum ≤ (Text.ofChars cs).quoting := by
  induction h with
  | nil => exact Nat.zero_le _
  | @gap prev pos c cs text ts stop hstep _ ih =>
    have hcs := Text.quoting_take_drop text.length (c :: cs)
    omega
  | @token prev pos c cs kind text ts stop hstep _ ih =>
    have hcs := Text.quoting_take_drop text.length (c :: cs)
    rw [← List.prefix_iff_eq_take.1 (step_text (by rw [hstep]; rfl)).2] at hcs
    rw [List.map_cons, List.sum_cons, hcs]
    exact Nat.add_le_add_left ih _

theorem quoting_of_tokenize {src : Text} {ts : Tokens} (h : tokenize src = .ok ts) :
    (ts.items.map fun t => t.text.quoting).sum ≤ src.quoting :=
  Nat.le_trans (tokenize_iff.1 h).quoting_le (Text.quoting_repair_le src)

/-! ## Keys -/

theorem stringBody?_ends {cs body : List Char} (h : stringBody? cs = some body) : ∃ inner, body = inner ++ ['"'] := by
  fun_induction stringBody? cs generalizing body with
  | case1 | case2 => cases h
  | case3 cs =>
    obtain rfl := Option.some.inj h
    exact ⟨[], rfl⟩
  | case4 c cs ih =>
    obtain ⟨b, hb, rfl⟩ := Option.map_eq_some_iff.1 h
    obtain ⟨inner, rfl⟩ := ih hb
    exact ⟨'\\' :: c :: inner, rfl⟩
  | case5 c cs _ _ _ ih =>
    obtain ⟨b, hb, rfl⟩ := Option.map_eq_some_iff.1 h
    obtain ⟨inner, rfl⟩ := ih hb
    exact ⟨c :: inner, rfl⟩

/-- A string has two quotes more than what it stands for. -/
theorem TokenText.quoting_unquote {t : Text} (h : TokenText .string t) : t.unquote.quoting + 2 ≤ t.quoting := by
  obtain ⟨cs, ⟨ds, body, rfl, hbody⟩, rfl⟩ := h.string
  obtain ⟨inner, rfl⟩ := stringBody?_ends hbody
  have hquote : String.utf8EncodeChar '"' = [34] := by decide
  have hbytes : (Text.ofChars ('"' :: (inner ++ ['"']))).bytes
      = 34 :: (inner.flatMap String.utf8EncodeChar ++ [34]) := by simp [Text.ofChars, hquote]
  exact Text.quoting_unquote hbytes

/-- How many quotes and backslashes an item is printed with. -/
def Item.quoting : Item → Nat
  | .mark => 0
  | .name n => n.quoting
  | .key k => k.quoting
  | .expr x => x.print.quoting

theorem sum_quoting_separated {α : Type} (f : α → List Item) (xs : List α) :
    ((separated f xs).map Item.quoting).sum = (xs.map fun x => ((f x).map Item.quoting).sum).sum := by
  induction xs using separated.induct with
  | case1 => rfl
  | case2 x => simp [separated]
  | case3 x y xs ih => simp [separated, ih, Item.quoting]

theorem quoting_printFilter (filter : Option Expr) :
    (printFilter filter).quoting =
      ((filter.toList.flatMap fun f => [.mark, .expr f]).map Item.quoting).sum := by
  have hif : (" if " : Text).quoting = 0 := by decide
  cases filter with
  | none => rfl
  | some f => simp [printFilter, Text.quoting_append, hif, Item.quoting]

theorem quoting_printConds {word : Text} (hword : word.quoting = 0) (conds : List (Expr × Expr)) :
    (printConds word conds).quoting = (conds.map fun c => c.1.print.quoting + c.2.print.quoting).sum := by
  induction conds generalizing word with
  | nil => rfl
  | cons c conds ih =>
    have hthen : (" then " : Text).quoting = 0 := by decide
    have hrest := @ih " elif " (by decide)
    simp only [printConds, Text.quoting_append, hword, hthen, hrest, List.map_cons, List.sum_cons]
    omega

/-- What a node is printed with is what its items are printed with. -/
theorem quoting_print {x : Expr} (hx : x.isForm) : x.print.quoting = (x.items.map Item.quoting).sum := by
  cases x with
  | lit | lookup | bin | unary | missing => cases hx
  | _ =>
    simp (disch := decide) [Expr.print, Expr.items, loopItems, Text.quoting_append, Text.quoting_ofString,
      Text.quoting_join, printAssigns_eq, printItems_eq, printEntries_eq, quoting_printConds, quoting_printFilter,
      sum_quoting_separated, Item.quoting, Function.comp_def, Nat.add_assoc]

/-- An item of which every key is a symbol. -/
def Item.Unquoted : Item → Prop
  | .key k => TokenText .symbol k
  | .expr x => x.All fun y => ∀ k ∈ y.keys, TokenText .symbol k
  | _ => True

/-- The tokens have no fewer quotes and backslashes than the items are printed with; and if they have no more,
every key is a symbol. -/
def Quoted (ws : List Item) (ps : List (Int × Token)) : Prop :=
  (ws.map Item.quoting).sum ≤ (ps.map fun p => p.2.text.quoting).sum ∧
    ((ps.map fun p => p.2.text.quoting).sum ≤ (ws.map Item.quoting).sum → ∀ i ∈ ws, i.Unquoted)

namespace Quoted

variable {i : Item} {ws vs : List Item} {p : Int × Token} {ps qs : List (Int × Token)}

theorem append (h : Quoted ws ps) (h' : Quoted vs qs) : Quoted (ws ++ vs) (ps ++ qs) := by
  obtain ⟨hle, hall⟩ := h
  obtain ⟨hle', hall'⟩ := h'
  simp only [Quoted, List.map_append, List.sum_append, List.forall_mem_append]
  exact ⟨Nat.add_le_add hle hle', fun hge => ⟨hall (by omega), hall' (by omega)⟩⟩

theorem cons (hle : i.quoting ≤ p.2.text.quoting) (hi : p.2.text.quoting ≤ i.quoting → i.Unquoted)
    (h : Quoted ws ps) : Quoted (i :: ws) (p :: ps) := by
  have hone : Quoted [i] [p] := by simpa [Quoted] using ⟨hle, hi⟩
  exact hone.append h

/-- An item stands for those it consists of. -/
theorem of_items (vs : List Item) (hquoting : i.quoting = (vs.map Item.quoting).sum)
    (hunquoted : (∀ v ∈ vs, v.Unquoted) → i.Unquoted) (h : Quoted (vs ++ ws) ps) : Quoted (i :: ws) ps := by
  simp only [Quoted, List.map_append, List.sum_append, ← hquoting, List.forall_mem_append] at h
  simp only [Quoted, List.map_cons, List.sum_cons, List.forall_mem_cons]
  exact ⟨h.1, fun hge => (h.2 hge).imp_left hunquoted⟩

end Quoted

theorem Leaf.print {t : Token} {x : Expr} (h : Leaf t x) : x.print = t.text := by
  cases h <;> rw [Expr.print]

theorem quoting_binSymbol {op : BinOp} (hop : ∀ n, op ≠ .other n) : op.symbol.quoting = 0 := by
  cases op with
  | other n => exact absurd rfl (hop n)
  | _ => rfl

theorem quoting_unarySymbol {op : UnaryOp} (hop : ∀ n, op ≠ .other n) : op.symbol.quoting = 0 := by
  cases op with
  | other n => exact absurd rfl (hop n)
  | _ => rfl

/-- **Quotes are counted**: a tree that is printed has no more than its tokens. -/
theorem Layout.quoted {ws : List Item} {ps : List (Int × Token)} (h : Layout false ws ps)
    (htext : ∀ p ∈ ps, TokenText p.2.kind p.2.text) : Quoted ws ps := by
  induction h with
  | nil => exact ⟨Nat.le_refl _, fun _ => List.forall_mem_nil _⟩
  | mark _ ih => exact .cons (Nat.zero_le _) (fun _ => trivial) (ih (List.forall_mem_cons.1 htext).2)
  | name _ hn _ ih =>
    subst hn
    exact .cons (Nat.le_refl _) (fun _ => trivial) (ih (List.forall_mem_cons.1 htext).2)
  | key hp _ ih =>
    obtain ⟨hfirst, htext⟩ := List.forall_mem_cons.1 htext
    rcases hp with ⟨hkind, rfl⟩ | ⟨hkind, rfl⟩
    · rw [show _ = TokenKind.symbol from hkind] at hfirst
      exact .cons (Nat.le_refl _) (fun _ => hfirst) (ih htext)
    · -- a key that was a string is printed without its quotes
      rw [show _ = TokenKind.string from hkind] at hfirst
      have hfewer := hfirst.quoting_unquote
      refine .cons (Nat.le_of_add_right_le hfewer) (fun hge => ?_) (ih htext)
      exact absurd (Nat.le_trans hfewer hge) (Nat.not_le_of_lt (Nat.lt_add_of_pos_right Nat.two_pos))
  | leaf hx _ ih =>
    refine .cons (Nat.le_of_eq (congrArg Text.quoting hx.print)) (fun _ => ?_) (ih (List.forall_mem_cons.1 htext).2)
    cases hx <;> exact .node (List.forall_mem_nil _) (List.forall_mem_nil _)
  | unit hx _ ih =>
    subst hx
    exact .of_items [] (by decide) (fun _ => .node (List.forall_mem_nil _) (List.forall_mem_nil _)) (ih htext)
  | form hx _ ih =>
    refine .of_items _ (quoting_print hx) (fun hitems => .node (fun k hk => ?_) fun c hc => ?_) (ih htext)
    · exact hitems _ (Expr.key_mem_items hk)
    · exact hitems _ (Expr.child_mem_items hx hc)
  | @bin op l r p ls ws ps hop _ _ _ _ ihl ihr =>
    obtain ⟨hleft, hright⟩ := List.forall_mem_append.1 htext
    have hsign : Quoted (.mark :: .expr r :: ws) (p :: ps) :=
      .cons (Nat.zero_le _) (fun _ => trivial) (ihr (List.forall_mem_cons.1 hright).2)
    refine .of_items [.expr l, .mark, .expr r] ?_ (fun hitems => .node (List.forall_mem_nil _) ?_)
      ((ihl hleft).append hsign)
    · simp (disch := decide) [Item.quoting, Expr.print, Text.quoting_append, Text.quoting_ofString,
        quoting_binSymbol hop]
    · simpa [Item.Unquoted, Expr.children] using hitems
  | @unary op r p ws ps hop _ _ _ ih =>
    have hsign : Quoted (.mark :: .expr r :: ws) (p :: ps) :=
      .cons (Nat.zero_le _) (fun _ => trivial) (ih (List.forall_mem_cons.1 htext).2)
    refine .of_items [.mark, .expr r] ?_ (fun hitems => .node (List.forall_mem_nil _) ?_) hsign
    · simp (disch := decide) [Item.quoting, Expr.print, Text.quoting_append, Text.quoting_ofString,
        quoting_unarySymbol hop]
    · simpa [Item.Unquoted, Expr.children] using hitems
  | signed hprinted => cases hprinted

theorem sum_quoting_depths_le (d : Int) (ts : List Token) :
    ((depths d ts).map fun p => p.2.text.quoting).sum ≤ (ts.map fun t => t.text.quoting).sum := by
  induction ts generalizing d with
  | nil => exact Nat.le_refl _
  | cons t ts ih =>
    rw [depths, List.map_cons, List.sum_cons]
    split
    · exact Nat.le_add_left_of_le (ih (d + 1))
    · exact Nat.le_add_left_of_le (ih (d - 1))
    · rw [List.map_cons, List.sum_cons]
      exact Nat.add_le_add_left (ih d) _

/-- **A parsed tree comes back from its text exactly if every node is faithful.** -/
theorem parseExpr_print_iff {src : Text} {x : Expr} (h : parseExpr src = .ok x) :
    parseExpr x.print = .ok x ↔ x.All Expr.Faithful := by
  constructor
  · intro hprint
    obtain ⟨ts, hts, hx⟩ := parseExpr_iff.1 hprint
    have hlayout := (drawn_of_isExpr hx).laidOut.layout 0
    have hmem := List.mem_singleton_self (Item.expr x)
    have hkeys : x.All fun y => ∀ k ∈ y.keys, TokenText .symbol k := by
      refine (hlayout.quoted fun p hp => tokenText_of_tokenize hts _ (mem_of_mem_depths hp)).2 ?_ _ hmem
      exact Nat.le_trans (sum_quoting_depths_le 0 ts.items) (quoting_of_tokenize hts)
    -- the text is cut into tokens as it was printed, and there is one way to cut it
    have hspells := ((legible_of_parseExpr hprint).and hkeys).spells_drawn ends_empty
      (.nil fun ts hts => by rwa [List.append_nil])
    rw [Text.append_empty] at hspells
    obtain ⟨us, stop, hscan, hdrawn⟩ := hspells none {} rfl
    have htokens : tokenize x.print = .ok ⟨us, stop⟩ := tokenize_iff.2 hscan
    obtain rfl : ts = ⟨us, stop⟩ := Except.ok.inj (hts.symm.trans htokens)
    have hclosed := (hlayout.agree (hdrawn.laidOut.layout 0)).2 rfl x hmem
    exact (hclosed.and hkeys).mono fun _ => id
  · intro hfaithful
    exact parseExpr_print ((legible_of_parseExpr h).and hfaithful).spells

/-- `{"a": -(1 + 2)}`, whose key needs no quotes and whose minus sign stands before a sum. -/
def negatedSum : Expr := .dict [("a", .unary .neg (.bin .add (.lit .number "1") (.lit .number "2")))]

theorem faithful_negatedSum : negatedSum.All Expr.Faithful := by
  have hkey : TokenText .symbol "a" := tokenText_of_alone rfl
  have hsum : (Expr.bin .add (.lit .number "1") (.lit .number "2")).All Expr.Faithful := by
    refine .node ⟨⟨rfl, rfl⟩, nofun⟩ (List.forall_mem_cons.2 ⟨?_, List.forall_mem_singleton.2 ?_⟩)
    · exact .node ⟨trivial, nofun⟩ nofun
    · exact .node ⟨trivial, nofun⟩ nofun
  refine .node ⟨trivial, List.forall_mem_singleton.2 hkey⟩ (List.forall_mem_singleton.2 ?_)
  exact .node ⟨⟨rfl, fun _ => rfl⟩, nofun⟩ (List.forall_mem_singleton.2 hsum)

set_option maxRecDepth 20000 in
theorem parseExpr_print_iff_negatedSum :
    parseExpr "\x7b\"a\": -(1 + 2)\x7d" = .ok negatedSum ∧ negatedSum.All Expr.Faithful ∧
      negatedSum.print = "\x7ba: (-(1 + 2))\x7d" ∧ parseExpr negatedSum.print = .ok negatedSum := by
  have hparse : parseExpr "\x7b\"a\": -(1 + 2)\x7d" = .ok negatedSum := by cbv
  exact ⟨hparse, faithful_negatedSum, by cbv, (parseExpr_print_iff hparse).2 faithful_negatedSum⟩

end Syntax

end TinyScript
