import TinyScript.Proofs.Syntax.Printing

/-!
# How deep the tokens of an expression lie

`Layout printed ws ps` says that the tokens `ps`, none of them a parenthesis but each with its depth in parentheses,
are those of the things listed in `ws`. It is read off a derivation (`drawn_of_isExpr`) and off a printed text
(`Expr.All.spells_drawn`). The grammar wants parentheses around an open operand, so that it lies deeper than its
operator; the printer writes none. And the printer makes one token of a minus sign and a number without a sign. If a
tree is derived from its own text, neither is the case (`Layout.agree`).
-/

namespace TinyScript.Syntax

open Grammar List

variable {α : Type} {f : α → List Item} {i : Item} {P : Phrase α} {sep : Token → Prop} {r : Expr}

/-- Whether tokens of a class are parentheses. -/
def TokenKind.isParen : TokenKind → Bool
  | .leftParen | .rightParen => true
  | _ => false

/-- The tokens that are no parentheses, each with its depth. -/
def depths : Int → List Token → List (Int × Token)
  | _, [] => []
  | d, t :: ts =>
    match t.kind with
    | .leftParen => depths (d + 1) ts
    | .rightParen => depths (d - 1) ts
    | _ => (d, t) :: depths d ts

/-- A token that is no parenthesis lies as deep as those after it. -/
theorem depths_cons {t : Token} {kind : TokenKind} (ht : t.kind = kind) (hkind : kind.isParen = false) (d : Int)
    (ts : List Token) : depths d (t :: ts) = (d, t) :: depths d ts := by
  rw [depths, ht]
  cases kind with
  | leftParen | rightParen => cases hkind
  | _ => rfl

theorem depths_leftParen {t : Token} (ht : Mark .leftParen t) (d : Int) (ts : List Token) :
    depths d (t :: ts) = depths (d + 1) ts := by
  rw [depths, show t.kind = .leftParen from ht]

theorem depths_rightParen {t : Token} (ht : Mark .rightParen t) (d : Int) (ts : List Token) :
    depths d (t :: ts) = depths (d - 1) ts := by
  rw [depths, show t.kind = .rightParen from ht]

/-! ## What a node consists of -/

/-- What the tokens of an expression are tokens of. -/
inductive Item where
  | mark
  | name (n : Text)
  | key (k : Text)
  | expr (x : Expr)

/-- The items of several things with a mark between them. -/
def separated {α : Type} (f : α → List Item) : List α → List Item
  | [] => []
  | [x] => f x
  | x :: y :: xs => f x ++ .mark :: separated f (y :: xs)

theorem mem_separated {xs : List α} (hi : i ≠ .mark) :
    i ∈ separated f xs ↔ ∃ x ∈ xs, i ∈ f x := by
  induction xs using separated.induct with
  | case1 => simp [separated]
  | case2 x => simp [separated]
  | case3 x y xs ih => simp [separated, ih, hi]

/-- The items of a loop, behind the word `for`. -/
def loopItems (handle : Text) (iter : Expr) (filter : Option Expr) (body : Expr) : List Item :=
  [.name handle, .mark, .expr iter] ++ ((filter.toList.flatMap fun f => [.mark, .expr f]) ++ [.mark, .expr body])

namespace Expr

/-- Whether a node is one that `items` takes apart: it is no leaf and no operation, and lacks nothing. -/
def isForm : Expr → Bool
  | letIn assigns _ => !assigns.isEmpty
  | ifElse conds _ => !conds.isEmpty
  | call .. | list .. | dict .. | lambda .. | forIn .. | reduce .. | define .. => true
  | _ => false

/-- What a node consists of, from left to right. -/
def items : Expr → List Item
  | letIn assigns body =>
    .mark :: (separated (fun a => [.name a.1, .mark, .expr a.2]) assigns ++ [.mark, .expr body])
  | ifElse conds other =>
    .mark :: (separated (fun c => [.expr c.1, .mark, .expr c.2]) conds ++ [.mark, .expr other])
  | call callee args => .name callee :: separated (fun a => [.expr a]) args
  | list xs => .mark :: (separated (fun a => [.expr a]) xs ++ [.mark])
  | dict entries => .mark :: (separated (fun e => [.key e.1, .mark, .expr e.2]) entries ++ [.mark])
  | lambda params body => .mark :: (separated (fun p => [.name p]) params ++ [.mark, .expr body])
  | forIn handle iter filter body => .mark :: loopItems handle iter filter body
  | reduce carry init handle iter filter body =>
    .mark :: .name carry :: .mark :: .expr init :: .mark :: loopItems handle iter filter body
  | define name params body =>
    .mark :: .name name :: (separated (fun p => [.name p]) params ++ [.mark, .expr body])
  | _ => []

/-- What is inside a form is listed among its items. -/
theorem child_mem_items {x c : Expr} (hx : x.isForm) (hc : c ∈ x.children) : .expr c ∈ x.items := by
  cases x with
  | lit | lookup | bin | unary | missing => cases hx
  | ifElse conds other =>
    simp only [children, mem_append, mem_map, mem_singleton] at hc
    simp only [items, mem_cons, mem_append, mem_separated (Item.noConfusion : Item.expr c ≠ .mark)]
    rcases hc with (⟨p, hp, rfl⟩ | ⟨p, hp, rfl⟩) | rfl
    · exact .inr (.inl ⟨p, hp, .inl rfl⟩)
    · exact .inr (.inl ⟨p, hp, .inr (.inr (.inl rfl))⟩)
    · exact .inr (.inr (.inr (.inl rfl)))
  | _ => simpa [children, items, loopItems, mem_separated, eq_comm] using hc

theorem name_mem_items {x : Expr} (hx : x.isForm) {n : Text} (hn : n ∈ x.names) : .name n ∈ x.items := by
  cases x with
  | lit | lookup | bin | unary | missing => cases hx
  | ifElse | list | dict => cases hn
  | _ => simpa [names, items, loopItems, mem_separated, eq_comm] using hn

theorem key_mem_items {x : Expr} {k : Text} (hk : k ∈ x.keys) : .key k ∈ x.items := by
  cases x with
  | dict entries => simpa [keys, items, mem_separated, eq_comm] using hk
  | _ => cases hk

end Expr

/-! ## Layouts -/

/-- The first token, which is one of an open operand, lies deeper than its operator or, in a printed text,
as deep. -/
def Below (printed : Bool) (d : Int) (ps : List (Int × Token)) : Prop :=
  ∃ p ∈ ps.head?, if printed then p.1 = d else d < p.1

/-- The tokens are those of the items, in this order. -/
inductive Layout (printed : Bool) : List Item → List (Int × Token) → Prop
  | nil : Layout printed [] []
  | mark {p ws ps} : Layout printed ws ps → Layout printed (.mark :: ws) (p :: ps)
  | name {n p ws ps} : Ident p.2 → p.2.text = n → Layout printed ws ps → Layout printed (.name n :: ws) (p :: ps)
  | key {k p ws ps} : Mark .symbol p.2 ∧ p.2.text = k ∨ Mark .string p.2 ∧ Text.unquote p.2.text = k →
      Layout printed ws ps → Layout printed (.key k :: ws) (p :: ps)
  | leaf {x p ws ps} : Leaf p.2 x → Layout printed ws ps → Layout printed (.expr x :: ws) (p :: ps)
  | unit {x ws ps} : x = .lit .unit "()" → Layout printed ws ps → Layout printed (.expr x :: ws) ps
  | form {x ws ps} : x.isForm → Layout printed (x.items ++ ws) ps → Layout printed (.expr x :: ws) ps
  | bin {op l r p ls ws ps} : (∀ n, op ≠ .other n) → Layout printed [.expr l] ls →
      (l.isOpen → Below printed p.1 ls) → Layout printed (.expr r :: ws) ps →
      (r.isOpen → Below printed p.1 ps) → Layout printed (.expr (.bin op l r) :: ws) (ls ++ p :: ps)
  | unary {op r p ws ps} : (∀ n, op ≠ .other n) → (printed → op = .neg → r.isUnsigned = false) →
      Layout printed (.expr r :: ws) ps → (r.isOpen → Below printed p.1 ps) →
      Layout printed (.expr (.unary op r) :: ws) (p :: ps)
  | signed {r p ws ps} : printed → r.isUnsigned → Layout printed ws ps →
      Layout printed (.expr (.unary .neg r) :: ws) (p :: ps)

section Layouts

variable {printed : Bool} {ws vs : List Item} {ps qs : List (Int × Token)}

theorem Below.append {d : Int} (h : Below printed d ps) : Below printed d (ps ++ qs) := by
  obtain ⟨p, hp, hd⟩ := h
  cases ps with
  | nil => cases hp
  | cons q ps => exact ⟨p, hp, hd⟩

/-- Things one after the other. -/
theorem Layout.append (h : Layout printed ws ps) (h' : Layout printed vs qs) :
    Layout printed (ws ++ vs) (ps ++ qs) := by
  induction h with
  | nil => exact h'
  | mark _ ih => exact .mark ih
  | name hp hn _ ih => exact .name hp hn ih
  | key hp _ ih => exact .key hp ih
  | leaf hx _ ih => exact .leaf hx ih
  | unit hx _ ih => exact .unit hx ih
  | form hx _ ih => exact .form hx (by rwa [append_assoc] at ih)
  | bin hop hl hopen _ hopen' _ ih =>
    rw [append_assoc, cons_append]
    exact .bin hop hl hopen ih fun hr => (hopen' hr).append
  | unary hop hneg _ hopen ih => exact .unary hop hneg ih fun hr => (hopen hr).append
  | signed hprinted hr _ ih => exact .signed hprinted hr ih

end Layouts

/-! ## Phrases -/

/-- The tokens of a phrase end at the depth where they begin, and are those of the items. -/
structure LaidOut (printed : Bool) (ws : List Item) (ts : List Token) : Prop where
  even : ∀ d rest, depths d (ts ++ rest) = depths d ts ++ depths d rest
  layout : ∀ d, Layout printed ws (depths d ts)

/-- The tokens are those of an expression. If it is open, its first token lies at the depth where the phrase begins
or, in a text that was not printed, deeper. -/
structure Drawn (printed : Bool) (ts : List Token) (x : Expr) : Prop where
  laidOut : LaidOut printed [.expr x] ts
  first : x.isOpen → ∀ d, ∃ p ∈ (depths d ts).head?, if printed then p.1 = d else d ≤ p.1

section Phrases

variable {printed : Bool} {ws vs : List Item} {t u : Token} {ts us : List Token} {kind : TokenKind}

namespace LaidOut

theorem nil : LaidOut printed [] [] := ⟨fun _ _ => rfl, fun _ => .nil⟩

theorem append (h : LaidOut printed ws ts) (h' : LaidOut printed vs us) : LaidOut printed (ws ++ vs) (ts ++ us) where
  even d rest := by rw [append_assoc, h.even, h'.even, h.even d us, append_assoc]
  layout d := by
    rw [h.even]
    exact (h.layout d).append (h'.layout d)

/-- A token in front of what is laid out. -/
theorem cons (ht : t.kind = kind) (hkind : kind.isParen = false)
    (hi : ∀ {d ps}, Layout printed ws ps → Layout printed (i :: ws) ((d, t) :: ps)) (h : LaidOut printed ws ts) :
    LaidOut printed (i :: ws) (t :: ts) where
  even d rest := by
    rw [cons_append, depths_cons ht hkind, depths_cons ht hkind, h.even, cons_append]
  layout d := by
    rw [depths_cons ht hkind]
    exact hi (h.layout d)

theorem mark (ht : t.kind = kind) (hkind : kind.isParen = false) (h : LaidOut printed ws ts) :
    LaidOut printed (.mark :: ws) (t :: ts) := h.cons ht hkind .mark

theorem name (ht : Ident t) (h : LaidOut printed ws ts) : LaidOut printed (.name t.text :: ws) (t :: ts) :=
  h.cons ht.1 rfl (.name ht rfl)

/-- Parentheses add to the depth and are no tokens of the layout. -/
theorem parens (ht : Mark .leftParen t) (h : LaidOut printed ws ts) (hu : Mark .rightParen u) :
    LaidOut printed ws (t :: (ts ++ [u])) := by
  have hdepths (d : Int) (rest : List Token) :
      depths d (t :: (ts ++ [u]) ++ rest) = depths (d + 1) ts ++ depths d rest := by
    rw [cons_append, depths_leftParen ht, append_assoc, h.even, singleton_append,
      depths_rightParen hu, Int.add_sub_cancel]
  have hown (d : Int) : depths d (t :: (ts ++ [u])) = depths (d + 1) ts := by
    simpa [depths] using hdepths d []
  refine ⟨fun d rest => ?_, fun d => ?_⟩
  · rw [hdepths, hown]
  · rw [hown]
    exact h.layout (d + 1)

/-- A form is laid out as its items are. -/
theorem form {x : Expr} (hx : x.isForm) (h : LaidOut printed x.items ts) : LaidOut printed [.expr x] ts :=
  ⟨h.even, fun d => .form hx (by rw [append_nil]; exact h.layout d)⟩

theorem separated {xs : List α}
    (h : Separated sep P ts xs) (hsep : ∀ t, sep t → t.kind = kind) (hkind : kind.isParen = false)
    (hP : ∀ ts x, P ts x → LaidOut printed (f x) ts) :
    LaidOut printed (Syntax.separated f xs) ts := by
  induction h with
  | one hx => exact hP _ _ hx
  | @cons ts us t x xs hx ht hxs ih =>
    cases xs with
    | nil => cases hxs
    | cons y xs => exact (hP _ _ hx).append (ih.mark (hsep t ht) hkind)

theorem listed {xs : List α}
    (h : Listed P ts xs) (hP : ∀ ts x, P ts x → LaidOut printed (f x) ts) :
    LaidOut printed (Syntax.separated f xs) ts := by
  cases h with
  | none => exact nil
  | some h => exact separated h (fun _ => id) rfl hP

theorem params {ns : List Text} (h : Params ts ns) :
    LaidOut printed (Syntax.separated (fun n => [.name n]) ns) ts := by
  cases h with
  | mk ht hns hu =>
    refine parens ht (listed hns fun ts n hn => ?_) hu
    cases hn with
    | mk hn => exact nil.name hn

theorem exprs {xs : List Expr} (h : Listed (Drawn printed) ts xs) :
    LaidOut printed (Syntax.separated (fun x => [.expr x]) xs) ts := listed h fun _ _ => Drawn.laidOut

theorem assign {a : Text × Expr} (h : Assign (Drawn printed) ts a) :
    LaidOut printed [.name a.1, .mark, .expr a.2] ts := by
  cases h with
  | mk hn ht hx => exact (hx.laidOut.mark ht.1 rfl).name hn

theorem entry {e : Text × Expr} (h : Grammar.Entry (Drawn printed) ts e) :
    LaidOut printed [.key e.1, .mark, .expr e.2] ts := by
  cases h with
  | symbol ht hu hx => exact (hx.laidOut.mark hu rfl).cons ht rfl (.key (.inl ⟨ht, rfl⟩))
  | string ht hu hx => exact (hx.laidOut.mark hu rfl).cons ht rfl (.key (.inr ⟨ht, rfl⟩))

theorem branch {c : Expr × Expr} (h : Branch (Drawn printed) ts c) :
    LaidOut printed [.expr c.1, .mark, .expr c.2] ts := by
  cases h with
  | mk hc ht hx => exact hc.laidOut.append (hx.laidOut.mark ht.1 rfl)

theorem loop {l : Parse.Loop} (h : Grammar.Loop (Drawn printed) ts l) :
    LaidOut printed (loopItems l.handle l.iter l.filter l.body) ts := by
  cases h with
  | mk hn ht hiter hfilter hu hbody =>
    refine ((hiter.laidOut.append ?_).mark ht.1 rfl).name hn
    have hrest := hbody.laidOut.mark hu.1 rfl
    cases hfilter with
    | none => exact hrest
    | some ht hf => exact (hf.laidOut.append hrest).mark ht.1 rfl

end LaidOut

/-- A keyword is the first token of an open expression. -/
theorem Drawn.of_mark {x : Expr} (h : LaidOut printed [.expr x] (t :: ts)) (ht : t.kind = kind)
    (hkind : kind.isParen = false) : Drawn printed (t :: ts) x := by
  refine ⟨h, fun _ d => ⟨(d, t), by rw [depths_cons ht hkind]; rfl, ?_⟩⟩
  cases printed with
  | false => exact Int.le_refl d
  | true => rfl

/-- Where a closed expression begins does not matter. -/
theorem Drawn.of_closed {x : Expr} (h : LaidOut printed [.expr x] ts) (hx : x.isOpen = false) : Drawn printed ts x :=
  ⟨h, fun hopen => by rw [hx] at hopen; cases hopen⟩

theorem isEmpty_of_separated {xs : List α} (h : Separated sep P ts xs) :
    xs.isEmpty = false := by
  cases h <;> rfl

/-- A node that is no operation is laid out alike in every text. -/
theorem Drawn.of_written {x : Expr} (h : Written (Drawn printed) ts x) : Drawn printed ts x := by
  cases h with
  | @leaf t x h =>
    have hkind : t.kind.isParen = false := by
      cases h with
      | number h => rcases h with h | h <;> rw [show t.kind = _ from h] <;> rfl
      | string h => rw [show t.kind = _ from h]; rfl
      | truth h => rcases h with h | h <;> rw [h.1] <;> rfl
      | nil h | lookup h => rw [h.1]; rfl
    exact .of_mark (LaidOut.nil.cons rfl hkind (.leaf h)) rfl hkind
  | unit ht hu =>
    have hempty : LaidOut printed [.expr (.lit .unit "()")] [] := ⟨fun _ _ => rfl, fun _ => .unit rfl .nil⟩
    exact .of_closed (hempty.parens ht hu) rfl
  | call hn ht hxs hu => exact .of_closed (.form rfl (((LaidOut.exprs hxs).parens ht hu).name hn)) rfl
  | list ht hxs hu =>
    exact .of_closed (.form rfl (((LaidOut.exprs hxs).append (LaidOut.nil.mark hu rfl)).mark ht rfl)) rfl
  | dict ht hes hu =>
    have hes := LaidOut.listed hes fun _ _ => LaidOut.entry
    exact .of_closed (.form rfl ((hes.append (LaidOut.nil.mark hu rfl)).mark ht rfl)) rfl
  | letIn ht hs hu hb =>
    have hassigns := LaidOut.separated hs (fun _ => id) rfl fun _ _ => LaidOut.assign
    have hform := (hassigns.append (hb.laidOut.mark hu.1 rfl)).mark ht.1 rfl
    exact .of_mark (.form (by rw [Expr.isForm, isEmpty_of_separated hs]; rfl) hform) ht.1 rfl
  | ifElse ht hs hu hb =>
    have hconds := LaidOut.separated hs (fun _ => And.left) rfl fun _ _ => LaidOut.branch
    have hform := (hconds.append (hb.laidOut.mark hu.1 rfl)).mark ht.1 rfl
    exact .of_mark (.form (by rw [Expr.isForm, isEmpty_of_separated hs]; rfl) hform) ht.1 rfl
  | forIn ht hl => exact .of_mark (.form rfl ((LaidOut.loop hl).mark ht.1 rfl)) ht.1 rfl
  | reduce ht hn hu hi hv hl =>
    have hrest := hi.laidOut.append ((LaidOut.loop hl).mark hv.1 rfl)
    exact .of_mark (.form rfl (((hrest.mark hu.1 rfl).name hn).mark ht.1 rfl)) ht.1 rfl
  | lambda ht hps hu hb =>
    have hform := (LaidOut.params hps).append (hb.laidOut.mark hu.1 rfl)
    exact .of_mark (.form rfl (hform.mark ht.1 rfl)) ht.1 rfl
  | define hd =>
    cases hd with
    | mk ht hn hps hu hb =>
      have hform := (LaidOut.params hps).append (hb.laidOut.mark hu.1 rfl)
      exact .of_mark (.form rfl ((hform.name hn).mark ht.1 rfl)) ht.1 rfl

end Phrases

/-! ## Operations -/

/-- The tokens are those of an operand. -/
structure Operand (printed : Bool) (ts : List Token) (x : Expr) : Prop where
  laidOut : LaidOut printed [.expr x] ts
  below : x.isOpen → ∀ d, Below printed d (depths d ts)

section Operations

variable {k : Nat} {printed : Bool} {t u : Token} {ts us : List Token} {x : Expr}

theorem Operand.unary {op : UnaryOp} (h : Operand printed ts x) (hop : ∀ n, op ≠ .other n)
    (hneg : printed → op = .neg → x.isUnsigned = false) (ht : t.kind = .operator) :
    LaidOut printed [.expr (.unary op x)] (t :: ts) where
  even d rest := by
    rw [cons_append, depths_cons ht rfl, depths_cons ht rfl, h.laidOut.even, cons_append]
  layout d := by
    rw [depths_cons ht rfl]
    exact .unary hop hneg (h.laidOut.layout d) fun hopen => h.below hopen d

theorem declared_of_joins {op : BinOp} (h : Joins k op t) : ∀ n, op ≠ .other n := by
  obtain ⟨-, row, hrow, -, hmem⟩ := h
  have hall : ∀ row ∈ operatorLevels, ∀ e ∈ row, e.2 ≠ .other e.2.code := by decide
  rintro n rfl
  exact hall row (mem_of_getElem? hrow) _ hmem rfl

/-- Two operands and the operator between them. -/
theorem Operand.bin {op : BinOp} {l : Expr} (hl : Operand printed ts l) (ht : Joins k op t)
    (hr : Operand printed us r) : LaidOut printed [.expr (.bin op l r)] (ts ++ t :: us) := by
  have hdepths (d : Int) (rest : List Token) : depths d (t :: rest) = (d, t) :: depths d rest := by
    rcases ht.1 with hkind | hkind <;> exact depths_cons hkind rfl d rest
  refine ⟨fun d rest => ?_, fun d => ?_⟩
  · rw [append_assoc, hl.laidOut.even, hl.laidOut.even, cons_append, hdepths, hdepths, hr.laidOut.even,
      append_assoc, cons_append]
  · rw [hl.laidOut.even, hdepths]
    exact .bin (declared_of_joins ht) (hl.laidOut.layout d) (fun hopen => hl.below hopen d) (hr.laidOut.layout d)
      fun hopen => hr.below hopen d

/-! ## Texts that are read -/

theorem Operand.of_closed (h : LaidOut printed [.expr x] ts) (hx : x.isOpen = false) : Operand printed ts x :=
  ⟨h, fun hopen => by rw [hx] at hopen; cases hopen⟩

theorem Operand.of_written (h : Written (Drawn printed) ts x) (hx : x.isOpen = false) : Operand printed ts x :=
  .of_closed (Drawn.of_written h).laidOut hx

theorem Operand.drawn (h : Operand false ts x) : Drawn false ts x := by
  refine ⟨h.laidOut, fun hopen d => ?_⟩
  obtain ⟨p, hp, hd⟩ := h.below hopen d
  exact ⟨p, hp, Int.le_of_lt hd⟩

/-- In parentheses everything is an operand. -/
theorem Operand.parens (ht : Mark .leftParen t) (h : Drawn false ts x) (hu : Mark .rightParen u) :
    Operand false (t :: (ts ++ [u])) x := by
  refine ⟨h.laidOut.parens ht hu, fun hopen d => ?_⟩
  obtain ⟨p, hp, hd⟩ := h.first hopen (d + 1)
  rw [depths_leftParen ht, h.laidOut.even, depths_rightParen hu, depths, append_nil]
  exact ⟨p, hp, Int.lt_of_add_one_le hd⟩

/-! ### Derivations

The phrases of the grammar are one family, so the induction is on the number of tokens and not on the derivation.
There is one lemma for each kind of phrase: if what its expressions are derived from is laid out like them, it
is so of the phrase. -/

/-- Whatever is derived from fewer tokens is laid out like it. -/
def DrawnBelow (n : Nat) (E : Phrase Expr) : Prop := ∀ {ts x}, ts.length < n → E ts x → Drawn false ts x

section Derivations

variable {E : Phrase Expr} {n : Nat}

theorem DrawnBelow.mono (hE : DrawnBelow n E) {n' : Nat} (hn : n' ≤ n) : DrawnBelow n' E :=
  fun hlen => hE (Nat.lt_of_lt_of_le hlen hn)

/-- Only phrases that are no longer than the whole matter. -/
theorem separated_imp {Q : Phrase α} {xs : List α} (h : Separated sep P ts xs)
    (hPQ : ∀ us x, us.length ≤ ts.length → P us x → Q us x) : Separated sep Q ts xs := by
  induction h with
  | one hx => exact .one (hPQ _ _ (Nat.le_refl _) hx)
  | cons hx ht _ ih =>
    refine .cons (hPQ _ _ ?_ hx) ht (ih fun us x hlen => hPQ us x (Nat.le_trans hlen ?_)) <;> grind

theorem listed_imp {Q : Phrase α} {xs : List α} (h : Listed P ts xs)
    (hPQ : ∀ us x, us.length ≤ ts.length → P us x → Q us x) : Listed Q ts xs := by
  cases h with
  | none => exact .none
  | some h => exact .some (separated_imp h hPQ)

theorem drawn_assign {a : Text × Expr} (hE : DrawnBelow ts.length E) (h : Assign E ts a) :
    Assign (Drawn false) ts a := by
  cases h with
  | mk hn ht hx => exact .mk hn ht (hE (by grind) hx)

theorem drawn_branch {c : Expr × Expr} (hE : DrawnBelow ts.length E) (h : Branch E ts c) :
    Branch (Drawn false) ts c := by
  cases h with
  | mk hc ht hx => exact .mk (hE (by grind) hc) ht (hE (by grind) hx)

theorem drawn_entry {e : Text × Expr} (hE : DrawnBelow ts.length E) (h : Grammar.Entry E ts e) :
    Grammar.Entry (Drawn false) ts e := by
  cases h with
  | symbol ht hu hx => exact .symbol ht hu (hE (by grind) hx)
  | string ht hu hx => exact .string ht hu (hE (by grind) hx)

theorem drawn_loop {l : Parse.Loop} (hE : DrawnBelow ts.length E) (h : Grammar.Loop E ts l) :
    Grammar.Loop (Drawn false) ts l := by
  cases h with
  | mk hn ht hiter hfilter hu hbody =>
    refine .mk hn ht (hE (by grind) hiter) ?_ hu (hE (by grind) hbody)
    cases hfilter with
    | none => exact .none
    | some ht hf => exact .some ht (hE (by grind) hf)

theorem drawn_definition {d : Def} (hE : DrawnBelow ts.length E) (h : Definition E ts d) :
    Definition (Drawn false) ts d := by
  cases h with
  | mk ht hn hps hu hb => exact .mk ht hn hps hu (hE (by grind) hb)

theorem Operand.of_primary (hE : DrawnBelow ts.length E) (h : Primary E ts x) : Operand false ts x := by
  have hexprs {us : List Token} {xs : List Expr} (h : Listed E us xs) (hlen : us.length < ts.length) :
      Listed (Drawn false) us xs := listed_imp h fun _ _ hle => hE (Nat.lt_of_le_of_lt hle hlen)
  cases h with
  | number h => exact .of_written (.leaf (.number h)) rfl
  | string h => exact .of_written (.leaf (.string h)) rfl
  | truth h => exact .of_written (.leaf (.truth h)) rfl
  | nil h => exact .of_written (.leaf (.nil h)) rfl
  | unit ht hu => exact .of_written (.unit ht hu) rfl
  | parens ht h hu => exact .parens ht (hE (by grind) h) hu
  | lookup h => exact .of_written (.leaf (.lookup h)) rfl
  | call hn ht hxs hu => exact .of_written (.call hn ht (hexprs hxs (by grind)) hu) rfl
  | list ht hxs hu => exact .of_written (.list ht (hexprs hxs (by grind)) hu) rfl
  | dict ht hes hu =>
    refine .of_written (.dict ht (listed_imp hes fun _ _ hle => drawn_entry (hE.mono ?_)) hu) rfl
    grind

theorem Operand.of_unary (hE : DrawnBelow ts.length E) (h : Unary E ts x) : Operand false ts x := by
  induction h with
  | neg ht _ ih => exact .of_closed ((ih (hE.mono (Nat.le_succ _))).unary nofun nofun ht.1) rfl
  | not ht _ ih => exact .of_closed ((ih (hE.mono (Nat.le_succ _))).unary nofun nofun ht.1) rfl
  | primary h => exact .of_primary hE h

/-- Whatever is derived next to an operator is an operand. -/
theorem Operand.of_level (hE : DrawnBelow ts.length E) (h : Level E k ts x) : Operand false ts x := by
  induction h with
  | unary h => exact .of_unary hE h
  | operand _ _ ih => exact ih hE
  | join _ ht _ ihl ihr =>
    have hl := ihl (hE.mono (by grind))
    have hr := ihr (hE.mono (by grind))
    exact .of_closed (hl.bin ht hr) rfl

end Derivations

/-- **What an expression is derived from is laid out like it.** -/
theorem drawn_of_isExpr (h : IsExpr ts x) : Drawn false ts x := by
  induction hn : ts.length using Nat.strongRecOn generalizing ts x with
  | ind n ih =>
    subst hn
    have hE : DrawnBelow ts.length IsExpr := fun {us y} hlen hy => ih us.length hlen hy rfl
    cases h with
    | letIn ht hs hu hb =>
      have hassigns := separated_imp hs fun us a hle => drawn_assign (hE.mono (by grind))
      exact .of_written (.letIn ht hassigns hu (hE (by grind) hb))
    | ifElse ht hs hu hb =>
      have hconds := separated_imp hs fun us c hle => drawn_branch (hE.mono (by grind))
      exact .of_written (.ifElse ht hconds hu (hE (by grind) hb))
    | forIn ht hl => exact .of_written (.forIn ht (drawn_loop (hE.mono (Nat.le_succ _)) hl))
    | reduce ht hn hu hi hv hl =>
      have hloop := drawn_loop (hE.mono (by grind)) hl
      exact .of_written (.reduce ht hn hu (hE (by grind) hi) hv hloop)
    | lambda ht hps hu hb => exact .of_written (.lambda ht hps hu (hE (by grind) hb))
    | define hd => exact .of_written (.define (drawn_definition hE hd))
    | binary h => exact (Operand.of_level hE h).drawn

/-! ## Texts that are printed -/

/-- A printed operand stands as it is. -/
theorem Drawn.operand (h : Drawn true ts x) : Operand true ts x := ⟨h.laidOut, h.first⟩

theorem Drawn.of_bin {op : BinOp} {l : Expr} (h : Bracketed (Drawn true) ts (.bin op l r)) :
    Drawn true ts (.bin op l r) := by
  cases h with
  | bin hp hl ht hr hu =>
    have hlaid := (hl.operand.bin ht hr.operand).parens hp hu
    rw [append_assoc, cons_append] at hlaid
    exact .of_closed hlaid rfl

theorem Drawn.of_unary {op : UnaryOp} (h : Bracketed (Drawn true) ts (.unary op r))
    (hop : ∀ n, op ≠ .other n) (hneg : op = .neg → r.isUnsigned = false) : Drawn true ts (.unary op r) := by
  cases h with
  | unary hp ht hr hu => exact .of_closed ((hr.operand.unary hop (fun _ => hneg) ht.1).parens hp hu) rfl

end Operations

/-- A minus sign and a number without a sign become one token. -/
theorem spells_signed (hr : r.Legible) (hunsigned : r.isUnsigned) :
    Spells (Expr.unary .neg r).print fun ts => Drawn true ts (.unary .neg r) := by
  cases r with
  | lit kind raw =>
    cases kind with
    | number =>
      obtain ⟨kind, cs, hkind, hcs, rfl⟩ : ∃ kind cs, (kind = .decimal ∨ kind = .float) ∧
          IsNumber kind true ('-' :: cs) ∧ raw = Text.ofChars cs := by
        have hnumber {kind : TokenKind} (hkind : kind = .decimal ∨ kind = .float) (hraw : TokenText kind raw) :
            ∃ cs, IsNumber kind true ('-' :: cs) ∧ raw = Text.ofChars cs := by
          obtain ⟨signed, cs, hcs, rfl⟩ := hraw.number hkind
          cases hcs with
          | unsigned hc hnumber =>
            simp only [beginsNumber, Bool.and_eq_true] at hc
            exact ⟨_, .signed (by simpa using hc.1.1.1) hnumber, rfl⟩
          | signed _ _ => simp [Expr.isUnsigned, Text.chars_ofChars] at hunsigned
        rcases hr with hraw | hraw
        · exact ⟨_, _, .inl rfl, (hnumber (.inl rfl) hraw).choose_spec⟩
        · exact ⟨_, _, .inr rfl, (hnumber (.inr rfl) hraw).choose_spec⟩
      intro rest Q hrest hlex
      simp only [Expr.print, UnaryOp.symbol, Text.append_assoc]
      refine lexes_mark rfl rfl ?_
      rw [Text.chars_ofString_append, Text.chars_ofChars_append, ← append_assoc]
      refine Lexes.number hcs (fun _ => rfl) (ends_append rfl _).not_number ?_
      refine lexes_mark rfl rfl (hlex.mono ?_)
      intro us hus u hu t ht _ p hp
      have hparen : kind.isParen = false := by rcases hkind with rfl | rfl <;> rfl
      have hlaid := LaidOut.nil.cons ht hparen (.signed rfl hunsigned)
      exact hus _ (.of_closed (hlaid.parens hp hu) rfl)
    | _ => cases hunsigned
  | _ => cases hunsigned

/-- **What a legible tree is printed as is laid out like it**, if its keys need no quotes. -/
theorem Expr.All.spells_drawn {x : Expr} (h : x.All fun y => y.Legible ∧ ∀ k ∈ y.keys, TokenText .symbol k) :
    Spells x.print fun ts => Drawn true ts x := by
  induction h with
  | @node x hx hc ih =>
    cases x with
    | bin op l r =>
      have hl := ih l mem_cons_self
      have hr := ih r (mem_cons_of_mem _ (mem_singleton_self r))
      exact (spells_bin hx.1 hl hr).mono fun ts => .of_bin
    | unary op r =>
      have hr := mem_singleton_self r
      by_cases hsigned : op = .neg ∧ r.isUnsigned
      · obtain ⟨rfl, hunsigned⟩ := hsigned
        exact spells_signed (hc r hr).own.1 hunsigned
      · have hneg (hop : op = .neg) : r.isUnsigned = false := Bool.eq_false_iff.2 fun hu => hsigned ⟨hop, hu⟩
        exact (spells_unary hx.1 hneg (hc r hr).own.1 (ih r hr)).mono fun ts hts => .of_unary hts hx.1 hneg
    | _ => exact (spells_written hx.1 rfl hx.2 ih).mono fun ts => .of_written

/-! ## Comparison -/

/-- Of the tokens of the same items, a printed text has no more; and if it has the same ones, the expressions are
closed throughout. -/
def Agree (ws : List Item) (ps qs : List (Int × Token)) : Prop :=
  qs.length ≤ ps.length ∧ (qs = ps → ∀ x, .expr x ∈ ws → x.All Expr.Closed)

theorem Agree.cons {ws : List Item} {p q : Int × Token} {ps qs : List (Int × Token)} (h : Agree ws ps qs)
    (hi : ∀ x, i = .expr x → x.All Expr.Closed) : Agree (i :: ws) (p :: ps) (q :: qs) := by
  refine ⟨Nat.succ_le_succ h.1, fun heq x hx => ?_⟩
  rcases List.mem_cons.1 hx with rfl | hx
  · exact hi x rfl
  · exact h.2 (List.cons.inj heq).2 x hx

/-- The first token lies deeper, or as deep, and not both. -/
theorem Below.elim {d : Int} {ps : List (Int × Token)} (h : Below false d ps) (h' : Below true d ps) : False := by
  obtain ⟨p, hp, hd⟩ := h
  obtain ⟨q, hq, hd'⟩ := h'
  obtain rfl := Option.some.inj (hp.symm.trans hq)
  exact absurd hd' (Int.ne_of_gt hd)

theorem Expr.closed_of_isForm {x : Expr} (hx : x.isForm) : x.Closed := by
  cases x with
  | bin | unary => cases hx
  | _ => trivial

theorem Leaf.not_form {t : Token} {x : Expr} (h : Leaf t x) : x.isForm = false := by
  cases h <;> rfl

/-- A leaf has no operands. -/
theorem Leaf.closed {t : Token} {x : Expr} (h : Leaf t x) : x.All Expr.Closed := by
  cases h <;> exact .node trivial nofun

theorem exists_leaf_of_isUnsigned {x : Expr} (hx : x.isUnsigned) : ∃ t, Leaf t x := by
  cases x with
  | lit kind raw =>
    cases kind with
    | number => exact ⟨⟨.decimal, raw, {}⟩, .number (.inl rfl)⟩
    | _ => cases hx
  | _ => cases hx

/-- By induction on the layout of the text that was read; the item at the front says how the layout of the printed
text begins. -/
theorem Layout.agree {ws : List Item} {ps qs : List (Int × Token)} (h : Layout false ws ps) (h' : Layout true ws qs) :
    Agree ws ps qs := by
  induction h generalizing qs with
  | nil =>
    cases h'
    exact ⟨Nat.le_refl _, fun _ _ hx => nomatch hx⟩
  | mark _ ih =>
    cases h' with
    | mark h' => exact (ih h').cons nofun
  | name _ _ _ ih =>
    cases h' with
    | name _ _ h' => exact (ih h').cons nofun
  | key _ _ ih =>
    cases h' with
    | key _ h' => exact (ih h').cons nofun
  | leaf hx _ ih =>
    cases h' with
    | leaf _ h' => exact (ih h').cons fun y hy => Item.expr.inj hy ▸ hx.closed
    | unit hunit _ => subst hunit; cases hx
    | form hform _ => rw [hx.not_form] at hform; cases hform
    | bin | unary | signed => cases hx
  | unit hx _ ih =>
    subst hx
    cases h' with
    | leaf hleaf _ => cases hleaf
    | unit _ h' =>
      refine ⟨(ih h').1, fun heq x hx => ?_⟩
      rcases List.mem_cons.1 hx with hx | hx
      · exact Item.expr.inj hx ▸ .node trivial nofun
      · exact (ih h').2 heq x hx
    | form hform _ => cases hform
  | @form x ws ps hx _ ih =>
    cases h' with
    | leaf hleaf _ => rw [hleaf.not_form] at hx; cases hx
    | unit hunit _ => subst hunit; cases hx
    | form _ h' =>
      obtain ⟨hlen, hall⟩ := ih h'
      refine ⟨hlen, fun heq y hy => ?_⟩
      rcases List.mem_cons.1 hy with hy | hy
      · obtain rfl := Item.expr.inj hy
        refine .node (Expr.closed_of_isForm hx) fun c hc => hall heq c ?_
        exact mem_append_left _ (Expr.child_mem_items hx hc)
      · exact hall heq y (mem_append_right _ hy)
    | bin | unary | signed => cases hx
  | @bin op l r p ls ws ps _ _ hopenl _ hopenr ihl ihr =>
    cases h' with
    | leaf hleaf _ => cases hleaf
    | unit hunit _ => cases hunit
    | form hform _ => cases hform
    | @bin _ _ _ p' ls' _ qs _ hl' hopenl' hr' hopenr' =>
      obtain ⟨hlenl, hl⟩ := ihl hl'
      obtain ⟨hlenr, hr⟩ := ihr hr'
      refine ⟨by simp only [length_append, length_cons]; omega, fun heq y hy => ?_⟩
      have hlen := congrArg List.length heq
      simp only [length_append, length_cons] at hlen
      obtain ⟨rfl, htail⟩ := append_inj heq (by omega)
      obtain ⟨rfl, rfl⟩ := List.cons.inj htail
      have hl := hl rfl l (mem_singleton_self _)
      rcases List.mem_cons.1 hy with hy | hy
      · obtain rfl := Item.expr.inj hy
        have hclosedl : l.isOpen = false := Bool.eq_false_iff.2 fun hopen => (hopenl hopen).elim (hopenl' hopen)
        have hclosedr : r.isOpen = false := Bool.eq_false_iff.2 fun hopen => (hopenr hopen).elim (hopenr' hopen)
        exact .node ⟨hclosedl, hclosedr⟩
          (List.forall_mem_cons.2 ⟨hl, List.forall_mem_singleton.2 (hr rfl r mem_cons_self)⟩)
      · exact hr rfl y (mem_cons_of_mem _ hy)
  | @unary op r p ws ps _ _ _ hopen ih =>
    cases h' with
    | leaf hleaf _ => cases hleaf
    | unit hunit _ => cases hunit
    | form hform _ => cases hform
    | unary _ hneg h' hopen' =>
      obtain ⟨hlen, hr⟩ := ih h'
      refine ⟨Nat.succ_le_succ hlen, fun heq y hy => ?_⟩
      obtain ⟨rfl, rfl⟩ := List.cons.inj heq
      rcases List.mem_cons.1 hy with hy | hy
      · obtain rfl := Item.expr.inj hy
        have hclosed : r.isOpen = false := Bool.eq_false_iff.2 fun hr => (hopen hr).elim (hopen' hr)
        exact .node ⟨hclosed, hneg rfl⟩ (List.forall_mem_singleton.2 (hr rfl r mem_cons_self))
      · exact hr rfl y (mem_cons_of_mem _ hy)
    | @signed _ p' _ qs _ hunsigned h' =>
      -- were the number a token of its own, the printed text would still have no more tokens
      obtain ⟨t, hleaf⟩ := exists_leaf_of_isUnsigned hunsigned
      have hlen := (ih (.leaf (p := (0, t)) hleaf h')).1
      rw [length_cons] at hlen
      refine ⟨Nat.le_succ_of_le hlen, fun heq => absurd (congrArg List.length heq) ?_⟩
      rw [length_cons, length_cons]
      omega
  | signed hprinted _ _ _ => cases hprinted

end TinyScript.Syntax
