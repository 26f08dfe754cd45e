import Mathlib.Logic.Basic
import TinyScript.Syntax.Expr
import TinyScript.Text.Utf8
import TinyScript.Proofs.Data.Datum

/-!
# Nodes of syntax trees

`Expr.children` are the expressions directly inside an expression, and `Expr.All Q` says that `Q` holds of
the expression and of everything inside it, however deep: in definitions, functions without a name and
loops alike. What a node has of its own are its names and, in a dict, its keys. `Expr.mapKeys` changes the
keys of all dicts and nothing else.
-/

namespace TinyScript.Syntax

namespace Expr

open List

/-- The expressions directly inside an expression. -/
def children : Expr → List Expr
  | lit _ _ | lookup _ | missing => []
  | bin _ l r => [l, r]
  | unary _ r => [r]
  | letIn assigns body => assigns.map Prod.snd ++ [body]
  | ifElse conds e => conds.map Prod.fst ++ conds.map Prod.snd ++ [e]
  | call _ args => args
  | list items => items
  | dict entries => entries.map Prod.snd
  | lambda _ body => [body]
  | forIn _ iter filter body => iter :: (filter.toList ++ [body])
  | reduce _ init _ iter filter body => init :: iter :: (filter.toList ++ [body])
  | define _ _ body => [body]

/-- The names that a node uses or gives. -/
def names : Expr → List Text
  | lookup name => [name]
  | letIn assigns _ => assigns.map Prod.fst
  | call callee _ => [callee]
  | lambda params _ => params
  | forIn handle _ _ _ => [handle]
  | reduce carry _ handle _ _ _ => [carry, handle]
  | define name params _ => name :: params
  | _ => []

/-- The keys of a dict. -/
def keys : Expr → List Text
  | dict entries => entries.map Prod.fst
  | _ => []

/-- A node as the parser builds them. -/
def Regular : Expr → Prop
  | lit kind raw => (∀ n, kind ≠ .other n) ∧ raw.isUtf8
  | bin op _ _ => ∀ n, op ≠ .other n
  | unary op _ => ∀ n, op ≠ .other n
  | missing => False
  | _ => True

/-- Something holds of every node of a tree. -/
inductive All (Q : Expr → Prop) : Expr → Prop
  | node {e : Expr} : Q e → (∀ c ∈ e.children, All Q c) → All Q e

namespace All

variable {Q R : Expr → Prop} {e c : Expr}

theorem own (h : All Q e) : Q e := by
  obtain ⟨h, -⟩ := h
  exact h

theorem child (h : All Q e) (hc : c ∈ e.children) : All Q c := by
  obtain ⟨-, h⟩ := h
  exact h c hc

theorem iff_children : All Q e ↔ Q e ∧ ∀ c ∈ e.children, All Q c :=
  ⟨fun h => ⟨h.own, fun _ hc => h.child hc⟩, fun h => .node h.1 h.2⟩

theorem mono (h : All Q e) (hQR : ∀ x, Q x → R x) : All R e := by
  induction h with
  | node h _ ih => exact .node (hQR _ h) ih

theorem and (h : All Q e) (h' : All R e) : All (fun x => Q x ∧ R x) e := by
  induction h with
  | node h _ ih => exact .node ⟨h, h'.own⟩ fun c hc => ih c hc (h'.child hc)

/-- Induction on a tree, with a hypothesis for everything directly inside a node and what is known of every
node at hand. -/
theorem byNode {P : Expr → Prop} {e : Expr} (h : All Q e)
    (lit : ∀ {kind raw}, Q (.lit kind raw) → P (.lit kind raw))
    (lookup : ∀ {name}, Q (.lookup name) → P (.lookup name))
    (bin : ∀ {op l r}, Q (.bin op l r) → P l → P r → P (.bin op l r))
    (unary : ∀ {op r}, Q (.unary op r) → P r → P (.unary op r))
    (letIn : ∀ {assigns body}, Q (.letIn assigns body) → (∀ a ∈ assigns, P a.2) → P body → P (.letIn assigns body))
    (ifElse : ∀ {conds other}, Q (.ifElse conds other) → (∀ c ∈ conds, P c.1) → (∀ c ∈ conds, P c.2) → P other →
      P (.ifElse conds other))
    (call : ∀ {callee args}, Q (.call callee args) → (∀ a ∈ args, P a) → P (.call callee args))
    (list : ∀ {items}, Q (.list items) → (∀ a ∈ items, P a) → P (.list items))
    (dict : ∀ {entries}, Q (.dict entries) → (∀ a ∈ entries, P a.2) → P (.dict entries))
    (lambda : ∀ {params body}, Q (.lambda params body) → P body → P (.lambda params body))
    (forIn : ∀ {handle iter filter body}, Q (.forIn handle iter filter body) → P iter → (∀ f ∈ filter, P f) →
      P body → P (.forIn handle iter filter body))
    (reduce : ∀ {carry init handle iter filter body}, Q (.reduce carry init handle iter filter body) → P init →
      P iter → (∀ f ∈ filter, P f) → P body → P (.reduce carry init handle iter filter body))
    (define : ∀ {name params body}, Q (.define name params body) → P body → P (.define name params body))
    (missing : Q .missing → P .missing) : P e := by
  induction h with
  | @node e h _ ih =>
    cases e <;> simp only [children, forall_mem_append, forall_mem_map, forall_mem_cons,
      not_mem_nil, false_implies, implies_true, and_true, Option.mem_toList] at ih
    case lit => exact lit h
    case lookup => exact lookup h
    case bin => exact bin h ih.1 ih.2
    case unary => exact unary h ih
    case letIn => exact letIn h ih.1 ih.2
    case ifElse => exact ifElse h ih.1.1 ih.1.2 ih.2
    case call => exact call h ih
    case list => exact list h ih
    case dict => exact dict h ih
    case lambda => exact lambda h ih
    case forIn => exact forIn h ih.1 ih.2.1 ih.2.2
    case reduce => exact reduce h ih.1 ih.2.1 ih.2.2.1 ih.2.2.2
    case define => exact define h ih
    case missing => exact missing h

end All

/-! ## Other keys -/

mutual

/-- The tree with other keys in its dicts. -/
def mapKeys (f : Text → Text) : Expr → Expr
  | lit kind raw => lit kind raw
  | lookup name => lookup name
  | bin op l r => bin op (l.mapKeys f) (r.mapKeys f)
  | unary op r => unary op (r.mapKeys f)
  | letIn assigns body => letIn (mapKeysValues f assigns) (body.mapKeys f)
  | ifElse conds e => ifElse (mapKeysConds f conds) (e.mapKeys f)
  | call callee args => call callee (mapKeysItems f args)
  | list items => list (mapKeysItems f items)
  | dict entries => dict ((mapKeysValues f entries).map fun e => (f e.1, e.2))
  | lambda params body => lambda params (body.mapKeys f)
  | forIn handle iter filter body => forIn handle (iter.mapKeys f) (mapKeysFilter f filter) (body.mapKeys f)
  | reduce carry init handle iter filter body =>
    reduce carry (init.mapKeys f) handle (iter.mapKeys f) (mapKeysFilter f filter) (body.mapKeys f)
  | define name params body => define name params (body.mapKeys f)
  | missing => missing

/-- Each expression with other keys. -/
def mapKeysItems (f : Text → Text) : List Expr → List Expr
  | [] => []
  | e :: es => e.mapKeys f :: mapKeysItems f es

/-- Each named expression with other keys inside. -/
def mapKeysValues (f : Text → Text) : List (Text × Expr) → List (Text × Expr)
  | [] => []
  | (n, e) :: rest => (n, e.mapKeys f) :: mapKeysValues f rest

/-- Each condition and its branch with other keys. -/
def mapKeysConds (f : Text → Text) : List (Expr × Expr) → List (Expr × Expr)
  | [] => []
  | (c, e) :: rest => (c.mapKeys f, e.mapKeys f) :: mapKeysConds f rest

/-- A filter with other keys. -/
def mapKeysFilter (f : Text → Text) : Option Expr → Option Expr
  | none => none
  | some e => some (e.mapKeys f)

end

section MapKeys

variable (f : Text → Text)

theorem mapKeysItems_eq (es : List Expr) : mapKeysItems f es = es.map (mapKeys f) :=
  eq_map_of_cons rfl (fun _ _ => rfl) es

theorem mapKeysValues_eq (es : List (Text × Expr)) : mapKeysValues f es = es.map fun e => (e.1, e.2.mapKeys f) :=
  eq_map_of_cons rfl (fun _ _ => rfl) es

theorem mapKeysConds_eq (cs : List (Expr × Expr)) :
    mapKeysConds f cs = cs.map fun c => (c.1.mapKeys f, c.2.mapKeys f) :=
  eq_map_of_cons rfl (fun _ _ => rfl) cs

theorem mapKeysFilter_eq (e : Option Expr) : mapKeysFilter f e = e.map (mapKeys f) := by
  cases e <;> rfl

/-- Nothing but keys is changed. -/
theorem mapKeys_spec (e : Expr) : (e.mapKeys f).children = e.children.map (mapKeys f) ∧
    (e.mapKeys f).names = e.names ∧ ((e.mapKeys f).Regular ↔ e.Regular) := by
  cases e <;> simp [mapKeys, children, names, Regular, mapKeysItems_eq, mapKeysValues_eq, mapKeysConds_eq,
    mapKeysFilter_eq, Option.toList_map, Function.comp_def]

theorem All.rekey {Q R : Expr → Prop} {e : Expr} (h : All Q e) (hQR : ∀ x, Q x → R (x.mapKeys f)) :
    All R (e.mapKeys f) := by
  induction h with
  | @node e h _ ih =>
    refine .node (hQR e h) ?_
    rw [(mapKeys_spec f e).1]
    exact forall_mem_map.2 ih

/-- Every key of a tree stays as it is. -/
def KeepsKeys : Expr → Prop := All fun x => ∀ k ∈ x.keys, f k = k

theorem keepsKeys_iff {e : Expr} :
    KeepsKeys f e ↔ (∀ k ∈ e.keys, f k = k) ∧ ∀ c ∈ e.children, KeepsKeys f c := All.iff_children

theorem map_eq_self_iff {α : Type} {g : α → α} {xs : List α} : xs.map g = xs ↔ ∀ x ∈ xs, g x = x := by
  induction xs with
  | nil => simp
  | cons x xs ih => rw [map_cons, cons_eq_cons, ih, forall_mem_cons]

theorem mapKeysItems_eq_self_iff {es : List Expr} (h : ∀ e ∈ es, e.mapKeys f = e ↔ KeepsKeys f e) :
    mapKeysItems f es = es ↔ ∀ e ∈ es, KeepsKeys f e := by
  rw [mapKeysItems_eq, map_eq_self_iff]
  exact forall₂_congr h

theorem mapKeysValues_eq_self_iff {es : List (Text × Expr)} (h : ∀ e ∈ es, e.2.mapKeys f = e.2 ↔ KeepsKeys f e.2) :
    mapKeysValues f es = es ↔ ∀ e ∈ es, KeepsKeys f e.2 := by
  rw [mapKeysValues_eq, map_eq_self_iff]
  refine forall₂_congr fun e he => ?_
  rw [← h e he, Prod.ext_iff]
  exact and_iff_right rfl

theorem mapKeysConds_eq_self_iff {cs : List (Expr × Expr)} (h : ∀ c ∈ cs, c.1.mapKeys f = c.1 ↔ KeepsKeys f c.1)
    (h' : ∀ c ∈ cs, c.2.mapKeys f = c.2 ↔ KeepsKeys f c.2) :
    mapKeysConds f cs = cs ↔ (∀ c ∈ cs, KeepsKeys f c.1) ∧ ∀ c ∈ cs, KeepsKeys f c.2 := by
  rw [mapKeysConds_eq, map_eq_self_iff, ← forall₂_and]
  refine forall₂_congr fun c hc => ?_
  rw [← h c hc, ← h' c hc, Prod.ext_iff]

theorem mapKeysFilter_eq_self_iff {e : Option Expr} (h : ∀ x ∈ e, x.mapKeys f = x ↔ KeepsKeys f x) :
    mapKeysFilter f e = e ↔ ∀ x ∈ e, KeepsKeys f x := by
  cases e with
  | none => simp [mapKeysFilter]
  | some e => simpa [mapKeysFilter] using h e rfl

/-- **A tree stays as it is exactly if all its keys do.** -/
theorem All.mapKeys_eq_iff {Q : Expr → Prop} {e : Expr} (h : All Q e) : e.mapKeys f = e ↔ KeepsKeys f e := by
  apply byNode h
  case lit | lookup | missing =>
    intros
    rw [keepsKeys_iff]
    simp [mapKeys, keys, children]
  case bin =>
    intro op l r _ ihl ihr
    rw [keepsKeys_iff, mapKeys, bin.injEq, ihl, ihr]
    simp [keys, children]
  case unary =>
    intro op r _ ihr
    rw [keepsKeys_iff, mapKeys, unary.injEq, ihr]
    simp [keys, children]
  case letIn =>
    intro assigns body _ ihvalues ihbody
    rw [keepsKeys_iff, mapKeys, letIn.injEq, mapKeysValues_eq_self_iff f ihvalues, ihbody]
    simp only [keys, children, forall_mem_append, forall_mem_map, forall_mem_cons]
    simp
  case ifElse =>
    intro conds other _ ihconds ihbranches ihother
    rw [keepsKeys_iff, mapKeys, ifElse.injEq, mapKeysConds_eq_self_iff f ihconds ihbranches, ihother]
    simp only [keys, children, forall_mem_append, forall_mem_map, forall_mem_singleton]
    simp
  case call =>
    intro callee args _ ihargs
    rw [keepsKeys_iff, mapKeys, call.injEq, mapKeysItems_eq_self_iff f ihargs]
    simp [keys, children]
  case list =>
    intro items _ ihitems
    rw [keepsKeys_iff, mapKeys, list.injEq, mapKeysItems_eq_self_iff f ihitems]
    simp [keys, children]
  case dict =>
    intro entries _ ihvalues
    -- a key and the value under it change side by side
    rw [keepsKeys_iff, mapKeys, dict.injEq, mapKeysValues_eq, map_map, map_eq_self_iff]
    simp only [keys, children, forall_mem_map]
    rw [← forall₂_and]
    refine forall₂_congr fun e he => ?_
    rw [← ihvalues e he, Prod.ext_iff]
    rfl
  case lambda =>
    intro params body _ ihbody
    rw [keepsKeys_iff, mapKeys, lambda.injEq, ihbody]
    simp [keys, children]
  case forIn =>
    intro handle iter filter body _ ihiter ihfilter ihbody
    rw [keepsKeys_iff, mapKeys, forIn.injEq, ihiter, mapKeysFilter_eq_self_iff f ihfilter, ihbody]
    simp only [keys, children, forall_mem_append, forall_mem_cons, Option.mem_toList]
    simp
  case reduce =>
    intro carry init handle iter filter body _ ihinit ihiter ihfilter ihbody
    rw [keepsKeys_iff, mapKeys, reduce.injEq, ihinit, ihiter, mapKeysFilter_eq_self_iff f ihfilter, ihbody]
    simp only [keys, children, forall_mem_append, forall_mem_cons, Option.mem_toList]
    simp
  case define =>
    intro name params body _ ihbody
    rw [keepsKeys_iff, mapKeys, define.injEq, ihbody]
    simp [keys, children]

end MapKeys

end Expr

/-! ## Programs -/

/-- Something holds of every node of a program. -/
def Program.All (Q : Expr → Prop) (p : Program) : Prop := ∀ d ∈ p.defs, d.toExpr.All Q

/-- The program with other keys in its dicts. -/
def Program.mapKeys (f : Text → Text) (p : Program) : Program :=
  ⟨p.defs.map fun d => ⟨d.name, d.params, d.body.mapKeys f⟩⟩

theorem Program.All.and {Q R : Expr → Prop} {p : Program} (h : p.All Q) (h' : p.All R) :
    p.All fun x => Q x ∧ R x :=
  fun d hd => (h d hd).and (h' d hd)

theorem Program.All.mapKeys_eq_iff {Q : Expr → Prop} {p : Program} (h : p.All Q) (f : Text → Text) :
    p.mapKeys f = p ↔ p.All fun x => ∀ k ∈ x.keys, f k = k := by
  obtain ⟨ds⟩ := p
  rw [Program.mapKeys, Program.mk.injEq, Expr.map_eq_self_iff]
  refine forall₂_congr fun d hd => Iff.trans ?_ ((h d hd).mapKeys_eq_iff f)
  rw [Def.toExpr, Expr.mapKeys, Expr.define.injEq, Def.mk.injEq]

end TinyScript.Syntax
