import TinyScript.Proofs.Syntax.Depth

/-!
# What the parser builds

The literals, the names and the operators of a tree that was parsed are tokens of the source, so every node of it
is legible (`legible_of_parseExpr`). This is read off the layout of the tokens. In particular it lacks no
node, its literals and operators are of the declared kinds, and the text of a literal is well-formed
(`regular_of_parseProgram`).
-/

namespace TinyScript.Syntax

open Grammar List

variable {x : Expr} {src : Text}

/-- A token is made of characters. -/
theorem TokenText.isUtf8 {kind : TokenKind} {t : Text} (h : TokenText kind t) : t.isUtf8 := by
  obtain ⟨c, cs, text, -, rfl⟩ := h.exists_found
  exact Text.isUtf8_ofChars text

theorem Expr.Legible.regular (h : x.Legible) : x.Regular := by
  cases x with
  | lit kind raw =>
    cases kind with
    | number => exact ⟨nofun, h.elim TokenText.isUtf8 TokenText.isUtf8⟩
    | string => exact ⟨nofun, TokenText.isUtf8 h⟩
    | bool => rcases h with rfl | rfl <;> exact ⟨nofun, rfl⟩
    | nil | unit =>
      obtain rfl := h
      exact ⟨nofun, rfl⟩
    | other n => exact h.elim
  | bin | unary => exact h
  | missing => exact h.elim
  | _ => trivial

/-! ## Items -/

/-- An item whose names, literals and operators are those of a source. -/
def Item.Legible : Item → Prop
  | .name n => IsName n
  | .expr x => x.All Expr.Legible
  | _ => True

/-- A leaf is one token. -/
theorem Leaf.legible {t : Token} (h : Leaf t x) (ht : TokenText t.kind t.text) : x.All Expr.Legible := by
  cases h with
  | number h =>
    refine .node (h.imp (fun h => ?_) fun h => ?_) nofun
    · rwa [show t.kind = _ from h] at ht
    · rwa [show t.kind = _ from h] at ht
  | string h =>
    rw [show t.kind = _ from h] at ht
    exact .node ht nofun
  | truth h => exact .node (h.imp And.right And.right) nofun
  | nil h => exact .node h.2 nofun
  | lookup h =>
    rw [h.1] at ht
    exact .node (List.forall_mem_singleton.2 ⟨ht, h.2⟩) nofun

theorem Expr.legible_of_items (hx : x.isForm) (h : ∀ n, .name n ∈ x.items → IsName n) :
    x.Legible := by
  cases x with
  | lit | lookup | bin | unary | missing => cases hx
  | letIn assigns body =>
    have hne : assigns ≠ [] := by simpa [isForm] using hx
    exact ⟨hne, fun a ha => h a.1 (name_mem_items hx (mem_map_of_mem ha))⟩
  | ifElse conds other => exact show conds ≠ [] by simpa [isForm] using hx
  | _ => exact fun n hn => h n (name_mem_items hx hn)

/-- What was laid out with tokens of a source is legible. -/
theorem Layout.legible {ws : List Item} {ps : List (Int × Token)} (h : Layout false ws ps)
    (htext : ∀ p ∈ ps, TokenText p.2.kind p.2.text) : ∀ i ∈ ws, i.Legible := by
  induction h with
  | nil => exact forall_mem_nil _
  | mark _ ih | key _ _ ih =>
    exact List.forall_mem_cons.2 ⟨trivial, ih (List.forall_mem_cons.1 htext).2⟩
  | name hp hn _ ih =>
    obtain ⟨hfirst, htext⟩ := List.forall_mem_cons.1 htext
    rw [hp.1, hn] at hfirst
    exact List.forall_mem_cons.2 ⟨⟨hfirst, hn ▸ hp.2⟩, ih htext⟩
  | leaf hx _ ih =>
    obtain ⟨hfirst, htext⟩ := List.forall_mem_cons.1 htext
    exact List.forall_mem_cons.2 ⟨hx.legible hfirst, ih htext⟩
  | unit hx _ ih =>
    subst hx
    exact List.forall_mem_cons.2 ⟨.node rfl nofun, ih htext⟩
  | form hx _ ih =>
    obtain ⟨hitems, hrest⟩ := List.forall_mem_append.1 (ih htext)
    have hown := Expr.legible_of_items hx fun n hn => hitems _ hn
    exact List.forall_mem_cons.2 ⟨.node hown fun c hc => hitems _ (Expr.child_mem_items hx hc), hrest⟩
  | bin hop _ _ _ _ ihl ihr =>
    obtain ⟨hleft, hright⟩ := List.forall_mem_append.1 htext
    have hl := List.forall_mem_singleton.1 (ihl hleft)
    obtain ⟨hr, hrest⟩ := List.forall_mem_cons.1 (ihr (List.forall_mem_cons.1 hright).2)
    refine List.forall_mem_cons.2 ⟨.node hop ?_, hrest⟩
    exact List.forall_mem_cons.2 ⟨hl, List.forall_mem_singleton.2 hr⟩
  | unary hop _ _ _ ih =>
    obtain ⟨hr, hrest⟩ := List.forall_mem_cons.1 (ih (List.forall_mem_cons.1 htext).2)
    exact List.forall_mem_cons.2 ⟨.node hop (List.forall_mem_singleton.2 hr), hrest⟩
  | signed hprinted _ _ _ => cases hprinted

/-! ## Whole texts -/

theorem mem_of_mem_depths {d : Int} {ts : List Token} {p : Int × Token} (hp : p ∈ depths d ts) : p.2 ∈ ts := by
  induction ts generalizing d with
  | nil => cases hp
  | cons t ts ih =>
    rw [depths] at hp
    split at hp
    · exact mem_cons_of_mem _ (ih hp)
    · exact mem_cons_of_mem _ (ih hp)
    · rcases List.mem_cons.1 hp with rfl | hp
      · exact mem_cons_self
      · exact mem_cons_of_mem _ (ih hp)

/-- **An expression made of tokens is legible.** -/
theorem legible_of_isExpr {ts : List Token} (h : IsExpr ts x)
    (htext : ∀ t ∈ ts, TokenText t.kind t.text) : x.All Expr.Legible :=
  ((drawn_of_isExpr h).laidOut.layout 0).legible (fun _ hp => htext _ (mem_of_mem_depths hp)) _
    (mem_singleton_self _)

theorem tokenText_of_tokenize {ts : Tokens} (h : tokenize src = .ok ts) :
    ∀ t ∈ ts.items, TokenText t.kind t.text :=
  fun t ht => ⟨src, ts, h, t, ht, rfl, rfl⟩

/-- **Every node of a parsed expression is legible.** -/
theorem legible_of_parseExpr (h : parseExpr src = .ok x) : x.All Expr.Legible := by
  obtain ⟨ts, hts, hx⟩ := parseExpr_iff.1 h
  exact legible_of_isExpr hx (tokenText_of_tokenize hts)

/-- **Every node of a parsed program is regular.** -/
theorem regular_of_parseProgram {p : Program} (h : parseProgram src = .ok p) :
    p.All Expr.Regular := by
  obtain ⟨ts, hts, hprogram⟩ := parseProgram_iff.1 h
  have htext := tokenText_of_tokenize hts
  rw [Program.All]
  -- the definitions of a program are parsed one behind the other
  generalize ts.items = us at hprogram htext
  generalize p.defs = ds at hprogram
  induction hprogram with
  | nil => exact forall_mem_nil _
  | @cons ts us d ds hd _ ih =>
    rw [forall_mem_append] at htext
    have hlegible := legible_of_isExpr (.define hd) htext.1
    exact List.forall_mem_cons.2 ⟨hlegible.mono fun _ => Expr.Legible.regular, ih htext.2⟩

end TinyScript.Syntax
