import TinyScript.Syntax.Codec
import TinyScript.Proofs.Data.Json
import TinyScript.Proofs.Syntax.Node

/-!
# Syntax trees come back from JSON

`Encodable` says which trees the codec is for: names are ASCII, literals and operators are of the declared kinds,
strings are well-formed, no node is missing. A tree whose nodes are `Plain` may have stray bytes in its keys. JSON
replaces them, and `Mends` says so of the data of a tree and of its parts. The readers of the nodes return the tree.
The fuel of `Expr.ofDatumWithin` is the depth of the data; every part of a node is less deep than the node.
-/

namespace TinyScript.Syntax

open Data (Datum)
open Data.Json (Legible)
open Expr.toDatum (node)
open List

variable {t : Text} {α : Type} {xs : List α} {e : Expr}

/-! ## Trees that can be encoded -/

/-- Trees that the codec keeps. -/
inductive Encodable : Expr → Prop where
  | lit {kind : LitKind} {raw : Text} (hkind : ∀ n, kind ≠ .other n) (hraw : raw.isUtf8) :
      Encodable (.lit kind raw)
  | lookup {name : Text} (hname : isAsciiName name) : Encodable (.lookup name)
  /-- A binary operation with a declared operator. -/
  | bin {op : BinOp} {l r : Expr} (hop : ∀ n, op ≠ .other n) (hl : Encodable l) (hr : Encodable r) :
      Encodable (.bin op l r)
  /-- A unary operation with a declared operator. -/
  | unary {op : UnaryOp} {r : Expr} (hop : ∀ n, op ≠ .other n) (hr : Encodable r) : Encodable (.unary op r)
  | letIn {assigns : List (Text × Expr)} {body : Expr} (hnames : ∀ a ∈ assigns, isAsciiName a.1)
      (hvalues : ∀ a ∈ assigns, Encodable a.2) (hbody : Encodable body) : Encodable (.letIn assigns body)
  | ifElse {conds : List (Expr × Expr)} {e : Expr} (hconds : ∀ c ∈ conds, Encodable c.1)
      (hbranches : ∀ c ∈ conds, Encodable c.2) (he : Encodable e) : Encodable (.ifElse conds e)
  | call {callee : Text} {args : List Expr} (hcallee : isAsciiName callee)
      (hargs : ∀ a ∈ args, Encodable a) : Encodable (.call callee args)
  | list {items : List Expr} (hitems : ∀ a ∈ items, Encodable a) : Encodable (.list items)
  | dict {entries : List (Text × Expr)} (hkeys : ∀ a ∈ entries, a.1.isUtf8)
      (hvalues : ∀ a ∈ entries, Encodable a.2) : Encodable (.dict entries)
  | lambda {params : List Text} {body : Expr} (hparams : ∀ p ∈ params, isAsciiName p)
      (hbody : Encodable body) : Encodable (.lambda params body)
  | forIn {handle : Text} {iter : Expr} {filter : Option Expr} {body : Expr}
      (hhandle : isAsciiName handle) (hiter : Encodable iter) (hfilter : ∀ f ∈ filter, Encodable f)
      (hbody : Encodable body) : Encodable (.forIn handle iter filter body)
  | reduce {carry handle : Text} {init iter : Expr} {filter : Option Expr} {body : Expr}
      (hcarry : isAsciiName carry) (hinit : Encodable init)
      (hloop : Encodable (.forIn handle iter filter body)) : Encodable (.reduce carry init handle iter filter body)
  | define {name : Text} {params : List Text} {body : Expr} (hname : isAsciiName name)
      (hparams : ∀ p ∈ params, isAsciiName p) (hbody : Encodable body) :
      Encodable (.define name params body)

/-! ## Names and spellings -/

/-- The kinds of literals are told by their names. -/
theorem LitKind.name_spec {kind : LitKind} (h : ∀ n, kind ≠ .other n) :
    LitKind.ofName? kind.name = some kind ∧ kind.name.isUtf8 := by
  cases kind with
  | other n => exact absurd rfl (h n)
  | _ => decide

/-- Operators are told by their symbols. -/
theorem BinOp.symbol_spec {op : BinOp} (h : ∀ n, op ≠ .other n) :
    BinOp.ofSymbol? op.symbol = some op ∧ op.symbol.isUtf8 := by
  cases op with
  | other n => exact absurd rfl (h n)
  | _ => decide

theorem UnaryOp.symbol_spec {op : UnaryOp} (h : ∀ n, op ≠ .other n) :
    UnaryOp.ofSymbol? op.symbol = some op ∧ op.symbol.isUtf8 := by
  cases op with
  | other n => exact absurd rfl (h n)
  | _ => decide

/-! ## Parts of a node -/

namespace NodeView

variable {n : NodeView} {key : Text} {read : Datum → Except TreeError Expr}

theorem text_ok (h : n.data.field? key = some (.text t)) : n.text key = .ok t := by
  rw [text, h]

/-- A name is a text that is checked. -/
theorem name_ok (h : n.data.field? key = some (.text t)) (ht : isAsciiName t) :
    n.name key = .ok t := by
  rw [name, text_ok h]
  exact if_pos ht

theorem items_ok {ds : List Datum} (h : n.data.field? key = some (.list ds)) : n.items key = .ok ds := by
  rw [items, h]

theorem names_ok {ns : List Text} (h : n.data.field? key = some (.list (ns.map .text)))
    (hns : ∀ t ∈ ns, isAsciiName t) : n.names key = .ok ns := by
  rw [names, items_ok h]
  show List.mapM _ (ns.map Datum.text) = _
  rw [mapM_map, mapM_eq_ok (g := id) fun t ht => ?_, map_id]
  exact if_pos (hns t ht)

/-- The items of a list, each to be read as a node. -/
theorem views_ok {ds : List Datum} (h : n.data.field? key = some (.list ds))
    (hds : ∀ d ∈ ds, ∃ entries, d = .map entries) : n.views key = .ok (ds.map fun d => ⟨d, n.kind⟩) := by
  rw [views, items_ok h]
  refine mapM_eq_ok fun d hd => ?_
  obtain ⟨entries, rfl⟩ := hds d hd
  rfl

/-- Nodes of a list, each read in the same way. -/
theorem each_ok {parts : α → List (Text × Datum)} {r : NodeView → Except TreeError α}
    (h : n.data.field? key = some (.list (xs.map fun x => Datum.ofEntries (parts x))))
    (hr : ∀ x ∈ xs, r ⟨Datum.ofEntries (parts x), n.kind⟩ = .ok x) : n.each key r = .ok xs := by
  rw [each, views_ok h fun d hd => ?_]
  · show List.mapM r _ = _
    rw [mapM_map, mapM_map]
    exact (mapM_eq_ok (g := id) hr).trans (by rw [map_id])
  · obtain ⟨x, -, rfl⟩ := List.mem_map.1 hd
    exact ⟨_, rfl⟩

/-- A tree that is read from one of the parts. -/
theorem part_ok {d : Datum} (h : n.data.field? key = some d) (hread : read d = .ok e) :
    n.part read key = .ok e := by
  rw [part, h]
  show (read d).mapError _ = _
  rw [hread]
  rfl

theorem parts_ok {es : List Expr} (h : n.data.field? key = some (.list (es.map Expr.toDatum)))
    (hread : ∀ e ∈ es, read e.toDatum = .ok e) : n.parts read key = .ok es := by
  rw [parts, items_ok h]
  show List.mapM _ (es.map Expr.toDatum).zipIdx = _
  rw [zipIdx_map, mapM_map, mapM_eq_ok (g := Prod.fst) fun p hp => ?_, zipIdx_map_fst]
  show (read p.1.toDatum).mapError _ = _
  rw [hread p.1 (fst_mem_of_mem_zipIdx hp)]
  rfl

/-! What each reader returns, given its parts. -/

variable {name symbol handle : Text} {params : List Text} {r iter body : Expr} {filter : Option Expr} {a : Text × Expr}

/-- A literal is read if its kind is known. -/
theorem lit_ok {kind : LitKind} {raw : Text} (hkind : LitKind.ofName? name = some kind)
    (hname : n.text "lit" = .ok name) (hraw : n.text "raw" = .ok raw) : n.lit = .ok (.lit kind raw) := by
  rw [lit, hname, hraw]
  simp only [bind, Except.bind, hkind]
  rfl

theorem lookup_ok (hname : n.name "name" = .ok name) : n.lookup = .ok (.lookup name) := by
  rw [lookup, hname]
  rfl

theorem binary_ok {op : BinOp} {l : Expr} (hop : BinOp.ofSymbol? symbol = some op)
    (hsymbol : n.text "op" = .ok symbol) (hl : n.part read "left" = .ok l)
    (hr : n.part read "right" = .ok r) : n.binary read = .ok (.bin op l r) := by
  rw [binary, hsymbol, hl, hr]
  simp only [bind, Except.bind, hop]
  rfl

theorem unary_ok {op : UnaryOp} (hop : UnaryOp.ofSymbol? symbol = some op)
    (hsymbol : n.text "op" = .ok symbol) (hr : n.part read "right" = .ok r) :
    n.unary read = .ok (.unary op r) := by
  rw [unary, hsymbol, hr]
  simp only [bind, Except.bind, hop]
  rfl

theorem assign_ok (hname : n.name "name" = .ok a.1) (hvalue : n.part read "value" = .ok a.2) :
    n.assign read = .ok a := by
  rw [assign, hname, hvalue]
  rfl

theorem branch_ok {c : Expr × Expr} (hcond : n.part read "cond" = .ok c.1) (hthen : n.part read "then" = .ok c.2) :
    n.branch read = .ok c := by
  rw [branch, hcond, hthen]
  rfl

theorem entry_ok (hkey : n.text "key" = .ok a.1) (hvalue : n.part read "value" = .ok a.2) :
    n.entry read = .ok a := by
  rw [entry, hkey, hvalue]
  rfl

theorem letIn_ok {assigns : List (Text × Expr)}
    (hassigns : n.each "assigns" (·.assign read) = .ok assigns) (hbody : n.part read "body" = .ok body) :
    n.letIn read = .ok (.letIn assigns body) := by
  rw [letIn, hassigns, hbody]
  rfl

theorem ifElse_ok {conds : List (Expr × Expr)}
    (hconds : n.each "conds" (·.branch read) = .ok conds) (he : n.part read "else" = .ok e) :
    n.ifElse read = .ok (.ifElse conds e) := by
  rw [ifElse, hconds, he]
  rfl

theorem call_ok {callee : Text} {args : List Expr} (hcallee : n.name "callee" = .ok callee)
    (hargs : n.parts read "args" = .ok args) : n.call read = .ok (.call callee args) := by
  rw [call, hcallee, hargs]
  rfl

theorem list_ok {items : List Expr} (hitems : n.parts read "items" = .ok items) :
    n.list read = .ok (.list items) := by
  rw [list, hitems]
  rfl

theorem dict_ok {entries : List (Text × Expr)} (hentries : n.each "entries" (·.entry read) = .ok entries) :
    n.dict read = .ok (.dict entries) := by
  rw [dict, hentries]
  rfl

theorem lambda_ok (hparams : n.names "params" = .ok params)
    (hbody : n.part read "body" = .ok body) : n.lambda read = .ok (.lambda params body) := by
  rw [lambda, hparams, hbody]
  rfl

/-- The filter may be missing. -/
theorem loop_ok (hhandle : n.name "handle" = .ok handle) (hiter : n.part read "iter" = .ok iter)
    (hnone : filter = none → n.data.field? "filter" = none)
    (hsome : ∀ f ∈ filter, n.part read "filter" = .ok f) (hbody : n.part read "body" = .ok body) :
    n.loop read = .ok (.forIn handle iter filter body) := by
  rw [loop, hhandle, hiter, hbody]
  cases filter with
  | none =>
    rw [hnone rfl]
    rfl
  | some f =>
    have hpart := hsome f rfl
    rw [hpart]
    cases hfield : n.data.field? "filter" with
    | none =>
      rw [part, hfield] at hpart
      cases hpart
    | some d => rfl

/-- The loop is a part that has to be a loop. -/
theorem reduce_ok {carry : Text} {init : Expr}
    (hcarry : n.name "carry" = .ok carry) (hinit : n.part read "init" = .ok init)
    (hloop : n.part read "loop" = .ok (.forIn handle iter filter body)) :
    n.reduce read = .ok (.reduce carry init handle iter filter body) := by
  rw [reduce, hcarry, hinit, hloop]
  rfl

theorem define_ok (hname : n.name "name" = .ok name)
    (hparams : n.names "params" = .ok params) (hbody : n.part read "body" = .ok body) :
    n.define read = .ok (.define name params body) := by
  rw [define, hname, hparams, hbody]
  rfl

end NodeView

/-! ## Lists of parts -/

/-- The data of lists of trees, given by `map`. -/
theorem itemData_eq (es : List Expr) : itemData es = es.map Expr.toDatum :=
  eq_map_of_cons rfl (fun _ _ => rfl) es

theorem assignData_eq (assigns : List (Text × Expr)) : assignData assigns
    = assigns.map fun a => Datum.ofEntries [("name", .text a.1), ("value", a.2.toDatum)] :=
  eq_map_of_cons rfl (fun _ _ => rfl) assigns

theorem entryData_eq (entries : List (Text × Expr)) : entryData entries
    = entries.map fun a => Datum.ofEntries [("key", .text a.1), ("value", a.2.toDatum)] :=
  eq_map_of_cons rfl (fun _ _ => rfl) entries

theorem condData_eq (conds : List (Expr × Expr)) : condData conds
    = conds.map fun c => Datum.ofEntries [("cond", c.1.toDatum), ("then", c.2.toDatum)] :=
  eq_map_of_cons rfl (fun _ _ => rfl) conds

/-! ## Writing -/

theorem lt_of_isNameStart {b : UInt8} (h : isNameStart b) : b < 0x80 := by
  simp only [isNameStart, Bool.or_eq_true, Bool.and_eq_true, decide_eq_true_eq, UInt8.le_iff_toNat_le] at h
  rw [UInt8.lt_iff_toNat_lt]
  rcases h with (⟨-, h⟩ | ⟨-, h⟩) | rfl
  · exact Nat.lt_of_le_of_lt h (by decide)
  · exact Nat.lt_of_le_of_lt h (by decide)
  · decide

/-- ASCII names are well-formed texts. -/
theorem isUtf8_of_isAsciiName (h : isAsciiName t) : t.isUtf8 := by
  refine Text.isUtf8_of_ascii fun b hb => ?_
  rw [isAsciiName] at h
  split at h
  · cases h
  · next first rest hbytes =>
    rw [Bool.and_eq_true, all_eq_true] at h
    rw [hbytes] at hb
    rcases List.mem_cons.1 hb with rfl | hb
    · exact lt_of_isNameStart h.1
    · rcases Bool.or_eq_true_iff.1 (h.2 b hb) with hletter | hdigit
      · exact lt_of_isNameStart hletter
      · rw [Bool.and_eq_true, decide_eq_true_eq, decide_eq_true_eq] at hdigit
        exact UInt8.lt_of_le_of_lt hdigit.2 (by decide)

/-- What is written from the one datum is read as the other. -/
structure Mends (d d' : Datum) : Prop where
  legible : Legible (fun _ => True) d
  read_eq : d.repair.reread = d'

/-- Entries with well-formed keys, and the same entries with their values mended. -/
structure MendsEntries (es es' : List (Text × Datum)) : Prop where
  legible : ∀ e ∈ es, e.1.isUtf8 ∧ Legible (fun _ => True) e.2
  read_eq : es.map (fun e => (e.1, e.2.repair.reread)) = es'

/-- Stray bytes of a text are replaced. -/
theorem Mends.text (t : Text) : Mends (.text t) (.text t.repair) := ⟨.text trivial, rfl⟩

/-- A well-formed text has none. -/
theorem mends_text (h : t.isUtf8) : Mends (.text t) (.text t) := by
  have hmends := Mends.text t
  rwa [Text.repair_eq_iff.2 h] at hmends

theorem mends_name (h : isAsciiName t) : Mends (.text t) (.text t) :=
  mends_text (isUtf8_of_isAsciiName h)

theorem mends_list {f g : α → Datum} (h : ∀ x ∈ xs, Mends (f x) (g x)) :
    Mends (.list (xs.map f)) (.list (xs.map g)) := by
  constructor
  · exact .list (List.forall_mem_map.2 fun x hx => (h x hx).legible)
  · rw [Datum.repair, Datum.reread, Datum.repairItems_eq, Datum.rereadItems_eq, map_map, map_map]
    exact congrArg Datum.list (map_congr_left fun x hx => (h x hx).read_eq)

theorem mends_names {ns : List Text} (h : ∀ n ∈ ns, isAsciiName n) :
    Mends (Expr.toDatum.names ns) (Expr.toDatum.names ns) :=
  mends_list fun n hn => mends_name (h n hn)

theorem MendsEntries.nil : MendsEntries [] [] := ⟨forall_mem_nil _, rfl⟩

theorem MendsEntries.cons {k : Text} {d d' : Datum} {es es' : List (Text × Datum)} (hk : k.isUtf8)
    (hd : Mends d d') (h : MendsEntries es es') : MendsEntries ((k, d) :: es) ((k, d') :: es') where
  legible := List.forall_mem_cons.2 ⟨⟨hk, hd.legible⟩, h.legible⟩
  read_eq := by rw [map_cons, hd.read_eq, h.read_eq]

theorem MendsEntries.ofEntries {es es' : List (Text × Datum)} (h : MendsEntries es es') :
    Mends (Datum.ofEntries es) (Datum.ofEntries es') := by
  obtain ⟨hlegible, rfl⟩ := h
  constructor
  · obtain ⟨kept, hkept, hordered, hmem⟩ := Datum.ofEntries_spec es
    rw [hkept]
    exact .map hordered (fun e he => (hlegible e (hmem e he)).1) fun e he => (hlegible e (hmem e he)).2
  · rw [Datum.ofEntries, Datum.ofEntries, Datum.repair, Datum.reread, Datum.repairEntries_eq, Datum.rereadEntries_eq,
      map_map]
    exact congrArg Datum.map (Datum.foldl_insert_map (fun d => d.repair.reread) es [])

theorem mends_node {kind : Text} (hkind : kind.isUtf8) {parts parts' : List (Text × Datum)}
    (h : MendsEntries parts parts') : Mends (node kind parts) (node kind parts') :=
  (MendsEntries.cons rfl (mends_text hkind) h).ofEntries

/-- What is read is the mended datum, unless it is nested too deep. -/
theorem Mends.read {d d' : Datum} (h : Mends d d') :
    Data.Json.read? (Data.Json.write d) = if d.depth < Data.Json.maxDepth then some d' else none := by
  rw [Data.Json.read_legible h.legible, h.read_eq]

/-! ## Plain trees -/

/-- A node that the parser builds, with names in ASCII. -/
def Expr.Plain (x : Expr) : Prop := x.Regular ∧ ∀ n ∈ x.names, isAsciiName n

/-- An encodable tree is plain, and its keys are well-formed. -/
theorem Encodable.plain (h : Encodable e) : e.All fun x => x.Plain ∧ ∀ k ∈ x.keys, k.isUtf8 := by
  induction h with
  | lit hkind hraw => exact .node ⟨⟨⟨hkind, hraw⟩, forall_mem_nil _⟩, forall_mem_nil _⟩ (forall_mem_nil _)
  | lookup hname =>
    exact .node ⟨⟨trivial, List.forall_mem_singleton.2 hname⟩, forall_mem_nil _⟩ (forall_mem_nil _)
  | bin hop _ _ ihl ihr =>
    exact .node ⟨⟨hop, forall_mem_nil _⟩, forall_mem_nil _⟩
      (List.forall_mem_cons.2 ⟨ihl, List.forall_mem_singleton.2 ihr⟩)
  | unary hop _ ihr =>
    exact .node ⟨⟨hop, forall_mem_nil _⟩, forall_mem_nil _⟩ (List.forall_mem_singleton.2 ihr)
  | letIn hnames _ _ ihvalues ihbody =>
    exact .node ⟨⟨trivial, List.forall_mem_map.2 hnames⟩, forall_mem_nil _⟩
      (List.forall_mem_append.2 ⟨List.forall_mem_map.2 ihvalues, List.forall_mem_singleton.2 ihbody⟩)
  | ifElse _ _ _ ihconds ihbranches ihe =>
    refine .node ⟨⟨trivial, forall_mem_nil _⟩, forall_mem_nil _⟩
      (List.forall_mem_append.2 ⟨List.forall_mem_append.2 ⟨?_, ?_⟩, List.forall_mem_singleton.2 ihe⟩)
    · exact List.forall_mem_map.2 ihconds
    · exact List.forall_mem_map.2 ihbranches
  | call hcallee _ ihargs =>
    exact .node ⟨⟨trivial, List.forall_mem_singleton.2 hcallee⟩, forall_mem_nil _⟩ ihargs
  | list _ ihitems => exact .node ⟨⟨trivial, forall_mem_nil _⟩, forall_mem_nil _⟩ ihitems
  | dict hkeys _ ihvalues =>
    exact .node ⟨⟨trivial, forall_mem_nil _⟩, List.forall_mem_map.2 hkeys⟩ (List.forall_mem_map.2 ihvalues)
  | lambda hparams _ ihbody =>
    exact .node ⟨⟨trivial, hparams⟩, forall_mem_nil _⟩ (List.forall_mem_singleton.2 ihbody)
  | forIn hhandle _ _ _ ihiter ihfilter ihbody =>
    refine .node ⟨⟨trivial, List.forall_mem_singleton.2 hhandle⟩, forall_mem_nil _⟩
      (List.forall_mem_cons.2 ⟨ihiter, ?_⟩)
    exact List.forall_mem_append.2
      ⟨fun f hf => ihfilter f (Option.mem_toList.1 hf), List.forall_mem_singleton.2 ihbody⟩
  | reduce hcarry _ _ ihinit ihloop =>
    refine .node ⟨⟨trivial, List.forall_mem_cons.2 ⟨hcarry, ihloop.own.1.2⟩⟩, forall_mem_nil _⟩ ?_
    exact List.forall_mem_cons.2 ⟨ihinit, fun c hc => ihloop.child hc⟩
  | define hname hparams _ ihbody =>
    exact .node ⟨⟨trivial, List.forall_mem_cons.2 ⟨hname, hparams⟩⟩, forall_mem_nil _⟩
      (List.forall_mem_singleton.2 ihbody)

/-- Keys have no part in it. -/
theorem Expr.All.plain (h : e.All Expr.Plain) (f : Text → Text) : (e.mapKeys f).All Expr.Plain :=
  h.rekey f fun x hx => by
    rw [Expr.Plain, (x.mapKeys_spec f).2.1, (x.mapKeys_spec f).2.2]
    exact hx

/-- Loops are shared by two kinds of expression. -/
theorem mends_loop {handle : Text} {iter : Expr} {filter : Option Expr} {body : Expr}
    (hhandle : isAsciiName handle) (hiter : Mends iter.toDatum (iter.mapKeys Text.repair).toDatum)
    (hfilter : ∀ f ∈ filter, Mends f.toDatum (f.mapKeys Text.repair).toDatum)
    (hbody : Mends body.toDatum (body.mapKeys Text.repair).toDatum) :
    Mends (Expr.toDatum.loopData handle iter.toDatum (filterData filter) body.toDatum)
      (Expr.toDatum.loopData handle (iter.mapKeys Text.repair).toDatum
        (filterData (Expr.mapKeysFilter Text.repair filter)) (body.mapKeys Text.repair).toDatum) := by
  refine mends_node rfl (.cons rfl (mends_name hhandle) (.cons rfl hiter (.cons rfl hbody ?_)))
  cases filter with
  | none => exact .nil
  | some f => exact .cons rfl (hfilter f rfl) .nil

/-- **The data of a tree is mended to the data of the tree with repaired keys.** -/
theorem Expr.All.mends (h : e.All Expr.Plain) : Mends e.toDatum (e.mapKeys Text.repair).toDatum := by
  have hvalue {k : Text} {a : Text × Expr} (hk : k.isUtf8) {t t' : Text} (ht : Mends (.text t) (.text t'))
      (ih : Mends a.2.toDatum (a.2.mapKeys Text.repair).toDatum) :
      Mends (Datum.ofEntries [(k, .text t), ("value", a.2.toDatum)])
        (Datum.ofEntries [(k, .text t'), ("value", (a.2.mapKeys Text.repair).toDatum)]) :=
    (MendsEntries.cons hk ht (.cons rfl ih .nil)).ofEntries
  apply Expr.All.byNode h
  case lit =>
    rintro kind raw ⟨⟨hkind, hraw⟩, -⟩
    rw [Expr.mapKeys, Expr.toDatum]
    exact mends_node rfl (.cons rfl (mends_text (LitKind.name_spec hkind).2) (.cons rfl (mends_text hraw) .nil))
  case lookup =>
    rintro name ⟨-, hnames⟩
    rw [Expr.mapKeys, Expr.toDatum]
    exact mends_node rfl (.cons rfl (mends_name (hnames name mem_cons_self)) .nil)
  case bin =>
    rintro op l r ⟨hop, -⟩ ihl ihr
    rw [Expr.mapKeys, Expr.toDatum, Expr.toDatum]
    exact mends_node rfl (.cons rfl (mends_text (BinOp.symbol_spec hop).2) (.cons rfl ihl (.cons rfl ihr .nil)))
  case unary =>
    rintro op r ⟨hop, -⟩ ihr
    rw [Expr.mapKeys, Expr.toDatum, Expr.toDatum]
    exact mends_node rfl (.cons rfl (mends_text (UnaryOp.symbol_spec hop).2) (.cons rfl ihr .nil))
  case letIn =>
    rintro assigns body ⟨-, hnames⟩ ihvalues ihbody
    rw [Expr.mapKeys, Expr.toDatum, Expr.toDatum, assignData_eq, assignData_eq, Expr.mapKeysValues_eq, map_map]
    refine mends_node rfl (.cons rfl (mends_list fun a ha => ?_) (.cons rfl ihbody .nil))
    exact hvalue rfl (mends_name (hnames a.1 (mem_map_of_mem ha))) (ihvalues a ha)
  case ifElse =>
    intro conds other _ ihconds ihbranches ihother
    rw [Expr.mapKeys, Expr.toDatum, Expr.toDatum, condData_eq, condData_eq, Expr.mapKeysConds_eq, map_map]
    refine mends_node rfl (.cons rfl (mends_list fun c hc => ?_) (.cons rfl ihother .nil))
    exact (MendsEntries.cons rfl (ihconds c hc) (.cons rfl (ihbranches c hc) .nil)).ofEntries
  case call =>
    rintro callee args ⟨-, hnames⟩ ihargs
    rw [Expr.mapKeys, Expr.toDatum, Expr.toDatum, itemData_eq, itemData_eq, Expr.mapKeysItems_eq, map_map]
    exact mends_node rfl (.cons rfl (mends_name (hnames callee mem_cons_self))
      (.cons rfl (mends_list ihargs) .nil))
  case list =>
    intro items _ ihitems
    rw [Expr.mapKeys, Expr.toDatum, Expr.toDatum, itemData_eq, itemData_eq, Expr.mapKeysItems_eq, map_map]
    exact mends_node rfl (.cons rfl (mends_list ihitems) .nil)
  case dict =>
    intro entries _ ihvalues
    rw [Expr.mapKeys, Expr.toDatum, Expr.toDatum, entryData_eq, entryData_eq, Expr.mapKeysValues_eq, map_map,
      map_map]
    exact mends_node rfl (.cons rfl (mends_list fun a ha => hvalue rfl (.text a.1) (ihvalues a ha)) .nil)
  case lambda =>
    rintro params body ⟨-, hnames⟩ ihbody
    rw [Expr.mapKeys, Expr.toDatum, Expr.toDatum]
    exact mends_node rfl (.cons rfl (mends_names hnames) (.cons rfl ihbody .nil))
  case forIn =>
    rintro handle iter filter body ⟨-, hnames⟩ ihiter ihfilter ihbody
    rw [Expr.mapKeys, Expr.toDatum, Expr.toDatum]
    exact mends_loop (hnames handle mem_cons_self) ihiter ihfilter ihbody
  case reduce =>
    rintro carry init handle iter filter body ⟨-, hnames⟩ ihinit ihiter ihfilter ihbody
    rw [Expr.mapKeys, Expr.toDatum, Expr.toDatum]
    obtain ⟨hcarry, hhandle⟩ := List.forall_mem_cons.1 hnames
    have hloop := mends_loop (hhandle handle mem_cons_self) ihiter ihfilter ihbody
    exact mends_node rfl (.cons rfl (mends_name hcarry) (.cons rfl ihinit (.cons rfl hloop .nil)))
  case define =>
    rintro name params body ⟨-, hnames⟩ ihbody
    rw [Expr.mapKeys, Expr.toDatum, Expr.toDatum]
    obtain ⟨hname, hparams⟩ := List.forall_mem_cons.1 hnames
    exact mends_node rfl (.cons rfl (mends_name hname) (.cons rfl (mends_names hparams) (.cons rfl ihbody .nil)))
  case missing => exact fun h => h.1.elim

/-! ## Reading -/

/-- A node is at least one deep, and is read by the reader of its kind. -/
theorem reads_node {kind : Text} {parts : List (Text × Datum)} {fuel : Nat}
    (hfuel : (node kind parts).depth ≤ fuel) (hkind : (node kind parts).field? "kind" = some (.text kind))
    (h : ∀ {left}, (node kind parts).depth ≤ left + 1 →
      NodeView.expr ⟨node kind parts, kind⟩ (Expr.ofDatumWithin left) = .ok e) :
    Expr.ofDatumWithin fuel (node kind parts) = .ok e := by
  obtain ⟨entries, hentries, -⟩ := Datum.ofEntries_spec (("kind", .text kind) :: parts)
  rw [node, hentries] at h hkind hfuel ⊢
  rw [Datum.depth] at hfuel
  obtain ⟨left, rfl⟩ := Nat.exists_eq_succ_of_ne_zero (Nat.ne_of_gt (Nat.zero_lt_of_lt hfuel))
  rw [Expr.ofDatumWithin, hkind]
  exact h hfuel

/-! The parts of a node are less deep than the node, so that the fuel left over is enough for them. -/

section Parts

variable {n : NodeView} {key : Text} {fuel : Nat} (hfuel : n.data.depth ≤ fuel + 1)
include hfuel

/-- Parts are nested less deep, so they can be read with less fuel. -/
theorem part_reads (h : n.data.field? key = some e.toDatum)
    (ih : e.toDatum.depth ≤ fuel → Expr.ofDatumWithin fuel e.toDatum = .ok e) :
    n.part (Expr.ofDatumWithin fuel) key = .ok e := by
  have hdepth := Datum.depth_lt_of_field? h
  exact NodeView.part_ok h (ih (by omega))

theorem parts_reads {es : List Expr} (h : n.data.field? key = some (.list (es.map Expr.toDatum)))
    (ih : ∀ e ∈ es, e.toDatum.depth ≤ fuel → Expr.ofDatumWithin fuel e.toDatum = .ok e) :
    n.parts (Expr.ofDatumWithin fuel) key = .ok es := by
  refine NodeView.parts_ok h fun e he => ih e he ?_
  have hlist := Datum.depth_lt_of_field? h
  have hdepth := Datum.depth_lt_of_mem_items (mem_map_of_mem (f := Expr.toDatum) he)
  omega

theorem each_reads {parts : α → List (Text × Datum)} {r : NodeView → Except TreeError α}
    (h : n.data.field? key = some (.list (xs.map fun x => Datum.ofEntries (parts x))))
    (hr : ∀ x ∈ xs, (Datum.ofEntries (parts x)).depth ≤ fuel + 1 → r ⟨Datum.ofEntries (parts x), n.kind⟩ = .ok x) :
    n.each key r = .ok xs := by
  refine NodeView.each_ok h fun x hx => hr x hx ?_
  have hlist := Datum.depth_lt_of_field? h
  have hdepth := Datum.depth_lt_of_mem_items (mem_map_of_mem (f := fun x => Datum.ofEntries (parts x)) hx)
  omega

end Parts

/-- A tree is read back, where the fuel covers the depth of its data. -/
def Reads (e : Expr) : Prop := ∀ {fuel : Nat}, e.toDatum.depth ≤ fuel → Expr.ofDatumWithin fuel e.toDatum = .ok e

/-- Loops are read alike in two kinds of expression. -/
theorem reads_loop {handle : Text} {iter body : Expr} {filter : Option Expr} (hhandle : isAsciiName handle)
    (ihiter : Reads iter) (ihfilter : ∀ f ∈ filter, Reads f) (ihbody : Reads body) :
    Reads (.forIn handle iter filter body) := by
  intro fuel hfuel
  rw [Expr.toDatum] at hfuel ⊢
  rw [Expr.toDatum.loopData] at hfuel ⊢
  cases filter with
  | none =>
    refine reads_node hfuel rfl fun hfuel => ?_
    exact NodeView.loop_ok (NodeView.name_ok rfl hhandle) (part_reads hfuel rfl ihiter)
      (fun _ => rfl) (fun f hf => by cases hf) (part_reads hfuel rfl ihbody)
  | some f =>
    refine reads_node hfuel rfl fun hfuel => ?_
    refine NodeView.loop_ok (NodeView.name_ok rfl hhandle) (part_reads hfuel rfl ihiter)
      (fun h => by cases h) (fun g hg => ?_) (part_reads hfuel rfl ihbody)
    obtain rfl := Option.some.inj hg
    exact part_reads hfuel rfl (ihfilter f rfl)

/-- **A plain tree is read back.** -/
theorem Expr.All.reads (h : e.All Expr.Plain) : Reads e := by
  apply Expr.All.byNode h
  case lit =>
    rintro kind raw ⟨⟨hkind, -⟩, -⟩ fuel hfuel
    rw [Expr.toDatum] at hfuel ⊢
    refine reads_node hfuel rfl fun hfuel => ?_
    exact NodeView.lit_ok (LitKind.name_spec hkind).1 (NodeView.text_ok rfl) (NodeView.text_ok rfl)
  case lookup =>
    rintro name ⟨-, hnames⟩ fuel hfuel
    rw [Expr.toDatum] at hfuel ⊢
    refine reads_node hfuel rfl fun hfuel => ?_
    exact NodeView.lookup_ok (NodeView.name_ok rfl (hnames name mem_cons_self))
  case bin =>
    rintro op l r ⟨hop, -⟩ ihl ihr fuel hfuel
    rw [Expr.toDatum] at hfuel ⊢
    refine reads_node hfuel rfl fun hfuel => ?_
    exact NodeView.binary_ok (BinOp.symbol_spec hop).1 (NodeView.text_ok rfl)
      (part_reads hfuel rfl ihl) (part_reads hfuel rfl ihr)
  case unary =>
    rintro op r ⟨hop, -⟩ ihr fuel hfuel
    rw [Expr.toDatum] at hfuel ⊢
    refine reads_node hfuel rfl fun hfuel => ?_
    exact NodeView.unary_ok (UnaryOp.symbol_spec hop).1 (NodeView.text_ok rfl) (part_reads hfuel rfl ihr)
  case letIn =>
    rintro assigns body ⟨-, hnames⟩ ihvalues ihbody fuel hfuel
    rw [Expr.toDatum, assignData_eq] at hfuel ⊢
    refine reads_node hfuel rfl fun hfuel => ?_
    refine NodeView.letIn_ok (each_reads hfuel rfl fun a ha hdepth => ?_) (part_reads hfuel rfl ihbody)
    exact NodeView.assign_ok (NodeView.name_ok rfl (hnames a.1 (mem_map_of_mem ha)))
      (part_reads hdepth rfl (ihvalues a ha))
  case ifElse =>
    intro conds other _ ihconds ihbranches ihe fuel hfuel
    rw [Expr.toDatum, condData_eq] at hfuel ⊢
    refine reads_node hfuel rfl fun hfuel => ?_
    refine NodeView.ifElse_ok (each_reads hfuel rfl fun c hc hdepth => ?_) (part_reads hfuel rfl ihe)
    exact NodeView.branch_ok (part_reads hdepth rfl (ihconds c hc)) (part_reads hdepth rfl (ihbranches c hc))
  case call =>
    rintro callee args ⟨-, hnames⟩ ihargs fuel hfuel
    rw [Expr.toDatum, itemData_eq] at hfuel ⊢
    refine reads_node hfuel rfl fun hfuel => ?_
    exact NodeView.call_ok (NodeView.name_ok rfl (hnames callee mem_cons_self))
      (parts_reads hfuel rfl fun a ha => ihargs a ha)
  case list =>
    intro items _ ihitems fuel hfuel
    rw [Expr.toDatum, itemData_eq] at hfuel ⊢
    refine reads_node hfuel rfl fun hfuel => ?_
    exact NodeView.list_ok (parts_reads hfuel rfl fun a ha => ihitems a ha)
  case dict =>
    intro entries _ ihvalues fuel hfuel
    rw [Expr.toDatum, entryData_eq] at hfuel ⊢
    refine reads_node hfuel rfl fun hfuel => ?_
    refine NodeView.dict_ok (each_reads hfuel rfl fun a ha hdepth => ?_)
    exact NodeView.entry_ok (NodeView.text_ok rfl) (part_reads hdepth rfl (ihvalues a ha))
  case lambda =>
    rintro params body ⟨-, hnames⟩ ihbody fuel hfuel
    rw [Expr.toDatum] at hfuel ⊢
    refine reads_node hfuel rfl fun hfuel => ?_
    exact NodeView.lambda_ok (NodeView.names_ok rfl hnames) (part_reads hfuel rfl ihbody)
  case forIn =>
    rintro handle iter filter body ⟨-, hnames⟩
    exact reads_loop (hnames handle mem_cons_self)
  case reduce =>
    rintro carry init handle iter filter body ⟨-, hnames⟩ ihinit ihiter ihfilter ihbody fuel hfuel
    obtain ⟨hcarry, hhandle⟩ := List.forall_mem_cons.1 hnames
    have ihloop : Reads (.forIn handle iter filter body) :=
      reads_loop (hhandle handle mem_cons_self) ihiter ihfilter ihbody
    rw [Expr.toDatum] at hfuel
    rw [Expr.toDatum]
    refine reads_node hfuel rfl fun hfuel => ?_
    exact NodeView.reduce_ok (NodeView.name_ok rfl hcarry) (part_reads hfuel rfl ihinit)
      (part_reads hfuel rfl ihloop)
  case define =>
    rintro name params body ⟨-, hnames⟩ ihbody fuel hfuel
    obtain ⟨hname, hparams⟩ := List.forall_mem_cons.1 hnames
    rw [Expr.toDatum] at hfuel ⊢
    refine reads_node hfuel rfl fun hfuel => ?_
    exact NodeView.define_ok (NodeView.name_ok rfl hname) (NodeView.names_ok rfl hparams)
      (part_reads hfuel rfl ihbody)
  case missing => exact fun h => h.1.elim

/-! ## Programs -/

/-- A program is read as it is, but for its keys. -/
theorem Program.All.mends {p : Program} (h : p.All Expr.Plain) : Mends p.toDatum (p.mapKeys Text.repair).toDatum := by
  rw [Program.toDatum, Program.toDatum, Program.mapKeys, map_map]
  exact (MendsEntries.cons rfl (mends_list fun d hd => (h d hd).mends) .nil).ofEntries

/-- Every definition comes back. -/
theorem Program.ofDatum_toDatum {p : Program} (h : p.All Expr.Plain) :
    Program.ofDatum p.toDatum = .ok p := by
  have hdefs : p.toDatum.field? "defs" = some (.list (p.defs.map fun d => d.toExpr.toDatum)) := rfl
  obtain ⟨entries, hentries, -⟩ := Datum.ofEntries_spec [("defs", .list (p.defs.map fun d => d.toExpr.toDatum))]
  rw [Program.toDatum, hentries] at hdefs ⊢
  rw [Program.ofDatum, hdefs]
  show (List.mapM _ (p.defs.map fun d => d.toExpr.toDatum).zipIdx >>= _) = _
  rw [zipIdx_map, mapM_map, mapM_eq_ok (g := Prod.fst) fun q hq => ?_, zipIdx_map_fst]
  · rfl
  · have hread : Expr.ofDatum q.1.toExpr.toDatum = .ok q.1.toExpr :=
      (h q.1 (fst_mem_of_mem_zipIdx hq)).reads (Nat.le_refl _)
    show ((Expr.ofDatum q.1.toExpr.toDatum).mapError _ >>= _) = _
    rw [hread]
    rfl

/-- **A plain tree through JSON**: its keys are repaired, unless it is nested too deep. -/
theorem Expr.ofJson_toJson_of_plain (h : e.All Expr.Plain) : Expr.ofJson e.toJson
    = if e.toDatum.depth < Data.Json.maxDepth then .ok (e.mapKeys Text.repair) else .error .notJson := by
  rw [Expr.ofJson, Expr.toJson, h.mends.read]
  by_cases hdepth : e.toDatum.depth < Data.Json.maxDepth
  · rw [if_pos hdepth, if_pos hdepth]
    show (Expr.ofDatum (e.mapKeys Text.repair).toDatum).mapError _ = _
    rw [Expr.ofDatum, (h.plain Text.repair).reads (Nat.le_refl _)]
    rfl
  · rw [if_neg hdepth, if_neg hdepth]

/-- A plain program likewise. -/
theorem Program.ofJson_toJson_of_plain {p : Program} (h : p.All Expr.Plain) : Program.ofJson p.toJson
    = if p.toDatum.depth < Data.Json.maxDepth then .ok (p.mapKeys Text.repair) else .error .notJson := by
  have hplain : (p.mapKeys Text.repair).All Expr.Plain :=
    List.forall_mem_map.2 fun d hd => (h d hd).plain Text.repair
  rw [Program.ofJson, Program.toJson, h.mends.read]
  by_cases hdepth : p.toDatum.depth < Data.Json.maxDepth
  · rw [if_pos hdepth, if_pos hdepth]
    show (Program.ofDatum (p.mapKeys Text.repair).toDatum).mapError _ = _
    rw [Program.ofDatum_toDatum hplain]
    rfl
  · rw [if_neg hdepth, if_neg hdepth]

/-- **The codec is lossless.** A tree whose names are ASCII, whose operators and literals are declared,
whose strings are well-formed and which lacks no node comes back from its JSON, and so does a program of
such definitions, as long as the JSON is not nested to the limit of the reader. -/
theorem ofJson_toJson :
    (∀ e : Expr, Encodable e → e.toDatum.depth < Data.Json.maxDepth → Expr.ofJson e.toJson = .ok e)
      ∧ ∀ p : Program, (∀ d ∈ p.defs, Encodable d.toExpr) → p.toDatum.depth < Data.Json.maxDepth →
          Program.ofJson p.toJson = .ok p := by
  constructor
  · intro e h hdepth
    rw [Expr.ofJson_toJson_of_plain (h.plain.mono fun x hx => hx.1), if_pos hdepth, (h.plain.mapKeys_eq_iff _).2]
    exact h.plain.mono fun x hx k hk => Text.repair_eq_iff.2 (hx.2 k hk)
  · intro p h hdepth
    have hplain : p.All fun x => x.Plain ∧ ∀ k ∈ x.keys, k.isUtf8 := fun d hd => (h d hd).plain
    rw [Program.ofJson_toJson_of_plain fun d hd => (hplain d hd).mono fun x hx => hx.1, if_pos hdepth,
      (hplain.mapKeys_eq_iff _).2]
    exact fun d hd => (hplain d hd).mono fun x hx k hk => Text.repair_eq_iff.2 (hx.2 k hk)

/-- `def mean(xs)`: the sum of the positive items over the number of items, in a dict with a key that is
not ASCII, or a string for no items. -/
def mean : Def :=
  ⟨"mean", ["xs"],
    .letIn [("n", .call "len" [.lookup "xs"]),
        ("sum", .reduce "acc" (.lit .number "0") "x" (.lookup "xs")
          (some (.unary .not (.bin .lt (.lookup "x") (.lit .number "0"))))
          (.bin .add (.lookup "acc") (.lookup "x")))]
      (.ifElse [(.bin .gt (.lookup "n") (.lit .number "0"),
          .dict [("größe", .bin .div (.lookup "sum") (.lookup "n"))])]
        (.lit .string "\"<none>\""))⟩

/-- It has names and literals only that come back. -/
theorem encodable_mean : Encodable mean.body := by
  refine .letIn (by decide) (List.forall_mem_cons.2 ⟨?_, List.forall_mem_singleton.2 ?_⟩)
    (.ifElse ?_ ?_ (.lit nofun (by decide)))
  · exact .call (by decide) (List.forall_mem_singleton.2 (.lookup (by decide)))
  · refine .reduce (by decide) (.lit nofun (by decide)) (.forIn (by decide) (.lookup (by decide)) ?_ ?_)
    · rintro f ⟨⟩
      exact .unary nofun (.bin nofun (.lookup (by decide)) (.lit nofun (by decide)))
    · exact .bin nofun (.lookup (by decide)) (.lookup (by decide))
  · exact List.forall_mem_singleton.2 (.bin nofun (.lookup (by decide)) (.lit nofun (by decide)))
  · refine List.forall_mem_singleton.2 (.dict (by decide) (List.forall_mem_singleton.2 ?_))
    exact .bin nofun (.lookup (by decide)) (.lookup (by decide))

theorem ofJson_toJson_mean :
    (Encodable mean.body ∧ mean.body.toDatum.depth < Data.Json.maxDepth
        ∧ Expr.ofJson mean.body.toJson = .ok mean.body)
      ∧ (∀ d ∈ [mean], Encodable d.toExpr) ∧ (Program.toDatum ⟨[mean]⟩).depth < Data.Json.maxDepth
        ∧ Program.ofJson (Program.toJson ⟨[mean]⟩) = .ok ⟨[mean]⟩ := by
  have hprogram : ∀ d ∈ [mean], Encodable d.toExpr :=
    List.forall_mem_singleton.2 (.define (by decide) (by decide) encodable_mean)
  exact ⟨⟨encodable_mean, by decide, ofJson_toJson.1 _ encodable_mean (by decide)⟩,
    hprogram, by decide, ofJson_toJson.2 _ hprogram (by decide)⟩

end TinyScript.Syntax
