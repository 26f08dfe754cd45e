import Mathlib
import TinyScript.Proofs.Syntax.Codec
import TinyScript.Proofs.Syntax.Printing
import TinyScript.Proofs.Syntax.Sourced

/-!
# Parsed programs through JSON

A program that was parsed from source text can be written as JSON and read again, if its names are ASCII and its data
are not nested to the limit of the reader. What comes back is the program with the stray bytes of its dict keys
replaced. Only a key can hold any, because it is unquoted by the parser.
-/

namespace TinyScript.Syntax

open Data (Datum)
open List

/-- **Parsed programs come back from JSON.** A program whose names are ASCII comes back if its data is not
nested to the limit of the reader, with the stray bytes of its keys replaced, and otherwise what was written
is refused as JSON. So it comes back as it was exactly if it is not nested so deep and its keys are
well-formed. -/
theorem parsed_toJson {src : Text} {p : Program} (hparse : parseProgram src = .ok p)
    (hnames : p.All fun x => ∀ n ∈ x.names, isAsciiName n = true) :
    (p.toDatum.depth < Data.Json.maxDepth → Program.ofJson p.toJson = .ok (p.mapKeys Text.repair))
      ∧ (Data.Json.maxDepth ≤ p.toDatum.depth → Program.ofJson p.toJson = .error .notJson)
      ∧ (Program.ofJson p.toJson = .ok p ↔ p.toDatum.depth < Data.Json.maxDepth
          ∧ p.All fun x => ∀ k ∈ x.keys, k.isUtf8 = true) := by
  have hregular := regular_of_parseProgram hparse
  have hkeys : p.mapKeys Text.repair = p ↔ p.All fun x => ∀ k ∈ x.keys, k.isUtf8 = true := by
    rw [hregular.mapKeys_eq_iff]
    simp only [Text.repair_eq_iff]
  rw [Program.ofJson_toJson_of_plain (hregular.and hnames), ← hkeys]
  refine ⟨fun hdepth => if_pos hdepth, fun hdepth => if_neg (Nat.not_lt.2 hdepth), ?_⟩
  by_cases hdepth : p.toDatum.depth < Data.Json.maxDepth
  · rw [if_pos hdepth, Except.ok.injEq, and_iff_right hdepth]
  · rw [if_neg hdepth]
    exact ⟨fun h => (by cases h), fun h => absurd h.1 hdepth⟩

/-- `def f(x) = {"\xff": fn() => [1]}` -/
def strayKey : Program :=
  ⟨[⟨"f", ["x"], .dict [(⟨[0xff]⟩, .lambda [] (.list [.lit .number "1"]))]⟩]⟩

set_option maxRecDepth 20000 in
theorem parse_strayKey : parseProgram "def f(x) = \x7b\"\\xff\": fn() => [1]\x7d" = .ok strayKey := by
  cbv

theorem strayKey_names : strayKey.All fun x => ∀ n ∈ x.names, isAsciiName n := by
  refine List.forall_mem_singleton.2 (.node (by decide) (List.forall_mem_singleton.2 (.node nofun ?_)))
  refine List.forall_mem_singleton.2 (.node nofun (List.forall_mem_singleton.2 (.node nofun ?_)))
  exact List.forall_mem_singleton.2 (.node nofun nofun)

theorem ofJson_toJson_strayKey : Program.ofJson strayKey.toJson = .ok (strayKey.mapKeys Text.repair) := by
  rw [Program.ofJson_toJson_of_plain ((regular_of_parseProgram parse_strayKey).and strayKey_names), if_pos (by decide)]

theorem strayKey_mapKeys_ne : strayKey.mapKeys Text.repair ≠ strayKey := by
  intro h
  injection h with h
  injection h with h
  injection h with _ _ h
  injection h with h
  injection h with h
  injection h with h
  exact absurd h (by decide)

theorem parsed_toJson_strayKey :
    parseProgram "def f(x) = \x7b\"\\xff\": fn() => [1]\x7d" = .ok strayKey
      ∧ (strayKey.All fun x => ∀ n ∈ x.names, isAsciiName n = true)
      ∧ Program.ofJson strayKey.toJson = .ok (strayKey.mapKeys Text.repair)
      ∧ ¬ strayKey.All fun x => ∀ k ∈ x.keys, k.isUtf8 = true := by
  obtain ⟨hdeep, -, hsame⟩ := parsed_toJson parse_strayKey strayKey_names
  have hdepth : strayKey.toDatum.depth < Data.Json.maxDepth := by decide
  refine ⟨parse_strayKey, strayKey_names, hdeep hdepth, fun hkeys => ?_⟩
  have hback := (hdeep hdepth).symm.trans (hsame.2 ⟨hdepth, hkeys⟩)
  exact strayKey_mapKeys_ne (Except.ok.inj hback)

/-! ## Programs that do not come back -/

/-- A list in a list in a list and so on. -/
def nestedList : Nat → Expr
  | 0 => .list []
  | n + 1 => .list [nestedList n]

/-- Every list adds two levels. -/
theorem lt_depth_nestedList (n : Nat) : 2 * n < (nestedList n).toDatum.depth := by
  induction n with
  | zero => decide
  | succ n ih =>
    have hfield : (nestedList (n + 1)).toDatum.field? "items" = some (.list [(nestedList n).toDatum]) := rfl
    have hitem := Datum.depth_lt_of_mem_items (mem_singleton_self (nestedList n).toDatum)
    have hlist := Datum.depth_lt_of_field? hfield
    omega

theorem printable_nestedList (n : Nat) : Printable (nestedList n) := by
  induction n with
  | zero => exact .list (forall_mem_nil _)
  | succ n ih => exact .list (List.forall_mem_singleton.2 ih)

/-- `def f() = [[[ … ]]]` -/
def nestedProgram : Program := ⟨[⟨"f", [], nestedList 512⟩]⟩

theorem parse_nestedProgram : parseProgram nestedProgram.print = .ok nestedProgram := by
  have hname : IsName "f" := ⟨tokenText_of_alone rfl, rfl⟩
  have hdef : Printable (.define "f" [] (nestedList 512)) :=
    .define hname (forall_mem_nil _) (printable_nestedList 512)
  exact parseProgram_print (List.forall_mem_singleton.2 hdef)

theorem nestedProgram_names : nestedProgram.All fun x => ∀ n ∈ x.names, isAsciiName n := by
  have hlist (n : Nat) : (nestedList n).All fun x => ∀ n ∈ x.names, isAsciiName n := by
    induction n with
    | zero => exact .node nofun nofun
    | succ n ih => exact .node nofun (List.forall_mem_singleton.2 ih)
  exact List.forall_mem_singleton.2 (.node (by decide) (List.forall_mem_singleton.2 (hlist 512)))

theorem le_depth_nestedProgram : Data.Json.maxDepth ≤ nestedProgram.toDatum.depth := by
  have hdefs : nestedProgram.toDatum.field? "defs"
      = some (.list [(Expr.define "f" [] (nestedList 512)).toDatum]) := rfl
  have hbody : (Expr.define "f" [] (nestedList 512)).toDatum.field? "body" = some (nestedList 512).toDatum := rfl
  have hnested := lt_depth_nestedList 512
  have hdef := Datum.depth_lt_of_field? hbody
  have hlist := Datum.depth_lt_of_mem_items (mem_singleton_self (Expr.define "f" [] (nestedList 512)).toDatum)
  have hprogram := Datum.depth_lt_of_field? hdefs
  rw [Data.Json.maxDepth]
  omega

/-- `def é() = 1` -/
def accented : Program := ⟨[⟨"é", [], .lit .number "1"⟩]⟩

set_option maxRecDepth 20000 in
theorem parse_accented : parseProgram "def é() = 1" = .ok accented := by
  cbv

/-- A name that is not ASCII is written like any other, and refused by the reader of the tree. -/
theorem ofJson_toJson_accented :
    Program.ofJson accented.toJson = .error (.tree (.inDef 0 (.badName "def" "é"))) := by
  have hdef : Mends (Expr.define "é" [] (.lit .number "1")).toDatum
      (Expr.define "é" [] (.lit .number "1")).toDatum := by
    have hbody : (Expr.lit .number "1").All Expr.Plain := .node ⟨⟨nofun, by decide⟩, nofun⟩ nofun
    rw [Expr.toDatum]
    exact mends_node rfl (.cons rfl (mends_text (by decide))
      (.cons rfl (mends_names (forall_mem_nil _)) (.cons rfl hbody.mends .nil)))
  have hmends : Mends accented.toDatum accented.toDatum :=
    (MendsEntries.cons rfl (mends_list (List.forall_mem_singleton.2 hdef)) .nil).ofEntries
  rw [Program.ofJson, Program.toJson, hmends.read, if_pos (by decide)]
  rfl

/-- Three programs that were parsed and do not come back: one has a name that is not ASCII, one a key with a
stray byte, and one is nested too deep. -/
theorem parsed_toJson_fails :
    (parseProgram "def é() = 1" = .ok accented ∧ ∀ p, Program.ofJson accented.toJson ≠ .ok p)
      ∧ (parseProgram "def f(x) = \x7b\"\\xff\": fn() => [1]\x7d" = .ok strayKey
        ∧ ∃ p, Program.ofJson strayKey.toJson = .ok p ∧ p ≠ strayKey)
      ∧ parseProgram nestedProgram.print = .ok nestedProgram
        ∧ Program.ofJson nestedProgram.toJson = .error .notJson := by
  refine ⟨⟨parse_accented, fun p => ?_⟩, ⟨parse_strayKey, _, ofJson_toJson_strayKey, strayKey_mapKeys_ne⟩,
    parse_nestedProgram, ?_⟩
  · rw [ofJson_toJson_accented]
    exact nofun
  · have hplain := (regular_of_parseProgram parse_nestedProgram).and nestedProgram_names
    rw [Program.ofJson_toJson_of_plain hplain, if_neg (Nat.not_lt.2 le_depth_nestedProgram)]

end TinyScript.Syntax
