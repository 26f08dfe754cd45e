import TinyScript.Proofs.Data.Datum
import TinyScript.Proofs.Data.Number
import TinyScript.Proofs.Text.Utf8

/-!
# Reading back JSON

What was written from a datum is read as that datum, but for stray bytes of texts, which are replaced, and unsigned
integers, which come back as signed ones (`value?_write`); a datum that is nested too deep is not read at all. Lists
and maps are read by loops, whose invariant is about the items that are still to come.

A datum has to be `Legible`. With well-formed texts it is `Portable`.
-/

namespace TinyScript.Data

open TinyScript.Text Datum List

variable {bs : List UInt8} {b : UInt8} {entries : List (Text × Datum)} {fuel : Nat}

namespace Json

/-! ## Strings -/

theorem stringBody?_quote (acc rest : List UInt8) :
    stringBody? acc (34 :: rest) = some (⟨acc.reverse⟩, rest) := by
  rw [stringBody?]

theorem stringBody?_raw (h : ∀ b ∈ bs, b ≠ 34 ∧ b ≠ 92) (acc rest : List UInt8) :
    stringBody? acc (bs ++ rest) = stringBody? (bs.reverse ++ acc) rest := by
  induction bs generalizing acc with
  | nil => rfl
  | cons b bs ih =>
    obtain ⟨⟨hquote, hslash⟩, hbs⟩ := List.forall_mem_cons.1 h
    have hstep : stringBody? acc (b :: (bs ++ rest)) = stringBody? (b :: acc) (bs ++ rest) := by
      rw [stringBody?]
      · exact hquote
      · exact fun _ _ _ _ _ heq => absurd heq hslash
      · exact fun _ _ heq => absurd heq hslash
    rw [List.cons_append, hstep, ih hbs, reverse_cons, List.append_assoc]
    rfl

theorem stringBody?_unit {a c d : UInt8} (h : isSurrogate (unit4 a b c d) = false) (acc rest : List UInt8) :
    stringBody? acc (92 :: 117 :: a :: b :: c :: d :: rest)
      = stringBody? ((String.utf8EncodeChar (Char.ofNat (unit4 a b c d))).reverse ++ acc) rest := by
  rw [stringBody?.eq_def]
  simp only [h, Bool.false_eq_true, if_false]

/-- The four digits of each character that is written by its number. -/
theorem unit4_ofHex : ∀ n ∈ List.range 64 ++ [0x2028, 0x2029],
    (ofHex 4 n).bytes.length = 4
      ∧ unit4 ((ofHex 4 n).bytes.getD 0 0) ((ofHex 4 n).bytes.getD 1 0)
          ((ofHex 4 n).bytes.getD 2 0) ((ofHex 4 n).bytes.getD 3 0) = n := by
  decide

theorem stringBody?_ofHex {c : Char} (h : c.toNat ∈ List.range 64 ++ [0x2028, 0x2029])
    (acc rest : List UInt8) :
    stringBody? acc (("\\u" ++ ofHex 4 c.toNat : Text).bytes ++ rest)
      = stringBody? ((String.utf8EncodeChar c).reverse ++ acc) rest := by
  obtain ⟨hlength, hunit⟩ := unit4_ofHex _ h
  obtain ⟨w, x, y, z, hdigits⟩ : ∃ w x y z, (ofHex 4 c.toNat).bytes = [w, x, y, z] := by
    generalize (ofHex 4 c.toNat).bytes = digits at hlength
    rcases digits with _ | ⟨w, _ | ⟨x, _ | ⟨y, _ | ⟨z, _ | ⟨_, _⟩⟩⟩⟩⟩ <;> simp at hlength ⊢
  rw [hdigits] at hunit
  have hunit : unit4 w x y z = c.toNat := hunit
  have hplain : isSurrogate (unit4 w x y z) = false := by
    rw [hunit, isSurrogate, Bool.and_eq_false_iff]
    left
    simp only [mem_append, mem_range, mem_cons, not_mem_nil, or_false] at h
    exact decide_eq_false (by omega)
  rw [bytes_append, hdigits]
  show stringBody? acc (92 :: 117 :: w :: x :: y :: z :: rest) = _
  rw [stringBody?_unit hplain, hunit, Char.ofNat_toNat]

/-- **An escaped character is read back as the character.** -/
theorem stringBody?_escape (c : Char) (acc rest : List UInt8) :
    stringBody? acc ((escape c).bytes ++ rest) = stringBody? ((String.utf8EncodeChar c).reverse ++ acc) rest := by
  rw [escape]
  split
  · next h => subst h; rfl
  split
  · next h => subst h; rfl
  split
  · next h => subst h; rfl
  split
  · next h => subst h; rfl
  split
  · next h => subst h; rfl
  split
  · next h => subst h; rfl
  split
  · next h => subst h; rfl
  next hquote hslash _ _ _ _ _ =>
  split
  · next h =>
    refine stringBody?_ofHex (mem_append_left _ (List.mem_range.2 ?_)) acc rest
    simp only [Bool.or_eq_true, decide_eq_true_eq] at h
    obtain ((h | rfl) | rfl) | rfl := h
    · omega
    all_goals decide
  split
  · next h =>
    refine stringBody?_ofHex (mem_append_right _ ?_) acc rest
    simpa using h
  · -- no byte of the character ends the string or begins an escape
    have hbytes : (ofChars [c]).bytes = String.utf8EncodeChar c := List.append_nil _
    rw [hbytes]
    refine stringBody?_raw (fun b hb => ?_) acc rest
    constructor
    · rintro rfl
      exact hquote (eq_of_mem_encode hb (by decide))
    · rintro rfl
      exact hslash (eq_of_mem_encode hb (by decide))

theorem stringBody?_stray (acc rest : List UInt8) :
    stringBody? acc (("\\uFFFD" : Text).bytes ++ rest)
      = stringBody? ((String.utf8EncodeChar replacement).reverse ++ acc) rest :=
  stringBody?_unit (by decide) acc rest

/-- What is written for what was read from a text, a stray byte or a character. -/
theorem stringBody?_decoded (ps : List (Option Char × Nat)) (acc rest : List UInt8) :
    stringBody? acc (ps.flatMap (fun p => (p.1.elim ("\\uFFFD" : Text) escape).bytes) ++ 34 :: rest)
      = some (⟨acc.reverse ++ (ofChars (ps.map fun p => p.1.getD replacement)).bytes⟩, rest) := by
  induction ps generalizing acc with
  | nil =>
    rw [flatMap_nil, List.nil_append, stringBody?_quote]
    simp [ofChars]
  | cons p ps ih =>
    rw [flatMap_cons, List.append_assoc]
    obtain ⟨_ | c, n⟩ := p
    · rw [Option.elim_none, stringBody?_stray, ih]
      simp [ofChars]
    · rw [Option.elim_some, stringBody?_escape, ih]
      simp [ofChars]

theorem string_bytes (t : Text) : (string t).bytes
    = 34 :: (t.decode.flatMap (fun p => (p.1.elim ("\\uFFFD" : Text) escape).bytes) ++ [34]) := by
  rw [string, bytes_append, bytes_append, Text.concat, flatMap_map]
  rfl

/-- **A string is read back**, with its stray bytes replaced. -/
theorem stringBody?_string (t : Text) (rest : List UInt8) :
    ∃ body, (string t).bytes = 34 :: body ∧ stringBody? [] (body ++ rest) = some (t.repair, rest) := by
  refine ⟨_, string_bytes t, ?_⟩
  rw [List.append_assoc, singleton_append, stringBody?_decoded, reverse_nil, List.nil_append]
  rfl

theorem key?_string {t : Text} (h : t.isUtf8) (rest : List UInt8) :
    key? ((string t).bytes ++ rest) = some (t, rest) := by
  obtain ⟨body, hbytes, hbody⟩ := stringBody?_string t rest
  rw [repair_eq_iff.2 h] at hbody
  rw [hbytes]
  exact hbody

/-! ## What the reader does at the first byte -/

theorem value?_null (room : Nat) (rest : List UInt8) :
    value? room false .null ((write .null).bytes ++ rest) = some (.null, rest) := by
  rw [value?.eq_def]
  rfl

theorem value?_bool (room : Nat) (b : Bool) (rest : List UInt8) :
    value? room false .null ((write (.bool b)).bytes ++ rest) = some (.bool b, rest) := by
  rw [value?.eq_def]
  cases b <;> rfl

theorem value?_text (t : Text) (room : Nat) (rest : List UInt8) :
    value? room false .null ((write (.text t)).bytes ++ rest) = some (.text t.repair, rest) := by
  obtain ⟨body, hbytes, hbody⟩ := stringBody?_string t rest
  rw [write, hbytes, value?.eq_def]
  show (stringBody? [] (body ++ rest)).map _ = _
  rw [hbody]
  rfl

theorem value?_list (room : Nat) (bs : List UInt8) : value? (room + 1) false .null (91 :: bs)
    = (items? (value? room) (bs.length + 1) [] bs).map fun p => (.list p.1, p.2) := by
  rw [value?.eq_def]
  rfl

theorem value?_map (room : Nat) (bs : List UInt8) : value? (room + 1) false .null (123 :: bs)
    = (entries? (value? room) (bs.length + 1) true [] bs).map fun p => (.map p.1, p.2) := by
  rw [value?.eq_def]
  rfl

/-- Without room no list and no map is read. -/
theorem value?_no_room (bs : List UInt8) :
    value? 0 false .null (91 :: bs) = none ∧ value? 0 false .null (123 :: bs) = none := by
  constructor <;> rw [value?.eq_def] <;> rfl

/-! ## Data that can be read back -/

end Json

mutual

/-- A datum as it comes back from JSON. -/
def Datum.reread : Datum → Datum
  | .uint n => .int n.toInt64
  | .list items => .list (rereadItems items)
  | .map entries => .map (rereadEntries entries)
  | d => d

/-- The items of a list as they come back. -/
def Datum.rereadItems : List Datum → List Datum
  | [] => []
  | d :: ds => d.reread :: rereadItems ds

/-- The entries of a map as they come back. -/
def Datum.rereadEntries : List (Text × Datum) → List (Text × Datum)
  | [] => []
  | (k, d) :: ds => (k, d.reread) :: rereadEntries ds

end

theorem Datum.rereadItems_eq (items : List Datum) : rereadItems items = items.map reread :=
  eq_map_of_cons rfl (fun _ _ => rfl) items

theorem Datum.rereadEntries_eq (entries : List (Text × Datum)) :
    rereadEntries entries = entries.map fun e => (e.1, e.2.reread) :=
  eq_map_of_cons rfl (fun _ _ => rfl) entries

mutual

/-- A datum with the stray bytes of its texts replaced, except in keys. -/
def Datum.repair : Datum → Datum
  | .text t => .text t.repair
  | .list items => .list (repairItems items)
  | .map entries => .map (repairEntries entries)
  | d => d

/-- The items of a list with their texts repaired. -/
def Datum.repairItems : List Datum → List Datum
  | [] => []
  | d :: ds => d.repair :: repairItems ds

/-- The entries of a map with their texts repaired. -/
def Datum.repairEntries : List (Text × Datum) → List (Text × Datum)
  | [] => []
  | (k, d) :: ds => (k, d.repair) :: repairEntries ds

end

theorem Datum.repairItems_eq (items : List Datum) : repairItems items = items.map repair :=
  eq_map_of_cons rfl (fun _ _ => rfl) items

theorem Datum.repairEntries_eq (entries : List (Text × Datum)) :
    repairEntries entries = entries.map fun e => (e.1, e.2.repair) :=
  eq_map_of_cons rfl (fun _ _ => rfl) entries

namespace Json

variable {d : Datum} {Q : Text → Prop}

/-- Data that can be read, once the stray bytes of its texts are replaced. All its texts are of a sort. -/
inductive Legible (Q : Text → Prop) : Datum → Prop where
  | null : Legible Q .null
  | bool (b : Bool) : Legible Q (.bool b)
  | int (i : Int64) : Legible Q (.int i)
  /-- An unsigned integer that fits a signed word. -/
  | uint {n : UInt64} (h : n.toNat < 0x8000000000000000) : Legible Q (.uint n)
  | text {t : Text} (h : Q t) : Legible Q (.text t)
  | list {items : List Datum} (h : ∀ d ∈ items, Legible Q d) : Legible Q (.list items)
  | map {entries : List (Text × Datum)} (hordered : Datum.Ordered entries)
      (hkeys : ∀ e ∈ entries, e.1.isUtf8) (h : ∀ e ∈ entries, Legible Q e.2) : Legible Q (.map entries)

/-- Data that can be read back. -/
abbrev Portable : Datum → Prop := Legible fun t => t.isUtf8

theorem Portable.repair_eq (h : Portable d) : d.repair = d := by
  induction h with
  | null | bool b | int i | uint h => rfl
  | text h => rw [Datum.repair, repair_eq_iff.2 h]
  | list _ ih => rw [Datum.repair, repairItems_eq, map_congr_left ih, map_id']
  | map _ _ _ ih =>
    rw [Datum.repair, repairEntries_eq, map_congr_left (g := id) fun e he => by rw [ih e he]; rfl,
      map_id]

/-- What comes back can be written and read once more. -/
theorem Portable.reread (h : Portable d) : Portable d.reread := by
  induction h with
  | null => exact .null
  | bool b => exact .bool b
  | int i => exact .int i
  | uint _ => exact .int _
  | text h => exact .text h
  | list _ ih =>
    rw [Datum.reread, rereadItems_eq]
    exact .list (List.forall_mem_map.2 ih)
  | map hordered hkeys _ ih =>
    rw [Datum.reread, rereadEntries_eq]
    exact .map (hordered.congr (by simp)) (List.forall_mem_map.2 hkeys) (List.forall_mem_map.2 ih)

/-- No written value begins with white space or with the bracket that ends a list. -/
theorem Legible.begins (h : Legible Q d) :
    ∃ b bs, (write d).bytes = b :: bs ∧ isSpace b = false ∧ b ≠ 93 := by
  have hint (i : Int) : ∃ b bs, (ofInt i).bytes = b :: bs ∧ isSpace b = false ∧ b ≠ 93 := by
    obtain ⟨b, bs, hbytes, hb, -⟩ := ofInt_spec i
    obtain ⟨hspace, hne⟩ := number_byte hb
    refine ⟨b, bs, hbytes, hspace, ?_⟩
    rintro rfl
    exact hne (by decide)
  cases h with
  | null => exact ⟨110, _, rfl, rfl, by decide⟩
  | bool b =>
    cases b with
    | true => exact ⟨116, _, rfl, rfl, by decide⟩
    | false => exact ⟨102, _, rfl, rfl, by decide⟩
  | int i => exact hint i.toInt
  | @uint n => exact hint n.toNat
  | text _ => exact ⟨34, _, string_bytes _, rfl, by decide⟩
  | list h => exact ⟨91, _, rfl, rfl, by decide⟩
  | map _ _ _ => exact ⟨123, _, rfl, rfl, by decide⟩

/-! ## Lists and maps -/

theorem items?_step {value : Inner} {acc : List Datum} {after : List UInt8}
    (hb : isSpace b = false) (hne : b ≠ 93) (hsep : separator? acc.isEmpty 44 (b :: bs) = some after) :
    items? value (fuel + 1) acc (b :: bs)
      = (value false .null after).bind fun p => items? value fuel (p.1 :: acc) p.2 := by
  rw [items?, skip_cons hb]
  split
  · next heq => exact absurd (List.cons.inj heq).1 hne
  · rw [hsep, Option.bind_some]
    cases value false .null after <;> rfl

theorem entries?_step {value : Inner} {first : Bool} {acc : List (Text × Datum)} {k : Text} {after mid : List UInt8}
    (hb : isSpace b = false) (hne : b ≠ 125)
    (hsep : separator? first 44 (b :: bs) = some after) (hkey : key? after = some (k, 58 :: mid))
    (hnew : (Datum.map acc).field? k = none) :
    entries? value (fuel + 1) first acc (b :: bs)
      = (value false .null mid).bind fun p => entries? value fuel false (Datum.insert k p.1 acc) p.2 := by
  have hcolon : separator? false 58 (58 :: mid) = some mid := rfl
  rw [entries?, skip_cons hb]
  split
  · next heq => exact absurd (List.cons.inj heq).1 hne
  · rw [hsep, Option.bind_some, hkey]
    simp only [hcolon, hnew, Option.getD_none, Option.bind_some]
    cases value false .null mid <;> rfl

/-- Texts with a comma before each of them. -/
def commas (ts : List Text) : List UInt8 := ts.flatMap fun t => 44 :: t.bytes

theorem join_cons_bytes (t : Text) (ts : List Text) : (join "," (t :: ts)).bytes = t.bytes ++ commas ts := by
  rw [join, bytes_append, Text.concat, flatMap_map]
  rfl

theorem length_le_commas (ts : List Text) : ts.length ≤ (commas ts).length := by
  induction ts with
  | nil => exact Nat.zero_le _
  | cons t ts ih =>
    rw [commas, flatMap_cons, List.length_append, length_cons, length_cons]
    rw [commas] at ih
    omega

theorem length_writeItems (items : List Datum) : (writeItems items).length = items.length := by
  induction items with
  | nil => rfl
  | cons d items ih => rw [writeItems, length_cons, length_cons, ih]

theorem length_writeEntries (entries : List (Text × Datum)) :
    (writeEntries entries).length = entries.length := by
  induction entries with
  | nil => rfl
  | cons e entries ih => rw [writeEntries, length_cons, length_cons, ih]

/-- No number goes on behind a value in a list or a map. -/
theorem ends_commas (hb : isNumberByte b = false) (ts : List Text) (rest : List UInt8) :
    Ends (commas ts ++ b :: rest) := by
  cases ts with
  | nil => exact ends_cons hb rest
  | cons t ts => exact ends_cons rfl _

/-- Texts with a comma before each of them but the first of all. -/
def joined : Bool → List Text → List UInt8
  | true, ts => (join "," ts).bytes
  | false, ts => commas ts

theorem lt_length_joined (ts : List Text) (close : UInt8) (rest : List UInt8) :
    ts.length < (joined true ts ++ close :: rest).length + 1 := by
  cases ts with
  | nil => exact Nat.succ_pos _
  | cons t ts =>
    have htail := length_le_commas ts
    rw [joined, join_cons_bytes, List.length_append, List.length_append, length_cons, length_cons]
    omega

theorem joined_nil (first : Bool) : joined first [] = [] := by
  cases first <;> rfl

/-- A loop that has not come to the end finds the separator, if there is to be one, and the text behind it. -/
theorem joined_cons {t : Text} {close : UInt8} (hclose : 44 ≠ close)
    (ht : ∃ b bs, t.bytes = b :: bs ∧ isSpace b = false ∧ b ≠ close) (first : Bool) (ts : List Text)
    (rest : List UInt8) :
    ∃ b bs, joined first (t :: ts) ++ rest = b :: bs ∧ isSpace b = false ∧ b ≠ close ∧
      separator? first 44 (b :: bs) = some (t.bytes ++ (commas ts ++ rest)) := by
  obtain ⟨b, bs, hbytes, hspace, hne⟩ := ht
  cases first with
  | false => exact ⟨44, t.bytes ++ (commas ts ++ rest), by simp [joined, commas], rfl, hclose, rfl⟩
  | true =>
    have hjoined : joined true (t :: ts) ++ rest = t.bytes ++ (commas ts ++ rest) := by
      rw [joined, join_cons_bytes, List.append_assoc]
    refine ⟨b, bs ++ (commas ts ++ rest), ?_, hspace, hne, ?_⟩
    · rw [hjoined, hbytes, List.cons_append]
    · rw [hbytes, List.cons_append]
      rfl

section Loops

variable {value : Inner} {f : Datum → Option Datum}

/-- **The items of a list are read back.** -/
theorem items?_joined {items : List Datum} (hlegible : ∀ d ∈ items, Legible Q d)
    (hvalue : ∀ d ∈ items, ∀ rest, Ends rest → value false .null ((write d).bytes ++ rest) = (f d).map (·, rest))
    (hfuel : items.length < fuel) (acc : List Datum) (rest : List UInt8) :
    items? value fuel acc (joined acc.isEmpty (writeItems items) ++ 93 :: rest)
      = (items.mapM f).map fun ds => (acc.reverse ++ ds, rest) := by
  induction items generalizing fuel acc with
  | nil =>
    obtain ⟨fuel, rfl⟩ := Nat.exists_eq_succ_of_ne_zero (Nat.ne_of_gt hfuel)
    rw [writeItems, joined_nil, mapM_nil, Option.pure_def, Option.map_some, List.append_nil]
    rfl
  | cons d items ih =>
    obtain ⟨hbegins, hlegible⟩ := List.forall_mem_cons.1 hlegible
    obtain ⟨hd, hitems⟩ := List.forall_mem_cons.1 hvalue
    obtain ⟨fuel, rfl⟩ := Nat.exists_eq_succ_of_ne_zero (Nat.ne_of_gt (Nat.zero_lt_of_lt hfuel))
    obtain ⟨b, bs, hbytes, hspace, hne, hsep⟩ :=
      joined_cons (by decide) hbegins.begins acc.isEmpty (writeItems items) (93 :: rest)
    rw [writeItems, hbytes, items?_step hspace hne hsep, hd _ (ends_commas rfl _ rest), mapM_cons]
    cases f d with
    | none => rfl
    | some d' =>
      refine (ih hlegible hitems (Nat.lt_of_succ_lt_succ hfuel) (d' :: acc)).trans ?_
      cases items.mapM f <;> simp

/-- **The entries of a map are read back.** -/
theorem entries?_joined {acc : List (Text × Datum)} (hordered : Datum.Ordered (acc ++ entries))
    (hkeys : ∀ e ∈ entries, e.1.isUtf8)
    (hvalue : ∀ e ∈ entries, ∀ rest, Ends rest →
      value false .null ((write e.2).bytes ++ rest) = (f e.2).map (·, rest))
    (hfuel : entries.length < fuel) (first : Bool) (rest : List UInt8) :
    entries? value fuel first acc (joined first (writeEntries entries) ++ 125 :: rest)
      = (entries.mapM fun e => (f e.2).map (e.1, ·)).map fun es => (acc ++ es, rest) := by
  induction entries generalizing fuel first acc with
  | nil =>
    obtain ⟨fuel, rfl⟩ := Nat.exists_eq_succ_of_ne_zero (Nat.ne_of_gt hfuel)
    rw [writeEntries, joined_nil, mapM_nil, Option.pure_def, Option.map_some, List.append_nil]
    rfl
  | cons e entries ih =>
    obtain ⟨hkey, hkeys⟩ := List.forall_mem_cons.1 hkeys
    obtain ⟨he, hvalue⟩ := List.forall_mem_cons.1 hvalue
    obtain ⟨fuel, rfl⟩ := Nat.exists_eq_succ_of_ne_zero (Nat.ne_of_gt (Nat.zero_lt_of_lt hfuel))
    have hbelow : ∀ e' ∈ acc, e'.1.bytes < e.1.bytes := fun e' he' =>
      (List.pairwise_append.1 hordered).2.2 e' he' e mem_cons_self
    have hentry : (string e.1 ++ ":" ++ write e.2).bytes = (string e.1).bytes ++ 58 :: (write e.2).bytes := by
      rw [bytes_append, bytes_append, List.append_assoc]
      rfl
    have hbegins : ∃ b bs, (string e.1 ++ ":" ++ write e.2).bytes = b :: bs ∧ isSpace b = false ∧ b ≠ 125 :=
      ⟨34, _, by rw [hentry, string_bytes, List.cons_append], rfl, by decide⟩
    obtain ⟨b, bs, hbytes, hspace, hne, hsep⟩ :=
      joined_cons (by decide) hbegins first (writeEntries entries) (125 :: rest)
    rw [hentry, List.append_assoc, List.cons_append] at hsep
    rw [writeEntries, hbytes, entries?_step hspace hne hsep (key?_string hkey _) (field?_eq_none hbelow),
      he _ (ends_commas rfl _ rest), mapM_cons]
    cases f e.2 with
    | none => rfl
    | some d =>
      have hordered' : Datum.Ordered ((acc ++ [(e.1, d)]) ++ entries) := hordered.congr (by simp)
      rw [Option.map_some, Option.bind_some, insert_append hbelow]
      refine (ih hordered' hkeys hvalue (Nat.lt_of_succ_lt_succ hfuel) false).trans ?_
      cases entries.mapM fun e => (f e.2).map (e.1, ·) <;> simp

end Loops

/-! ## Values -/

/-- Where each item is read under a condition, all are read if all meet it. -/
theorem mapM_ite {α β : Type} {p : α → Prop} [DecidablePred p] {f : α → β} (xs : List α) :
    (xs.mapM fun x => if p x then some (f x) else none) = if ∀ x ∈ xs, p x then some (xs.map f) else none := by
  induction xs with
  | nil => rfl
  | cons x xs ih =>
    rw [mapM_cons, ih]
    simp only [forall_mem_cons]
    by_cases hx : p x
    · by_cases hxs : ∀ y ∈ xs, p y
      · rw [if_pos hx, if_pos hxs, if_pos ⟨hx, hxs⟩]
        rfl
      · rw [if_pos hx, if_neg hxs, if_neg fun h => hxs h.2]
        rfl
    · have hall : ¬ (p x ∧ ∀ y ∈ xs, p y) := fun h => hx h.1
      rw [if_neg hx, if_neg hall]
      rfl

/-- **What was written is read back**, repaired, if the reader has room for the nesting, and not otherwise. -/
theorem value?_write (h : Legible Q d) (room : Nat) {rest : List UInt8} (hrest : Ends rest) :
    value? room false .null ((write d).bytes ++ rest)
      = (if d.depth ≤ room then some d.repair.reread else none).map (·, rest) := by
  induction h generalizing room rest with
  | null => exact value?_null room rest
  | bool b => exact value?_bool room b rest
  | int i => exact value?_int i room hrest
  | uint h => exact value?_uint h room hrest
  | text _ => exact value?_text _ room rest
  | @list items h ih =>
    have hbytes : (write (.list items)).bytes ++ rest
        = 91 :: (joined true (writeItems items) ++ 93 :: rest) := by
      rw [write, bytes_append, bytes_append, List.append_assoc, List.append_assoc]
      rfl
    rw [hbytes, Datum.depth]
    cases room with
    | zero => exact (value?_no_room _).1
    | succ room =>
      have hcount := lt_length_joined (writeItems items) 93 rest
      rw [length_writeItems] at hcount
      have hitems := items?_joined h (fun d hd rest hrest => ih d hd room hrest) hcount [] rest
      rw [isEmpty_nil] at hitems
      rw [value?_list, hitems, mapM_ite]
      simp only [Nat.add_le_add_iff_right, depthItems_le_iff]
      split
      · rw [Datum.repair, Datum.reread, repairItems_eq, rereadItems_eq, map_map]
        rfl
      · rfl
  | @map entries hordered hkeys h ih =>
    have hbytes : (write (.map entries)).bytes ++ rest
        = 123 :: (joined true (writeEntries entries) ++ 125 :: rest) := by
      rw [write, bytes_append, bytes_append, List.append_assoc, List.append_assoc]
      rfl
    rw [hbytes, Datum.depth]
    cases room with
    | zero => exact (value?_no_room _).2
    | succ room =>
      have hcount := lt_length_joined (writeEntries entries) 125 rest
      rw [length_writeEntries] at hcount
      rw [value?_map, entries?_joined (f := fun d => if d.depth ≤ room then some d.repair.reread else none)
        (show Datum.Ordered ([] ++ entries) from hordered) hkeys (fun e he rest hrest => ih e he room hrest) hcount]
      simp only [Nat.add_le_add_iff_right, depthEntries_le_iff, apply_ite (Option.map _), Option.map_some,
        Option.map_none, mapM_ite]
      split
      · rw [Datum.repair, Datum.reread, repairEntries_eq, rereadEntries_eq, map_map]
        rfl
      · rfl

/-- A written datum is read, repaired, exactly if it is not nested too deep. -/
theorem read_legible (h : Legible Q d) :
    read? (write d) = if d.depth < maxDepth then some d.repair.reread else none := by
  have hend : Ends [] := fun b hb => by cases hb
  have hvalue := value?_write h (maxDepth - 1) hend
  rw [List.append_nil] at hvalue
  rw [read?, hvalue, Option.map_map]
  have hroom : d.depth ≤ maxDepth - 1 ↔ d.depth < maxDepth := by
    rw [maxDepth]
    omega
  simp only [hroom]
  split <;> rfl

theorem read_portable (h : Portable d) (hdepth : d.depth < maxDepth) :
    read? (write d) = some d.reread := by
  rw [read_legible h, if_pos hdepth, h.repair_eq]

end Json

end TinyScript.Data
