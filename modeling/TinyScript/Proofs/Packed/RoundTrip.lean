import Mathlib
import TinyScript.Proofs.Host.Files
import TinyScript.Proofs.Packed.Planting
import TinyScript.Proofs.Packed.Streaming

/-!
# Values come back from their packed form

A packable value unfolds to a tree, and its packed form is that of the tree. A value of what the tree comes back as is
read from it, in memory and from a file, and this is the same as the value (`Machine.pack_restores`).
-/

namespace TinyScript

open Data Heap

/-- Every object that a reference comes to has a packed form as far as it is concerned itself. -/
def Heap.Storable (h : Heap) (r : Ref) : Prop := ∀ s o, h.Reaches r s → h.get? s = some o → o.Storable

namespace Machine

variable {m : Machine} {r : Ref} {x : Unfolded}

theorem storable_object (h : m.heap.Storable r) : (m.object r).Storable := by
  rw [object]
  cases ho : m.heap.get? r with
  | some o => exact h r o .refl ho
  | none =>
    -- a reference that is stale counts as an error
    show staleMessage.size < 2 ^ 32
    decide

/-- The tree of a value that can be stored comes back from its packed form. -/
theorem Unfolds.exists_restores (hx : m.Unfolds r x) (h : m.heap.Storable r) : ∃ y, x.Restores y := by
  have hpart {r c : Ref} (h : m.heap.Storable r) (hc : c ∈ (m.object r).children) : m.heap.Storable c := by
    obtain ⟨o, ho, hc⟩ := mem_children_object_iff.mp hc
    exact fun s p hs hp => h s p (.of_child ho hc hs) hp
  induction hx with
  | @leaf r hleaf =>
    have hstorable := storable_object h
    obtain ⟨o', ho'⟩ : ∃ o', (m.object r).restored? = some o' := by
      cases ho : m.object r with
      | pair | list | dict => rw [ho] at hleaf; cases hleaf
      | function | other => rw [ho] at hstorable; exact hstorable.elim
      | _ => exact ⟨_, rfl⟩
    exact ⟨_, .leaf ho' hstorable⟩
  | pair ho _ _ iha ihb =>
    obtain ⟨x', hx⟩ := iha (hpart h (by simp [ho, Object.children]))
    obtain ⟨y', hy⟩ := ihb (hpart h (by simp [ho, Object.children]))
    exact ⟨_, .pair hx hy⟩
  | @list r items f ho _ ih =>
    have hlength : items.length < 2 ^ 32 := by
      have hstorable := storable_object h
      rwa [ho] at hstorable
    have hitems : ∀ x ∈ items.map f, ∃ y, x.Restores y :=
      List.forall_mem_map.mpr fun c hc => ih c hc (hpart h (by rwa [ho]))
    choose! g hg using hitems
    exact ⟨_, .list (by rwa [List.length_map]) hg⟩
  | @dict r t f ho _ ih =>
    have hstorable := storable_object h
    rw [ho] at hstorable
    obtain ⟨hvalid, hcount, hkeys⟩ := hstorable
    have hentries : ∀ x ∈ t.toList.map fun e => f e.2, ∃ y, x.Restores y := by
      refine List.forall_mem_map.mpr fun e he => ih e he (hpart h ?_)
      rw [ho]
      exact Table.forall_mem_toList.mpr (fun _ hc => hc) e he
    choose! g hg using hentries
    refine ⟨_, .dict (f := g) ?_ ?_ ?_⟩
    · rwa [List.length_map, hvalid.length_toList]
    · exact List.forall_mem_map.mpr fun e he => hkeys _ (t.map_fst_toList ▸ List.mem_map_of_mem he)
    · exact List.forall_mem_map.mpr fun e he => hg _ (List.mem_map_of_mem (f := fun e => f e.2) he)

/-- If a value that can be stored has a packed form, it is that of a tree that comes back from it. -/
theorem exists_restores_of_pack {t : Text} (h : m.heap.Storable r) (ht : m.pack r = .ok t) :
    ∃ x y, m.Unfolds r x ∧ x.Restores y ∧ t = x.packed := by
  have hconverts := m.converts_packWithin.iff.mp ⟨t, ht⟩
  obtain ⟨x, hx⟩ := exists_unfolds_iff.mpr fun s hs => (hconverts s hs).2
  obtain ⟨y, hxy⟩ := hx.exists_restores h
  refine ⟨x, y, hx, hxy, Except.ok.inj (ht.symm.trans (pack_eq_of_unfolds hx hxy fun s t hs hs' => ?_))⟩
  have hstorable : (m.object s).Storable := storable_object fun u p hu hp => h u p (hs.trans hu) hp
  rw [hs'] at hstorable
  exact hstorable.1

/-- A packable value is a value of a tree that comes back from its packed form. -/
theorem exists_value_of_packable (hr : m.heap.Packable r) : ∃ x y : Unfolded, x.Value m.heap r ∧ x.Restores y := by
  have hstorable : m.heap.Storable r := by
    intro s o hs ho
    obtain ⟨p, hp, hstorable, -⟩ := hr s hs
    rwa [Option.some.inj (ho.symm.trans hp)]
  obtain ⟨x, hx⟩ := exists_unfolds_iff.mpr fun s hs => by
    obtain ⟨o, ho, -, hacyclic⟩ := hr s hs
    rintro ⟨p, hp, c, hc, hreach⟩
    obtain rfl := Option.some.inj (ho.symm.trans hp)
    exact hacyclic c hc hreach
  obtain ⟨y, hxy⟩ := hx.exists_restores hstorable
  refine ⟨x, y, ⟨hx.stays fun _ _ => rfl, fun s hs => ?_⟩, hxy⟩
  obtain ⟨o, ho, hstorable, -⟩ := hr s hs
  refine ⟨o, ho, fun t ht => ?_⟩
  rw [ht] at hstorable
  exact hstorable.1

end Machine

/-! ## In memory and in files -/

namespace Act

variable {m : Machine} {r : Ref} {t : Text}

theorem isFile_run (path : Text) (m : Machine) :
    (isFile path).run m
      = (m.files.isFile path, { m with missed := if m.files.isFile path then m.missed else path :: m.missed }) := by
  show (if m.files.isFile path = true then (true, m) else (false, { m with missed := path :: m.missed })) = _
  cases m.files.isFile path <;> rfl

theorem writeFile_run {path data : Text} {fs : Host.Files} (hfs : m.files.write path data = .ok fs) :
    (writeFile path data).run m = (.ok (), { m with files := fs }) := by
  have hget : (get : Act Machine).run m = (m, m) := rfl
  rw [writeFile, run_bind_of hget, hfs]
  rfl

theorem isFile_run_new {path : Text} (hnew : m.files.isFile path = false) :
    (isFile path).run m = (false, { m with missed := path :: m.missed }) := by
  rw [isFile_run, hnew, if_neg Bool.false_ne_true]

/-- Saving to a new file changes the files, and remembers that there was no such file. The file is left with the
packed form, or with what had gone out when the value was found to have none. -/
theorem save_new {path left : Text} {result : Except SaveError Nat} (hnew : m.files.isFile path = false)
    (hwrite : ∃ fs, m.files.write path Text.empty = .ok fs)
    (hleft : (m.packStream r).1 = .ok () ∧ (m.packStream r).2.written = left ∧ .ok left.size = result ∨
      ∃ e, (m.packStream r).1 = .error e ∧ (m.packStream r).2.sent m.files.spill = left ∧ .error (.pack e) = result) :
    ∃ fs, (save r path).run m = (result, { m with missed := path :: m.missed, files := fs }) ∧
      fs.stat path = .ok (.file left) := by
  obtain ⟨fs, hfs⟩ := hwrite
  obtain ⟨fs', hfs'⟩ := (Host.Files.stat_of_write hfs).2 left
  refine ⟨fs', ?_, (Host.Files.stat_of_write hfs').1⟩
  -- the file is made first, empty, and then written a second time
  let k : Machine := { m with missed := path :: m.missed }
  let k' : Machine := { k with files := fs }
  have hfirst : (writeFile path Text.empty).run k = (.ok (), k') := writeFile_run hfs
  have hget : (get : Act Machine).run k' = (k', k') := rfl
  have hstream : k'.packStream r = m.packStream r := by rw [Machine.packStream_congr (show k'.heap = m.heap from rfl)]
  have hspill : k'.files.spill = m.files.spill := Host.Files.spill_of_write hfs
  have hsecond : (writeFile path left).run k' = (.ok (), { k' with files := fs' }) := writeFile_run hfs'
  rw [save, run_bind_of (isFile_run_new hnew), if_neg Bool.false_ne_true, run_bind_of hfirst]
  dsimp only
  rw [run_bind_of hget, hstream, hspill]
  obtain ⟨hresult, rfl, rfl⟩ | ⟨e, hresult, rfl, rfl⟩ := hleft
  · rw [hresult]
    exact run_bind_of hsecond
  · rw [hresult]
    exact run_bind_of hsecond

theorem save_run {path : Text} (hpack : m.pack r = .ok t) (hnew : m.files.isFile path = false)
    (hwrite : ∃ fs, m.files.write path Text.empty = .ok fs) :
    ∃ fs, (save r path).run m = (.ok t.size, { m with missed := path :: m.missed, files := fs }) ∧
      fs.stat path = .ok (.file t) := by
  refine save_new hnew hwrite (.inl ⟨?_, Machine.packStream_written hpack, rfl⟩)
  rw [Machine.packStream_fst, hpack]
  rfl

/-- Loading reads from the file. -/
theorem load_run {path : Text} {r : Ref} {rest : List UInt8} {m' : Machine}
    (hfile : m.files.stat path = .ok (.file t)) (hrun : (unpackFrom .file t).run m = (.ok (r, rest), m')) :
    (load path).run m = (.ok r, m') := by
  have hisFile : m.files.isFile path := by rw [Host.Files.isFile, hfile]
  have hread : m.files.read path = .ok t := by rw [Host.Files.read, hfile]
  have hfound : (isFile path).run m = (true, m) := by rw [isFile_run, hisFile, if_pos rfl]
  have hget : (get : Act Machine).run m = (m, m) := rfl
  rw [load, run_bind_of hfound, if_neg (by decide), run_bind_of hget, hread]
  exact run_bind_of hrun

end Act

/-- **A packed value comes back.** If nothing that a reference comes to is stale, a function or inside itself, and
all sizes fit in 32 bits, there is a packed form, and on any machine that is ready a value of the same structure
is read from it. So it is when the form goes through a new file. A truth value keeps its truth, but its word only
if that is zero or one. -/
theorem Machine.pack_restores {m : Machine} {r : Ref} (hr : m.heap.Packable r) :
    ∃ t, m.pack r = .ok t ∧
      (∀ m', m'.Ready → ∃ r' m'', (Act.unpack t).run m' = (.ok r', m'') ∧ m.heap.Same m''.heap r r') ∧
      ∀ path, m.files.isFile path = false → (∃ fs, m.files.write path Text.empty = .ok fs) →
        ∃ m₁, (Act.save r path).run m = (.ok t.size, m₁) ∧ (m.Ready → m₁.Ready) ∧
          ∀ m₂, m₂.Ready → m₂.files = m₁.files →
            ∃ r' m₃, (Act.load path).run m₂ = (.ok r', m₃) ∧ m.heap.Same m₃.heap r r' := by
  obtain ⟨x, y, hx, hxy⟩ := exists_value_of_packable hr
  have hpack := hx.pack_eq hxy
  have hread (source : MessagePack.Source) := Unfolded.Reading.run_value source hxy (Nat.lt_succ_self _) []
  simp only [List.append_nil] at hread
  refine ⟨x.packed, hpack, fun m' hm' => ?_, fun path hnew hwrite => ?_⟩
  · obtain ⟨r', m'', hrun, hy⟩ := Act.unpack_of_reads (hread .memory) m'
    exact ⟨r', m'', hrun, hx.same hxy (hy hm').1⟩
  · obtain ⟨fs, hsave, hfile⟩ := Act.save_run hpack hnew hwrite
    refine ⟨_, hsave, fun hm => ⟨hm.wellFormed, hm.nil_eq, hm.nil_root⟩, fun m₂ hm₂ hfiles => ?_⟩
    obtain ⟨r', m₃, hrun, hy⟩ := Act.unpackFrom_of_reads (hread .file) m₂
    exact ⟨r', m₃, Act.load_run (by rw [hfiles]; exact hfile) hrun, hx.same hxy (hy hm₂).1⟩

/-! ## A dict of a pair of a truth value -/

namespace Machine

/-- The shared `nil`, a truth value with an unusual word, a pair of the two and a dict that holds the pair. -/
def sample : Machine where
  heap :=
    let (h, _) := Heap.empty.alloc .nil true
    let (h, _) := h.alloc (.bool 5) false
    let (h, _) := h.alloc (.pair ⟨1, 1⟩ ⟨0, 1⟩) false
    let (h, _) := h.alloc (.dict (Table.empty.put "k" ⟨2, 1⟩).1) false
    h
  nil := ⟨0, 1⟩

theorem ready_sample : sample.Ready where
  wellFormed := ((((Heap.threaded_empty.alloc _ _).alloc _ _).alloc _ _).alloc _ _).wellFormed
  nil_eq := rfl
  nil_root := rfl

theorem get?_sample {r : Ref} {o : Object} (ho : sample.heap.get? r = some o) :
    (r = ⟨3, 1⟩ ∧ o = .dict (Table.empty.put "k" ⟨2, 1⟩).1) ∨ (r = ⟨2, 1⟩ ∧ o = .pair ⟨1, 1⟩ ⟨0, 1⟩) ∨
      (r = ⟨1, 1⟩ ∧ o = .bool 5) ∨ (r = ⟨0, 1⟩ ∧ o = .nil) := by
  have h₁ := Heap.threaded_empty.alloc .nil true
  have h₂ := h₁.alloc (.bool 5) false
  have h₃ := h₂.alloc (.pair ⟨1, 1⟩ ⟨0, 1⟩) false
  rcases h₃.get?_alloc_iff.mp ho with h | ho
  · exact Or.inl h
  rcases h₂.get?_alloc_iff.mp ho with h | ho
  · exact Or.inr (Or.inl h)
  rcases h₁.get?_alloc_iff.mp ho with h | ho
  · exact Or.inr (Or.inr (Or.inl h))
  rcases Heap.threaded_empty.get?_alloc_iff.mp ho with h | ho
  · exact Or.inr (Or.inr (Or.inr h))
  · simp [Heap.get?, Heap.slot?, Heap.empty] at ho

theorem packable_sample {r : Ref} (hr : sample.heap.valid r) : sample.heap.Packable r := by
  refine acyclic_of_lower (fun s o ho => ?_) hr
  have hempty : (Table.empty : Table Ref).Valid := Table.valid_empty
  rcases get?_sample ho with ⟨rfl, rfl⟩ | ⟨rfl, rfl⟩ | ⟨rfl, rfl⟩ | ⟨rfl, rfl⟩
  · have hvalid := hempty.put "k" ⟨2, 1⟩
    refine ⟨⟨hvalid, by decide, by decide⟩, fun c hc => ?_⟩
    obtain ⟨key, hkey⟩ := get?_of_mem_children hvalid hc
    rw [hempty.get?_put] at hkey
    split at hkey
    · obtain rfl := Option.some.inj hkey
      exact ⟨rfl, by decide⟩
    · rw [Table.get?_empty] at hkey
      cases hkey
  · exact ⟨trivial, by decide⟩
  · exact ⟨trivial, by simp [Object.children]⟩
  · exact ⟨trivial, by simp [Object.children]⟩

/-- The dict comes back, from memory and from a file. -/
theorem pack_restores_sample :
    sample.heap.Packable ⟨3, 1⟩ ∧ sample.Ready ∧ ∃ t, sample.pack ⟨3, 1⟩ = .ok t ∧
      (∃ r' m', (Act.unpack t).run sample = (.ok r', m') ∧ sample.heap.Same m'.heap ⟨3, 1⟩ r') ∧
      ∃ m₁, (Act.save ⟨3, 1⟩ "a").run sample = (.ok t.size, m₁) ∧
        ∃ r' m₂, (Act.load "a").run m₁ = (.ok r', m₂) ∧ sample.heap.Same m₂.heap ⟨3, 1⟩ r' := by
  have hpackable : sample.heap.Packable ⟨3, 1⟩ := packable_sample rfl
  obtain ⟨t, hpack, hunpack, hfile⟩ := pack_restores hpackable
  obtain ⟨m₁, hsave, hready, hload⟩ := hfile "a" (by decide) ⟨_, rfl⟩
  exact ⟨hpackable, ready_sample, t, hpack, hunpack sample ready_sample, m₁, hsave,
    hload m₁ (hready ready_sample) rfl⟩

/-- The truth value comes back with another word. -/
theorem pack_forgets_word :
    sample.Ready ∧ sample.heap.Packable ⟨1, 1⟩ ∧ sample.heap.get? ⟨1, 1⟩ = some (.bool 5) ∧
      ∃ t r' m', sample.pack ⟨1, 1⟩ = .ok t ∧ (Act.unpack t).run sample = (.ok r', m') ∧
        m'.heap.get? r' = some (.bool 1) :=
  ⟨ready_sample, packable_sample rfl, rfl, ⟨[0x92, 0x02, 0xc3]⟩, _, _, rfl, rfl, rfl⟩

end Machine

end TinyScript
