import Mathlib
import TinyScript.Proofs.Packed.RoundTrip

/-!
# Packing what was unpacked

What is unpacked is a value of the tree that is read. The tree comes back from its packed form as it is, so the value
has the packed form of the tree, and unpacking that makes a value of the same tree again (`Act.unpack_repacks`).
-/

namespace TinyScript.Act

open Unfolded

variable {m m' : Machine} {t : Text} {r : Ref}

/-- **Packing what was unpacked is stable.** Whatever bytes a value was unpacked from, it has a packed form, and on any
machine that is ready a value is unpacked from this form that has the same packed form, byte for byte, and the same
text. -/
theorem unpack_repacks (hm : m.Ready) (h : (unpack t).run m = (.ok r, m')) :
    m'.Ready ∧ ∃ b, m'.pack r = .ok b ∧ ∀ m₂, m₂.Ready → ∃ r₂ m₃, (unpack b).run m₂ = (.ok r₂, m₃) ∧
      m₃.pack r₂ = .ok b ∧ ∀ style, m₃.render style r₂ = m'.render style r := by
  obtain ⟨x, hreads, hmade⟩ := reads_of_unpack h
  obtain ⟨hx, hm'⟩ := hmade hm
  have hcanonical : x.Canonical := Reading.gives_value _ _ _ _ _ hreads
  refine ⟨hm', x.packed, hx.pack_eq hcanonical, fun m₂ hm₂ => ?_⟩
  -- the tree is read again, so the second value is a value of the same tree
  have hagain := Reading.run_value .memory hcanonical (Nat.lt_succ_self _) []
  rw [List.append_nil] at hagain
  obtain ⟨r₂, m₃, hrun, hmade₂⟩ := unpack_of_reads hagain m₂
  obtain ⟨hx₂, -⟩ := hmade₂ hm₂
  refine ⟨r₂, m₃, hrun, hx₂.pack_eq hcanonical, fun style => ?_⟩
  rw [Machine.render_eq_of_unfolds hx₂.unfolds_of_heap, Machine.render_eq_of_unfolds hx.unfolds_of_heap]

/-- A dict of three entries, two of which have the same key. -/
def repeating : Text :=
  ⟨[0x92, 10, 0x83, 0xa1, 0x62, 0x92, 2, 0xc3, 0xa1, 0x61, 0x92, 1, 0xc0, 0xa1, 0x62, 0x92, 2, 0xc2]⟩

/-- One of the entries is lost at first, and nothing after that. -/
theorem unpack_repacks_repeating :
    Machine.sample.Ready ∧ ∃ r m' b, (unpack repeating).run Machine.sample = (.ok r, m') ∧
      m'.render .plain r = "dict\x7bb: false, a: nil, \x7d" ∧ m'.pack r = .ok b ∧ b ≠ repeating ∧
      ∃ r₂ m₃, (unpack b).run m' = (.ok r₂, m₃) ∧ m₃.pack r₂ = .ok b ∧
        m₃.render .plain r₂ = m'.render .plain r := by
  have hresult : ((unpack repeating).run Machine.sample).1 = .ok ⟨4, 1⟩ := by cbv
  have htext : ((unpack repeating).run Machine.sample).2.render .plain ⟨4, 1⟩ = "dict\x7bb: false, a: nil, \x7d" := by
    cbv
  have hbytes : ((unpack repeating).run Machine.sample).2.pack ⟨4, 1⟩
      = .ok ⟨[0x92, 10, 0x82, 0xa1, 0x62, 0x92, 2, 0xc2, 0xa1, 0x61, 0x92, 1, 0xc0]⟩ := by cbv
  generalize hrun : (unpack repeating).run Machine.sample = p at hresult htext hbytes
  obtain ⟨result, m'⟩ := p
  obtain rfl : result = .ok ⟨4, 1⟩ := hresult
  obtain ⟨hready, b, hpack, hstable⟩ := unpack_repacks Machine.ready_sample hrun
  obtain rfl := Except.ok.inj (hbytes.symm.trans hpack)
  obtain ⟨r₂, m₃, hagain, hpack₂, hrender⟩ := hstable _ hready
  exact ⟨Machine.ready_sample, ⟨4, 1⟩, m', _, rfl, htext, hpack, by decide, r₂, m₃, hagain, hpack₂, hrender .plain⟩

end TinyScript.Act
