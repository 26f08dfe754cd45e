import Mathlib
import TinyScript.Proofs.Packed.RoundTrip

/-!
# What a failed save leaves behind

A save can fail because there is such a file already, because the file cannot be made, or because the value has no
packed form. Only in the third case has the file been made, and it stays, so no value can be saved under that path from
then on (`Act.failed_save_keeps_files_iff`).
-/

namespace TinyScript

namespace Act

variable {m : Machine} {r : Ref} {path : Text}

/-! ## The ways in which a save fails -/

theorem save_present (h : m.files.isFile path) : (save r path).run m = (.error (.present path), m) := by
  have hfound : (isFile path).run m = (true, m) := by rw [isFile_run, h, if_pos rfl]
  rw [save, run_bind_of hfound]
  rfl

theorem save_refused (hnew : m.files.isFile path = false) {e : Host.FileError}
    (hwrite : m.files.write path Text.empty = .error e) :
    (save r path).run m = (.error (.file e), { m with missed := path :: m.missed }) := by
  have hrefused : (writeFile path Text.empty).run { m with missed := path :: m.missed }
      = (.error e, { m with missed := path :: m.missed }) := by
    have hget : (get : Act Machine).run { m with missed := path :: m.missed }
        = ({ m with missed := path :: m.missed }, { m with missed := path :: m.missed }) := rfl
    rw [writeFile, run_bind_of hget, hwrite]
    rfl
  rw [save, run_bind_of (isFile_run_new hnew), if_neg Bool.false_ne_true, run_bind_of hrefused]
  rfl

/-- The file is made before the value is walked through, and nothing takes it back. -/
theorem save_unpackable (hnew : m.files.isFile path = false) (hwrite : ∃ fs, m.files.write path Text.empty = .ok fs)
    {e : PackError} (hpack : m.pack r = .error e) :
    ∃ fs, (save r path).run m = (.error (.pack e), { m with missed := path :: m.missed, files := fs }) ∧
      fs.stat path = .ok (.file ((m.packStream r).2.sent m.files.spill)) := by
  refine save_new hnew hwrite (.inr ⟨e, ?_, rfl, rfl⟩)
  rw [Machine.packStream_fst, hpack]
  rfl

theorem isFile_of_stat {fs : Host.Files} {data : Text} (h : fs.stat path = .ok (.file data)) : fs.isFile path := by
  rw [Host.Files.isFile, h]

/-- **A failed save leaves the files alone exactly if it did not come to make the file.** So it does if there was a
file already or none can be made there. Otherwise the value has no packed form, the path has come to name a file
that holds what had gone out, and every later save to it is refused, of whatever value. -/
theorem failed_save_keeps_files_iff {m m' : Machine} {r : Ref} {path : Text} {e : SaveError}
    (h : (save r path).run m = (.error e, m')) :
    (m'.files = m.files ↔ m.files.isFile path = true ∨ ∃ fault, m.files.write path Text.empty = .error fault) ∧
    (m'.files ≠ m.files →
      (∃ fault, m.pack r = .error fault ∧ e = .pack fault) ∧
      m'.files.stat path = .ok (.file ((m.packStream r).2.sent m.files.spill)) ∧
      ∀ (k : Machine) (s : Ref), k.files = m'.files → (save s path).run k = (.error (.present path), k)) := by
  by_cases hpresent : m.files.isFile path = true
  · rw [save_present hpresent] at h
    obtain ⟨-, rfl⟩ := Prod.mk.inj h
    exact ⟨iff_of_true rfl (Or.inl hpresent), fun hne => absurd rfl hne⟩
  rw [Bool.not_eq_true] at hpresent
  cases hwrite : m.files.write path Text.empty with
  | error fault =>
    rw [save_refused hpresent hwrite] at h
    obtain ⟨-, rfl⟩ := Prod.mk.inj h
    exact ⟨iff_of_true rfl (Or.inr ⟨fault, rfl⟩), fun hne => absurd rfl hne⟩
  | ok fs =>
    cases hpack : m.pack r with
    | ok t =>
      obtain ⟨fs', hsave, -⟩ := save_run hpack hpresent ⟨fs, hwrite⟩
      rw [hsave] at h
      cases h
    | error fault =>
      obtain ⟨fs', hsave, hstat⟩ := save_unpackable hpresent ⟨fs, hwrite⟩ hpack
      rw [hsave] at h
      obtain ⟨he, rfl⟩ := Prod.mk.inj h
      -- the path names a file now, which it did not before
      have hfile := isFile_of_stat hstat
      refine ⟨iff_of_false (fun heq => ?_) ?_, fun _ => ⟨⟨fault, rfl, (Except.error.inj he).symm⟩, hstat, ?_⟩⟩
      · rw [← heq, hfile] at hpresent
        cases hpresent
      · rintro (hfound | ⟨fault', hrefused⟩)
        · rw [hfound] at hpresent
          cases hpresent
        · cases hrefused
      · exact fun k s hk => save_present (by rw [hk]; exact hfile)

end Act

namespace Machine

/-- A function, and a number. -/
def callable : Machine where
  heap :=
    let (h, _) := Heap.empty.alloc (.function ⟨"f", .native .len⟩) false
    let (h, _) := h.alloc (.i64 1) false
    h

end Machine

/-- A function is not saved, but there is an empty file then, and a number cannot be saved there any more. -/
theorem Act.failed_save_keeps_files_iff_function :
    ∃ m', (Act.save ⟨0, 1⟩ "a").run Machine.callable = (.error (.pack .function), m') ∧
      m'.files ≠ Machine.callable.files ∧ m'.files.stat "a" = .ok (.file Text.empty) ∧
      (Act.save ⟨1, 1⟩ "a").run m' = (.error (.present "a"), m') := by
  have hnew : Machine.callable.files.isFile "a" = false := by decide
  have hpack : Machine.callable.pack ⟨0, 1⟩ = .error .function := rfl
  obtain ⟨fs, hsave, -⟩ := Act.save_unpackable hnew ⟨_, rfl⟩ hpack
  obtain ⟨hkept, hleft⟩ := Act.failed_save_keeps_files_iff hsave
  have hchanged : fs ≠ Machine.callable.files := by
    intro heq
    rcases hkept.mp heq with hpresent | ⟨fault, hrefused⟩
    · rw [hnew] at hpresent
      cases hpresent
    · cases hrefused
  obtain ⟨-, hstat, hagain⟩ := hleft hchanged
  exact ⟨_, hsave, hchanged, hstat, hagain _ _ rfl⟩

end TinyScript
