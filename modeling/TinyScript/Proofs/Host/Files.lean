import Mathlib.Data.List.Forall2
import TinyScript.Host.Files

/-!
# A file that was written is there

Writing a file changes the directory in which it lies and, through it, all directories above. The path
may go up and down through the tree on its way, so that the tree afterwards has to be walked again:
`walk_alike` says that the walk succeeds, since no directory is lost, and it ends in the changed
directory, since names determine a way (`Rooted.eq_of_names`).
-/

namespace TinyScript.Host

variable {way' way : Way} {root : Entries} {c : Text}

/-- The entries of a directory. -/
abbrev Entries := List (Text × Node)

theorem bind_eq_ok {ε α β : Type} {x : Except ε α} {f : α → Except ε β} {b : β} (h : x >>= f = .ok b) :
    ∃ a, x = .ok a ∧ f a = .ok b := by
  cases x with
  | error e => cases h
  | ok a => exact ⟨a, rfl, h⟩

/-! ## Entries -/

/-- Only the entry of that name is changed. -/
theorem member?_setEntry (name : Text) (node : Node) (es : Entries) (key : Text) :
    member? (setEntry name node es) key = if name = key then some node else member? es key := by
  induction es with
  | nil => by_cases hkey : name = key <;> simp [setEntry, member?, hkey]
  | cons e es ih =>
    obtain ⟨k, v⟩ := e
    rw [setEntry]
    by_cases hname : k = name
    · subst hname
      by_cases hkey : k = key <;> simp [member?, hkey]
    · rw [if_neg hname]
      by_cases hkey : k = key
      · subst hkey
        simp [member?, Ne.symm hname]
      · have hcons : ∀ es, member? ((k, v) :: es) key = member? es key := fun es => by simp [member?, hkey]
        rw [hcons, hcons, ih]

/-- Whether names lead from directory to directory. -/
def IsDir : Entries → List Text → Prop
  | _, [] => True
  | es, c :: cs => ∃ sub, member? es c = some (.dir sub) ∧ IsDir sub cs

/-- Every directory below `es` is also below `es'`. -/
def Covers (es' es : Entries) : Prop := ∀ cs, IsDir es cs → IsDir es' cs

/-- Directories inside are covered too. -/
theorem Covers.sub {es es' sub : Entries} (h : Covers es' es) (hc : member? es c = some (.dir sub)) :
    ∃ sub', member? es' c = some (.dir sub') ∧ Covers sub' sub := by
  obtain ⟨sub', hc', -⟩ := h [c] ⟨sub, hc, trivial⟩
  refine ⟨sub', hc', fun cs hcs => ?_⟩
  obtain ⟨sub'', hc'', hcs'⟩ := h (c :: cs) ⟨sub, hc, hcs⟩
  rw [hc'] at hc''
  cases hc''
  exact hcs'

/-- A directory may get more entries. -/
theorem Covers.setDir {es sub sub' : Entries} {name : Text} (hname : member? es name = some (.dir sub))
    (h : Covers sub' sub) : Covers (setEntry name (.dir sub') es) es := by
  intro cs hcs
  cases cs with
  | nil => trivial
  | cons c cs =>
    obtain ⟨inner, hc, hinner⟩ := hcs
    by_cases heq : name = c
    · subst heq
      rw [hname] at hc
      cases hc
      exact ⟨sub', by rw [member?_setEntry, if_pos rfl], h cs hinner⟩
    · exact ⟨inner, by rw [member?_setEntry, if_neg heq, hc], hinner⟩

/-- A file takes the place of no directory. -/
theorem Covers.setFile {es : Entries} {name : Text} (hname : ∀ sub, member? es name ≠ some (.dir sub))
    (data : Text) : Covers (setEntry name (.file data) es) es := by
  intro cs hcs
  cases cs with
  | nil => trivial
  | cons c cs =>
    obtain ⟨inner, hc, hinner⟩ := hcs
    have hne : name ≠ c := by
      rintro rfl
      exact hname inner hc
    exact ⟨inner, by rw [member?_setEntry, if_neg hne, hc], hinner⟩

/-! ## Ways -/

/-- A way that leads from the root into directories that are there. -/
inductive Rooted (root : Entries) : Way → Prop
  | root : Rooted root [(Text.empty, root)]
  | step {name up : Text} {sub around : Entries} {rest : Way} :
    Rooted root ((up, around) :: rest) → member? around name = some (.dir sub) →
    Rooted root ((name, sub) :: (up, around) :: rest)

theorem Rooted.exists_cons (h : Rooted root way) :
    ∃ name entries rest, way = (name, entries) :: rest := by
  cases h with
  | root => exact ⟨_, _, _, rfl⟩
  | step => exact ⟨_, _, _, rfl⟩

/-- Names determine a way. -/
theorem Rooted.eq_of_names (h : Rooted root way) (h' : Rooted root way')
    (hnames : way.map Prod.fst = way'.map Prod.fst) : way = way' := by
  induction h generalizing way' with
  | root =>
    cases h' with
    | root => rfl
    | step => simp at hnames
  | step _ hsub ih =>
    cases h' with
    | root => simp at hnames
    | step hway hsub' =>
      obtain ⟨hname, hrest⟩ := List.cons.inj hnames
      obtain ⟨hhead, rfl⟩ := List.cons.inj (ih hway hrest)
      obtain ⟨rfl, rfl⟩ := Prod.mk.inj hhead
      obtain rfl : _ = _ := hname
      rw [hsub] at hsub'
      cases hsub'
      rfl

/-- Where a component leads that is a name: into the directory of that name. -/
theorem advance_name (hdot : c ≠ ".") (hback : c ≠ "..")
    (h : advance way c = .ok way') :
    ∃ name entries rest sub, way = (name, entries) :: rest ∧ member? entries c = some (.dir sub)
      ∧ way' = (c, sub) :: way := by
  rw [advance.eq_def, if_neg hdot, if_neg hback] at h
  cases way with
  | nil => cases h
  | cons first rest =>
    obtain ⟨name, entries⟩ := first
    cases hc : member? entries c with
    | none => simp [hc] at h
    | some node =>
      cases node with
      | file data => simp [hc] at h
      | dir sub =>
        simp only [hc] at h
        cases h
        exact ⟨name, entries, rest, sub, rfl, hc, rfl⟩

theorem advance_of_member {name : Text} {entries sub : Entries} {rest : Way} (hdot : c ≠ ".") (hback : c ≠ "..")
    (hc : member? entries c = some (.dir sub)) :
    advance ((name, entries) :: rest) c = .ok ((c, sub) :: (name, entries) :: rest) := by
  rw [advance.eq_def, if_neg hdot, if_neg hback]
  simp only [hc]

/-- No step leads out of the tree. -/
theorem Rooted.advance (h : Rooted root way)
    (hstep : advance way c = .ok way') : Rooted root way' := by
  by_cases hdot : c = "."
  · rw [advance.eq_def, if_pos hdot] at hstep
    cases hstep
    exact h
  · by_cases hback : c = ".."
    · rw [advance.eq_def, if_neg hdot, if_pos hback] at hstep
      cases hstep
      -- at the root there is nothing to go back to
      cases h with
      | root => exact .root
      | step hup _ => exact hup
    · obtain ⟨name, entries, rest, sub, rfl, hc, rfl⟩ := advance_name hdot hback hstep
      exact .step h hc

/-- Nor do any number of steps. -/
theorem Rooted.walk (h : Rooted root way) {cs : List Text}
    (hwalk : walk way cs = .ok way') : Rooted root way' := by
  induction cs generalizing way with
  | nil =>
    cases hwalk
    exact h
  | cons c cs ih =>
    obtain ⟨next, hstep, hrest⟩ := bind_eq_ok hwalk
    exact ih (h.advance hstep) hrest

/-! ## Walking in a changed tree -/

/-- Ways with the same names, the directories of the first being covered by those of the second. -/
def Alike (way way' : Way) : Prop :=
  List.Forall₂ (fun d d' => d.1 = d'.1 ∧ Covers d'.2 d.2) way way'

theorem Alike.names_eq (h : Alike way way') : way.map Prod.fst = way'.map Prod.fst := by
  induction h with
  | nil => rfl
  | cons hd _ ih => rw [List.map_cons, List.map_cons, hd.1, ih]

theorem Alike.back (h : Alike way way') : Alike (back way) (back way') := by
  cases h with
  | nil => exact .nil
  | cons hd hrest =>
    cases hrest with
    | nil => exact .cons hd .nil
    | cons hup hrest => exact .cons hup hrest

/-- Ways alike have the same steps. -/
theorem Alike.advance {next : Way} (h : Alike way way') (hstep : advance way c = .ok next) :
    ∃ next', Host.advance way' c = .ok next' ∧ Alike next next' := by
  by_cases hdot : c = "."
  · rw [advance.eq_def, if_pos hdot] at hstep ⊢
    cases hstep
    exact ⟨_, rfl, h⟩
  · by_cases hback : c = ".."
    · rw [advance.eq_def, if_neg hdot, if_pos hback] at hstep ⊢
      cases hstep
      exact ⟨_, rfl, h.back⟩
    · obtain ⟨name, entries, rest, sub, rfl, hc, rfl⟩ := advance_name hdot hback hstep
      obtain ⟨d', rest', hd, -, rfl⟩ := List.forall₂_cons_left_iff.1 h
      obtain ⟨sub', hc', hsub⟩ := hd.2.sub hc
      exact ⟨_, advance_of_member hdot hback hc', .cons ⟨rfl, hsub⟩ h⟩

/-- Ways alike go on alike. -/
theorem walk_alike {last : Way} (h : Alike way way') {cs : List Text} (hwalk : walk way cs = .ok last) :
    ∃ last', walk way' cs = .ok last' ∧ Alike last last' := by
  induction cs generalizing way way' with
  | nil =>
    cases hwalk
    exact ⟨way', rfl, h⟩
  | cons c cs ih =>
    obtain ⟨next, hstep, hrest⟩ := bind_eq_ok hwalk
    obtain ⟨next', hstep', hnext⟩ := h.advance hstep
    obtain ⟨last', hrest', hlast⟩ := ih hnext hrest
    refine ⟨last', ?_, hlast⟩
    show (advance way' c >>= fun next => walk next cs) = _
    rw [hstep']
    exact hrest'

/-- Rebuilding the tree above a changed directory keeps every directory, and the way still leads to the
changed one. -/
theorem Rooted.rebuild {entries changed : Entries} {name : Text} {rest : Way}
    (h : Rooted root ((name, entries) :: rest)) (hchanged : Covers changed entries) :
    Covers (rebuild ((name, changed) :: rest)) root
      ∧ ∃ rest', Rooted (Host.rebuild ((name, changed) :: rest)) ((name, changed) :: rest')
          ∧ rest'.map Prod.fst = rest.map Prod.fst := by
  induction rest generalizing name entries changed with
  | nil =>
    cases h
    rw [Host.rebuild]
    exact ⟨hchanged, [], .root, rfl⟩
  | cons d rest ih =>
    obtain ⟨up, around⟩ := d
    cases h with
    | step hup hsub =>
      obtain ⟨hcovers, rest', hrooted, hnames⟩ := ih hup (.setDir hsub hchanged)
      rw [Host.rebuild]
      refine ⟨hcovers, (up, setEntry name (.dir changed) around) :: rest', .step hrooted ?_, ?_⟩
      · rw [member?_setEntry, if_pos rfl]
      · rw [List.map_cons, List.map_cons, hnames]

/-! ## Writing -/

namespace Files

/-- A path that names a place for a file: its parts, the directory it lies in, and the way to that. -/
structure Place (fs : Files) (path : Text) (p : Path) (name : Text) (entries : Entries) (rest : Way) : Prop where
  split : splitPath path = .ok p
  way : fs.wayTo p = .ok ((name, entries) :: rest)
  slash : p.slash = false
  dot : p.last ≠ "."
  back : p.last ≠ ".."

variable {fs fs' : Files} {path data : Text} {p : Path} {name : Text} {entries : Entries} {rest : Way}

/-- What is at a place is the entry of its last name. -/
theorem Place.stat_eq (h : fs.Place path p name entries rest) :
    fs.stat path = (member? entries p.last).elim (.error .missing) .ok := by
  rw [Files.stat, h.split]
  show (fs.wayTo p >>= _) = _
  rw [h.way]
  simp only [bind, Except.bind, h.dot, h.back, decide_false, Bool.or_self, Bool.false_eq_true, if_false]
  cases member? entries p.last with
  | none => rfl
  | some node =>
    cases node with
    | file data => simp only [h.slash, Bool.false_eq_true, if_false]; rfl
    | dir sub => rfl

/-- Writing sets that entry. -/
theorem Place.write (h : fs.Place path p name entries rest) (hdir : ∀ sub, member? entries p.last ≠ some (.dir sub))
    (data : Text) :
    fs.write path data = .ok { fs with entries := rebuild ((name, setEntry p.last (.file data) entries) :: rest) } := by
  have hplace : fs.place path (.file data)
      = .ok { fs with entries := rebuild ((name, setEntry p.last (.file data) entries) :: rest) } := by
    rw [Files.place, h.split]
    show (fs.wayTo p >>= _) = _
    rw [h.way]
    rfl
  rw [Files.write, h.split]
  simp only [bind, Except.bind, h.way, h.slash, h.dot, h.back, decide_false, Bool.or_self, Bool.false_eq_true,
    if_false, h.stat_eq, hplace]
  cases hnode : member? entries p.last with
  | none => rfl
  | some node =>
    cases node with
    | file data => rfl
    | dir sub => exact absurd hnode (hdir sub)

/-- A file can be written only where a path names a place that no directory has. -/
theorem place_of_write (h : fs.write path data = .ok fs') : ∃ p name entries rest,
    fs.Place path p name entries rest ∧ ∀ sub, member? entries p.last ≠ some (.dir sub) := by
  rw [Files.write] at h
  cases hsplit : splitPath path with
  | error e => simp [hsplit, bind, Except.bind, Except.mapError] at h
  | ok p =>
    cases hway : fs.wayTo p with
    | error e => simp [hsplit, hway, bind, Except.bind, Except.mapError] at h
    | ok way =>
      obtain ⟨name, entries, rest, rfl⟩ := (Rooted.root.walk hway).exists_cons
      by_cases hlast : (p.slash || decide (p.last = ".") || decide (p.last = "..")) = true
      · simp [hsplit, hway, hlast, bind, Except.bind, Except.mapError, throw, throwThe, MonadExceptOf.throw] at h
      · simp only [Bool.or_eq_true, decide_eq_true_eq, not_or, Bool.not_eq_true] at hlast
        have hplace : fs.Place path p name entries rest := ⟨hsplit, hway, hlast.1.1, hlast.1.2, hlast.2⟩
        refine ⟨p, name, entries, rest, hplace, fun sub hsub => ?_⟩
        have hstat := hplace.stat_eq
        rw [hsub] at hstat
        simp [hsplit, hway, hlast, hstat, bind, Except.bind, Except.mapError, throw, throwThe, MonadExceptOf.throw] at h

theorem spill_of_write (h : fs.write path data = .ok fs') : fs'.spill = fs.spill := by
  obtain ⟨p, name, entries, rest, hplace, hdir⟩ := place_of_write h
  rw [hplace.write hdir] at h
  obtain rfl := Except.ok.inj h
  rfl

/-- **A file that was written is there**, and can be written again. -/
theorem stat_of_write (h : fs.write path data = .ok fs') :
    fs'.stat path = .ok (.file data) ∧ ∀ data', ∃ fs'', fs'.write path data' = .ok fs'' := by
  obtain ⟨p, name, entries, rest, hplace, hdir⟩ := place_of_write h
  rw [hplace.write hdir] at h
  obtain rfl := Except.ok.inj h
  obtain ⟨hcovers, rest', hrooted, hnames⟩ := (Rooted.root.walk hplace.way).rebuild (.setFile hdir data)
  -- the walk in the changed tree ends where the names lead
  have hstart : Alike [(Text.empty, fs.entries)]
      [(Text.empty, rebuild ((name, setEntry p.last (.file data) entries) :: rest))] :=
    .cons ⟨rfl, hcovers⟩ .nil
  obtain ⟨last, hwalk, halike⟩ := walk_alike hstart hplace.way
  have hlast : (name, setEntry p.last (.file data) entries) :: rest' = last := by
    refine hrooted.eq_of_names (Rooted.root.walk hwalk) ?_
    rw [← halike.names_eq, List.map_cons, List.map_cons, hnames]
  subst hlast
  have hplace' : Place { fs with entries := rebuild ((name, setEntry p.last (.file data) entries) :: rest) } path p name
      (setEntry p.last (.file data) entries) rest' :=
    ⟨hplace.split, hwalk, hplace.slash, hplace.dot, hplace.back⟩
  have hfile : member? (setEntry p.last (.file data) entries) p.last = some (.file data) := by
    rw [member?_setEntry, if_pos rfl]
  refine ⟨?_, fun data' => ⟨_, hplace'.write (fun sub hsub => ?_) data'⟩⟩
  · rw [hplace'.stat_eq, hfile]
    rfl
  · rw [hfile] at hsub
    cases hsub

end Files

end TinyScript.Host
