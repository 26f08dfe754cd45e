import TinyScript.Proofs.Packed.Unpacking

/-!
# Writing piece by piece

The walk that writes a value to a file and the one that packs it in memory are two walks. They end alike
(`Machine.follows_streamWithin`): they find the same fault, or else what was written is the packed form.
-/

namespace TinyScript

open Data

/-- A piece comes behind what was written before. -/
theorem Host.Stream.written_write (s : Stream) (piece : Text) : (s.write piece).written = s.written ++ piece := by
  refine congrArg Text.mk ?_
  show (s.write piece).pieces.reverse.flatMap Text.bytes = s.pieces.reverse.flatMap Text.bytes ++ piece.bytes
  simp only [write, List.reverse_cons, List.flatMap_append, List.flatMap_singleton]

namespace Packing

variable {x y : Packing Unit} {a b : Except PackError Text}

/-- Whatever was written before, the action fails as `a` does, or else it writes the text that `a` is. -/
def Follows (x : Packing Unit) (a : Except PackError Text) : Prop :=
  ∀ s : Host.Stream, (x.run.run s).1 = a.map (fun _ => ()) ∧ ∀ t, a = .ok t → (x.run.run s).2.written = s.written ++ t

namespace Follows

theorem put (piece : Text) : Follows (Packing.put piece) (.ok piece) := by
  intro s
  refine ⟨rfl, fun t ht => ?_⟩
  obtain rfl := Except.ok.inj ht
  exact s.written_write piece

theorem throw (e : PackError) : Follows (throw e) (.error e) := fun _ => ⟨rfl, fun _ ht => by cases ht⟩

theorem pure : Follows (Pure.pure ()) (.ok Text.empty) := by
  intro s
  refine ⟨rfl, fun t ht => ?_⟩
  obtain rfl := Except.ok.inj ht
  exact (Text.append_empty _).symm

/-- One text behind the other. -/
theorem bind (hx : x.Follows a) (hy : y.Follows b) : Follows (x >>= fun _ => y) (do return (← a) ++ (← b)) := by
  intro s
  obtain ⟨hresult, hwritten⟩ := hx s
  rw [ExceptT.run_bind, StateT.run_bind]
  rcases hrun : x.run.run s with ⟨e | u, s₁⟩
  · rw [hrun] at hresult
    cases a with
    | ok t => cases hresult
    | error e' =>
      cases hresult
      exact ⟨rfl, fun t ht => by cases ht⟩
  · rw [hrun] at hresult hwritten
    cases a with
    | error e' => cases hresult
    | ok t =>
      obtain ⟨hresult', hwritten'⟩ := hy s₁
      cases b with
      | error e => exact ⟨hresult', fun u hu => by cases hu⟩
      | ok u =>
        refine ⟨hresult', fun w hw => ?_⟩
        obtain rfl := Except.ok.inj hw
        rw [← Text.append_assoc, ← hwritten t rfl]
        exact hwritten' u rfl

/-- A text that is known, and another behind it. -/
theorem cons {t : Text} (hx : x.Follows (.ok t)) (hy : y.Follows b) :
    Follows (x >>= fun _ => y) (do return t ++ (← b)) :=
  hx.bind hy

theorem forM {α : Type} {f : α → Packing Unit} {g : α → Except PackError Text} {xs : List α}
    (h : ∀ x ∈ xs, (f x).Follows (g x)) : Follows (xs.forM f) (do return Text.concat (← xs.mapM g)) := by
  induction xs with
  | nil => exact pure
  | cons x xs ih =>
    obtain ⟨hx, hxs⟩ := List.forall_mem_cons.mp h
    have hboth := hx.bind (ih hxs)
    rw [List.forM, List.mapM_cons]
    simpa only [bind_assoc, pure_bind, Text.concat_cons] using hboth

end Follows

theorem follows_putString (t : Text) : (putString t).Follows (.ok (MessagePack.writeString t)) :=
  (Follows.put _).bind (Follows.put t)

theorem follows_putFront (kind : Kind) : (putFront kind).Follows (.ok kind.front) :=
  (Follows.put _).bind (Follows.put _)

end Packing

namespace Machine

open Packing

variable {m : Machine} {r : Ref}

/-- One step of the walk: if the parts are written as they are packed, so is the object. -/
theorem follows_streamWithin_succ {fuel : Nat} {path : List Ref}
    (hpart : ∀ c, (m.streamWithin fuel (r :: path) c).Follows (m.packWithin fuel (r :: path) c)) :
    (m.streamWithin (fuel + 1) path r).Follows (m.packWithin (fuel + 1) path r) := by
  rw [streamWithin, packWithin]
  generalize m.object r = o
  cases o with
  | unit | nil | bool | u64 | i64 | f64 => exact (follows_putFront _).bind (Follows.put _)
  | error t | string t => exact (follows_putFront _).bind (follows_putString t)
  | function f => exact .throw _
  | other n w => exact (follows_putFront _).bind (.throw _)
  | pair a b =>
    dsimp only
    split
    · exact .throw _
    · refine (follows_putFront .pair).cons ?_
      have hbody := (Follows.put (MessagePack.arrayHeader 2)).cons ((hpart a).bind (hpart b))
      simpa only [bind_assoc, pure_bind, Text.append_assoc] using hbody
  | list items =>
    dsimp only
    split
    · exact .throw _
    · refine (follows_putFront .list).cons ?_
      have hbody := (Follows.put (MessagePack.arrayHeader items.length)).cons
        (Follows.forM fun c (_ : c ∈ items) => hpart c)
      simpa only [bind_assoc, pure_bind] using hbody
  | dict t =>
    dsimp only
    split
    · exact .throw _
    · refine (follows_putFront .dict).cons ?_
      have hentry (e : Text × Ref) : Follows (do putString e.1; m.streamWithin fuel (r :: path) e.2)
          (do return MessagePack.writeString e.1 ++ (← m.packWithin fuel (r :: path) e.2)) :=
        (follows_putString e.1).cons (hpart e.2)
      have hentries := Follows.forM fun e (_ : e ∈ t.toList) => hentry e
      have hbody := (Follows.put (MessagePack.mapHeader t.count)).cons hentries
      simpa only [bind_assoc, pure_bind] using hbody

/-- **A value is written as it is packed.** -/
theorem follows_streamWithin (m : Machine) (fuel : Nat) (path : List Ref) (r : Ref) :
    (m.streamWithin fuel path r).Follows (m.packWithin fuel path r) := by
  induction fuel generalizing path r with
  | zero => exact .throw _
  | succ fuel ih => exact follows_streamWithin_succ fun c => ih (r :: path) c

/-- The stream fails exactly as packing does. -/
theorem packStream_fst (m : Machine) (r : Ref) : (m.packStream r).1 = (m.pack r).map fun _ => () :=
  (m.follows_streamWithin _ [] r {}).1

/-- What was written is what packing gives. -/
theorem packStream_written {t : Text} (ht : m.pack r = .ok t) : (m.packStream r).2.written = t := by
  have hwritten := (m.follows_streamWithin _ [] r {}).2 t ht
  exact hwritten

end Machine

end TinyScript
