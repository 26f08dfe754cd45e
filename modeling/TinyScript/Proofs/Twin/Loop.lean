import TinyScript.Proofs.Twin.Call

/-!
# Loops on twins

An item is treated in a frame of its own below that of the loop, and what it gives is pinned, behind the results before
it or in place of the value carried so far. `Eval.ties_visit` says that this leads from one layout of pins to another.
-/

namespace TinyScript

open Syntax (Expr)
open List

/-! ## Replacing a pin -/

/-- The frames of a loop need only the pins from before the loop. -/
theorem Scope.Closed.entered {Γ : Scope} (hclosed : Γ.Closed) {f p : FrameId} (hp : Γ.Env p) {pins pins' : List Pin}
    (h : Scope.Closed ⟨pins, (f, p) :: Γ.frames⟩) (hsub : Γ.pins ⊆ pins') :
    Scope.Closed ⟨pins', (f, p) :: Γ.frames⟩ := by
  refine ⟨h.nodup, h.global_notMem, ?_⟩
  have hlift {g : FrameId} (hg : Γ.Anchors g) : Scope.Anchors ⟨pins', (f, p) :: Γ.frames⟩ g := by
    rcases hg with rfl | hg | ⟨e, he, hclosure⟩
    · exact Or.inl rfl
    · exact Or.inr (Or.inl (mem_cons_of_mem _ hg))
    · exact Or.inr (Or.inr ⟨e, hsub he, hclosure⟩)
  intro g hg
  rcases List.mem_cons.mp hg with rfl | hg
  · exact hlift hp.anchors
  · exact hlift (hclosed.anchored g hg)

theorem Act.meets_repin {ρ : Pairing} {m n : Machine} {before after : List Pin} {e : Pin}
    {frames : List (FrameId × FrameId)} (h : Twins ⟨before ++ e :: after, frames⟩ ρ m n) {r s : Ref} (hr : ρ r s)
    (hclosed : Scope.Closed ⟨before ++ after, frames⟩) :
    Act.Meets (fun _ m' _ n' => ∃ e' : Pin, e'.left = r ∧ e'.right = s ∧
      Twins ⟨before ++ e' :: after, frames⟩ ρ m' n') (Act.repin before.length r) m
      (Act.repin before.length s) n := by
  obtain ⟨o, p, ho, hp, -⟩ := h.heaps.agree hr
  exact ⟨⟨r, s, o, p⟩, rfl, rfl, h.repin rfl hr ho hp hclosed⟩

namespace Eval

variable {Γ : Scope} {ρ : Pairing} {m n : Machine} {loop : Loop} {carry state results : List Pin} {iter : Pin}
  {tally tally' : Tally}

/-! ## One item -/

/-- The filter decides alike. -/
theorem ties_passes (h : Twins Γ ρ m n) {frame : FrameId} (hframe : Γ.Env frame) (filter : Option Expr) :
    Ties (Keeps Γ fun σ => Stopped σ Eq) (passes frame filter) m (passes frame filter) n := by
  cases filter with
  | none => exact .pure ⟨ρ, h, .ok rfl⟩
  | some filter =>
    refine (ties_eval h hframe filter).bind ?_
    rintro r m₁ s n₁ ⟨σ, h₁, hr⟩
    refine Ties.object h₁ hr ?_
    intro o p _ _ hagree
    have htruthy := hagree.truthy_eq
    cases hagree with
    | error t => exact .pure ⟨σ, h₁, .error hr⟩
    | function f => exact .pure ⟨σ, h₁, .ok rfl⟩
    | _ => exact .pure ⟨σ, h₁, .ok htruthy⟩

/-- What one round of a loop ends with. -/
def Round (Γ : Scope) (iter : Pin) (state : List Pin) (frames : List (FrameId × FrameId)) (width : Nat) :
    Post (Ref × Tally) (Ref × Tally) := fun a m b n =>
  ∃ σ carry results, Twins ⟨(Γ.looping carry iter state results).pins, frames⟩ σ m n ∧ σ.OrZero a.1 b.1 ∧
    Tally.Held Γ.pins.length a.2 b.2 carry results ∧ carry.length = width

theorem ties_visitBody (hclosed : Γ.Closed) (henv : Γ.Env loop.env) {frame : FrameId}
    (h : Twins ((Γ.looping carry iter state results).enter frame loop.env) ρ m n)
    (htally : Tally.Held Γ.pins.length tally tally' carry results) :
    Ties (Round Γ iter state ((frame, loop.env) :: Γ.frames) carry.length) (visitBody loop frame tally) m
      (visitBody loop frame tally') n := by
  refine (ties_eval h (Or.inr mem_cons_self) loop.body).bind ?_
  rintro r m₁ s n₁ ⟨σ, h₁, hr⟩
  refine Ties.object h₁ hr ?_
  intro o p _ _ hagree
  rw [hagree.isError_eq]
  cases htally with
  | collected results =>
    dsimp only
    split
    · exact .pure ⟨σ, _, _, h₁, Or.inr hr, .collected results, rfl⟩
    · refine Ties.lift (Act.meets_pin h₁ hr) ?_
      rintro _ m₂ _ n₂ ⟨e, rfl, rfl, -, -, h₂⟩
      have hheld : Tally.Held Γ.pins.length _ _ [] (results ++ [e]) := .collected (results ++ [e])
      refine .pure ⟨σ, [], results ++ [e], ?_, Or.inl ⟨rfl, rfl⟩, by simpa using hheld, rfl⟩
      simpa [Scope.looping, Scope.push, Scope.enter] using h₂
  | carried name value =>
    have hshape : Twins ⟨Γ.pins ++ value :: (iter :: (state ++ [])), (frame, loop.env) :: Γ.frames⟩ σ m₁ n₁ := h₁
    have hclosed' : Scope.Closed ⟨Γ.pins ++ iter :: (state ++ []), (frame, loop.env) :: Γ.frames⟩ :=
      hclosed.entered henv h₁.closed (subset_append_left _ _)
    refine Ties.lift (Act.meets_repin hshape hr hclosed') ?_
    rintro _ m₂ _ n₂ ⟨e, rfl, rfl, h₂⟩
    refine .pure ⟨σ, [e], [], h₂, ?_, .carried name e, rfl⟩
    split
    · exact Or.inr hr
    · exact Or.inl ⟨rfl, rfl⟩

theorem ties_visitPassing (hclosed : Γ.Closed) (henv : Γ.Env loop.env) {frame : FrameId}
    (h : Twins ((Γ.looping carry iter state results).enter frame loop.env) ρ m n)
    (htally : Tally.Held Γ.pins.length tally tally' carry results) :
    Ties (Round Γ iter state ((frame, loop.env) :: Γ.frames) carry.length) (visitPassing loop frame tally) m
      (visitPassing loop frame tally') n := by
  refine (ties_passes h (Or.inr mem_cons_self) loop.filter).bind ?_
  rintro a m₁ b n₁ ⟨σ, h₁, hstopped⟩
  cases hstopped with
  | error hr => exact .pure ⟨σ, carry, results, h₁, Or.inr hr, htally, rfl⟩
  | @ok passed _ heq =>
    subst heq
    cases passed with
    | false => exact .pure ⟨σ, carry, results, h₁, Or.inl ⟨rfl, rfl⟩, htally, rfl⟩
    | true => exact ties_visitBody hclosed henv h₁ htally

/-- One item of a loop, in a frame of its own. -/
theorem ties_visit (hclosed : Γ.Closed) (henv : Γ.Env loop.env)
    (h : Twins (Γ.looping carry iter state results) ρ m n) {item item' : Ref} (hitem : ρ item item')
    (htally : Tally.Held Γ.pins.length tally tally' carry results) :
    Ties (Round Γ iter state Γ.frames carry.length) (visit loop item tally) m (visit loop item' tally') n := by
  refine Ties.lift (Act.meets_fork h (Scope.Env.anchors henv)) ?_
  rintro frame m₁ _ n₁ ⟨rfl, h₁⟩
  let Δ : Scope := (Γ.looping carry iter state results).enter frame loop.env
  have hmem : frame ∈ Δ.frames.map Prod.fst := mem_cons_self
  refine Ties.lift (Act.meets_bind h₁ hmem loop.handle hitem) ?_
  rintro _ m₂ _ n₂ ⟨-, h₂⟩
  have hrest {m₃ n₃ : Machine} {σ : Pairing} (h₃ : Twins Δ σ m₃ n₃) :
      Ties (Round Γ iter state Γ.frames carry.length)
        (do let result ← visitPassing loop frame tally; Act.leave frame; return result) m₃
        (do let result ← visitPassing loop frame tally'; Act.leave frame; return result) n₃ := by
    refine (ties_visitPassing hclosed henv h₃ htally).bind ?_
    rintro a m₄ b n₄ ⟨τ, carry', results', h₄, hstop, htally', hwidth⟩
    have hclosed' := hclosed.mono (subset_append_left Γ.pins (carry' ++ iter :: (state ++ results')))
    refine Ties.stays (Act.meets_leave h₄ hclosed') ?_
    intro _ m₅ n₅ h₅
    exact .pure ⟨τ, carry', results', h₅, hstop, htally', hwidth⟩
  cases htally with
  | collected results => exact hrest h₂
  | carried name value =>
    -- the value carried through is bound next to the item
    have hvalue : Δ.Holds value.left value.right :=
      ⟨value, mem_append_right _ mem_cons_self, rfl, rfl⟩
    refine Ties.lift (Act.meets_bind h₂ hmem name (h₂.holds hvalue)) ?_
    rintro _ m₃ _ n₃ ⟨-, h₃⟩
    exact hrest h₃

/-! ## The end of a loop -/

theorem below_looping (Γ : Scope) (carry : List Pin) (iter : Pin) (state results : List Pin) :
    Γ.Below (Γ.looping carry iter state results) :=
  ⟨_, rfl⟩

theorem mem_looping_iter (Γ : Scope) (carry : List Pin) (iter : Pin) (state results : List Pin) :
    iter ∈ (Γ.looping carry iter state results).pins :=
  mem_append_right _ (mem_append_right _ mem_cons_self)

theorem mem_looping_of_mem {e : Pin} (he : e ∈ state ∨ e ∈ results) :
    e ∈ (Γ.looping carry iter state results).pins :=
  mem_append_right _ (mem_append_right _ (mem_cons_of_mem _ (List.mem_append.mpr he)))

/-- A loop ends alike. -/
theorem ties_finish (h : Twins (Γ.looping carry iter state results) ρ m n) {stop stop' : Ref}
    (hstop : ρ.OrZero stop stop') (htally : Tally.Held Γ.pins.length tally tally' carry results) :
    Ties (Grows Γ fun _ σ => σ) (finish stop tally) m (finish stop' tally') n := by
  unfold finish
  rcases h.orZero_cases hstop with ⟨hzero, hzero'⟩ | ⟨hzero, hzero', hr⟩
  · rw [hzero, hzero']
    cases htally with
    | collected results =>
      have hresults : List.Forall₂ ρ (results.map Pin.left) (results.map Pin.right) := by
        rw [forall₂_map_left_iff, forall₂_map_right_iff, forall₂_same]
        exact fun e he => h.pins.paired e (mem_looping_of_mem (Or.inr he))
      dsimp only
      rw [reverse_reverse, reverse_reverse]
      exact Ties.widen (below_looping ..) (Ties.grows (Ties.act (Act.meets_newList h hresults)))
    | carried name value =>
      have hvalue := h.pins.paired value (mem_append_right _ mem_cons_self)
      exact .pure ⟨_, ρ, below_looping .., h, hvalue⟩
  · rw [hzero, hzero']
    exact .pure ⟨_, ρ, below_looping .., h, hr⟩

/-- A loop that was stopped gives what stopped it; otherwise it goes on. -/
theorem ties_round {x y : Eval Ref} {a b : Ref × Tally} {width : Nat}
    (hround : Round Γ iter state Γ.frames width a m b n)
    (hgo : ∀ σ carry results, Twins (Γ.looping carry iter state results) σ m n →
      Tally.Held Γ.pins.length a.2 b.2 carry results → carry.length = width →
      Ties (Grows Γ fun _ σ => σ) x m y n) :
    Ties (Grows Γ fun _ σ => σ) (if (!a.1.isZero) = true then pure a.1 else x) m
      (if (!b.1.isZero) = true then pure b.1 else y) n := by
  obtain ⟨σ, carry, results, h, hstop, htally, hwidth⟩ := hround
  rcases h.orZero_cases hstop with ⟨hzero, hzero'⟩ | ⟨hzero, hzero', hr⟩
  · rw [hzero, hzero']
    exact hgo σ carry results h htally hwidth
  · rw [hzero, hzero']
    exact .pure ⟨_, σ, below_looping .., h, hr⟩

/-! ## Lists -/

/-- The items that are left are paired, for the list is pinned. -/
theorem ties_visitAll (hclosed : Γ.Closed) (henv : Γ.Env loop.env) {xs ys : List Ref}
    (hxs : iter.leftObject = .list xs) (hys : iter.rightObject = .list ys) {k : Nat} {rest rest' : List Ref}
    (hrest : rest = xs.drop k) (hrest' : rest' = ys.drop k)
    (h : Twins (Γ.looping carry iter [] results) ρ m n)
    (htally : Tally.Held Γ.pins.length tally tally' carry results) :
    Ties (Grows Γ fun _ σ => σ) (visitAll loop rest tally) m (visitAll loop rest' tally') n := by
  -- a pinned list stays what it was when it was pinned, whatever the rounds before have done
  have hitems {ρ : Pairing} {m n : Machine} {carry results : List Pin}
      (h : Twins (Γ.looping carry iter [] results) ρ m n) (k : Nat) : List.Forall₂ ρ (xs.drop k) (ys.drop k) := by
    have hkind : iter.leftObject.kind ≠ .dict := by rw [hxs]; simp [Object.kind]
    obtain ⟨-, -, hagree⟩ := h.pins.known h.heaps (mem_looping_iter ..) hkind
    rw [hxs, hys] at hagree
    cases hagree with
    | list hall => exact forall₂_drop k hall
  induction rest generalizing rest' k ρ m n carry results tally tally' with
  | nil =>
    have hpaired := hitems h k
    rw [← hrest, ← hrest'] at hpaired
    cases hpaired
    exact ties_finish h (Or.inl ⟨rfl, rfl⟩) htally
  | cons item rest ih =>
    have hpaired := hitems h k
    rw [← hrest, ← hrest'] at hpaired
    obtain _ | ⟨hitem, _⟩ := hpaired
    refine (ties_visit hclosed henv h hitem htally).bind ?_
    rintro ⟨stop, tally⟩ m₁ ⟨stop', tally'⟩ n₁ hround
    refine ties_round hround fun σ carry results h₁ htally₁ _ =>
      ih (k := k + 1) ?_ ?_ h₁ htally₁
    · rw [← tail_drop, ← hrest]
      rfl
    · rw [← tail_drop, ← hrest']
      rfl

/-! ## Generators -/

theorem holds_state {st : Pin} : (Γ.looping carry iter [st] results).Holds st.left st.right :=
  ⟨st, mem_looping_of_mem (Or.inl mem_cons_self), rfl, rfl⟩

/-- One round with a generator. The pair it gave is pinned in place of its state before. -/
theorem ties_pull (hclosed : Γ.Closed) (henv : Γ.Env loop.env) {f : Function} {st : Pin}
    (h : Twins (Γ.looping carry iter [st] results) ρ m n) (hiter : iter.leftObject = .function f)
    (htally : Tally.Held Γ.pins.length tally tally' carry results) :
    Ties (Grows Γ fun _ σ => σ) (pull loop f (Γ.pins.length + carry.length + 1) st.left tally) m
      (pull loop f (Γ.pins.length + carry.length + 1) st.right tally') n := by
  have hknows : (Γ.looping carry iter [st] results).Knows f := ⟨iter, mem_looping_iter .., hiter⟩
  refine (ties_callFunction h hknows _ (.cons holds_state .nil)).bind ?_
  rintro r m₁ s n₁ ⟨σ, h₁, hr⟩
  refine Ties.object h₁ hr ?_
  intro o p _ _ hagree
  cases hagree with
  | error t => exact ties_finish h₁ (Or.inr hr) htally
  | pair hhead htail =>
    refine Ties.object h₁ hhead ?_
    intro o p _ _ hagree
    rw [hagree.truthy_eq]
    dsimp only
    split
    · exact ties_finish h₁ (Or.inl ⟨rfl, rfl⟩) htally
    · -- the state is pinned behind what is carried and what is iterated over
      have hslot : (Γ.pins ++ (carry ++ [iter])).length = Γ.pins.length + carry.length + 1 := by
        simp only [length_append, length_singleton]
        omega
      have hshape : Twins ⟨(Γ.pins ++ (carry ++ [iter])) ++ st :: results, Γ.frames⟩ σ m₁ n₁ := by
        simpa [Scope.looping] using h₁
      have hclosed' : Scope.Closed ⟨(Γ.pins ++ (carry ++ [iter])) ++ results, Γ.frames⟩ :=
        hclosed.mono fun e he => mem_append_left _ (mem_append_left _ he)
      rw [← hslot]
      refine Ties.lift (Act.meets_repin hshape hr hclosed') ?_
      rintro _ m₂ _ n₂ ⟨e, rfl, rfl, h₂⟩
      have hloop : Twins (Γ.looping carry iter [e] results) σ m₂ n₂ := by
        simpa [Scope.looping] using h₂
      refine (ties_visit hclosed henv hloop htail htally).bind ?_
      rintro ⟨stop, tally₃⟩ m₃ ⟨stop', tally₃'⟩ n₃ hround
      refine ties_round hround fun τ carry₃ results₃ h₃ htally₃ hwidth => ?_
      rw [hslot, ← hwidth]
      exact Ties.request (.pull hclosed henv h₃ hiter htally₃)
  | _ => exact ties_finish h₁ (Or.inl ⟨rfl, rfl⟩) htally

/-! ## All loops -/

/-- A loop, begun with nothing gathered. -/
theorem ties_evalLoop (hclosed : Γ.Closed) (henv : Γ.Env loop.env)
    (h : Twins ⟨Γ.pins ++ carry, Γ.frames⟩ ρ m n) (e : Expr)
    (htally : Tally.Held Γ.pins.length tally tally' carry []) :
    Ties (Grows Γ fun _ σ => σ) (evalLoop loop e tally) m (evalLoop loop e tally') n := by
  refine (ties_evalPinned h henv e).bind ?_
  rintro _ m₁ _ n₁ ⟨σ, iter, rfl, rfl, h₁⟩
  have hloop : Twins (Γ.looping carry iter [] []) σ m₁ n₁ := by
    simpa [Scope.looping, Scope.push] using h₁
  have hmem := mem_looping_iter Γ carry iter [] []
  have hiter := hloop.pins.paired iter hmem
  refine Ties.object hloop hiter ?_
  intro o p ho hp hagree
  cases hagree with
  | error t => exact ties_finish hloop (Or.inr hiter) htally
  | list hxs =>
    have hleft := hloop.leftObject_eq hmem ho (by simp [Object.kind])
    have hright := hloop.rightObject_eq hmem hp (by simp [Object.kind])
    exact ties_visitAll (k := 0) hclosed henv hleft hright rfl rfl hloop htally
  | function f =>
    have hleft := hloop.leftObject_eq hmem ho (by simp [Object.kind])
    refine Ties.lift (Act.meets_leaf hloop (o := .unit) rfl) ?_
    rintro r m₂ s n₂ ⟨τ, h₂, hr⟩
    refine Ties.mark h₂ (Ties.lift (Act.meets_pin h₂ hr) ?_)
    rintro _ m₃ _ n₃ ⟨st, rfl, rfl, -, -, h₃⟩
    have hpulling : Twins (Γ.looping carry iter [st] []) τ m₃ n₃ := by
      simpa [Scope.looping, Scope.push] using h₃
    have hslot : (Γ.looping carry iter [] []).pins.length = Γ.pins.length + carry.length + 1 := by
      simp [Scope.looping]
      omega
    rw [hslot]
    exact Ties.request (.pull hclosed henv hpulling hleft htally)
  | _ => exact Ties.widen (below_looping ..) (Ties.grows (Ties.act (Act.meets_leaf hloop rfl)))

end Eval

end TinyScript
