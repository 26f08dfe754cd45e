import Mathlib
import TinyScript.Proofs.Evolution.Balance
import TinyScript.Proofs.Packed.Delimited

/-!
# Unpacking costs no more than the bytes are worth

Headers may claim billions of items, and values may be nested as deep as the bytes go. Still at most one object is made
for every two bytes that are read (`Machine.Spending`), and neither the counts in headers nor the bound on nesting make
a difference once they exceed the bytes that are left (`Act.Unpack.Agree`).
-/

namespace TinyScript

open Data

/-! ## Objects made -/

namespace Machine

variable {m : Machine}

/-- The number of objects made so far, those included that collections have freed. -/
def made (m : Machine) : Nat := m.heap.live + m.totals.collected

theorem collected_forceCollect (m : Machine) : (Act.forceCollect.run m).2.totals.collected
    = m.totals.collected + (Act.forceCollect.run m).1.collected := by
  obtain ⟨heap, frames, hsweep⟩ := m.mark.1.sweep_frame
  obtain ⟨totals, notes, hrun, -, hcollected⟩ := m.forceCollect_eq
  have hmark : m.mark.1.totals = m.totals := rfl
  have htotals : m.mark.1.sweep.1.totals = m.totals := (congrArg Machine.totals hsweep).trans hmark
  rw [hrun, ← htotals]
  exact hcollected

/-- A collection makes nothing. -/
theorem made_forceCollect (hm : m.heap.WellFormed) : (Act.forceCollect.run m).2.made = m.made := by
  have htotal := m.collected_forceCollect
  obtain ⟨h', l', totals, notes, hrun, -, ht', hl', hcleared⟩ := forceCollect_spec hm
  rw [hrun] at htotal ⊢
  have hlive : h'.live = m.heap.order.countP fun i => m.reachable.getD i false := by
    rw [ht'.live_eq, hcleared.order_eq hm ht' hl', List.countP_eq_length_filter]
  have hsplit := m.heap.order.length_eq_countP_add_countP fun i => m.reachable.getD i false
  have hall : m.heap.live = m.heap.order.length := hm.live_eq
  simp only [Bool.not_eq_true, Bool.decide_eq_false] at hsplit
  simp only [made] at htotal ⊢
  omega

/-- On the way from `m₀`, so much has been made that `left` can still be paid of the budget, at two for an object.
If there are no collections, all that was there in `m₀` is there as it was. -/
structure Spending (m₀ : Machine) (budget left : Nat) (m : Machine) : Prop where
  wellFormed : m.heap.WellFormed
  made : 2 * m.made + left ≤ budget
  kept : m₀.pacing.Idle →
    m.pacing = m₀.pacing ∧ ∀ r c, m₀.heap.named? r = some c → m.heap.named? r = some c

namespace Spending

variable {m₀ : Machine} {budget left : Nat}

theorem mono (h : m₀.Spending budget left m) {less : Nat} (hless : less ≤ left) : m₀.Spending budget less m :=
  ⟨h.wellFormed, Nat.le_trans (Nat.add_le_add_left hless _) h.made, h.kept⟩

/-- Pins do not cost anything. -/
theorem withPins (h : m₀.Spending budget left m) (pins : Array Ref) :
    m₀.Spending budget left { m with pins := pins } :=
  ⟨h.wellFormed, h.made, h.kept⟩

theorem collect (h : m₀.Spending budget left m) : m₀.Spending budget left (Act.collect.run m).2 := by
  rw [collect_run]
  split
  · next hdue =>
    have hmade := made_forceCollect h.wellFormed
    obtain ⟨h', l', totals, notes, hrun, -, ht', -, -⟩ := forceCollect_spec h.wellFormed
    rw [hrun] at hmade ⊢
    refine ⟨ht'.wellFormed, ?_, fun hnever => ?_⟩
    · rw [hmade]
      exact h.made
    · exact absurd ((h.kept hnever).1 ▸ hdue) hnever.not_due
  · exact h

/-- An object costs two. It is none of those that were there at first. -/
theorem alloc (h : m₀.Spending budget (left + 2) m) (o : Object) :
    m₀.Spending budget left ((Act.alloc o).run m).2 ∧
      (m₀.pacing.Idle → ¬ m₀.heap.valid ((Act.alloc o).run m).1) := by
  obtain ⟨k, hk⟩ : ∃ k, (Act.collect.run m).2 = k := ⟨_, rfl⟩
  have hcollected := h.collect
  rw [hk] at hcollected
  have hrun : (Act.alloc o).run m = ((k.heap.alloc o false).2, { k with heap := (k.heap.alloc o false).1 }) := hk ▸ rfl
  rw [hrun]
  have ht := hcollected.wellFormed
  have halloc := ht.alloc o false
  have hlive : (k.heap.alloc o false).1.live = k.heap.live + 1 := by
    rw [halloc.live_eq, ht.live_eq, List.length_append, List.length_singleton]
  refine ⟨⟨halloc.wellFormed, ?_, fun hnever => ?_⟩, fun hnever hvalid => ?_⟩
  · have hmade := hcollected.made
    simp only [Machine.made] at hmade ⊢
    omega
  · obtain ⟨hpacing, hkept⟩ := hcollected.kept hnever
    refine ⟨hpacing, fun r c hc => ?_⟩
    have hne : r ≠ (k.heap.alloc o false).2 := by
      rintro rfl
      cases (ht.named?_alloc_self o false).symm.trans (hkept _ _ hc)
    exact (ht.named?_alloc o false r).trans ((if_neg hne).trans (hkept r c hc))
  · obtain ⟨c, hc⟩ := Heap.valid_iff_named?.mp hvalid
    cases (ht.named?_alloc_self o false).symm.trans ((hcollected.kept hnever).2 _ _ hc)

theorem allocHolding (h : m₀.Spending budget (left + 2) m) (o : Object) (parts : List Ref) :
    m₀.Spending budget left ((Act.allocHolding o parts).run m).2 :=
  ((h.withPins _).alloc o).1.withPins _

/-- A dict that was not there at first may change. -/
theorem dictPut (h : m₀.Spending budget left m) {d : Ref} (hnew : m₀.pacing.Idle → ¬ m₀.heap.valid d)
    (key : Text) (r : Ref) : m₀.Spending budget left ((Act.dictPut d key r).run m).2 := by
  cases hd : m.heap.get? d with
  | none =>
    rw [Act.dictPut_eq, hd]
    exact h
  | some o =>
    by_cases hkind : o.kind = .dict
    · cases o with
      | dict t =>
        obtain ⟨notes, hrun⟩ := Act.dictPut_of_dict hd key r
        rw [hrun]
        have ht := h.wellFormed.set d (.dict (t.put key r).1)
        refine ⟨ht.wellFormed, ?_, fun hnever => ⟨(h.kept hnever).1, fun s c hc => ?_⟩⟩
        · have hlive : (m.heap.set d (.dict (t.put key r).1)).live = m.heap.live := by
            rw [ht.live_eq, h.wellFormed.live_eq]
          have hmade := h.made
          simp only [Machine.made] at hmade ⊢
          rwa [hlive]
        · have hne : s ≠ d := by
            rintro rfl
            exact hnew hnever (Heap.valid_iff_named?.mpr ⟨c, hc⟩)
          exact (Heap.named?_set (Heap.valid_of_get? hd) _ s).trans ((if_neg hne).trans ((h.kept hnever).2 s c hc))
      | _ => cases hkind
    · rw [Act.dictPut_of_ne hd hkind]
      exact h

end Spending

end Machine

/-! ## What reading costs -/

namespace Act.Unpack

variable {α β : Type} {bs rest : List UInt8} {m m' : Machine}

/-- Started with `credit` in hand besides the bytes to be read, the action keeps to the budget. If it goes well then
`change` is in hand, and `Q` is true of the result. -/
def Spends (m₀ : Machine) (budget credit change : Nat) (Q : α → Prop) (x : Unpack α) : Prop :=
  ∀ bs m, m₀.Spending budget (bs.length + credit) m →
    (∀ a rest m', Yields x bs m a rest m' → m₀.Spending budget (rest.length + change) m' ∧ Q a) ∧
    ∀ e m', Fails x bs m e m' → m₀.Spending budget 0 m'

namespace Spends

variable {m₀ : Machine} {budget credit change rebate : Nat} {Q : α → Prop} {R : β → Prop}

theorem bind {x : Unpack α} {f : α → Unpack β} (hx : Spends m₀ budget credit change Q x)
    (hf : ∀ a, Q a → Spends m₀ budget change rebate R (f a)) : Spends m₀ budget credit rebate R (x >>= f) := by
  intro bs m h
  obtain ⟨hwell, hill⟩ := hx bs m h
  refine ⟨fun b rest m' hyields => ?_, fun e m' hfails => ?_⟩
  · obtain ⟨a, bs₁, m₁, hfirst, hsecond⟩ := hyields.of_bind
    obtain ⟨hpaid, ha⟩ := hwell a bs₁ m₁ hfirst
    exact (hf a ha bs₁ m₁ hpaid).1 b rest m' hsecond
  · rcases hfails.of_bind with hfirst | ⟨a, bs₁, m₁, hfirst, hsecond⟩
    · exact hill e m' hfirst
    · obtain ⟨hpaid, ha⟩ := hwell a bs₁ m₁ hfirst
      exact (hf a ha bs₁ m₁ hpaid).2 e m' hsecond

theorem mono {x : Unpack α} (hx : Spends m₀ budget credit change Q x) (hless : rebate ≤ change) :
    Spends m₀ budget credit rebate Q x := by
  intro bs m h
  refine ⟨fun a rest m' hyields => ?_, (hx bs m h).2⟩
  obtain ⟨hpaid, ha⟩ := (hx bs m h).1 a rest m' hyields
  exact ⟨hpaid.mono (Nat.add_le_add_left hless _), ha⟩

/-- An action that reads nothing. -/
theorem act {x : Act α} (hx : ∀ {left m}, m₀.Spending budget (left + credit) m →
    m₀.Spending budget (left + change) (x.run m).2 ∧ Q (x.run m).1) :
    Spends m₀ budget credit change Q (liftM x : Unpack α) := by
  intro bs m h
  refine ⟨fun a rest m' hyields => ?_, fun e m' hfails => ?_⟩
  · cases hyields
    exact hx h
  · cases hfails

theorem pure {a : α} (ha : Q a) : Spends m₀ budget credit credit Q (Pure.pure a) := by
  intro bs m h
  refine ⟨fun b rest m' hyields => ?_, fun e m' hfails => ?_⟩
  · cases hyields
    exact ⟨h, ha⟩
  · cases hfails

theorem throw (e : UnpackError) : Spends m₀ budget credit change Q (throw e) := by
  intro bs m h
  refine ⟨fun b rest m' hyields => ?_, fun e m' hfails => ?_⟩
  · cases hyields
  · cases hfails
    exact h.mono (Nat.zero_le _)

end Spends

variable {m₀ : Machine} {budget credit : Nat}

/-- A byte that was read can be spent. -/
theorem spends_item {read : MessagePack.Read α} (hread : read.Takes 1) :
    Spends m₀ budget credit (credit + 1) (fun _ => True) (item read) := by
  intro bs m h
  refine ⟨fun a rest m' hyields => ?_, fun e m' hfails => ?_⟩
  · obtain ⟨hrun, rfl⟩ := read_of_yields_item hyields
    have hlength := (hread bs a rest hrun).1
    exact ⟨h.mono (by omega), trivial⟩
  · cases hrun : read.run bs with
    | ok p => cases (yields_item hrun).symm.trans hfails
    | error e' =>
      cases (fails_item hrun).symm.trans hfails
      exact h.mono (Nat.zero_le _)

/-- Whether the item can be read or not, one object is made. -/
theorem spends_scalar [Inhabited α] {read : MessagePack.Read α} (hread : read.Takes 1) (make : α → Object) :
    Spends m₀ budget (credit + 2) credit (fun _ => True) (scalar read make) := by
  intro bs m h
  refine ⟨fun r rest m' hyields => ?_, fun e m' hfails => ?_⟩
  · obtain ⟨a, hrun, halloc⟩ := read_of_yields_scalar hyields
    have hlength := (hread bs a rest hrun).1
    have hcovered : m₀.Spending budget (rest.length + credit + 2) m := h.mono (by omega)
    have hpaid := (hcovered.alloc (make a)).1
    rw [halloc] at hpaid
    exact ⟨hpaid, trivial⟩
  · cases hrun : read.run bs with
    | ok p => cases (yields_scalar hrun).symm.trans hfails
    | error e' =>
      cases (fails_scalar hrun).symm.trans hfails
      exact (h.alloc (make default)).1.mono (Nat.zero_le _)

theorem spends_values {x : Unpack Ref} (hx : Spends m₀ budget credit credit (fun _ => True) x) (n : Nat)
    (acc : List Ref) :
    Spends m₀ budget credit credit (fun _ => True) (values x n acc) := by
  induction n generalizing acc with
  | zero => exact .pure trivial
  | succ n ih => exact hx.bind fun r _ => ih (r :: acc)

/-- The dict is filled, whatever is made of its values. -/
theorem spends_entries (source : MessagePack.Source) {x : Unpack Ref}
    (hx : ∀ credit, Spends m₀ budget credit credit (fun _ => True) x) {d : Ref}
    (hd : m₀.pacing.Idle → ¬ m₀.heap.valid d) (n : Nat) :
    Spends m₀ budget credit credit (fun _ => True) (entries source x d n) := by
  induction n with
  | zero => exact .pure trivial
  | succ n ih =>
    refine (spends_item source.takes_string).bind fun key _ => (hx _).bind fun r _ => ?_
    have hput : Spends m₀ budget (credit + 1) credit (fun _ => True) (liftM (dictPut d key r) : Unpack Unit) :=
      .act fun h => ⟨(h.dictPut hd key r).mono (by omega), trivial⟩
    exact hput.bind fun _ _ => ih

theorem spends_payload (source : MessagePack.Source) {x : Unpack Ref}
    (hx : ∀ credit, Spends m₀ budget credit credit (fun _ => True) x) (kind : Nat) :
    Spends m₀ budget (credit + 2) credit (fun _ => True) (payload source x kind) := by
  have holding (o : Object) (parts : List Ref) :
      Spends m₀ budget (credit + 3) (credit + 1) (fun _ => True) (liftM (allocHolding o parts) : Unpack Ref) :=
    .act fun {left m} h => by
      have hpaid : m₀.Spending budget (left + (credit + 1) + 2) m := h
      exact ⟨hpaid.allocHolding o parts, trivial⟩
  rw [payload]
  split
  · exact spends_scalar source.takes_nothing _
  · -- the shared `nil` costs nothing
    refine ((spends_item source.takes_nothing).bind fun _ _ => ?_).mono (Nat.le_add_right credit 3)
    exact Spends.bind (Q := fun _ => True) (.act fun h => ⟨h, trivial⟩) fun _ _ => .pure trivial
  · exact spends_scalar source.takes_bool _
  · exact spends_scalar source.takes_uint _
  · exact spends_scalar source.takes_int _
  · exact spends_scalar source.takes_float _
  · exact spends_scalar source.takes_string _
  · exact spends_scalar source.takes_string _
  · refine ((spends_item (source.takes_count .array)).bind fun n _ => ?_).mono (Nat.le_add_right credit 1)
    have hmembers :=
      (hx (credit + 3)).bind fun head _ => (hx _).bind fun tail _ => holding (.pair head tail) [head, tail]
    split
    · exact Spends.bind (Q := fun _ => True) (.throw _) fun _ _ => hmembers
    · exact hmembers
  · refine ((spends_item (source.takes_count .array)).bind fun n _ => ?_).mono (Nat.le_add_right credit 1)
    exact (spends_values (hx (credit + 3)) n []).bind fun items _ => holding (.list items) items
  · refine ((spends_item (source.takes_count .map)).bind fun n _ => ?_).mono (Nat.le_add_right credit 1)
    have hmade : Spends m₀ budget (credit + 3) (credit + 1)
        (fun d => m₀.pacing.Idle → ¬ m₀.heap.valid d) (liftM newDict : Unpack Ref) :=
      .act fun {left m} h => by
        have hpaid : m₀.Spending budget (left + (credit + 1) + 2) m := h
        exact hpaid.alloc _
    refine hmade.bind fun d hd => ?_
    refine Spends.bind (Q := fun _ => True) (.act fun h => ⟨h.withPins _, trivial⟩) fun _ _ => ?_
    exact (spends_entries source hx hd n).bind fun _ _ => .pure trivial
  · exact .throw _
  · exact .throw _

/-- A value is paid for by its first two items. -/
theorem spends_value (source : MessagePack.Source) (fuel : Nat) (credit : Nat) :
    Spends m₀ budget credit credit (fun _ => True) (value source fuel) := by
  induction fuel generalizing credit with
  | zero => exact .throw _
  | succ fuel ih =>
    refine (spends_item (source.takes_count .array)).bind fun n _ => ?_
    split
    · exact .throw _
    · refine (spends_item source.takes_tag).bind fun kind _ => (spends_payload source ih kind).bind fun r _ => ?_
      exact Spends.bind (Q := fun _ => True) (.act fun h => ⟨h.withPins _, trivial⟩) fun _ _ => .pure trivial

end Act.Unpack

/-! ## Bounds that do not matter -/

namespace Act.Unpack

variable {α β : Type} {bs rest : List UInt8} {m : Machine}

/-- Where the action goes well it takes at least `n` bytes. -/
def Takes (n : Nat) (x : Unpack α) : Prop :=
  ∀ bs m a rest m', Yields x bs m a rest m' → rest.length + n ≤ bs.length

theorem Takes.bind {x : Unpack α} {f : α → Unpack β} {n k : Nat} (hx : x.Takes n) (hf : ∀ a, (f a).Takes k) :
    (x >>= f).Takes (n + k) := by
  intro bs m b rest m' h
  obtain ⟨a, bs₁, m₁, hfirst, hsecond⟩ := h.of_bind
  have hlength := hx _ _ _ _ _ hfirst
  have hlength' := hf a _ _ _ _ _ hsecond
  omega

theorem Takes.mono {x : Unpack α} {n k : Nat} (hx : x.Takes n) (hk : k ≤ n) : x.Takes k := by
  intro bs m a rest m' h
  have hlength := hx _ _ _ _ _ h
  omega

theorem takes_item {read : MessagePack.Read α} (hread : read.Takes 1) : (item read).Takes 1 := by
  intro bs m a rest m' h
  exact (hread _ _ _ (read_of_yields_item h).1).1

/-- Actions that begin alike and go on alike, with whatever comes of the beginning, do the same. -/
theorem run_bind_congr {x y : Unpack α} {f g : α → Unpack β} (hxy : ((x.run bs).run).run m = ((y.run bs).run).run m)
    (hfg : ∀ a rest m', Yields x bs m a rest m' → (((f a).run rest).run).run m' = (((g a).run rest).run).run m') :
    (((x >>= f).run bs).run).run m = (((y >>= g).run bs).run).run m := by
  rw [StateT.run_bind, ExceptT.run_bind, StateT.run_bind, StateT.run_bind, ExceptT.run_bind, StateT.run_bind, ← hxy]
  rcases hx : ((x.run bs).run).run m with ⟨e | ⟨a, bs₁⟩, m₁⟩
  · rfl
  · exact hfg a bs₁ m₁ hx

/-- The two actions do the same where fewer than `k` bytes are left, and never give bytes back. -/
def Agree (k : Nat) (x y : Unpack α) : Prop :=
  x.Takes 0 ∧ ∀ bs m, bs.length < k → ((x.run bs).run).run m = ((y.run bs).run).run m

theorem rules_agree (k : Nat) : Rules (Agree k) where
  pure a := by
    refine ⟨fun bs m b rest m' h => ?_, fun _ _ _ => rfl⟩
    cases h
    exact le_rfl
  throw e := by
    refine ⟨fun bs m b rest m' h => ?_, fun _ _ _ => rfl⟩
    cases h
  act x := by
    refine ⟨fun bs m b rest m' h => ?_, fun _ _ _ => rfl⟩
    cases h
    exact le_rfl
  item := by
    intro α read hread
    refine ⟨fun bs m a rest m' h => ?_, fun _ _ _ => rfl⟩
    have hlength := takes_item hread _ _ _ _ _ h
    omega
  scalar := by
    intro α _ read make hread
    refine ⟨fun bs m r rest m' h => ?_, fun _ _ _ => rfl⟩
    obtain ⟨a, hrun, -⟩ := read_of_yields_scalar h
    have hlength := (hread _ _ _ hrun).1
    omega
  bind := by
    intro α β x y f g hxy hfg
    refine ⟨hxy.1.bind fun a => (hfg a).1, fun bs m hbs => ?_⟩
    refine run_bind_congr (hxy.2 bs m hbs) fun a rest m' h => (hfg a).2 rest m' ?_
    have hlength := hxy.1 _ _ _ _ _ h
    omega

theorem agree_zero {x : Unpack α} (hx : x.Takes 0) (y : Unpack α) : Agree 0 x y :=
  ⟨hx, fun _ _ h => absurd h (Nat.not_lt_zero _)⟩

theorem agree_content (source : MessagePack.Source) {k : Nat} {x y : Unpack Ref} (hxy : Agree k x y) (kind : Nat) :
    Agree k (do let r ← payload source x kind; pin r; return r) (do let r ← payload source y kind; pin r; return r) :=
  (rules_agree k).bind ((rules_agree k).payload source hxy kind) fun r =>
    (rules_agree k).bind ((rules_agree k).act (pin r)) fun _ => (rules_agree k).pure r

theorem takes_value (source : MessagePack.Source) (fuel : Nat) : (value source fuel).Takes 2 := by
  induction fuel with
  | zero =>
    intro bs m a rest m' h
    cases h
  | succ fuel ih =>
    have hparts := agree_zero (ih.mono (Nat.zero_le 2)) (value source fuel)
    refine Takes.bind (n := 1) (k := 1) (takes_item (source.takes_count .array)) fun n => ?_
    split
    · intro bs m a rest m' h
      cases h
    · exact Takes.bind (n := 1) (k := 0) (takes_item source.takes_tag) fun kind => (agree_content source hparts kind).1

/-- **The bound on nesting does not matter** once it exceeds the number of bytes: every value inside of another has
fewer bytes left. -/
theorem agree_value (source : MessagePack.Source) {k fuel fuel' : Nat} (h : k ≤ fuel) (h' : k ≤ fuel') :
    Agree k (value source fuel) (value source fuel') := by
  induction k generalizing fuel fuel' with
  | zero => exact agree_zero ((takes_value source fuel).mono (Nat.zero_le 2)) _
  | succ k ih =>
    obtain ⟨fuel, rfl⟩ : ∃ n, fuel = n + 1 := ⟨fuel - 1, by omega⟩
    obtain ⟨fuel', rfl⟩ : ∃ n, fuel' = n + 1 := ⟨fuel' - 1, by omega⟩
    have hcontent := agree_content source (ih (Nat.le_of_succ_le_succ h) (Nat.le_of_succ_le_succ h'))
    refine ⟨(takes_value source _).mono (Nat.zero_le 2), fun bs m hbs => ?_⟩
    refine run_bind_congr rfl fun n rest m' hitem => ?_
    have hlength := takes_item (source.takes_count .array) _ _ _ _ _ hitem
    split
    · exact run_bind_congr rfl fun _ _ _ hthrow => by cases hthrow
    · refine run_bind_congr rfl fun kind rest' m'' hitem' => (hcontent kind).2 rest' m'' ?_
      have hlength' := takes_item source.takes_tag _ _ _ _ _ hitem'
      omega

/-- **The number of items that a header claims does not matter** once it exceeds the number of bytes. -/
theorem run_values_of_lt {x : Unpack Ref} (hx : x.Takes 1) {n n' : Nat} (hn : bs.length < n) (hn' : bs.length < n')
    (acc : List Ref) : (((values x n acc).run bs).run).run m = (((values x n' acc).run bs).run).run m := by
  induction n generalizing bs n' acc m with
  | zero => exact absurd hn (Nat.not_lt_zero _)
  | succ n ih =>
    obtain ⟨n', rfl⟩ : ∃ k, n' = k + 1 := ⟨n' - 1, by omega⟩
    refine run_bind_congr rfl fun r rest m' h => ?_
    have hlength := hx _ _ _ _ _ h
    exact ih (by omega) (by omega) (r :: acc)

/-- Nor does the number of entries. -/
theorem run_entries_of_lt (source : MessagePack.Source) {x : Unpack Ref} (hx : x.Takes 0) (d : Ref) {n n' : Nat}
    (hn : bs.length < n) (hn' : bs.length < n') :
    (((entries source x d n).run bs).run).run m = (((entries source x d n').run bs).run).run m := by
  induction n generalizing bs n' m with
  | zero => exact absurd hn (Nat.not_lt_zero _)
  | succ n ih =>
    obtain ⟨n', rfl⟩ : ∃ k, n' = k + 1 := ⟨n' - 1, by omega⟩
    refine run_bind_congr rfl fun key rest m₁ hkey => run_bind_congr rfl fun r rest' m₂ hvalue => ?_
    have hlength := takes_item source.takes_string _ _ _ _ _ hkey
    have hlength' := hx _ _ _ _ _ hvalue
    refine run_bind_congr rfl fun _ rest'' m₃ hput => ?_
    cases hput
    exact ih (by omega) (by omega)

end Act.Unpack

/-! ## Unpacking -/

namespace Act

open Unpack

variable {m : Machine}

theorem spending_unpack (hm : m.heap.WellFormed) (t : Text) :
    m.Spending (2 * m.made + t.size) 0 ((unpack t).run m).2 := by
  have hstart : m.Spending (2 * m.made + t.size) (t.bytes.length + 0) m :=
    ⟨hm, le_rfl, fun _ => ⟨rfl, fun _ _ hc => hc⟩⟩
  obtain ⟨hwell, hill⟩ := spends_value .memory (t.size + 1) 0 t.bytes m hstart
  rcases hrun : (((value .memory (t.size + 1)).run t.bytes).run).run m with ⟨e | ⟨r, rest⟩, m'⟩
  · rw [unpack, run_bind_of (unpackFrom_run hrun)]
    exact (hill e m' hrun).withPins _
  · rw [unpack, run_bind_of (unpackFrom_run hrun)]
    have hend := ((hwell r rest m' hrun).1.mono (Nat.zero_le _)).withPins (m'.pins.shrink m.pins.size)
    cases rest <;> exact hend

/-- **What unpacking costs is bounded by the size of the text**, whatever it holds and whether it is accepted or not. At
most one object is made for every two bytes. The pins are as before, and where no collection comes between, so is
every object that was there. No value is nested deeper than there are bytes: a greater bound on the nesting makes no
difference. And no loop goes on for longer than there are bytes: at any point, all counts of items or entries that
exceed the number of bytes left have the same outcome. -/
theorem unpack_bounded_by_size (hm : m.heap.WellFormed) (t : Text) :
    ((unpack t).run m).2.made ≤ m.made + t.size / 2 ∧
    ((unpack t).run m).2.pins = m.pins ∧
    (m.pacing.Idle → ∀ r c, m.heap.named? r = some c → ((unpack t).run m).2.heap.named? r = some c) ∧
    (∀ bound k, t.size < bound →
      (((value .memory bound).run t.bytes).run).run k = (((value .memory (t.size + 1)).run t.bytes).run).run k) ∧
    ∀ (bound : Nat) (bs : List UInt8) (k : Machine) {n n' : Nat}, bs.length < n → bs.length < n' →
      (∀ acc, (((values (value .memory bound) n acc).run bs).run).run k
        = (((values (value .memory bound) n' acc).run bs).run).run k) ∧
      ∀ d, (((entries .memory (value .memory bound) d n).run bs).run).run k
        = (((entries .memory (value .memory bound) d n').run bs).run).run k := by
  have hspending := spending_unpack hm t
  refine ⟨?_, (settles_unpack t m).pins_eq, fun hnever => (hspending.kept hnever).2, fun bound k hbound => ?_, ?_⟩
  · have hmade := hspending.made
    omega
  · exact (agree_value .memory hbound (le_refl (t.size + 1))).2 t.bytes k (Nat.lt_succ_self _)
  · intro bound bs k n n' hn hn'
    have htakes := takes_value .memory bound
    exact ⟨run_values_of_lt (htakes.mono (by decide)) hn hn',
      fun d => run_entries_of_lt .memory (htakes.mono (Nat.zero_le 2)) d hn hn'⟩

/-- A list that claims to have 2³² - 1 items. The first one ends behind its kind, which is that of a unit. -/
def overclaiming : Text := ⟨[0x92, 9, 0xdd, 0xff, 0xff, 0xff, 0xff, 0x92, 0]⟩

/-- The unit is made, though it cannot be read, and nothing else. -/
theorem unpack_bounded_by_size_overclaiming :
    Machine.sample.heap.WellFormed ∧
    ((unpack overclaiming).run Machine.sample).1 = .error (.item .tooShort) ∧
    ((unpack overclaiming).run Machine.sample).2.made = Machine.sample.made + 1 ∧
    ((unpack overclaiming).run Machine.sample).2.made ≤ Machine.sample.made + 4 := by
  have hm : Machine.sample.heap.WellFormed := Machine.ready_sample.wellFormed
  have hbound := (unpack_bounded_by_size hm overclaiming).1
  have hsize : overclaiming.size / 2 = 4 := by decide
  rw [hsize] at hbound
  exact ⟨hm, by cbv, by cbv, hbound⟩

end Act

end TinyScript
