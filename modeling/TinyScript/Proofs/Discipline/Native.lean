import TinyScript.Machine.Builtin
import TinyScript.Proofs.Discipline.Rules
import TinyScript.Proofs.Twin.Walk

/-!
# Natives obey every discipline

Every primitive but the two that work on files obeys every discipline (`Act.obeys_primitive`). These two obey
the disciplines that do not mind files (`Act.Discipline.SeesFiles.obeys_primitive`). Values are made of plain
data and of packed bytes, neither of which has a form for functions, so nothing made of them is one.
-/

namespace TinyScript

open Data (Datum)

/-- Whether a primitive works on files. -/
def Primitive.usesFiles : Primitive → Bool
  | .bsave | .bload => true
  | _ => false

/-! ## Values as text and data -/

namespace Machine

variable (m : Machine) (files : Host.Files)

/-- The text of a value has nothing to do with the files. -/
theorem render_withFiles : (m.withFiles files).render = m.render := render_congr rfl

theorem toDatum_withFiles : (m.withFiles files).toDatum = m.toDatum := toDatum_congr rfl

theorem pack_withFiles : (m.withFiles files).pack = m.pack := pack_congr rfl

end Machine

namespace Act

variable {D : Discipline}

/-! ## Making values -/

mutual

/-- Building a value from data: every object made is data, and none is a function. -/
theorem obeys_ofDatumAt (depth : Nat) (d : Datum) : D.ObeysTry (ofDatumAt depth d) := by
  have hnote : D.ObeysTry (ofDatumAt.noteType depth d) := .last (obeys_note _)
  match d with
  | .list items =>
    rw [ofDatumAt]
    refine hnote.bind fun _ => .mark fun mark hmark => ?_
    refine (obeys_ofItemsAt (depth + 1) items).bind fun refs => ?_
    exact .lift (obeys_allocHolding rfl refs) fun r => .lift (D.unpinTo hmark) fun _ => .pure r
  | .map entries =>
    rw [ofDatumAt]
    refine hnote.bind fun _ => .lift (D.alloc rfl) fun dict => .lift (D.pin dict) fun _ => ?_
    exact (obeys_ofEntriesAt (depth + 1) dict entries).bind fun _ => .pure dict
  | .null =>
    rw [ofDatumAt]
    exact hnote.bind fun _ => .get (fun _ _ => rfl) fun m => .pure _
  | .bool b => rw [ofDatumAt]; exact hnote.bind fun _ => .last (D.alloc rfl)
  | .int i => rw [ofDatumAt]; exact hnote.bind fun _ => .last (D.alloc rfl)
  | .uint w => rw [ofDatumAt]; exact hnote.bind fun _ => .last (D.alloc rfl)
  | .float w => rw [ofDatumAt]; exact hnote.bind fun _ => .last (D.alloc rfl)
  | .text t => rw [ofDatumAt]; exact hnote.bind fun _ => .last (D.alloc rfl)
  | .foreign type =>
    rw [ofDatumAt.eq_def]
    exact hnote.bind fun _ => .throw _

theorem obeys_ofItemsAt (depth : Nat) (ds : List Datum) : D.ObeysTry (ofItemsAt depth ds) := by
  match ds with
  | [] =>
    rw [ofItemsAt]
    exact .pure _
  | d :: ds =>
    rw [ofItemsAt]
    refine (obeys_ofDatumAt depth d).bind fun r => .lift (D.pin r) fun _ => ?_
    exact (obeys_ofItemsAt depth ds).bind fun rs => .pure _

theorem obeys_ofEntriesAt (depth : Nat) (dict : Ref) (ds : List (Text × Datum)) :
    D.ObeysTry (ofEntriesAt depth dict ds) := by
  match ds with
  | [] =>
    rw [ofEntriesAt]
    exact .pure _
  | (key, d) :: ds =>
    rw [ofEntriesAt]
    refine (obeys_ofDatumAt depth d).bind fun r => .lift (D.dictPut dict key r) fun _ => ?_
    exact obeys_ofEntriesAt depth dict ds

end

/-- Data that are nested too deep give an error instead. -/
theorem obeys_ofDatum (d : Datum) : D.Obeys (ofDatum d) := (obeys_ofDatumAt 0 d).dropping

theorem obeys_readJson (t : Text) : D.Obeys (readJson t) := by
  rw [readJson]
  cases Data.Json.read? t with
  | none => exact D.pure _
  | some d => exact D.bind (obeys_note _) fun _ => D.pure _

theorem obeys_ofJson (t : Text) : D.Obeys (ofJson t) := by
  refine D.bind (obeys_readJson t) fun d => ?_
  split
  · exact D.pure _
  · exact D.bind (obeys_ofDatum _) fun _ => D.pure _

/-- Reading an item is nothing to the machine. -/
theorem obeys_item {α : Type} (read : Data.MessagePack.Read α) : D.ObeysRead (Unpack.item read) := by
  intro bs
  simp only [Unpack.item, StateT.run_bind, StateT.run_get, pure_bind]
  rcases read.run bs with e | ⟨a, bs'⟩
  · exact .throw _
  · exact .pure _

/-- A scalar is read and then allocated. -/
theorem obeys_scalar {α : Type} [Inhabited α] (read : Data.MessagePack.Read α) {make : α → Object}
    (hmake : ∀ a, (make a).isFunction = false) : D.ObeysRead (Unpack.scalar read make) := by
  intro bs
  simp only [Unpack.scalar, StateT.run_bind, StateT.run_get, pure_bind]
  rcases read.run bs with e | ⟨a, bs'⟩
  · exact Discipline.ObeysRead.act (D.alloc (hmake default)) (fun _ => .throw _) bs
  · exact Discipline.ObeysRead.lift (D.alloc (hmake a)) bs'

/-- The values of a list are read one by one and pinned. -/
theorem obeys_values {value : Unpack Ref} (hvalue : D.ObeysRead value) (n : Nat) (acc : List Ref) :
    D.ObeysRead (Unpack.values value n acc) := by
  induction n generalizing acc with
  | zero => exact .pure _
  | succ n ih => exact hvalue.bind fun r => ih (r :: acc)

/-- The values of a dict are read and put in at once. -/
theorem obeys_entries (source : Data.MessagePack.Source) {value : Unpack Ref} (hvalue : D.ObeysRead value)
    (dict : Ref) (n : Nat) : D.ObeysRead (Unpack.entries source value dict n) := by
  induction n with
  | zero => exact .pure _
  | succ n ih =>
    exact (obeys_item _).bind fun key => hvalue.bind fun r => .act (D.dictPut dict key r) fun _ => ih

/-- Each kind of value is built from values, or is a scalar. -/
theorem obeys_payload (source : Data.MessagePack.Source) {value : Unpack Ref} (hvalue : D.ObeysRead value)
    (kind : Nat) : D.ObeysRead (Unpack.payload source value kind) := by
  rw [Unpack.payload]
  split
  · exact obeys_scalar _ fun _ => rfl
  · refine (obeys_item _).bind fun _ bs => ?_
    exact Discipline.ObeysTry.get (fun _ _ => rfl) fun m => .pure (m.nil, bs)
  · exact obeys_scalar _ fun _ => rfl
  · exact obeys_scalar _ fun _ => rfl
  · exact obeys_scalar _ fun _ => rfl
  · exact obeys_scalar _ fun _ => rfl
  · exact obeys_scalar _ fun _ => rfl
  · exact obeys_scalar _ fun _ => rfl
  · refine (obeys_item _).bind fun n => ?_
    dsimp only
    split
    · exact .throw_bind _
    · exact hvalue.bind fun head => hvalue.bind fun tail => .lift (obeys_allocHolding rfl _)
  · refine (obeys_item _).bind fun n => (obeys_values hvalue n []).bind fun items => ?_
    exact .lift (obeys_allocHolding rfl items)
  · refine (obeys_item _).bind fun n => .act (D.alloc rfl) fun dict => .act (D.pin dict) fun _ => ?_
    exact (obeys_entries source hvalue dict n).bind fun _ => .pure dict
  · exact .throw _
  · exact .throw _

/-- Values are read by the same reader with less fuel. -/
theorem obeys_value (source : Data.MessagePack.Source) (fuel : Nat) : D.ObeysRead (Unpack.value source fuel) := by
  induction fuel with
  | zero => exact .throw _
  | succ fuel ih =>
    rw [Unpack.value]
    refine (obeys_item _).bind fun n => ?_
    dsimp only
    split
    · exact .throw_bind _
    · refine (obeys_item _).bind fun kind => (obeys_payload source ih kind).bind fun r => ?_
      exact .act (D.pin r) fun _ => .pure r

/-- What fails to be unpacked is an error. -/
theorem obeys_unpackFrom (source : Data.MessagePack.Source) (t : Text) : D.Obeys (unpackFrom source t) :=
  (obeys_value source _ t.bytes).dropping

theorem obeys_unpack (t : Text) : D.Obeys (unpack t) := by
  refine D.bind (obeys_unpackFrom .memory t) fun r => ?_
  split <;> exact D.pure _

/-! ## Primitives -/

section Arguments

theorem obeys_one (args : List Ref) : D.ObeysTry (one args) := by
  unfold one
  split
  · exact .pure _
  · exact .throw _

theorem obeys_two (args : List Ref) : D.ObeysTry (two args) := by
  unfold two
  split
  · exact .pure _
  · exact .throw _

/-- An argument is looked up and its kind is checked. -/
theorem obeys_stringArg (fault : Kind → CallFault) (r : Ref) : D.ObeysTry (stringArg fault r) := by
  refine .object r fun o => ?_
  split
  · exact .pure _
  · exact .throw _

theorem obeys_positiveArg (fault : CallFault) (r : Ref) : D.ObeysTry (positiveArg fault r) := by
  refine .object r fun o => ?_
  split
  · split
    · exact .throw _
    · exact .pure _
  · exact .throw _

end Arguments

/-- What is printed goes to the machine and is no object. -/
theorem obeys_printValues (args : List Ref) : D.ObeysTry (printValues args) := by
  refine .get (fun m files => by rw [Machine.render_withFiles]) fun m => ?_
  refine .lift (obeys_print _) fun printed => ?_
  split
  · exact .last (D.alloc rfl)
  · exact .throw _

theorem obeys_typenameOf (args : List Ref) : D.ObeysTry (typenameOf args) :=
  (obeys_one args).bind fun r => .object r fun _ => .last (D.alloc rfl)

/-- A pair of the arguments, which the frame of the call binds. -/
theorem obeys_makePair (args : List Ref) : D.ObeysTry (makePair args) := by
  unfold makePair
  split
  · exact .get (fun _ _ => rfl) fun m => .last (obeys_allocHolding rfl _)
  · exact .last (obeys_allocHolding rfl _)
  · exact .throw _

theorem obeys_memberOf (name : Text) (args : List Ref) : D.ObeysTry (memberOf name args) := by
  unfold memberOf
  split
  · refine .object _ fun o => ?_
    split
    · exact .pure _
    · exact .throw _
  · exact .throw _

theorem obeys_lengthOf (args : List Ref) : D.ObeysTry (lengthOf args) := by
  refine (obeys_one args).bind fun r => .object r fun o => ?_
  split
  · exact .last (D.alloc rfl)
  · exact .last (D.alloc rfl)
  · exact .last (D.alloc rfl)
  · exact .last (D.alloc rfl)
  · exact .throw _

/-- An item of a list, or what a dict has for a key. -/
theorem obeys_lookIn (args : List Ref) : D.ObeysTry (lookIn args) := by
  refine (obeys_two args).bind fun a => .object a.2 fun key => .object a.1 fun o => ?_
  split
  · split
    · split
      · exact .pure _
      · exact .throw _
    · exact .throw _
  · split
    · exact .throw _
    · split
      · exact .pure _
      · exact .throw _
  · exact .throw _

/-- Putting something into a dict changes that dict. -/
theorem obeys_store (args : List Ref) : D.ObeysTry (store args) := by
  unfold store
  split
  · refine .object _ fun o => .object _ fun key => ?_
    split
    · exact .lift (D.dictPut _ _ _) fun _ => .pure _
    · exact .throw _
  · exact .throw _

theorem obeys_remove (args : List Ref) : D.ObeysTry (remove args) := by
  refine (obeys_two args).bind fun a => .object a.1 fun o => .object a.2 fun key => ?_
  split
  · refine .lift (D.dictErase _ _) fun erased => ?_
    split
    · exact .pure _
    · exact .throw _
  · exact .throw _

/-- Objects are made one after the other, each pinned before the next. -/
theorem obeys_pinning {α : Type} (make : α → Object) {build : List α → List Ref → Act (List Ref)}
    (hmake : ∀ a, (make a).isFunction = false) (hnil : ∀ acc, build [] acc = return acc.reverse)
    (hcons : ∀ a as acc, build (a :: as) acc = do let r ← alloc (make a); pin r; build as (r :: acc))
    (as : List α) (acc : List Ref) : D.Obeys (build as acc) := by
  induction as generalizing acc with
  | nil =>
    rw [hnil]
    exact D.pure _
  | cons a as ih =>
    rw [hcons]
    exact D.bind (D.alloc (hmake a)) fun r => D.bind (D.pin r) fun _ => ih (r :: acc)

/-- A list of objects made one after the other, whose pins are dropped then. -/
theorem obeys_listOf {build : Act (List Ref)} (hbuild : D.Obeys build) :
    D.ObeysTry (do let mark ← pinMark; let refs ← build; let r ← newList refs; unpinTo mark; return r : Result) :=
  .mark fun _ hmark => .lift hbuild fun refs => .lift (obeys_allocHolding rfl refs) fun r =>
    .lift (D.unpinTo hmark) fun _ => .pure r

theorem obeys_keysOf (args : List Ref) : D.ObeysTry (keysOf args) := by
  unfold keysOf
  split
  · refine .object _ fun o => ?_
    split
    · exact obeys_listOf (obeys_pinning .string (fun _ => rfl) (fun _ => rfl) (fun _ _ _ => rfl) _ [])
    · exact .throw _
  · exact .throw _

theorem obeys_jsonCall (name : Text) (args : List Ref) : D.ObeysTry (jsonCall name args) := by
  refine (obeys_one args).bind fun r => ?_
  split
  · refine .get (fun m files => by rw [Machine.toJson, Machine.toJson, Machine.toDatum_withFiles]) fun m => ?_
    split
    · exact .last (D.alloc rfl)
    · exact .throw _
  · split
    · refine (obeys_stringArg _ r).bind fun t => .lift (obeys_ofJson t) fun a => ?_
      split
      · exact .pure _
      · exact .throw _
      · exact .throw _
    · exact .throw _

theorem obeys_packCall (name : Text) (args : List Ref) : D.ObeysTry (packCall name args) := by
  refine (obeys_one args).bind fun r => ?_
  split
  · refine .get (fun m files => by rw [Machine.pack_withFiles]) fun m => ?_
    split
    · exact .last (D.alloc rfl)
    · exact .throw _
  · split
    · refine (obeys_stringArg _ r).bind fun t => .lift (obeys_unpack t) fun a => ?_
      split
      · exact .pure _
      · exact .throw _
    · exact .throw _

/-- A digest is an unsigned integer. -/
theorem obeys_digestOf (args : List Ref) : D.ObeysTry (digestOf args) := by
  refine (obeys_one args).bind fun r => ?_
  exact .get (fun m files => by rw [Machine.render_withFiles]) fun m => .last (D.alloc rfl)

theorem obeys_dumpCall (args : List Ref) : D.ObeysTry (dumpCall args) := by
  have hlast (outline : Outline) : D.ObeysTry (do let _ ← print outline.write; return (← get).unit : Result) :=
    .lift (obeys_print _) fun _ => .get (fun _ _ => rfl) fun m => .pure m.unit
  refine (obeys_one args).bind fun r => .object r fun o => ?_
  split
  · exact hlast _
  · refine .get (fun m files => by rw [Machine.toDatum_withFiles]) fun m => ?_
    split
    · exact hlast _
    · exact .throw_bind _

/-- The state of the generator is all that changes. -/
theorem obeys_nextRandom : D.Obeys nextRandom := by
  -- the arithmetic stays behind names, it is not to be computed
  obtain ⟨result, next, hrun⟩ : ∃ result next : UInt64 → UInt64,
      ∀ m, nextRandom.run m = (result m.seed, { m with seed := next m.seed }) :=
    ⟨fun seed => (nextRandom.run { seed := seed }).1, (· + 0x9E3779B97F4A7C15), fun _ => rfl⟩
  refine D.aside (fun m => ?_) fun m files => ?_
  · rw [hrun]
    exact {}
  · rw [hrun, hrun]
    rfl

theorem obeys_randomNumber : D.ObeysTry randomNumber :=
  .lift obeys_nextRandom fun _ => .last (D.alloc rfl)

theorem obeys_randomBelow (args : List Ref) : D.ObeysTry (randomBelow args) := by
  unfold randomBelow
  split
  · refine (obeys_positiveArg _ _).bind fun n => ?_
    exact .lift obeys_nextRandom fun w => .last (D.alloc rfl)
  · exact .throw _

theorem obeys_searchCall (name : Text) (args : List Ref) : D.ObeysTry (searchCall name args) := by
  unfold searchCall
  split
  · refine .object _ fun o => .object _ fun p => ?_
    split
    · split
      · exact .throw _
      · dsimp only
        split
        · split
          · exact .last (D.alloc rfl)
          · exact .last (D.alloc rfl)
        · split
          · exact obeys_listOf (obeys_pinning (fun k : Nat => .ofInt k) (fun _ => rfl) (fun _ => rfl)
              (fun _ _ _ => rfl) _ [])
          · split
            · exact .last (D.alloc rfl)
            · exact .throw _
    · exact .throw _
  · exact .throw _

/-- Every primitive but those that work on files obeys every discipline. -/
theorem obeys_primitive {op : Primitive} (hop : op.usesFiles = false) (name : Text) (args : List Ref) :
    D.ObeysTry (primitive op name args) := by
  cases op with
  | print => exact obeys_printValues args
  | typename => exact obeys_typenameOf args
  | pair => exact obeys_makePair args
  | member => exact obeys_memberOf name args
  | len => exact obeys_lengthOf args
  | get => exact obeys_lookIn args
  | put => exact obeys_store args
  | del => exact obeys_remove args
  | keys => exact obeys_keysOf args
  | json => exact obeys_jsonCall name args
  | msgpack => exact obeys_packCall name args
  | blake2 => exact obeys_digestOf args
  | bsave | bload => cases hop
  | dump => exact obeys_dumpCall args
  | random => exact obeys_randomNumber
  | randint => exact obeys_randomBelow args
  | regexp => exact obeys_searchCall name args
  | now => exact .lift obeys_readClock fun _ => .last (D.alloc rfl)
  | timeit | nothing => exact .pure _
  | ownName | argCount => exact .last (D.alloc rfl)

/-! ## Files -/

/-- The discipline minds neither looking at files nor changing them. -/
structure Discipline.SeesFiles (D : Discipline) : Prop where
  get {β : Type} {f : Machine → Act β} : (∀ m, D.Obeys (f m)) → D.Obeys (MonadState.get >>= f)
  aside {α : Type} {x : Act α} : (∀ m : Machine, m.SameStore (x.run m).2) → D.Obeys x

namespace Discipline.SeesFiles

/-- Looking for a file needs the discipline to let files be seen. -/
theorem obeys_isFile (hD : D.SeesFiles) (path : Text) : D.Obeys (isFile path) := by
  refine hD.aside fun m => ?_
  show m.SameStore (if m.files.isFile path then (true, m) else (false, { m with missed := path :: m.missed })).2
  split <;> exact {}

/-- So does writing one. -/
theorem obeys_writeFile (hD : D.SeesFiles) (path data : Text) : D.Obeys (writeFile path data) := by
  refine hD.get fun m => ?_
  split
  · exact D.pure _
  · exact D.bind (hD.aside fun _ => {}) fun _ => D.pure _

/-- Saving writes the packed form. -/
theorem obeys_save (hD : D.SeesFiles) (r : Ref) (path : Text) : D.Obeys (save r path) := by
  refine D.bind (hD.obeys_isFile path) fun b => ?_
  split
  · exact D.pure _
  · refine D.bind (hD.obeys_writeFile path _) fun a => ?_
    split
    · exact D.pure _
    · refine hD.get fun m => ?_
      generalize m.packStream r = packed
      dsimp only
      split
      · exact D.bind (hD.obeys_writeFile path _) fun _ => D.pure _
      · refine D.bind (hD.obeys_writeFile path _) fun a => ?_
        split <;> exact D.pure _

/-- Loading builds a value from what a file has. -/
theorem obeys_load (hD : D.SeesFiles) (path : Text) : D.Obeys (load path) := by
  refine D.bind (hD.obeys_isFile path) fun b => ?_
  split
  · exact D.pure _
  · refine hD.get fun m => ?_
    split
    · exact D.pure _
    · refine D.bind (obeys_unpackFrom .file _) fun a => ?_
      split <;> exact D.pure _

/-- Every primitive, also those that work on files. -/
theorem obeys_primitive (hD : D.SeesFiles) (op : Primitive) (name : Text) (args : List Ref) :
    D.ObeysTry (primitive op name args) := by
  cases hop : op.usesFiles with
  | false => exact Act.obeys_primitive hop name args
  | true =>
    cases op with
    | bsave =>
      refine (obeys_two args).bind fun a => (obeys_stringArg _ a.2).bind fun path => ?_
      refine .lift (hD.obeys_save a.1 path) fun a => ?_
      split
      · exact .last (D.alloc rfl)
      · exact .throw _
    | bload =>
      refine (obeys_one args).bind fun r => (obeys_stringArg _ r).bind fun path =>
        .lift (hD.obeys_load path) fun a => ?_
      split
      · exact .pure _
      · exact .throw _
    | _ => cases hop

end Discipline.SeesFiles

/-- What a call fails with becomes an error object. -/
theorem obeys_settle (name : Text) {result : Result} (hresult : D.ObeysTry result) : D.Obeys (settle name result) := by
  refine D.bind hresult fun r => ?_
  split
  · exact D.pure _
  · exact obeys_newError _

end Act

end TinyScript
