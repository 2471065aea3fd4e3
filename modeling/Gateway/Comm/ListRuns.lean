/-
  Gateway.Comm.ListRuns

  Runs of the operations of `comm/list.c` and `comm/queue.c` on one list.

  `step` is a call of an operation on the list in its heap.  `spec` is the same call
  on a sequence of elements: an element keeps its identity, the address of its node,
  and is inserted at the front, behind another element or at the end, and removed
  from the front or from behind another element.  The list simulates the sequence
  (`step_simulates`) in every run whose callers pass `NULL` or a node of the list
  as `element` (`Allowed`), whatever `malloc` returns.

  `destroy` is any function on a state of the callers' own (`out`).
-/

import Gateway.Comm.LinkedList
import Gateway.Lib.Simulation

namespace Gateway.Comm.ListRuns

open Gateway.Lib.NodeChain Gateway.Lib.Transition Gateway.Lib.Simulation
open Gateway.Comm.LinkedList

variable {σ D : Type}

/-! ## The operations -/

/-- `list->destroy`, or `NULL`: what it does to the callers' state with a datum. -/
abbrev Destroy (σ D : Type) := Option (σ → D → σ)

/-- `List` with the heap around it and the state that `destroy` works on. -/
structure State (σ D : Type) where
  heap : Heap D
  list : CList
  destroy : Destroy σ D
  out : σ

/-- The returned value of a call that has one, and `*data` where it is written. -/
structure Result (D : Type) where
  rc : Option Int
  data : Option D
  deriving DecidableEq, Repr

/-- The return of a `void` function. -/
def Result.void : Result D := { rc := none, data := none }

/-- A call, with the address that `malloc` returns in it. -/
inductive Op (σ D : Type) where
  | listInit (destroy : Destroy σ D)
  | listInsNext (alloc element : Option Addr) (data : D)
  | listAppend (alloc : Option Addr) (data : D)
  | listRemNext (element : Option Addr)
  | listClean
  | listDestroy
  | queueEnqueue (alloc : Option Addr) (data : D)
  | queueDequeue

/-- `list_append`. -/
def listAppend (h : Heap D) (list : CList) (alloc : Option Addr) (data : D) :
    Option (Int × Heap D × CList) :=
  listInsNext h list alloc list.tail data

/-- The loop of `list_clean` and `list_destroy`, in at most `fuel` turns. -/
def cleanLoop (destroy : Destroy σ D) : Nat → Heap D → CList → σ → Option (Heap D × CList × σ)
  | 0, h, list, out => if 0 < list.size then none else some (h, list, out)
  | fuel + 1, h, list, out =>
    if 0 < list.size then do
      let (rc, data, h, list) ← listRemNext h list none
      let out := match destroy, data with
        | some destroy, some data => if rc = 0 then destroy out data else out
        | _, _ => out
      cleanLoop destroy fuel h list out
    else some (h, list, out)

/-- `list_clean`.  Each turn of the loop lowers `size` by one. -/
def listClean (s : State σ D) : Option (State σ D) := do
  let (heap, list, out) ← cleanLoop s.destroy s.list.size.toNat s.heap s.list s.out
  some { s with heap := heap, list := list, out := out }

/-- `list_destroy`: all fields of the list are zero afterwards. -/
def listDestroy (s : State σ D) : Option (State σ D) := do
  let s ← listClean s
  some { s with list := { size := 0, head := none, tail := none }, destroy := none }

/-- A call on the list. -/
def step (s : State σ D) : Op σ D → Option (Result D × State σ D)
  | .listInit destroy => some (.void, { s with list := listInit, destroy := destroy })
  | .listInsNext alloc element data => do
    let (rc, heap, list) ← listInsNext s.heap s.list alloc element data
    some ({ rc := some rc, data := none }, { s with heap := heap, list := list })
  | .listAppend alloc data => do
    let (rc, heap, list) ← listAppend s.heap s.list alloc data
    some ({ rc := some rc, data := none }, { s with heap := heap, list := list })
  | .listRemNext element => do
    let (rc, data, heap, list) ← listRemNext s.heap s.list element
    some ({ rc := some rc, data := data }, { s with heap := heap, list := list })
  | .listClean => do
    let s ← listClean s
    some (.void, s)
  | .listDestroy => do
    let s ← listDestroy s
    some (.void, s)
  | .queueEnqueue alloc data => do
    let (rc, heap, list) ← queueEnqueue s.heap s.list alloc data
    some ({ rc := some rc, data := none }, { s with heap := heap, list := list })
  | .queueDequeue => do
    let (rc, data, heap, list) ← queueDequeue s.heap s.list
    some ({ rc := some rc, data := data }, { s with heap := heap, list := list })

/-- `malloc` returns an address that is free, or `NULL`. -/
def Fresh (s : State σ D) (alloc : Option Addr) : Prop := ∀ a, alloc = some a → s.heap a = none

/-- A node of the list. -/
def InList (s : State σ D) (e : Addr) : Prop :=
  ∃ cs, Seg s.heap s.list.head cs none ∧ e ∈ cs.map Prod.fst

/-- What the callers keep to. -/
def Allowed (s : State σ D) : Op σ D → Prop
  | .listInsNext alloc element _ => Fresh s alloc ∧ ∀ e, element = some e → InList s e
  | .listAppend alloc _ | .queueEnqueue alloc _ => Fresh s alloc
  | .listRemNext element => ∀ e, element = some e → InList s e
  | _ => True

/-- The state behind the first `list_init`. -/
def initState (heap : Heap D) (destroy : Destroy σ D) (out : σ) : State σ D :=
  { heap := heap, list := listInit, destroy := destroy, out := out }

/-! ## The sequence -/

/-- The elements in order, each with its identity. -/
structure Sequence (σ D : Type) where
  cells : List (Addr × D)
  destroy : Destroy σ D
  out : σ

/-- The element `c` behind the element `e`. -/
def insertAfter (e : Addr) (c : Addr × D) : List (Addr × D) → List (Addr × D)
  | [] => []
  | d :: ds => if d.1 = e then d :: c :: ds else d :: insertAfter e c ds

/-- The element behind `e`, and the sequence without it. -/
def removeAfter (e : Addr) : List (Addr × D) → Option (D × List (Addr × D))
  | [] => none
  | d :: ds =>
    if d.1 = e then
      match ds with
      | [] => none
      | c :: ds => some (c.2, d :: ds)
    else (removeAfter e ds).map fun (x, ds) => (x, d :: ds)

/-- All data go to `destroy`, in order. -/
def destroyAll (destroy : Destroy σ D) (data : List D) (out : σ) : σ :=
  match destroy with
  | none => out
  | some destroy => data.foldl destroy out

namespace Sequence

/-- A call that returns a number. -/
def returns (rc : Int) (data : Option D) (t : Sequence σ D) : Result D × Sequence σ D :=
  ({ rc := some rc, data := data }, t)

/-- An element at the end. -/
def append (t : Sequence σ D) (alloc : Option Addr) (x : D) : Result D × Sequence σ D :=
  match alloc with
  | none => t.returns (-1) none
  | some new => { t with cells := t.cells ++ [(new, x)] }.returns 0 none

/-- The first element. -/
def removeFront (t : Sequence σ D) : Result D × Sequence σ D :=
  match t.cells with
  | [] => t.returns (-1) none
  | c :: cs => { t with cells := cs }.returns 0 (some c.2)

/-- Without elements. -/
def clean (t : Sequence σ D) : Sequence σ D :=
  { t with cells := [], out := destroyAll t.destroy (t.cells.map Prod.snd) t.out }

/-- A call on the sequence. -/
def spec (t : Sequence σ D) : Op σ D → Result D × Sequence σ D
  | .listInit destroy => (.void, { t with cells := [], destroy := destroy })
  | .listInsNext none _ _ => t.returns (-1) none
  | .listInsNext (some new) none x => { t with cells := (new, x) :: t.cells }.returns 0 none
  | .listInsNext (some new) (some e) x =>
    { t with cells := insertAfter e (new, x) t.cells }.returns 0 none
  | .listAppend alloc x | .queueEnqueue alloc x => t.append alloc x
  | .listRemNext none | .queueDequeue => t.removeFront
  | .listRemNext (some e) =>
    match removeAfter e t.cells with
    | none => t.returns (-1) none
    | some (x, cs) => { t with cells := cs }.returns 0 (some x)
  | .listClean => (.void, t.clean)
  | .listDestroy => (.void, { t.clean with destroy := none })

end Sequence

theorem insertAfter_split {e : Addr} {c : Addr × D} {y : D} {front back : List (Addr × D)}
    (h : e ∉ front.map Prod.fst) :
    insertAfter e c (front ++ (e, y) :: back) = front ++ (e, y) :: c :: back := by
  induction front with
  | nil => exact if_pos rfl
  | cons d front ih =>
    rw [List.map_cons, List.mem_cons, not_or] at h
    rw [List.cons_append, insertAfter, if_neg (Ne.symm h.1), ih h.2]
    rfl

theorem removeAfter_split {e : Addr} {y : D} {front back : List (Addr × D)}
    (h : e ∉ front.map Prod.fst) :
    removeAfter e (front ++ (e, y) :: back) =
      match back with
      | [] => none
      | c :: back => some (c.2, front ++ (e, y) :: back) := by
  induction front with
  | nil =>
    cases back <;> exact if_pos rfl
  | cons d front ih =>
    rw [List.map_cons, List.mem_cons, not_or] at h
    rw [List.cons_append, removeAfter.eq_def]
    simp only [if_neg (Ne.symm h.1), ih h.2]
    cases back <;> rfl

/-! ## Simulation -/

/-- The list holds the sequence. -/
structure Holds (s : State σ D) (t : Sequence σ D) : Prop where
  cells : Cells s.heap s.list t.cells
  destroy_eq : s.destroy = t.destroy
  out_eq : s.out = t.out

/-- The loop takes every element off and hands its datum over. -/
theorem cleanLoop_spec (destroy : Destroy σ D) {h : Heap D} {list : CList}
    {cs : List (Addr × D)} (hcells : Cells h list cs) (out : σ) :
    ∃ h' list', cleanLoop destroy cs.length h list out =
        some (h', list', destroyAll destroy (cs.map Prod.snd) out) ∧ Cells h' list' [] := by
  induction cs generalizing h list out with
  | nil =>
    have hsize : list.size = 0 := hcells.size_eq
    refine ⟨h, list, ?_, hcells⟩
    rw [List.length_nil, cleanLoop, if_neg (by omega)]
    cases destroy <;> rfl
  | cons c cs ih =>
    obtain ⟨old, x⟩ := c
    have hsize := hcells.size_eq
    rw [List.length_cons] at hsize
    obtain ⟨h₁, list₁, hrem, hcells₁⟩ := hcells.remNext_front
    obtain ⟨h₂, list₂, hrest, hcells₂⟩ := ih hcells₁ (destroyAll destroy [x] out)
    refine ⟨h₂, list₂, ?_, hcells₂⟩
    rw [List.length_cons, cleanLoop, if_pos (by omega)]
    simp only [hrem, Option.bind_eq_bind, Option.bind_some]
    cases destroy with
    | none => exact hrest
    | some destroy => exact hrest

theorem listClean_spec {s : State σ D} {t : Sequence σ D} (hR : Holds s t) :
    ∃ s', listClean s = some s' ∧ Holds s' t.clean := by
  have hfuel : s.list.size.toNat = t.cells.length := by
    rw [hR.cells.size_eq]
    rfl
  obtain ⟨h', list', hloop, hcells⟩ := cleanLoop_spec s.destroy hR.cells s.out
  refine ⟨{ s with heap := h', list := list', out := destroyAll s.destroy (t.cells.map Prod.snd) s.out },
    ?_, hcells, hR.destroy_eq, ?_⟩
  · rw [listClean, hfuel, hloop]
    rfl
  · show destroyAll s.destroy _ s.out = destroyAll t.destroy _ t.out
    rw [hR.destroy_eq, hR.out_eq]

/-- The loop frees the nodes, and takes no free address. -/
theorem cleanLoop_free (destroy : Destroy σ D) {h h' : Heap D} {list list' : CList}
    {cs : List (Addr × D)} {out out' : σ} {b : Addr} (hcells : Cells h list cs)
    (hrun : cleanLoop destroy cs.length h list out = some (h', list', out'))
    (hb : h b = none ∨ b ∈ cs.map Prod.fst) : h' b = none := by
  induction cs generalizing h list out with
  | nil =>
    have hsize : list.size = 0 := hcells.size_eq
    rw [List.length_nil, cleanLoop, if_neg (by omega)] at hrun
    cases hrun
    exact hb.resolve_right List.not_mem_nil
  | cons c cs ih =>
    obtain ⟨old, x⟩ := c
    have hsize := hcells.size_eq
    rw [List.length_cons] at hsize
    obtain ⟨h₁, list₁, hrem, hcells₁⟩ := hcells.remNext_front
    rw [List.length_cons, cleanLoop, if_pos (by omega), hrem] at hrun
    refine ih hcells₁ hrun ?_
    rw [List.map_cons, List.mem_cons] at hb
    rcases hb with hb | hb | hb
    · exact Or.inl (hcells.remNext_front_free hrem (Or.inl hb))
    · exact Or.inl (hcells.remNext_front_free hrem (Or.inr hb))
    · exact Or.inr hb

theorem listClean_free {s s' : State σ D} {t : Sequence σ D} {b : Addr} (hR : Holds s t)
    (hrun : listClean s = some s') (hb : s.heap b = none ∨ b ∈ t.cells.map Prod.fst) :
    s'.heap b = none := by
  have hfuel : s.list.size.toNat = t.cells.length := by
    rw [hR.cells.size_eq]
    rfl
  rw [listClean, hfuel] at hrun
  obtain ⟨⟨h', list', out'⟩, hloop, hrun⟩ := Option.bind_eq_some_iff.mp hrun
  cases hrun
  exact cleanLoop_free s.destroy hR.cells hloop hb

/-- The chain from a pointer to the end is determined. -/
theorem seg_unique {h : Heap D} {p : Option Addr} {cs ds : List (Addr × D)}
    (hcs : Seg h p cs none) (hds : Seg h p ds none) : cs = ds := by
  induction cs generalizing p ds with
  | nil =>
    obtain rfl : p = none := hcs
    cases ds with
    | nil => rfl
    | cons d ds => cases hds.1
  | cons c cs ih =>
    obtain ⟨a, x⟩ := c
    obtain ⟨rfl, next, hnode, hcs⟩ := hcs
    cases ds with
    | nil => cases hds
    | cons d ds =>
      obtain ⟨b, y⟩ := d
      obtain ⟨hb, next', hnode', hds⟩ := hds
      obtain rfl := Option.some_inj.mp hb
      obtain ⟨rfl, rfl⟩ := Node.mk.inj (Option.some_inj.mp (hnode.symm.trans hnode'))
      rw [ih hcs hds]

/-- A node of the list is an element of the sequence. -/
theorem InList.split {s : State σ D} {t : Sequence σ D} {e : Addr} (hR : Holds s t)
    (he : InList s e) :
    ∃ front y back, t.cells = front ++ (e, y) :: back ∧ e ∉ front.map Prod.fst := by
  obtain ⟨cs, hseg, hmem⟩ := he
  obtain rfl := seg_unique hseg hR.cells.chain
  obtain ⟨⟨a, y⟩, hcell, rfl⟩ := List.mem_map.mp hmem
  obtain ⟨front, back, hsplit⟩ := List.append_of_mem hcell
  refine ⟨front, y, back, hsplit, fun hfront => ?_⟩
  have hnodup := hR.cells.nodup
  rw [hsplit, List.map_append, List.nodup_append] at hnodup
  exact hnodup.2.2 a hfront a (List.mem_cons_self ..) rfl

theorem Holds.append {s : State σ D} {t : Sequence σ D} {alloc : Option Addr} {x : D}
    (hR : Holds s t) (hfresh : Fresh s alloc) :
    ∃ rc h' list', listInsNext s.heap s.list alloc s.list.tail x = some (rc, h', list') ∧
      (t.append alloc x).1 = { rc := some rc, data := none } ∧
      Holds { s with heap := h', list := list' } (t.append alloc x).2 := by
  cases alloc with
  | none => exact ⟨-1, s.heap, s.list, rfl, rfl, hR⟩
  | some new =>
    obtain ⟨h', list', hrun, hcells⟩ := @Cells.insNext_tail _ _ _ x _ _ hR.cells (hfresh new rfl)
    exact ⟨0, h', list', hrun, rfl, hcells, hR.destroy_eq, hR.out_eq⟩

theorem Holds.removeFront {s : State σ D} {t : Sequence σ D} (hR : Holds s t) :
    ∃ rc data h' list', listRemNext s.heap s.list none = some (rc, data, h', list') ∧
      t.removeFront.1 = { rc := some rc, data := data } ∧
      Holds { s with heap := h', list := list' } t.removeFront.2 := by
  obtain ⟨cells, destroy, out⟩ := t
  cases cells with
  | nil => exact ⟨-1, none, s.heap, s.list, hR.cells.remNext_empty none, rfl, hR⟩
  | cons c cs =>
    obtain ⟨h', list', hrun, hcells⟩ := hR.cells.remNext_front
    exact ⟨0, some c.2, h', list', hrun, rfl, hcells, hR.destroy_eq, hR.out_eq⟩

/-- A call on the list does what the call on the sequence does. -/
def Steps (s : State σ D) (t : Sequence σ D) (op : Op σ D) : Prop :=
  ∃ s', step s op = some ((t.spec op).1, s') ∧ Holds s' (t.spec op).2

theorem Holds.listInsNext {s : State σ D} {t : Sequence σ D} {alloc element : Option Addr} {x : D}
    (hR : Holds s t) (hallowed : Allowed s (.listInsNext alloc element x)) :
    Steps s t (.listInsNext alloc element x) := by
  obtain ⟨hfresh, hin⟩ := hallowed
  cases alloc with
  | none => exact ⟨s, rfl, hR⟩
  | some new =>
    cases element with
    | none =>
      obtain ⟨h', list', hrun, hcells⟩ := @Cells.insNext_front _ _ _ x _ _ hR.cells (hfresh new rfl)
      refine ⟨{ s with heap := h', list := list' }, ?_, hcells, hR.destroy_eq, hR.out_eq⟩
      rw [step, hrun]
      rfl
    | some e =>
      obtain ⟨front, y, back, hsplit, hfront⟩ := (hin e rfl).split hR
      have hcells := hR.cells
      rw [hsplit] at hcells
      obtain ⟨h', list', hrun, hcells⟩ :=
        @Cells.insNext_after _ _ _ x _ _ _ _ _ hcells (hfresh new rfl)
      refine ⟨{ s with heap := h', list := list' }, ?_, ?_, hR.destroy_eq, hR.out_eq⟩
      · rw [step, hrun]
        rfl
      · show Cells h' list' (insertAfter e (new, x) t.cells)
        rw [hsplit, insertAfter_split hfront]
        exact hcells

theorem Holds.listRemNext {s : State σ D} {t : Sequence σ D} {element : Option Addr}
    (hR : Holds s t) (hallowed : Allowed s (.listRemNext element)) :
    Steps s t (.listRemNext element) := by
  cases element with
  | none =>
    obtain ⟨rc, data, h', list', hrun, hres, hR'⟩ := hR.removeFront
    refine ⟨{ s with heap := h', list := list' }, ?_, hR'⟩
    rw [Sequence.spec, hres, step]
    simp only [hrun, Option.bind_eq_bind, Option.bind_some]
  | some e =>
    obtain ⟨front, y, back, hsplit, hfront⟩ := (hallowed e rfl).split hR
    have hcells := hR.cells
    rw [hsplit] at hcells
    rw [Steps, Sequence.spec, hsplit, removeAfter_split hfront, step]
    cases back with
    | nil =>
      -- behind the tail there is nothing to remove
      refine ⟨s, ?_, hR⟩
      simp only [hcells.remNext_last, Option.bind_eq_bind, Option.bind_some, Sequence.returns]
    | cons c back =>
      obtain ⟨h', list', hrun, hcells⟩ := hcells.remNext_after
      refine ⟨{ s with heap := h', list := list' }, ?_, hcells, hR.destroy_eq, hR.out_eq⟩
      simp only [hrun, Option.bind_eq_bind, Option.bind_some, Sequence.returns]

/-- Every allowed call on the list does what the call on the sequence does. -/
theorem step_simulates :
    Simulates (@step σ D) Sequence.spec Allowed Holds := by
  intro s t op hR hallowed
  cases op with
  | listInit destroy =>
    exact ⟨_, rfl, cells_listInit s.heap, rfl, hR.out_eq⟩
  | listInsNext alloc element x => exact hR.listInsNext hallowed
  | listAppend alloc x | queueEnqueue alloc x =>
    obtain ⟨rc, h', list', hrun, hres, hR'⟩ := @Holds.append _ _ _ _ _ x hR hallowed
    refine ⟨{ s with heap := h', list := list' }, ?_, hR'⟩
    rw [Sequence.spec, hres, step]
    simp only [listAppend, queueEnqueue, hrun, Option.bind_eq_bind, Option.bind_some]
  | listRemNext element => exact hR.listRemNext hallowed
  | listClean =>
    obtain ⟨s', hrun, hR'⟩ := listClean_spec hR
    refine ⟨s', ?_, hR'⟩
    rw [step, hrun]
    rfl
  | listDestroy =>
    obtain ⟨s', hrun, hR'⟩ := listClean_spec hR
    refine ⟨{ s' with list := listInit, destroy := none }, ?_, cells_listInit s'.heap, rfl,
      hR'.out_eq⟩
    rw [step, listDestroy, hrun]
    rfl
  | queueDequeue =>
    obtain ⟨rc, data, h', list', hrun, hres, hR'⟩ := hR.removeFront
    refine ⟨{ s with heap := h', list := list' }, ?_, hR'⟩
    rw [Sequence.spec, hres, step]
    simp only [queueDequeue, hrun, Option.bind_eq_bind, Option.bind_some]

/-! ## Queues -/

/-- The calls on a queue. -/
def IsQueueOp : Op σ D → Prop
  | .queueEnqueue _ _ | .queueDequeue => True
  | _ => False

/-- The datum that a call put into the queue. -/
def accepted : Op σ D → Result D → Option D
  | .queueEnqueue _ data, res => if res.rc = some 0 then some data else none
  | _, _ => none

/-- The data that went into the queue, in the order of the calls. -/
def enqueuedData (ops : List (Op σ D)) (results : List (Result D)) : List D :=
  (ops.zip results).filterMap fun (op, res) => accepted op res

/-- The data that came out of the queue, in the order of the calls. -/
def dequeuedData (results : List (Result D)) : List D := results.filterMap Result.data

/-- What came out and what is left is what was there and what went in. -/
theorem fifo {ops : List (Op σ D)} (hops : ∀ op ∈ ops, IsQueueOp op) (t : Sequence σ D) :
    dequeuedData (specTrace Sequence.spec t ops).1 ++
        (specTrace Sequence.spec t ops).2.cells.map Prod.snd =
      t.cells.map Prod.snd ++ enqueuedData ops (specTrace Sequence.spec t ops).1 := by
  induction ops generalizing t with
  | nil => exact (List.append_nil _).symm
  | cons op ops ih =>
    have hrest := fun t => ih (fun b hb => hops b (List.mem_cons_of_mem _ hb)) t
    have hop := hops op (List.mem_cons_self ..)
    cases op with
    | queueEnqueue alloc x =>
      cases alloc with
      | none => exact hrest t
      | some new =>
        have h := hrest { t with cells := t.cells ++ [(new, x)] }
        rw [List.map_append, List.append_assoc] at h
        exact h
    | queueDequeue =>
      obtain ⟨cells, destroy, out⟩ := t
      cases cells with
      | nil => exact hrest _
      | cons c cs => exact congrArg (c.2 :: ·) (hrest { cells := cs, destroy := destroy, out := out })
    | _ => exact hop.elim

/-! ## Whole runs -/

/-- A call that returns -1 changes nothing. -/
theorem step_unchanged {s s' : State σ D} {op : Op σ D} {res : Result D}
    (hstep : step s op = some (res, s')) (hrc : res.rc = some (-1)) : s' = s := by
  cases op with
  | listInit destroy =>
    cases hstep
    cases hrc
  | listInsNext alloc element x | listAppend alloc x | queueEnqueue alloc x =>
    obtain ⟨⟨rc, h', list'⟩, hrun, hstep⟩ := Option.bind_eq_some_iff.mp hstep
    cases hstep
    obtain rfl : rc = -1 := Option.some_inj.mp hrc
    obtain ⟨rfl, rfl⟩ := listInsNext_unchanged hrun
    rfl
  | listRemNext element | queueDequeue =>
    obtain ⟨⟨rc, data, h', list'⟩, hrun, hstep⟩ := Option.bind_eq_some_iff.mp hstep
    cases hstep
    obtain rfl : rc = -1 := Option.some_inj.mp hrc
    obtain ⟨rfl, rfl⟩ := listRemNext_unchanged hrun
    rfl
  | listClean | listDestroy =>
    obtain ⟨t, -, hstep⟩ := Option.bind_eq_some_iff.mp hstep
    cases hstep
    cases hrc

/-- In every run of allowed calls, whatever `malloc` returns: no call faults, the results are
    those of the calls on the sequence, and the list holds the sequence afterwards.  A further call
    that returns -1 changes nothing; a further `list_clean` hands every datum to `destroy`, in
    order, and leaves the list empty; and when all calls were queue calls, what came out and what
    is left is what went in. -/
theorem listRuns_refine (heap : Heap D) (destroy : Destroy σ D) (out : σ) (ops : List (Op σ D))
    (hallowed : AllSteps (stateStep step) Allowed (initState heap destroy out) ops) :
    ∃ results s t, trace step (initState heap destroy out) ops = some (results, s) ∧
      specTrace Sequence.spec { cells := [], destroy := destroy, out := out } ops = (results, t) ∧
      Cells s.heap s.list t.cells ∧ s.destroy = t.destroy ∧ s.out = t.out ∧
      (∀ op res s', step s op = some (res, s') → res.rc = some (-1) → s' = s) ∧
      (∃ s', step s .listClean = some (.void, s') ∧ Cells s'.heap s'.list [] ∧
        s'.destroy = s.destroy ∧ s'.out = destroyAll s.destroy (t.cells.map Prod.snd) s.out) ∧
      ((∀ op ∈ ops, IsQueueOp op) →
        dequeuedData results ++ t.cells.map Prod.snd = enqueuedData ops results) := by
  have hinit : Holds (initState heap destroy out)
      { cells := [], destroy := destroy, out := out } := ⟨cells_listInit heap, rfl, rfl⟩
  obtain ⟨s, htrace, hR⟩ := step_simulates.trace hinit hallowed
  obtain ⟨s', hclean, hR'⟩ := step_simulates s _ .listClean hR trivial
  refine ⟨_, s, _, htrace, rfl, hR.cells, hR.destroy_eq, hR.out_eq, ?_, ?_, ?_⟩
  · intro op res s' hstep hrc
    exact step_unchanged hstep hrc
  · refine ⟨s', hclean, hR'.cells, hR'.destroy_eq.trans hR.destroy_eq.symm, ?_⟩
    rw [hR'.out_eq, hR.destroy_eq, hR.out_eq]
    rfl
  · intro hops
    exact fifo hops _

/-- An element behind the first one, a failing `malloc`, and a removal behind the last element. -/
theorem listRuns_refine_four :
    ∃ results s, trace step (initState (fun _ => none) none ()) [.queueEnqueue (some 1) 10,
        .listInsNext (some 2) (some 1) 20, .listAppend none 30, .listRemNext (some 2)]
          = some (results, s) ∧
      results.map Result.rc = [some 0, some 0, some (-1), some (-1)] ∧
      Cells s.heap s.list [(1, 10), (2, 20)] := by
  obtain ⟨results, s, t, htrace, hspec, hcells, -⟩ := listRuns_refine (fun _ => none) none ()
    [.queueEnqueue (some 1) 10, .listInsNext (some 2) (some 1) 20, .listAppend none 30,
      .listRemNext (some 2)] (by
    -- the steps one after the other, with the nodes that are there
    refine ⟨fun _ _ => rfl, fun s₁ h₁ => ?_⟩
    cases h₁
    refine ⟨⟨?_, ?_⟩, fun s₂ h₂ => ?_⟩
    · rintro a ⟨⟩
      rfl
    · rintro e ⟨⟩
      exact ⟨[(1, 10)], ⟨rfl, none, rfl, rfl⟩, List.mem_cons_self ..⟩
    cases h₂
    refine ⟨nofun, fun s₃ h₃ => ?_⟩
    cases h₃
    refine ⟨?_, fun _ _ => trivial⟩
    rintro e ⟨⟩
    exact ⟨[(1, 10), (2, 20)], ⟨rfl, some 2, rfl, rfl, none, rfl, rfl⟩, by decide⟩)
  obtain ⟨rfl, rfl⟩ := Prod.mk.inj hspec
  exact ⟨_, s, htrace, rfl, hcells⟩

end Gateway.Comm.ListRuns
