/-
  Gateway.Comm.LinkedList

  The linked list and the queue on top of it (`comm/list.c`, `comm/queue.c`).

  A list is its record in a heap of nodes.  `Cells h list cs` says that the nodes from
  `head` on are `cs`, each with its address, that `tail` is the last of them and `size`
  their number; there is a lemma for each branch of `list_ins_next` and
  `list_rem_next`.  `Rep h list xs` forgets the addresses: it is what the users of a
  queue need to know.

  `malloc` is the argument `alloc`: the address it returns, `none` when it fails.
  An access through a null pointer, or to a node that is not there, is a fault
  (`none`).  `size` is an `int` that does not wrap here: 2^31 elements do not fit in the
  memory of a 32-bit target.  Where addresses are longer, the results are about lists
  with fewer elements than that.
-/

import Mathlib.Data.List.Nodup
import Gateway.Lib.NodeChain

namespace Gateway.Comm.LinkedList

open Gateway.Lib.NodeChain

variable {D : Type}

/-! ## The model -/

/-- `List`, without the destructor, which the functions here do not call. -/
structure CList where
  size : Int
  head : Option Addr
  tail : Option Addr
  deriving DecidableEq, Repr

/-- `list_init`. -/
def listInit : CList := { size := 0, head := none, tail := none }

/-- `list_ins_next`: the returned value, the heap and the list. -/
def listInsNext (h : Heap D) (list : CList) (alloc element : Option Addr) (data : D) :
    Option (Int × Heap D × CList) :=
  match alloc with
  | none => some (-1, h, list)
  | some newElement =>
    match element with
    | none =>
      let tail := if list.size = 0 then some newElement else list.tail
      some (0, setNode h newElement (some ⟨data, list.head⟩),
        { size := list.size + 1, head := some newElement, tail := tail })
    | some e => do
      let node ← h e
      let tail := if node.next = none then some newElement else list.tail
      let h := setNode h newElement (some ⟨data, node.next⟩)
      some (0, setNode h e (some { node with next := some newElement }),
        { list with size := list.size + 1, tail := tail })

/-- `list_rem_next`: the returned value, `*data` when it is written, the heap and the list. -/
def listRemNext (h : Heap D) (list : CList) (element : Option Addr) :
    Option (Int × Option D × Heap D × CList) :=
  if list.size = 0 then some (-1, none, h, list) else
  match element with
  | none => do
    let oldElement ← list.head
    let node ← h oldElement
    let tail := if list.size = 1 then none else list.tail
    some (0, some node.data, setNode h oldElement none,
      { size := list.size - 1, head := node.next, tail := tail })
  | some e => do
    let node ← h e
    match node.next with
    | none => some (-1, none, h, list)
    | some oldElement => do
      let old ← h oldElement
      let h := setNode h e (some { node with next := old.next })
      let tail := if old.next = none then some e else list.tail
      some (0, some old.data, setNode h oldElement none,
        { list with size := list.size - 1, tail := tail })

/-- `queue_enqueue`. -/
def queueEnqueue (h : Heap D) (queue : CList) (alloc : Option Addr) (data : D) :
    Option (Int × Heap D × CList) :=
  listInsNext h queue alloc queue.tail data

/-- `queue_dequeue`. -/
def queueDequeue (h : Heap D) (queue : CList) : Option (Int × Option D × Heap D × CList) :=
  listRemNext h queue none

/-! ## What a list stands for -/

/-- The list holds the elements `xs`. -/
def Rep (h : Heap D) (list : CList) (xs : List D) : Prop :=
  ∃ cs : List (Addr × D), cs.map Prod.snd = xs ∧ (cs.map Prod.fst).Nodup ∧
    Seg h list.head cs none ∧ list.tail = (cs.map Prod.fst).getLast? ∧ list.size = cs.length

/-- The list has these nodes, with their addresses. -/
structure Cells (h : Heap D) (list : CList) (cs : List (Addr × D)) : Prop where
  nodup : (cs.map Prod.fst).Nodup
  chain : Seg h list.head cs none
  tail_eq : list.tail = (cs.map Prod.fst).getLast?
  size_eq : list.size = cs.length

variable {h : Heap D} {list : CList} {xs : List D} {x y : D} {e new old : Addr}
  {cs front back : List (Addr × D)}

theorem rep_iff : Rep h list xs ↔ ∃ cs, Cells h list cs ∧ cs.map Prod.snd = xs := by
  constructor
  · rintro ⟨cs, hdata, hnodup, hseg, htail, hsize⟩
    exact ⟨cs, ⟨hnodup, hseg, htail, hsize⟩, hdata⟩
  · rintro ⟨cs, hcells, hdata⟩
    exact ⟨cs, hdata, hcells.nodup, hcells.chain, hcells.tail_eq, hcells.size_eq⟩

theorem cells_listInit (h : Heap D) : Cells h listInit [] := ⟨List.nodup_nil, rfl, rfl, rfl⟩

theorem rep_listInit : Rep h listInit ([] : List D) := rep_iff.mpr ⟨[], cells_listInit h, rfl⟩

/-- `size` is the number of elements. -/
theorem Rep.size_eq (hrep : Rep h list xs) : list.size = xs.length := by
  obtain ⟨cs, rfl, -, -, -, hsize⟩ := hrep
  rw [hsize, List.length_map]

/-! ## Insertion -/

/-- When `malloc` fails nothing changes. -/
theorem listInsNext_fails (h : Heap D) (list : CList) (element : Option Addr) (x : D) :
    listInsNext h list none element x = some (-1, h, list) := rfl

/-- At the front; in an empty list the new node is the tail, too. -/
theorem Cells.insNext_front (hcells : Cells h list cs) (hfree : h new = none) :
    ∃ h' list', listInsNext h list (some new) none x = some (0, h', list') ∧
      Cells h' list' ((new, x) :: cs) := by
  have hnew := hcells.chain.not_mem_of_free hfree
  refine ⟨_, _, rfl, List.nodup_cons.mpr ⟨hnew, hcells.nodup⟩,
    ⟨rfl, list.head, setNode_self _ _ _, hcells.chain.setNode hnew⟩, ?_, ?_⟩
  · show (if list.size = 0 then some new else list.tail) = _
    cases cs with
    | nil => exact if_pos hcells.size_eq
    | cons c cs =>
      have hsize : list.size ≠ 0 := by
        rw [hcells.size_eq, List.length_cons]
        omega
      rw [if_neg hsize, hcells.tail_eq]
      rfl
  · show list.size + 1 = _
    rw [hcells.size_eq, List.length_cons]
    omega

/-- A new address behind another one keeps the addresses different. -/
theorem nodup_insertBehind {α : Type} {xs ys : List α} {a b : α} (h : (xs ++ a :: ys).Nodup)
    (hb : b ∉ xs ++ a :: ys) : (xs ++ a :: b :: ys).Nodup := by
  have hperm : (xs ++ a :: b :: ys).Perm (b :: (xs ++ a :: ys)) := by
    have hmiddle := @List.perm_middle _ b (xs ++ [a]) ys
    rw [List.append_assoc, List.append_assoc] at hmiddle
    exact hmiddle
  exact hperm.nodup_iff.mpr (List.nodup_cons.mpr ⟨hb, h⟩)

/-- Behind a node, which may be the last one. -/
theorem Cells.insNext_after (hcells : Cells h list (front ++ (e, y) :: back))
    (hfree : h new = none) :
    ∃ h' list', listInsNext h list (some new) (some e) x = some (0, h', list') ∧
      Cells h' list' (front ++ (e, y) :: (new, x) :: back) := by
  have hnew := hcells.chain.not_mem_of_free hfree
  obtain ⟨r, hfront, rfl, next, hnode, hback⟩ := seg_append.mp hcells.chain
  have hnodup := hcells.nodup
  rw [List.map_append, List.map_cons] at hnodup hnew
  have hinserted := nodup_insertBehind hnodup hnew
  rw [List.nodup_append, List.nodup_cons] at hnodup
  obtain ⟨-, ⟨heback, -⟩, hdisjoint⟩ := hnodup
  rw [List.mem_append, List.mem_cons, not_or, not_or] at hnew
  obtain ⟨hnewFront, hne, hnewBack⟩ := hnew
  have hefront : e ∉ front.map Prod.fst := by
    intro hmem
    exact hdisjoint e hmem e (List.mem_cons_self ..) rfl
  refine ⟨setNode (setNode h new (some ⟨x, next⟩)) e (some ⟨y, some new⟩),
    { list with size := list.size + 1,
                tail := if next = none then some new else list.tail }, ?_, ?_, ?_, ?_, ?_⟩
  · rw [listInsNext]
    simp only [hnode, Option.bind_eq_bind, Option.bind_some]
  · rw [List.map_append, List.map_cons, List.map_cons]
    exact hinserted
  · -- the old links up to `e` and behind it are as before
    refine seg_append.mpr ⟨some e, (hfront.setNode hnewFront).setNode hefront, rfl, some new,
      setNode_self _ _ _, rfl, next, ?_, (hback.setNode hnewBack).setNode heback⟩
    rw [setNode_ne _ _ hne]
    exact setNode_self _ _ _
  · -- the node is the tail when `e` was
    show (if next = none then some new else list.tail) = _
    have htail := hcells.tail_eq
    cases back with
    | nil =>
      rw [if_pos (show next = none from hback), List.map_append, List.map_cons, List.map_cons,
        List.map_nil, List.getLast?_append]
      rfl
    | cons c back =>
      obtain ⟨a, z⟩ := c
      obtain ⟨hnext, -⟩ := hback
      rw [if_neg (by rw [hnext]; exact Option.some_ne_none _), htail]
      simp only [List.map_append, List.map_cons, List.getLast?_append, List.getLast?_cons_cons]
  · show list.size + 1 = _
    rw [hcells.size_eq, List.length_append, List.length_append, List.length_cons,
      List.length_cons, List.length_cons]
    omega

/-- At the tail, as `list_append` and `queue_enqueue` do it. -/
theorem Cells.insNext_tail (hcells : Cells h list cs) (hfree : h new = none) :
    ∃ h' list', listInsNext h list (some new) list.tail x = some (0, h', list') ∧
      Cells h' list' (cs ++ [(new, x)]) := by
  rcases List.eq_nil_or_concat cs with rfl | ⟨front, ⟨e, y⟩, rfl⟩
  · -- an empty list has no tail, so it is the front
    rw [hcells.tail_eq]
    exact hcells.insNext_front hfree
  · rw [List.concat_eq_append] at hcells ⊢
    have htail : list.tail = some e := by
      rw [hcells.tail_eq, List.map_append]
      exact List.getLast?_concat
    rw [htail, List.append_assoc]
    exact hcells.insNext_after hfree

/-- An insertion that fails changes nothing. -/
theorem listInsNext_unchanged {h' : Heap D} {list' : CList} {alloc element : Option Addr}
    (hrun : listInsNext h list alloc element x = some (-1, h', list')) : h' = h ∧ list' = list := by
  cases alloc with
  | none =>
    cases hrun
    exact ⟨rfl, rfl⟩
  | some new =>
    cases element with
    | none => cases hrun
    | some e =>
      rw [listInsNext] at hrun
      cases hnode : h e with
      | none => rw [hnode] at hrun; cases hrun
      | some node => rw [hnode] at hrun; cases hrun

/-- An insertion at the tail leaves the other free addresses free. -/
theorem insNext_tail_free {h' : Heap D} {list' : CList} {rc : Int} {b : Addr}
    (hrun : listInsNext h list (some new) list.tail x = some (rc, h', list'))
    (hb : h b = none) (hne : b ≠ new) : h' b = none := by
  cases htail : list.tail with
  | none =>
    rw [htail, listInsNext] at hrun
    cases hrun
    rw [setNode_ne _ _ hne]
    exact hb
  | some e =>
    rw [htail, listInsNext] at hrun
    obtain ⟨node, hnode, hrun⟩ := Option.bind_eq_some_iff.mp hrun
    cases hrun
    -- the tail is a node, so it is not the free address
    have hbe : b ≠ e := by
      rintro rfl
      rw [hb] at hnode
      cases hnode
    rw [setNode_ne _ _ hbe, setNode_ne _ _ hne]
    exact hb

/-! ## Removal -/

/-- Nothing is removed from an empty list. -/
theorem Cells.remNext_empty (hcells : Cells h list []) (element : Option Addr) :
    listRemNext h list element = some (-1, none, h, list) := by
  have hsize : list.size = 0 := hcells.size_eq
  rw [listRemNext.eq_def, if_pos hsize]

/-- The first node; the last element leaves no tail behind. -/
theorem Cells.remNext_front (hcells : Cells h list ((old, x) :: cs)) :
    ∃ h' list', listRemNext h list none = some (0, some x, h', list') ∧ Cells h' list' cs := by
  obtain ⟨hhead, next, hnode, hrest⟩ := hcells.chain
  have hnodup := hcells.nodup
  rw [List.map_cons, List.nodup_cons] at hnodup
  have hsize := hcells.size_eq
  rw [List.length_cons] at hsize
  refine ⟨setNode h old none,
    { size := list.size - 1, head := next, tail := if list.size = 1 then none else list.tail },
    ?_, hnodup.2, hrest.setNode hnodup.1, ?_, ?_⟩
  · rw [listRemNext, if_neg (by omega), hhead]
    simp only [Option.bind_eq_bind, Option.bind_some, hnode]
  · cases cs with
    | nil => exact if_pos hsize
    | cons d cs =>
      rw [List.length_cons] at hsize
      exact (if_neg (by omega)).trans hcells.tail_eq
  · show list.size - 1 = _
    omega

/-- A removal at the front frees the node, and no free address is taken. -/
theorem Cells.remNext_front_free {h' : Heap D} {list' : CList} {rc : Int} {data : Option D} {b : Addr}
    (hcells : Cells h list ((old, x) :: cs))
    (hrun : listRemNext h list none = some (rc, data, h', list')) (hb : h b = none ∨ b = old) :
    h' b = none := by
  obtain ⟨hhead, next, hnode, -⟩ := hcells.chain
  have hsize := hcells.size_eq
  rw [List.length_cons] at hsize
  rw [listRemNext, if_neg (by omega), hhead] at hrun
  simp only [Option.bind_eq_bind, Option.bind_some, hnode] at hrun
  cases hrun
  by_cases hbold : b = old
  · rw [hbold, setNode_self]
  · rw [setNode_ne _ _ hbold]
    exact hb.resolve_right hbold

/-- The node behind another one; when it is the last, the other becomes the tail. -/
theorem Cells.remNext_after (hcells : Cells h list (front ++ (e, y) :: (old, x) :: back)) :
    ∃ h' list', listRemNext h list (some e) = some (0, some x, h', list') ∧
      Cells h' list' (front ++ (e, y) :: back) := by
  obtain ⟨r, hfront, rfl, next, hnode, rfl, next', hold, hback⟩ := seg_append.mp hcells.chain
  have hnodup := hcells.nodup
  rw [List.map_append, List.map_cons, List.map_cons, List.nodup_append, List.nodup_cons,
    List.nodup_cons, List.mem_cons, not_or] at hnodup
  obtain ⟨hnodupFront, ⟨⟨hne, heback⟩, holdBack, hnodupBack⟩, hdisjoint⟩ := hnodup
  have hefront : e ∉ front.map Prod.fst :=
    fun hmem => hdisjoint e hmem e (List.mem_cons_self ..) rfl
  have holdFront : old ∉ front.map Prod.fst :=
    fun hmem => hdisjoint old hmem old (List.mem_cons_of_mem _ (List.mem_cons_self ..)) rfl
  have hsize := hcells.size_eq
  rw [List.length_append, List.length_cons, List.length_cons] at hsize
  refine ⟨setNode (setNode h e (some ⟨y, next'⟩)) old none,
    { list with size := list.size - 1, tail := if next' = none then some e else list.tail },
    ?_, ?_, ?_, ?_, ?_⟩
  · rw [listRemNext, if_neg (by omega)]
    simp only [hnode, hold, Option.bind_eq_bind, Option.bind_some]
  · rw [List.map_append, List.map_cons, List.nodup_append, List.nodup_cons]
    refine ⟨hnodupFront, ⟨heback, hnodupBack⟩, fun a ha b hb => hdisjoint a ha b ?_⟩
    rcases List.mem_cons.mp hb with rfl | hb
    · exact List.mem_cons_self ..
    · exact List.mem_cons_of_mem _ (List.mem_cons_of_mem _ hb)
  · refine seg_append.mpr ⟨some e, (hfront.setNode hefront).setNode holdFront, rfl, next', ?_,
      (hback.setNode heback).setNode holdBack⟩
    rw [setNode_ne _ _ hne]
    exact setNode_self _ _ _
  · show (if next' = none then some e else list.tail) = _
    cases back with
    | nil =>
      rw [if_pos (show next' = none from hback), List.map_append]
      exact List.getLast?_concat.symm
    | cons c back =>
      obtain ⟨a, z⟩ := c
      obtain ⟨hnext, -⟩ := hback
      rw [if_neg (by rw [hnext]; exact Option.some_ne_none _), hcells.tail_eq]
      simp only [List.map_append, List.map_cons, List.getLast?_append, List.getLast?_cons_cons]
  · show list.size - 1 = _
    rw [List.length_append, List.length_cons]
    omega

/-- Behind the last node there is nothing to remove. -/
theorem Cells.remNext_last (hcells : Cells h list (front ++ [(e, y)])) :
    listRemNext h list (some e) = some (-1, none, h, list) := by
  obtain ⟨r, -, rfl, next, hnode, rfl⟩ := seg_append.mp hcells.chain
  have hsize := hcells.size_eq
  rw [List.length_append, List.length_singleton] at hsize
  rw [listRemNext, if_neg (by omega)]
  simp only [hnode, Option.bind_eq_bind, Option.bind_some]

/-- A removal that fails changes nothing. -/
theorem listRemNext_unchanged {h' : Heap D} {list' : CList} {element : Option Addr}
    {data : Option D} (hrun : listRemNext h list element = some (-1, data, h', list')) :
    h' = h ∧ list' = list := by
  by_cases hsize : list.size = 0
  · rw [listRemNext.eq_def, if_pos hsize] at hrun
    cases hrun
    exact ⟨rfl, rfl⟩
  · rw [listRemNext.eq_def, if_neg hsize] at hrun
    cases element with
    | none =>
      -- a removal at the front returns 0
      obtain ⟨old, -, hrun⟩ := Option.bind_eq_some_iff.mp hrun
      obtain ⟨node, -, hrun⟩ := Option.bind_eq_some_iff.mp hrun
      cases hrun
    | some e =>
      obtain ⟨node, -, hrun⟩ := Option.bind_eq_some_iff.mp hrun
      cases hnext : node.next with
      | none =>
        rw [hnext] at hrun
        cases hrun
        exact ⟨rfl, rfl⟩
      | some old =>
        rw [hnext] at hrun
        obtain ⟨_, -, hrun⟩ := Option.bind_eq_some_iff.mp hrun
        cases hrun

/-! ## Queues -/

/-- Enqueueing puts the element behind the others. -/
theorem queueEnqueue_rep (hrep : Rep h list xs) (hfree : h new = none) :
    ∃ h' list', queueEnqueue h list (some new) x = some (0, h', list') ∧
      Rep h' list' (xs ++ [x]) := by
  obtain ⟨cs, hcells, rfl⟩ := rep_iff.mp hrep
  obtain ⟨h', list', hrun, hcells'⟩ := hcells.insNext_tail hfree
  refine ⟨h', list', hrun, rep_iff.mpr ⟨_, hcells', ?_⟩⟩
  rw [List.map_append]
  rfl

/-- Dequeueing takes the first element off. -/
theorem queueDequeue_rep (hrep : Rep h list (x :: xs)) :
    ∃ h' list', queueDequeue h list = some (0, some x, h', list') ∧ Rep h' list' xs := by
  obtain ⟨cs, hcells, hdata⟩ := rep_iff.mp hrep
  cases cs with
  | nil => cases hdata
  | cons c cs =>
    obtain ⟨a, y⟩ := c
    obtain ⟨rfl, rfl⟩ : y = x ∧ cs.map Prod.snd = xs := List.cons_eq_cons.mp hdata
    obtain ⟨h', list', hrun, hcells'⟩ := hcells.remNext_front
    exact ⟨h', list', hrun, rep_iff.mpr ⟨cs, hcells', rfl⟩⟩

/-- Nothing is taken off an empty list. -/
theorem queueDequeue_nil (hrep : Rep h list ([] : List D)) :
    queueDequeue h list = some (-1, none, h, list) := by
  have hsize : list.size = 0 := hrep.size_eq
  rw [queueDequeue, listRemNext, if_pos hsize]

/-- An enqueue puts the element behind the others, or fails and changes nothing. -/
theorem queueEnqueue_cases {alloc : Option Addr} {rc : Int} {h' : Heap D} {list' : CList}
    (hrep : Rep h list xs) (hfree : alloc.bind h = none)
    (hrun : queueEnqueue h list alloc x = some (rc, h', list')) :
    (alloc = none ∧ rc = -1 ∧ h' = h ∧ list' = list) ∨ (rc = 0 ∧ Rep h' list' (xs ++ [x])) := by
  cases alloc with
  | none =>
    rw [queueEnqueue, listInsNext_fails] at hrun
    cases hrun
    exact Or.inl ⟨rfl, rfl, rfl, rfl⟩
  | some new =>
    obtain ⟨h₁, list₁, heq, hrep₁⟩ := @queueEnqueue_rep _ _ _ _ x new hrep hfree
    rw [hrun] at heq
    cases heq
    exact Or.inr ⟨rfl, hrep₁⟩

/-- A dequeue takes the first element off, or finds none and changes nothing. -/
theorem queueDequeue_cases {rc : Int} {data : Option D} {h' : Heap D} {list' : CList}
    (hrep : Rep h list xs) (hrun : queueDequeue h list = some (rc, data, h', list')) :
    (xs = [] ∧ data = none ∧ h' = h ∧ list' = list) ∨
      ∃ x rest, xs = x :: rest ∧ data = some x ∧ Rep h' list' rest := by
  cases xs with
  | nil =>
    rw [queueDequeue_nil hrep] at hrun
    cases hrun
    exact Or.inl ⟨rfl, rfl, rfl, rfl⟩
  | cons x rest =>
    obtain ⟨h₁, list₁, heq, hrep₁⟩ := queueDequeue_rep hrep
    rw [hrun] at heq
    cases heq
    exact Or.inr ⟨x, rest, rfl, rfl, hrep₁⟩

end Gateway.Comm.LinkedList
