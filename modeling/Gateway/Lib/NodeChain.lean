/-
  Gateway.Lib.NodeChain

  Singly linked nodes in a heap.

  A heap maps addresses to nodes; an address without a node is free.  `Seg h p cs q`
  says that from pointer `p` on, the nodes at the addresses of `cs`, with their data,
  follow one another, and that the last one points to `q`.  The null pointer is
  `none`.  Writing to an address that is not on a segment leaves it as it is
  (`Seg.setNode`), and segments compose (`seg_append`).  `walk` is a loop over the
  nodes that reads their data.
-/

import Mathlib.Data.List.Basic

namespace Gateway.Lib.NodeChain

/-- An address of the heap. -/
abbrev Addr := Nat

/-- A node: its data and the pointer to the next node. -/
structure Node (D : Type) where
  data : D
  next : Option Addr

/-- The nodes that are allocated. -/
abbrev Heap (D : Type) := Addr → Option (Node D)

variable {D : Type}

/-- The heap with another node, or none, at `a`. -/
def setNode (h : Heap D) (a : Addr) (n : Option (Node D)) : Heap D :=
  fun b => if b = a then n else h b

@[simp] theorem setNode_self (h : Heap D) (a : Addr) (n : Option (Node D)) :
    setNode h a n a = n := if_pos rfl

theorem setNode_ne (h : Heap D) {a b : Addr} (n : Option (Node D)) (hne : b ≠ a) :
    setNode h a n b = h b := if_neg hne

/-- The nodes `cs` follow one another from `p` to `q`. -/
def Seg (h : Heap D) : Option Addr → List (Addr × D) → Option Addr → Prop
  | p, [], q => p = q
  | p, (a, x) :: cs, q => p = some a ∧ ∃ next, h a = some ⟨x, next⟩ ∧ Seg h next cs q

/-- The data that a loop over the nodes from `p` on reads, in at most `fuel` turns; `none` when
    it comes to an address without a node. -/
def walk : Nat → Heap D → Option Addr → Option (List D)
  | _, _, none => some []
  | 0, _, some _ => none
  | fuel + 1, h, some a => do
    let node ← h a
    let data ← walk fuel h node.next
    some (node.data :: data)

variable {h : Heap D} {p q : Option Addr} {cs ds : List (Addr × D)}

/-- A segment of two parts. -/
theorem seg_append : Seg h p (cs ++ ds) q ↔ ∃ r, Seg h p cs r ∧ Seg h r ds q := by
  induction cs generalizing p with
  | nil =>
    constructor
    · intro hds
      exact ⟨p, rfl, hds⟩
    · rintro ⟨r, rfl, hds⟩
      exact hds
  | cons c cs ih =>
    obtain ⟨a, x⟩ := c
    constructor
    · rintro ⟨rfl, next, hnode, hrest⟩
      obtain ⟨r, hcs, hds⟩ := ih.mp hrest
      exact ⟨r, ⟨rfl, next, hnode, hcs⟩, hds⟩
    · rintro ⟨r, ⟨rfl, next, hnode, hcs⟩, hds⟩
      exact ⟨rfl, next, hnode, ih.mpr ⟨r, hcs, hds⟩⟩

/-- A loop over a whole chain reads its data. -/
theorem Seg.walk_eq {fuel : Nat} (hseg : Seg h p cs none) (hfuel : cs.length ≤ fuel) :
    walk fuel h p = some (cs.map Prod.snd) := by
  induction cs generalizing fuel p with
  | nil =>
    obtain rfl : p = none := hseg
    cases fuel <;> rfl
  | cons c cs ih =>
    obtain ⟨a, x⟩ := c
    obtain ⟨rfl, next, hnode, hrest⟩ := hseg
    cases fuel with
    | zero => cases hfuel
    | succ fuel =>
      rw [walk, hnode]
      simp only [Option.bind_eq_bind, Option.bind_some, ih hrest (by simpa using hfuel)]
      rfl

/-- The nodes of a segment are allocated. -/
theorem Seg.allocated (hseg : Seg h p cs q) {a : Addr} (ha : a ∈ cs.map Prod.fst) :
    h a ≠ none := by
  induction cs generalizing p with
  | nil => exact absurd ha List.not_mem_nil
  | cons c cs ih =>
    obtain ⟨b, x⟩ := c
    obtain ⟨-, next, hnode, hrest⟩ := hseg
    rcases List.mem_cons.mp ha with rfl | ha
    · rw [hnode]
      exact Option.some_ne_none _
    · exact ih hrest ha

/-- A free address is on no segment. -/
theorem Seg.not_mem_of_free (hseg : Seg h p cs q) {a : Addr} (hfree : h a = none) :
    a ∉ cs.map Prod.fst := fun ha => hseg.allocated ha hfree

/-- Writing to an address off the segment. -/
theorem Seg.setNode {a : Addr} {n : Option (Node D)} (hseg : Seg h p cs q)
    (ha : a ∉ cs.map Prod.fst) : Seg (setNode h a n) p cs q := by
  induction cs generalizing p with
  | nil => exact hseg
  | cons c cs ih =>
    obtain ⟨b, x⟩ := c
    obtain ⟨hp, next, hnode, hrest⟩ := hseg
    rw [List.map_cons, List.mem_cons, not_or] at ha
    refine ⟨hp, next, ?_, ih hrest ha.2⟩
    rw [setNode_ne h n (Ne.symm ha.1)]
    exact hnode

end Gateway.Lib.NodeChain
