/-
  Gateway.Lib.BlockTransfer

  The transfer of a file in numbered blocks.  For the receiver, blocks arrive in any
  order and any number of times; it takes the one with the next number, and the
  first block that is shorter than the block size ends the file.  Block numbers
  count modulo `modulus`.

  `receive` is what the receiver has after some blocks, `blocksOf` the blocks that
  a file is sent in, and `receive_blocksOf` says that the one undoes the other.

  `lockStep` is a sender that has one block under way: it sends the block again
  until it is acknowledged, and then the next one.  When it comes to its end, the
  receiver has the file (`lockStep_delivers`).
-/

import Mathlib.Data.List.Range
import Gateway.Lib.ByteWindow

namespace Gateway.Lib.BlockTransfer

open Gateway.Lib.ByteWindow

variable {α : Type}

/-! ## Sender and receiver -/

/-- A block with its number. -/
structure Block (α : Type) where
  num : Nat
  data : List α
  deriving DecidableEq, Repr

/-- What was received: the number of the last block taken, the data of the blocks taken, and
    whether the last of them ended the file. -/
structure Receiver (α : Type) where
  last : Nat
  data : List α
  done : Bool
  deriving DecidableEq, Repr

/-- Before the first block, whose number is one. -/
def Receiver.init : Receiver α := { last := 0, data := [], done := false }

/-- A block arrives. -/
def Receiver.accept (size modulus : Nat) (r : Receiver α) (b : Block α) : Receiver α :=
  if r.done = false ∧ b.num = (r.last + 1) % modulus then
    { last := b.num, data := r.data ++ b.data, done := decide (b.data.length < size) }
  else r

/-- What is received of these blocks. -/
def receive (size modulus : Nat) (blocks : List (Block α)) : Receiver α :=
  blocks.foldl (Receiver.accept size modulus) Receiver.init

/-- The block with index `k` of a file, counted from zero. -/
def blockAt (size modulus : Nat) (file : List α) (k : Nat) : Block α :=
  { num := (k + 1) % modulus, data := slice file (size * k) size }

/-- The blocks of a file.  A file whose length is a multiple of the block size ends with an
    empty block. -/
def blocksOf (size modulus : Nat) (file : List α) : List (Block α) :=
  (List.range (file.length / size + 1)).map (blockAt size modulus file)

section Receive

variable {size modulus : Nat}

/-! ## Single blocks -/

theorem accept_next {r : Receiver α} {b : Block α} (hdone : r.done = false)
    (hnum : b.num = (r.last + 1) % modulus) :
    r.accept size modulus b
      = { last := b.num, data := r.data ++ b.data, done := decide (b.data.length < size) } :=
  if_pos ⟨hdone, hnum⟩

/-- A duplicate or a stale block changes nothing. -/
theorem accept_stale {r : Receiver α} {b : Block α} (hnum : b.num ≠ (r.last + 1) % modulus) :
    r.accept size modulus b = r :=
  if_neg fun h => hnum h.2

@[simp] theorem receive_nil : receive size modulus ([] : List (Block α)) = Receiver.init := rfl

theorem receive_concat (blocks : List (Block α)) (b : Block α) :
    receive size modulus (blocks ++ [b]) = (receive size modulus blocks).accept size modulus b := by
  rw [receive, List.foldl_append, List.foldl_cons, List.foldl_nil, receive]

/-! ## Whole files -/

/-- The first `k` blocks of a file that are all full. -/
theorem receive_full_blocks (file : List α) (hsize : 0 < size) {k : Nat}
    (hk : size * k ≤ file.length) :
    receive size modulus ((List.range k).map (blockAt size modulus file))
      = { last := k % modulus, data := file.take (size * k), done := false } := by
  induction k with
  | zero => simp [receive, Receiver.init]
  | succ k ih =>
    have hlt : size * k + size ≤ file.length := by rwa [Nat.mul_succ] at hk
    have hdata : (blockAt size modulus file k).data.length = size := slice_length hlt
    rw [List.range_succ, List.map_append, List.map_singleton, receive_concat, ih (by omega),
      accept_next rfl (Nat.mod_add_mod k modulus 1).symm, hdata]
    -- the block is full, so it does not end the file
    have hmul : size * (k + 1) = size * k + size := Nat.mul_succ size k
    simp only [blockAt, slice, Nat.lt_irrefl, decide_false, hmul, List.take_add]

/-- The blocks of a file carry the file, and the last of them ends it. -/
theorem receive_blocksOf (file : List α) (hsize : 0 < size) :
    receive size modulus (blocksOf size modulus file)
      = { last := (file.length / size + 1) % modulus, data := file, done := true } := by
  have hfull : size * (file.length / size) ≤ file.length := Nat.mul_div_le file.length size
  have hrest : file.length < size * (file.length / size) + size :=
    Nat.lt_mul_div_succ file.length hsize
  have hlast : (blockAt size modulus file (file.length / size)).data
      = file.drop (size * (file.length / size)) := slice_to_end (Nat.le_of_lt hrest)
  rw [blocksOf, List.range_succ, List.map_append, List.map_singleton, receive_concat,
    receive_full_blocks file hsize hfull, accept_next rfl (Nat.mod_add_mod _ modulus 1).symm,
    hlast, List.take_append_drop, List.length_drop]
  rw [decide_eq_true (by omega : file.length - size * (file.length / size) < size)]
  rfl

/-- A block that is sent again is not taken again. -/
theorem accept_accept {r : Receiver α} {b : Block α} (hmodulus : 1 < modulus)
    (hnum : b.num < modulus) :
    (r.accept size modulus b).accept size modulus b = r.accept size modulus b := by
  by_cases h : r.done = false ∧ b.num = (r.last + 1) % modulus
  · rw [accept_next h.1 h.2]
    refine accept_stale fun hnext => ?_
    -- no number is its own successor
    have hne : b.num = (b.num + 1) % modulus := hnext
    rcases Nat.lt_or_ge (b.num + 1) modulus with hlt | hge
    · rw [Nat.mod_eq_of_lt hlt] at hne
      omega
    · obtain rfl : modulus = b.num + 1 := by omega
      rw [Nat.mod_self] at hne
      omega
  · have hstale : r.accept size modulus b = r := if_neg h
    rw [hstale, hstale]

end Receive

/-! ## Sending in lock-step -/

/-- What a sender does: it sends the block with index `k`, or it receives an answer. -/
inductive Move (ρ : Type) where
  | send (k : Nat)
  | recv (r : ρ)
  deriving DecidableEq, Repr

section LockStep

variable {ρ : Type}

/-- The sender from block `k` on, with the answers that come, and whether it comes to its end:
    `acks r k` says that the answer acknowledges block `k`, and `last` is the index of the last
    block. -/
def lockStep (acks : ρ → Nat → Bool) (last : Nat) : Nat → List ρ → List (Move ρ) × Bool
  | k, [] => ([.send k], false)
  | k, r :: rs =>
    if acks r k then
      if k = last then ([.send k, .recv r], true)
      else
        let (moves, done) := lockStep acks last (k + 1) rs
        (.send k :: .recv r :: moves, done)
    else
      let (moves, done) := lockStep acks last k rs
      (.send k :: .recv r :: moves, done)

/-- The indices of the blocks that are sent. -/
def sends (moves : List (Move ρ)) : List Nat :=
  moves.filterMap fun
    | .send k => some k
    | .recv _ => none

variable {size modulus : Nat} {acks : ρ → Nat → Bool}

/-- The sender sends its block and takes the answer. -/
theorem lockStep_cons_eq (acks : ρ → Nat → Bool) (last k : Nat) (r : ρ) (rs : List ρ) :
    ∃ moves, (lockStep acks last k (r :: rs)).1 = .send k :: .recv r :: moves := by
  rw [lockStep]
  split
  · split
    · exact ⟨[], rfl⟩
    · exact ⟨_, rfl⟩
  · exact ⟨_, rfl⟩

theorem lockStep_length_pos (acks : ρ → Nat → Bool) (last k : Nat) (rs : List ρ) :
    0 < (lockStep acks last k rs).1.length := by
  cases rs with
  | nil => exact Nat.zero_lt_one
  | cons r rs =>
    obtain ⟨moves, hmoves⟩ := lockStep_cons_eq acks last k r rs
    rw [hmoves]
    exact Nat.succ_pos _

/-- The sender at block `k`, and a receiver that has the blocks before it, or also this one. -/
theorem lockStep_accepts (file : List α) {last k : Nat} {rs : List ρ} {r : Receiver α}
    (hmodulus : 1 < modulus)
    (hr : r.accept size modulus (blockAt size modulus file k)
      = receive size modulus ((List.range (k + 1)).map (blockAt size modulus file)))
    (hdone : (lockStep acks last k rs).2 = true) :
    ((sends (lockStep acks last k rs).1).map (blockAt size modulus file)).foldl
        (Receiver.accept size modulus) r
      = receive size modulus ((List.range (last + 1)).map (blockAt size modulus file)) := by
  induction rs generalizing k r with
  | nil => cases hdone
  | cons a rs ih =>
    rw [lockStep] at hdone ⊢
    by_cases hack : acks a k = true
    · rw [if_pos hack] at hdone ⊢
      by_cases hlast : k = last
      · subst hlast
        rw [if_pos rfl]
        exact hr
      · -- the next block
        rw [if_neg hlast] at hdone ⊢
        refine ih ?_ hdone
        rw [hr, @List.range_succ (k + 1), List.map_append, List.map_singleton, receive_concat]
    · -- the same block again
      rw [if_neg hack] at hdone ⊢
      refine ih ?_ hdone
      rw [accept_accept hmodulus (Nat.mod_lt _ (by omega)), hr]

/-- A sender that comes to its end has delivered the file, whatever came in between. -/
theorem lockStep_delivers (file : List α) {rs : List ρ} (hsize : 0 < size) (hmodulus : 1 < modulus)
    (hdone : (lockStep acks (file.length / size) 0 rs).2 = true) :
    receive size modulus ((sends (lockStep acks (file.length / size) 0 rs).1).map
        (blockAt size modulus file))
      = { last := (file.length / size + 1) % modulus, data := file, done := true } := by
  have hrun := @lockStep_accepts _ _ size modulus _ file _ _ _ Receiver.init hmodulus rfl hdone
  exact hrun.trans (receive_blocksOf file hsize)

end LockStep

end Gateway.Lib.BlockTransfer
