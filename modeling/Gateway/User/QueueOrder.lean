/-
  Gateway.User.QueueOrder

  What the semaphore, the queue and the dispatcher have to do with each other, in
  every interleaving.

  The queue holds the messages that were enqueued and not yet dequeued; the
  semaphore counts them, but for the one the dispatcher was woken up for and the
  one the UART thread has not posted yet (`Counted`).  So a woken dispatcher finds a
  message, and each client is written the messages in the order in which they were
  enqueued.  The order does not depend on the count: it is kept also when an
  allocation fails (`step_inv`).
-/

import Gateway.Lib.Transition
import Gateway.User.TransMsg

namespace Gateway.User.QueueOrder

open Gateway.Lib.NodeChain Gateway.Lib.Transition
open Gateway.Comm.LinkedList Gateway.User.TransMsg

/-! ## The invariant -/

/-- Enqueued, and not yet posted. -/
def unposted : UartPc → Nat
  | .unlock => 1
  | .post => 1
  | _ => 0

/-- Woken up, and not yet served by a dequeue. -/
def unserved : TransPc → Nat
  | .lock => 1
  | .dequeue => 1
  | _ => 0

/-- The dequeued message is in `coapMsg`. -/
def holdsMsg : TransPc → Prop
  | .unlock => True
  | .write _ => True
  | _ => False

/-- The dequeued message is still to be written to entry `i`. -/
def unwritten (i : Nat) : TransPc → Prop
  | .unlock => True
  | .write ptr => ptr ≤ i
  | _ => False

/-- The queue and the histories of the first `n` entries fit together. -/
structure QueueInv (n : Nat) (s : State) (q : List Msg) : Prop where
  rep : Rep s.heap s.coapMsgQ q
  order : s.enqueued = s.dispatched ++ q
  idle : 0 < n → ¬ holdsMsg s.trans → s.coapMsg = none
  before : ∀ i < n, unwritten i s.trans → s.dispatched = s.written i ++ s.coapMsg.toList
  behind : ∀ i < n, ¬ unwritten i s.trans → s.written i = s.dispatched

/-- The semaphore counts the messages of the queue. -/
def Counted (s : State) (q : List Msg) : Prop :=
  s.msgQSem + unserved s.trans + unposted s.uart = q.length

theorem queueInv_init (n : Nat) (mid : Nat → UInt16) (msgBuf : Nat → List UInt8) :
    QueueInv n (initState mid msgBuf) [] where
  rep := rep_listInit
  order := rfl
  idle := fun _ _ => rfl
  before := fun _ _ => False.elim
  behind := fun _ _ _ => rfl

section Steps

variable {n : Nat} {s s' : State} {q : List Msg}

theorem frameStep_inv {msg : Msg} (h : QueueInv n s q) (hs : frameStep s msg = some s') :
    QueueInv n s' q ∧ (Counted s q → Counted s' q) := by
  obtain ⟨hu, rfl⟩ := frameStep_cases hs
  unfold Counted
  rw [hu]
  exact ⟨⟨h.rep, h.order, h.idle, h.before, h.behind⟩, id⟩

/-- The UART thread only ever puts messages at the end of the queue. -/
theorem uartStep_inv {alloc : Option Addr} (h : QueueInv n s q)
    (hs : uartStep s alloc = some s') :
    ∃ q', QueueInv n s' q' ∧ (alloc ≠ none → Counted s q → Counted s' q') := by
  unfold Counted
  rcases uartStep_cases hs with ⟨msg, hu, -, rfl⟩ | ⟨msg, rc, heap, queue, hu, hfree, hq, rfl⟩ |
    ⟨hu, rfl⟩ | ⟨hu, rfl⟩
  · rw [hu]
    exact ⟨q, ⟨h.rep, h.order, h.idle, h.before, h.behind⟩, fun _ hc => hc⟩
  · rw [hu]
    rcases queueEnqueue_cases h.rep hfree hq with ⟨rfl, rfl, rfl, rfl⟩ | ⟨rfl, hrep⟩
    · exact ⟨q, ⟨h.rep, h.order, h.idle, h.before, h.behind⟩, fun hne => absurd rfl hne⟩
    · refine ⟨q ++ [msg], ⟨hrep, ?_, h.idle, h.before, h.behind⟩, fun _ hc => ?_⟩
      · show s.enqueued ++ [msg] = _
        rw [h.order, List.append_assoc]
      · -- the message is in the queue, and its post is still to come
        rw [List.length_append, ← hc]
        rfl
  · rw [hu]
    exact ⟨q, ⟨h.rep, h.order, h.idle, h.before, h.behind⟩, fun _ hc => hc⟩
  · rw [hu]
    refine ⟨q, ⟨h.rep, h.order, h.idle, h.before, h.behind⟩, fun _ hc => ?_⟩
    rw [← hc]
    simp only [unposted]
    omega

/-- A woken dispatcher finds a message. -/
theorem QueueInv.dequeues (h : QueueInv n s q) (hc : Counted s q) (hd : s.trans = .dequeue) :
    ∃ msg rest heap queue, q = msg :: rest ∧
      queueDequeue s.heap s.coapMsgQ = some (0, some msg, heap, queue) ∧ Rep heap queue rest := by
  unfold Counted at hc
  rw [hd] at hc
  cases q with
  | nil =>
    simp only [unserved, List.length_nil] at hc
    omega
  | cons msg rest =>
    obtain ⟨heap, queue, heq, hrep⟩ := queueDequeue_rep h.rep
    exact ⟨msg, rest, heap, queue, rfl, heq, hrep⟩

/-- A message is dequeued: it is dispatched, and now to be written to every entry. -/
theorem QueueInv.dequeue {msg : Msg} {rest : List Msg} {heap : Heap Msg} {queue : CList}
    (h : QueueInv n s (msg :: rest)) (hd : s.trans = .dequeue) (hrep : Rep heap queue rest) :
    QueueInv n { s with
      heap := heap, coapMsgQ := queue, trans := .unlock, coapMsg := some msg,
      dispatched := s.dispatched ++ [msg] } rest where
  rep := hrep
  order := by
    show s.enqueued = s.dispatched ++ [msg] ++ rest
    rw [h.order, List.append_assoc]
    rfl
  idle := fun _ hno => absurd trivial hno
  before := fun i hi _ => by
    show s.dispatched ++ [msg] = s.written i ++ [msg]
    rw [h.behind i hi (by rw [hd]; exact id)]
  behind := fun i hi hno => absurd trivial hno

/-- Only without the count: nothing is dequeued, and `coapMsg` stays NULL. -/
theorem QueueInv.dequeue_nothing (h : QueueInv n s []) (hd : s.trans = .dequeue) :
    QueueInv n { s with trans := .unlock, dispatched := s.dispatched ++ [] } [] where
  rep := h.rep
  order := by
    show s.enqueued = s.dispatched ++ [] ++ []
    rw [h.order, List.append_nil, List.append_nil]
  idle := fun _ hno => absurd trivial hno
  before := fun i hi _ => by
    show s.dispatched ++ [] = s.written i ++ s.coapMsg.toList
    rw [h.idle (Nat.zero_lt_of_lt hi) (by rw [hd]; exact id), h.behind i hi (by rw [hd]; exact id)]
    rfl
  behind := fun i hi hno => absurd trivial hno

/-- The message is written to the entry that is next in turn. -/
theorem QueueInv.write {ptr : Nat} {msg : Msg} {fifo : Nat → List UInt8} (h : QueueInv n s q)
    (hd : s.trans = .write ptr) (hmsg : s.coapMsg = some msg) :
    QueueInv n { s with
      fifo := fifo, written := Function.update s.written ptr (s.written ptr ++ [msg]),
      trans := .write (ptr + 1) } q where
  rep := h.rep
  order := h.order
  idle := fun _ hno => absurd trivial hno
  before := fun i hi hun => by
    -- the entries behind `ptr` still wait
    have hun' : ptr + 1 ≤ i := hun
    show s.dispatched = Function.update s.written ptr (s.written ptr ++ [msg]) i
      ++ s.coapMsg.toList
    rw [Function.update_of_ne (by omega)]
    exact h.before i hi (by rw [hd]; show ptr ≤ i; omega)
  behind := fun i hi hno => by
    have hno' : ¬ ptr + 1 ≤ i := hno
    show Function.update s.written ptr (s.written ptr ++ [msg]) i = s.dispatched
    by_cases hi' : i = ptr
    · subst hi'
      rw [Function.update_self, h.before i hi (by rw [hd]; exact Nat.le_refl i), hmsg]
      rfl
    · rw [Function.update_of_ne hi']
      exact h.behind i hi (by rw [hd]; show ¬ ptr ≤ i; omega)

/-- The dispatcher takes messages off the front, and brings each to the entries in turn. -/
theorem transMsgStep_inv {iplist : List CoapIP} (h : QueueInv iplist.length s q)
    (hs : transMsgStep iplist s = some s') :
    ∃ q', QueueInv iplist.length s' q' ∧ (Counted s q → Counted s' q') := by
  have hidle := h.idle
  have hbefore := h.before
  have hbehind := h.behind
  unfold Counted
  rcases transMsgStep_cases hs with ⟨hd, hsem, rfl⟩ | ⟨hd, -, rfl⟩ |
    ⟨rc, data, heap, queue, hd, hq, rfl⟩ | ⟨hd, rfl⟩ | ⟨ptr, msg, hd, -, hmsg, rfl⟩ |
    ⟨ptr, hd, hptr, rfl⟩ <;> rw [hd] at hidle hbefore hbehind ⊢
  · -- the semaphore gives up what the dispatcher now is to be served
    refine ⟨q, ⟨h.rep, h.order, hidle, hbefore, hbehind⟩, fun hc => ?_⟩
    rw [← hc]
    simp only [unserved]
    omega
  · exact ⟨q, ⟨h.rep, h.order, hidle, hbefore, hbehind⟩, id⟩
  · rcases queueDequeue_cases h.rep hq with ⟨rfl, rfl, rfl, rfl⟩ | ⟨msg, rest, rfl, rfl, hrep⟩
    · refine ⟨[], h.dequeue_nothing hd, fun hc => ?_⟩
      simp only [unserved, List.length_nil] at hc
      omega
    · refine ⟨rest, h.dequeue hd hrep, fun hc => ?_⟩
      rw [List.length_cons] at hc
      simp only [unserved] at hc ⊢
      omega
  · by_cases hn : iplist.length > 0
    · simp only [if_pos hn]
      exact ⟨q, ⟨h.rep, h.order, fun _ hno => absurd trivial hno,
        fun i hi _ => hbefore i hi trivial, fun i hi hno => absurd (Nat.zero_le i) hno⟩, id⟩
    · -- no entries, so nothing is said about any
      simp only [if_neg hn]
      exact ⟨q, ⟨h.rep, h.order, fun hpos => absurd hpos hn, fun i hi => absurd hi (by omega),
        fun i hi => absurd hi (by omega)⟩, id⟩
  · exact ⟨q, h.write hd hmsg, id⟩
  · -- every entry was written to
    exact ⟨q, ⟨h.rep, h.order, fun _ _ => rfl, fun i hi => False.elim,
      fun i hi _ => hbehind i hi (show ¬ ptr ≤ i by omega)⟩, id⟩

theorem clientStep_inv {iplist : List CoapIP} {i k : Nat} {token : UInt64} (h : QueueInv n s q)
    (hs : clientStep iplist s i k token = some s') :
    QueueInv n s' q ∧ (Counted s q → Counted s' q) := by
  obtain ⟨entry, pdu, -, -, -, rfl⟩ := clientStep_cases hs
  exact ⟨⟨h.rep, h.order, h.idle, h.before, h.behind⟩, id⟩

/-- An allocation that succeeds. -/
def Allocates : Act → Prop
  | .uart alloc => alloc ≠ none
  | _ => True

/-- Every step keeps the invariant, and keeps the count unless an allocation fails. -/
theorem step_inv {iplist : List CoapIP} {a : Act} (h : QueueInv iplist.length s q)
    (hs : step iplist s a = some s') :
    ∃ q', QueueInv iplist.length s' q' ∧ (Allocates a → Counted s q → Counted s' q') := by
  cases a with
  | frame msg =>
    obtain ⟨hinv, hc⟩ := frameStep_inv h hs
    exact ⟨q, hinv, fun _ => hc⟩
  | uart alloc => exact uartStep_inv h hs
  | transMsg =>
    obtain ⟨q', hinv, hc⟩ := transMsgStep_inv h hs
    exact ⟨q', hinv, fun _ => hc⟩
  | client i k token =>
    obtain ⟨hinv, hc⟩ := clientStep_inv h hs
    exact ⟨q, hinv, fun _ => hc⟩

end Steps

/-! ## Runs -/

section Runs

variable {iplist : List CoapIP} {mid : Nat → UInt16} {msgBuf : Nat → List UInt8} {s : State}

theorem reachable_inv
    (h : Reachable (step iplist) (fun _ => Allocates) (initState mid msgBuf) s) :
    ∃ q, QueueInv iplist.length s q ∧ Counted s q := by
  refine @Reachable.invariant _ _ _ _ _ _ (fun s => ∃ q, QueueInv iplist.length s q ∧ Counted s q)
    h ⟨[], queueInv_init _ mid msgBuf, rfl⟩ fun s a s' hinv ha hs => ?_
  obtain ⟨q, hq, hc⟩ := hinv
  obtain ⟨q', hq', hc'⟩ := step_inv hq hs
  exact ⟨q', hq', hc' ha hc⟩

/-- The messages written to an entry are the first ones that were dispatched. -/
theorem QueueInv.written_isPrefix {n : Nat} {q : List Msg} (h : QueueInv n s q) {i : Nat}
    (hi : i < n) : s.written i <+: s.dispatched := by
  by_cases hun : unwritten i s.trans
  · rw [h.before i hi hun]
    exact List.prefix_append _ _
  · exact h.behind i hi hun ▸ List.prefix_rfl

/-- In every state that is reached with successful allocations: the semaphore and the wait that
    is not served yet are covered by the queue, a dequeue returns 0, and each client was written
    a prefix of the messages that were enqueued. -/
theorem reachable_queueOrder
    (h : Reachable (step iplist) (fun _ => Allocates) (initState mid msgBuf) s) :
    (∃ q, Rep s.heap s.coapMsgQ q ∧ s.msgQSem + unserved s.trans ≤ q.length) ∧
      (s.trans = .dequeue → ∃ msg heap queue,
        queueDequeue s.heap s.coapMsgQ = some (0, some msg, heap, queue)) ∧
      ∀ i < iplist.length, s.written i <+: s.enqueued := by
  obtain ⟨q, hq, hc⟩ := reachable_inv h
  refine ⟨⟨q, hq.rep, ?_⟩, fun hd => ?_, fun i hi => ?_⟩
  · unfold Counted at hc
    omega
  · obtain ⟨msg, rest, heap, queue, -, heq, -⟩ := hq.dequeues hc hd
    exact ⟨msg, heap, queue, heq⟩
  · rw [hq.order]
    exact (hq.written_isPrefix hi).trans (List.prefix_append _ _)

end Runs

/-- Two frames arrive, and the first one is dispatched to two clients. -/
def twoFrames : List Act :=
  [.frame [0x24, 0x31, 0x26], .uart (some 1), .uart (some 1), .uart (some 1), .uart (some 1),
    .transMsg, .frame [0x24, 0x26], .transMsg, .transMsg, .transMsg, .uart (some 2), .transMsg,
    .transMsg, .uart (some 2), .uart (some 2), .uart (some 2), .transMsg]

theorem reachable_queueOrder_twoFrames :
    ∃ s : State, s.msgQSem = 1 ∧ s.enqueued = [[0x24, 0x31, 0x26], [0x24, 0x26]] ∧
      s.written 1 = [[0x24, 0x31, 0x26]] ∧ s.written 1 <+: s.enqueued := by
  obtain ⟨s, hrun, hsem, henq, hwritten⟩ :
      ∃ s, exec (step [⟨[]⟩, ⟨[]⟩]) (initState (fun _ => 0) fun _ => []) twoFrames = some s ∧
        s.msgQSem = 1 ∧ s.enqueued = [[0x24, 0x31, 0x26], [0x24, 0x26]] ∧
        s.written 1 = [[0x24, 0x31, 0x26]] := ⟨_, rfl, rfl, rfl, rfl⟩
  have hreach : Reachable (step [⟨[]⟩, ⟨[]⟩]) (fun _ => Allocates)
      (initState (fun _ => 0) fun _ => []) s :=
    Reachable.init.exec (by simp [twoFrames, Allocates]) hrun
  exact ⟨s, hsem, henq, hwritten, (reachable_queueOrder hreach).2.2 1 (by decide)⟩

end Gateway.User.QueueOrder
