/-
  Gateway.User.Delivery

  Every message is delivered: what `Uart_ReadThread` took for a message comes to every
  client, whatever the order in which the threads and the clients take their steps.

  `work` bounds the steps that are left until nothing is to be done: the steps each
  message still needs, and a byte to read for every byte that is or will be in a FIFO.
  Every step of a thread or a client lowers it (`Quiet`: no new frame, and memory for the
  node), and unless all is done one of them is possible: a thread that waits for the
  mutex waits for a holder that can go on, a dispatcher that waits for the semaphore with
  messages in the queue has a post coming, and a FIFO with bytes in it has a client that
  can read.  So there is no deadlock and no lost wake-up.
-/

import Mathlib.Algebra.BigOperators.Group.Finset.Basic
import Mathlib.Algebra.Order.BigOperators.Group.Finset
import Gateway.Lib.Progress
import Gateway.User.FifoStream
import Gateway.User.MsgQMutex

namespace Gateway.User.Delivery

open Gateway.Lib.NodeChain Gateway.Lib.Transition Gateway.Lib.Progress
open Gateway.Comm.LinkedList Gateway.CoapClient.Request
open Gateway.User.TransMsg Gateway.User.QueueOrder Gateway.User.FifoStream
open Gateway.User.MsgQMutex

/-! ## Work -/

/-- A step of a thread or a client, with memory for the node. -/
def Quiet : Act → Prop
  | .frame _ => False
  | .uart alloc => alloc ≠ none
  | _ => True

/-- The writes of a message to `n` FIFOs, each with the bytes that are to be read then. -/
def writeWork (n : Nat) (msg : Msg) : Nat := n * (msg.length + 1)

/-- The wait, the lock, the dequeue, the unlock and the end of the writes come with it. -/
def messageWork (n : Nat) (msg : Msg) : Nat := writeWork n msg + 5

/-- What the UART thread has begun. -/
def uartWork (n : Nat) : UartPc → Nat
  | .read => 0
  | .lock msg => messageWork n msg + 4
  | .enqueue msg => messageWork n msg + 3
  | .unlock => 2
  | .post => 1

/-- The messages of the queue. -/
def queueWork (n : Nat) (s : State) : Nat :=
  ((s.enqueued.drop s.dispatched.length).map (messageWork n)).sum

/-- What the dispatcher has begun. -/
def transWork (n : Nat) (s : State) : Nat :=
  match s.trans with
  | .semWait => 2
  | .lock => 1
  | .dequeue => 0
  | .unlock => writeWork n (s.coapMsg.getD []) + 4
  | .write ptr => writeWork (n - ptr) (s.coapMsg.getD []) + 3

/-- The bytes that wait in the FIFOs. -/
def fifoWork (n : Nat) (fifo : Nat → List UInt8) : Nat := ∑ i ∈ Finset.range n, (fifo i).length

/-- A bound of the steps until nothing is to be done. -/
def work (n : Nat) (s : State) : Nat :=
  uartWork n s.uart + queueWork n s + transWork n s + fifoWork n s.fifo

theorem writeWork_succ (n : Nat) (msg : Msg) :
    writeWork (n + 1) msg = writeWork n msg + (msg.length + 1) := Nat.succ_mul n _

/-- One FIFO changes. -/
theorem fifoWork_update {n i : Nat} {fifo : Nat → List UInt8} {bytes : List UInt8} (hi : i < n) :
    fifoWork n (Function.update fifo i bytes) + (fifo i).length = fifoWork n fifo + bytes.length := by
  have hmem : i ∈ Finset.range n := Finset.mem_range.mpr hi
  have hrest : ∑ j ∈ (Finset.range n).erase i, (Function.update fifo i bytes j).length
      = ∑ j ∈ (Finset.range n).erase i, (fifo j).length := by
    apply Finset.sum_congr rfl
    intro j hj
    rw [Function.update_of_ne (Finset.ne_of_mem_erase hj)]
  have hnew := Finset.add_sum_erase (Finset.range n)
    (fun j => (Function.update fifo i bytes j).length) hmem
  have hold := Finset.add_sum_erase (Finset.range n) (fun j => (fifo j).length) hmem
  simp only [Function.update_self, hrest] at hnew
  unfold fifoWork
  omega

/-! ## The invariant -/

/-- There is memory left. -/
def HeapLeft (s : State) : Prop := ∃ bound, ∀ a, bound ≤ a → s.heap a = none

/-- What holds in every state that is reached with successful allocations. -/
structure Delivering (n : Nat) (s : State) : Prop where
  queue : ∃ q, QueueInv n s q ∧ Counted s q
  mutex : Exclusive s
  loaded : holdsMsg s.trans → s.coapMsg ≠ none
  memory : HeapLeft s

theorem delivering_init (n : Nat) (mid : Nat → UInt16) (msgBuf : Nat → List UInt8) :
    Delivering n (initState mid msgBuf) where
  queue := ⟨[], queueInv_init n mid msgBuf, rfl⟩
  mutex := exclusive_init mid msgBuf
  loaded := False.elim
  memory := ⟨0, fun _ _ => rfl⟩

section Steps

variable {n : Nat} {iplist : List CoapIP} {s s' : State}

/-- Where a dequeue leaves the dispatcher: with the oldest message of the queue. -/
theorem Delivering.dequeued (h : Delivering n s) (hd : s.trans = .dequeue) {rc : Int}
    {data : Option Msg} {heap : Heap Msg} {queue : CList}
    (hq : queueDequeue s.heap s.coapMsgQ = some (rc, data, heap, queue)) :
    ∃ msg rest, data = some msg ∧ s.enqueued = s.dispatched ++ msg :: rest := by
  obtain ⟨q, hinv, hc⟩ := h.queue
  obtain ⟨msg, rest, heap', queue', rfl, heq, -⟩ := hinv.dequeues hc hd
  rw [hq] at heq
  cases heq
  exact ⟨msg, rest, rfl, hinv.order⟩

theorem dequeue_heapLeft {q : List Msg} {rc : Int} {data : Option Msg} {heap : Heap Msg}
    {queue : CList} (hrep : Rep s.heap s.coapMsgQ q)
    (hq : queueDequeue s.heap s.coapMsgQ = some (rc, data, heap, queue)) (h : HeapLeft s) :
    ∃ bound, ∀ a, bound ≤ a → heap a = none := by
  obtain ⟨bound, hbound⟩ := h
  refine ⟨bound, fun a ha => ?_⟩
  obtain ⟨cs, hcells, -⟩ := rep_iff.mp hrep
  cases cs with
  | nil =>
    rw [queueDequeue, hcells.remNext_empty] at hq
    cases hq
    exact hbound a ha
  | cons c cs => exact hcells.remNext_front_free hq (Or.inl (hbound a ha))

theorem enqueue_heapLeft {alloc : Option Addr} {msg : Msg} {rc : Int} {heap : Heap Msg}
    {queue : CList} (hq : queueEnqueue s.heap s.coapMsgQ alloc msg = some (rc, heap, queue))
    (h : HeapLeft s) : ∃ bound, ∀ a, bound ≤ a → heap a = none := by
  obtain ⟨bound, hbound⟩ := h
  cases alloc with
  | none =>
    rw [queueEnqueue, listInsNext_fails] at hq
    cases hq
    exact ⟨bound, hbound⟩
  | some new =>
    refine ⟨max bound (new + 1), fun a ha => ?_⟩
    have hle : bound ≤ a := Nat.le_trans (Nat.le_max_left ..) ha
    have hlt : new < a := Nat.le_trans (Nat.le_max_right ..) ha
    exact insNext_tail_free hq (hbound a hle) (Nat.ne_of_gt hlt)

theorem uartStep_memory {alloc : Option Addr} (h : HeapLeft s)
    (hs : uartStep s alloc = some s') : HeapLeft s' := by
  rcases uartStep_cases hs with ⟨msg, -, -, rfl⟩ | ⟨msg, rc, heap, queue, -, -, hq, rfl⟩ |
    ⟨-, rfl⟩ | ⟨-, rfl⟩
  · exact h
  · exact enqueue_heapLeft hq h
  · exact h
  · exact h

theorem transMsgStep_delivering (h : Delivering n s) (hs : transMsgStep iplist s = some s') :
    (holdsMsg s'.trans → s'.coapMsg ≠ none) ∧ HeapLeft s' := by
  have hloaded := h.loaded
  obtain ⟨q, hinv, -⟩ := h.queue
  rcases transMsgStep_cases hs with ⟨-, -, rfl⟩ | ⟨-, -, rfl⟩ | ⟨rc, data, heap, queue, hd, hq, rfl⟩ |
    ⟨hd, rfl⟩ | ⟨ptr, msg, hd, -, hmsg, rfl⟩ | ⟨ptr, -, -, rfl⟩
  · exact ⟨False.elim, h.memory⟩
  · exact ⟨False.elim, h.memory⟩
  · obtain ⟨msg, rest, rfl, -⟩ := h.dequeued hd hq
    exact ⟨fun _ => Option.some_ne_none msg, dequeue_heapLeft hinv.rep hq h.memory⟩
  · rw [hd] at hloaded
    exact ⟨fun _ => hloaded trivial, h.memory⟩
  · refine ⟨fun _ => ?_, h.memory⟩
    show s.coapMsg ≠ none
    rw [hmsg]
    exact Option.some_ne_none msg
  · exact ⟨False.elim, h.memory⟩

/-- Every step whose allocation succeeds keeps the invariant. -/
theorem step_delivering {a : Act} (h : Delivering iplist.length s) (ha : Allocates a)
    (hs : step iplist s a = some s') : Delivering iplist.length s' := by
  obtain ⟨q, hinv, hc⟩ := h.queue
  obtain ⟨q', hinv', hc'⟩ := step_inv hinv hs
  refine ⟨⟨q', hinv', hc' ha hc⟩, step_exclusive h.mutex hs, ?_, ?_⟩
  · cases a with
    | frame msg =>
      obtain ⟨-, rfl⟩ := frameStep_cases hs
      exact h.loaded
    | uart alloc =>
      obtain ⟨-, -, -, -, htrans, hmsg, -⟩ := uartStep_frame hs
      rw [htrans, hmsg]
      exact h.loaded
    | transMsg => exact (transMsgStep_delivering h hs).1
    | client i k token =>
      obtain ⟨entry, pdu, -, -, -, rfl⟩ := clientStep_cases hs
      exact h.loaded
  · cases a with
    | frame msg =>
      obtain ⟨-, rfl⟩ := frameStep_cases hs
      exact h.memory
    | uart alloc => exact uartStep_memory h.memory hs
    | transMsg => exact (transMsgStep_delivering h hs).2
    | client i k token =>
      obtain ⟨entry, pdu, -, -, -, rfl⟩ := clientStep_cases hs
      exact h.memory

/-! ## Every step lowers the work -/

theorem uartStep_work {alloc : Option Addr} (h : Delivering n s) (halloc : alloc ≠ none)
    (hs : uartStep s alloc = some s') : work n s' < work n s := by
  obtain ⟨q, hinv, -⟩ := h.queue
  rcases uartStep_cases hs with ⟨msg, hu, -, rfl⟩ | ⟨msg, rc, heap, queue, hu, hfree, hq, rfl⟩ |
    ⟨hu, rfl⟩ | ⟨hu, rfl⟩
  · simp only [work, hu, uartWork, queueWork, transWork]
    omega
  · -- the message goes over into the queue
    rcases queueEnqueue_cases hinv.rep hfree hq with ⟨rfl, -⟩ | ⟨rfl, -⟩
    · exact absurd rfl halloc
    · have hlen : s.dispatched.length ≤ s.enqueued.length := by
        rw [hinv.order, List.length_append]
        exact Nat.le_add_right _ _
      have hqueue : ((s.enqueued ++ [msg]).drop s.dispatched.length).map (messageWork n)
          = (s.enqueued.drop s.dispatched.length).map (messageWork n) ++ [messageWork n msg] := by
        rw [List.drop_append_of_le_length hlen, List.map_append]
        rfl
      simp only [work, hu, uartWork, queueWork, transWork, if_true, hqueue,
        List.sum_append, List.sum_singleton]
      omega
  · simp only [work, hu, uartWork, queueWork, transWork]
    omega
  · simp only [work, hu, uartWork, queueWork, transWork]
    omega

/-- The message that is dequeued is no longer in the queue. -/
theorem queueWork_dequeue {msg : Msg} {rest : List Msg} (hs : s.enqueued = s.dispatched ++ msg :: rest)
    (henq : s'.enqueued = s.enqueued) (hdisp : s'.dispatched = s.dispatched ++ [msg]) :
    queueWork n s = queueWork n s' + messageWork n msg := by
  have hdrop : s.enqueued.drop (s.dispatched ++ [msg]).length = rest := by
    have hsplit : s.enqueued = (s.dispatched ++ [msg]) ++ rest := by
      rw [hs, List.append_assoc]
      rfl
    rw [hsplit, List.drop_left]
  rw [queueWork, queueWork, henq, hdisp, hdrop, hs, List.drop_left, List.map_cons, List.sum_cons]
  omega

theorem transMsgStep_work (h : Delivering iplist.length s)
    (hs : transMsgStep iplist s = some s') : work iplist.length s' < work iplist.length s := by
  rcases transMsgStep_cases hs with ⟨hd, -, rfl⟩ | ⟨hd, -, rfl⟩ |
    ⟨rc, data, heap, queue, hd, hq, rfl⟩ | ⟨hd, rfl⟩ | ⟨ptr, msg, hd, hptr, hmsg, rfl⟩ |
    ⟨ptr, hd, -, rfl⟩
  · simp only [work, transWork, hd, queueWork]
    omega
  · simp only [work, transWork, hd, queueWork]
    omega
  · obtain ⟨msg, rest, rfl, hsplit⟩ := h.dequeued hd hq
    have hqueue := @queueWork_dequeue iplist.length s
      { s with
        heap := heap, coapMsgQ := queue, trans := .unlock, coapMsg := some msg,
        dispatched := s.dispatched ++ [msg] } _ _ hsplit rfl rfl
    simp only [work, transWork, hd, Option.or, Option.toList, Option.getD, hqueue,
      messageWork]
    omega
  · -- with or without clients
    by_cases hn : iplist.length > 0
    · simp only [work, transWork, hd, queueWork, if_pos hn, Nat.sub_zero]
      omega
    · simp only [work, transWork, hd, queueWork, if_neg hn]
      omega
  · -- the bytes that are written are paid for by the write
    obtain ⟨m, hm⟩ : ∃ m, iplist.length - ptr = m + 1 := ⟨iplist.length - ptr - 1, by omega⟩
    have hm' : iplist.length - (ptr + 1) = m := by omega
    have hfifo := @fifoWork_update iplist.length ptr s.fifo (s.fifo ptr ++ msg) hptr
    rw [List.length_append] at hfifo
    simp only [work, transWork, hd, hmsg, Option.getD, queueWork, hm, hm', writeWork_succ]
    omega
  · simp only [work, transWork, hd, queueWork]
    omega

theorem clientStep_work {i k : Nat} {token : UInt64}
    (hs : clientStep iplist s i k token = some s') : work iplist.length s' < work iplist.length s := by
  obtain ⟨entry, pdu, hentry, ⟨hpos, -, hk⟩, -, rfl⟩ := clientStep_cases hs
  have hi : i < iplist.length := (List.getElem?_eq_some_iff.mp hentry).1
  have hfifo := @fifoWork_update iplist.length i s.fifo ((s.fifo i).drop k) hi
  rw [List.length_drop] at hfifo
  simp only [work, transWork, queueWork]
  omega

/-! ## Nobody waits in vain -/

/-- Nothing is left to do. -/
def Idle (n : Nat) (s : State) : Prop :=
  s.uart = .read ∧ s.trans = .semWait ∧ s.msgQSem = 0 ∧ ∀ i < n, s.fifo i = []

/-- The dispatcher behind its wait can go on, or waits for the UART thread. -/
theorem Delivering.trans_enabled (h : Delivering iplist.length s) (hd : s.trans ≠ .semWait)
    (hu : ¬ uartHolds s.uart) : ∃ s', transMsgStep iplist s = some s' := by
  obtain ⟨q, hinv, -⟩ := h.queue
  cases htrans : s.trans with
  | semWait => exact absurd htrans hd
  | lock =>
    have hfree : s.msgQMutex = none := by
      apply h.mutex.free hu
      rw [htrans]
      exact id
    rw [transMsgStep, htrans]
    simp only [hfree, if_true]
    exact ⟨_, rfl⟩
  | dequeue =>
    apply transMsg_enabled hinv
    rw [htrans]
    trivial
  | unlock =>
    apply transMsg_enabled hinv
    rw [htrans]
    trivial
  | write ptr =>
    have hloaded := h.loaded
    rw [htrans] at hloaded
    obtain ⟨msg, hmsg⟩ := Option.ne_none_iff_exists'.mp (hloaded trivial)
    rw [transMsgStep, htrans]
    simp only [hmsg]
    split
    · exact ⟨_, rfl⟩
    · exact ⟨_, rfl⟩

/-- The UART thread behind its read can go on, or waits for the dispatcher. -/
theorem Delivering.uart_enabled (h : Delivering n s) (hu : s.uart ≠ .read)
    (hd : ¬ transHolds s.trans) : ∃ alloc s', alloc ≠ none ∧ uartStep s alloc = some s' := by
  obtain ⟨q, hinv, -⟩ := h.queue
  obtain ⟨bound, hbound⟩ := h.memory
  have hfree : s.heap bound = none := hbound bound (Nat.le_refl bound)
  refine ⟨some bound, ?_⟩
  cases huart : s.uart with
  | read => exact absurd huart hu
  | lock msg =>
    have hmutex : s.msgQMutex = none := by
      refine h.mutex.free ?_ hd
      rw [huart]
      exact id
    rw [uartStep, huart]
    simp only [hmutex, if_true]
    exact ⟨_, Option.some_ne_none bound, rfl⟩
  | enqueue msg =>
    obtain ⟨heap, queue, heq, -⟩ := @queueEnqueue_rep _ _ _ _ msg bound hinv.rep hfree
    rw [uartStep, huart]
    simp only [Option.bind_some, hfree, Option.isSome_none, Bool.false_eq_true, if_false, heq]
    exact ⟨_, Option.some_ne_none bound, rfl⟩
  | unlock =>
    rw [uartStep, huart]
    exact ⟨_, Option.some_ne_none bound, rfl⟩
  | post =>
    rw [uartStep, huart]
    exact ⟨_, Option.some_ne_none bound, rfl⟩

end Steps

section Runs

variable {paths : List (List UInt8)} {s s' : State} {mid : Nat → UInt16}
  {msgBuf : Nat → List UInt8} {as : List Act}

/-- As long as something is left to do somebody can do it. -/
theorem Delivering.enabled (hpaths : ∀ path ∈ paths, path.length ≤ 127 ∧ 0 ∉ path)
    (h : Delivering (entries paths).length s) (hbusy : ¬ Idle (entries paths).length s) :
    ∃ a s', Quiet a ∧ step (entries paths) s a = some s' := by
  by_cases htrans : transHolds s.trans
  · obtain ⟨q, hinv, -⟩ := h.queue
    obtain ⟨s', hs'⟩ := @transMsg_enabled (entries paths) _ _ _ hinv htrans
    exact ⟨.transMsg, s', trivial, hs'⟩
  by_cases hu : s.uart = .read
  · by_cases hd : s.trans = .semWait
    · by_cases hsem : 0 < s.msgQSem
      · refine ⟨.transMsg, { s with msgQSem := s.msgQSem - 1, trans := .lock }, trivial, ?_⟩
        rw [step, transMsgStep, hd]
        simp only [hsem, if_true]
      · -- both threads wait, so a client has something to read
        obtain ⟨i, hi, hne⟩ : ∃ i, i < (entries paths).length ∧ s.fifo i ≠ [] := by
          by_contra hnone
          refine hbusy ⟨hu, hd, by omega, fun i hi => ?_⟩
          by_contra hne
          exact hnone ⟨i, hi, hne⟩
        have hlt : i < paths.length := by
          rwa [entries, List.length_map] at hi
        have hpath : paths[i]? = some paths[i] := List.getElem?_eq_getElem hlt
        obtain ⟨hle, hnul⟩ := hpaths paths[i] (List.getElem_mem hlt)
        have hpos : 0 < (s.fifo i).length := List.length_pos_iff.mpr hne
        have hmax : 0 < msgBufLen := Nat.zero_lt_succ _
        obtain ⟨s', hs'⟩ := @clientStep_enabled paths paths[i] i s (min (s.fifo i).length msgBufLen)
          0 hpath hle hnul (by omega) (by omega) (by omega)
        exact ⟨.client i (min (s.fifo i).length msgBufLen) 0, s', trivial, hs'⟩
    · have hholds : ¬ uartHolds s.uart := by
        rw [hu]
        exact id
      obtain ⟨s', hs'⟩ := h.trans_enabled hd hholds
      exact ⟨.transMsg, s', trivial, hs'⟩
  · obtain ⟨alloc, s', halloc, hs'⟩ := h.uart_enabled hu htrans
    exact ⟨.uart alloc, s', halloc, hs'⟩

/-- The message that the UART thread is about to enqueue. -/
def pending : UartPc → List Msg
  | .lock msg => [msg]
  | .enqueue msg => [msg]
  | _ => []

/-- The steps of the threads and clients, from a state with these messages. -/
theorem terminating (hpaths : ∀ path ∈ paths, path.length ≤ 127 ∧ 0 ∉ path) (msgs : List Msg) :
    Terminating (step (entries paths))
      (fun s => Delivering (entries paths).length s ∧ s.enqueued ++ pending s.uart = msgs)
      (fun _ => Quiet) (Idle (entries paths).length) (work (entries paths).length) where
  keeps := by
    rintro s a s' ⟨hinv, hmsgs⟩ ha hs
    have halloc : Allocates a := by
      cases a with
      | uart alloc => exact ha
      | _ => trivial
    refine ⟨step_delivering hinv halloc hs, ?_⟩
    rw [← hmsgs]
    cases a with
    | frame msg => exact ha.elim
    | uart alloc =>
      obtain ⟨q, hq, -⟩ := hinv.queue
      rcases uartStep_cases hs with ⟨msg, hu, -, rfl⟩ | ⟨msg, rc, heap, queue, hu, hfree, heq, rfl⟩ |
        ⟨hu, rfl⟩ | ⟨hu, rfl⟩
      · rw [hu]
        rfl
      · rcases queueEnqueue_cases hq.rep hfree heq with ⟨rfl, -⟩ | ⟨rfl, -⟩
        · exact absurd rfl ha
        · rw [hu]
          exact List.append_nil _
      · rw [hu]
        rfl
      · rw [hu]
        rfl
    | transMsg =>
      obtain ⟨-, henq, hu, -⟩ := transMsgStep_frame hs
      rw [henq, hu]
    | client i k token =>
      obtain ⟨entry, pdu, -, -, -, rfl⟩ := clientStep_cases hs
      rfl
  lowers := by
    rintro s a s' ⟨hinv, -⟩ ha hs
    cases a with
    | frame msg => exact ha.elim
    | uart alloc => exact uartStep_work hinv ha hs
    | transMsg => exact transMsgStep_work hinv hs
    | client i k token => exact clientStep_work hs
  enabled := fun s hinv hbusy => hinv.1.enabled hpaths hbusy

/-- From `s` on everything was delivered: the messages that were enqueued, and the one that the
    UART thread was about to enqueue, were written to every client, which read all of it. -/
structure Delivered (n : Nat) (s s' : State) : Prop where
  enqueued : s'.enqueued = s.enqueued ++ pending s.uart
  dispatched : s'.dispatched = s'.enqueued
  written : ∀ i < n, s'.written i = s'.enqueued
  read : ∀ i < n, s'.fifo i = []

/-- When nothing is left to do, all messages were written. -/
theorem Delivering.delivered {n : Nat} (h : Delivering n s') (hidle : Idle n s')
    (hmsgs : s'.enqueued ++ pending s'.uart = s.enqueued ++ pending s.uart) : Delivered n s s' := by
  obtain ⟨hu, hd, hsem, hfifo⟩ := hidle
  obtain ⟨q, hinv, hc⟩ := h.queue
  have hq : q = [] := by
    rw [Counted, hu, hd, hsem] at hc
    exact List.eq_nil_of_length_eq_zero hc.symm
  have hdisp : s'.dispatched = s'.enqueued := by
    rw [hinv.order, hq, List.append_nil]
  refine ⟨?_, hdisp, fun i hi => ?_, hfifo⟩
  · rw [← hmsgs, hu]
    exact (List.append_nil _).symm
  · rw [← hdisp]
    apply hinv.behind i hi
    rw [hd]
    exact id

theorem reachable_delivering
    (h : Reachable (step (entries paths)) (fun _ => Allocates) (initState mid msgBuf) s) :
    Delivering (entries paths).length s :=
  h.invariant (delivering_init _ mid msgBuf) fun _ _ _ hinv ha hs => step_delivering hinv ha hs

/-- From every state that is reached with successful allocations, and in whatever order the
    threads and the clients then take their steps: a run without new frames has at most `work`
    steps, when none of them can go on every message has come to every client, and there is
    always a way to get there. -/
theorem delivery_completes (hpaths : ∀ path ∈ paths, path.length ≤ 127 ∧ 0 ∉ path)
    (h : Reachable (step (entries paths)) (fun _ => Allocates) (initState mid msgBuf) s) :
    (∀ as s', AllSteps (step (entries paths)) (fun _ => Quiet) s as →
      exec (step (entries paths)) s as = some s' →
        as.length ≤ work (entries paths).length s ∧
        ((∀ a, Quiet a → step (entries paths) s' a = none) →
          Delivered (entries paths).length s s')) ∧
    ∃ as s', AllSteps (step (entries paths)) (fun _ => Quiet) s as ∧
      exec (step (entries paths)) s as = some s' ∧ Delivered (entries paths).length s s' := by
  have hterm := terminating hpaths (s.enqueued ++ pending s.uart)
  have hinv := reachable_delivering h
  constructor
  · intro as s' has hrun
    refine ⟨hterm.length_le ⟨hinv, rfl⟩ has hrun, fun hstuck => ?_⟩
    obtain ⟨⟨hinv', hmsgs⟩, -⟩ := hterm.run ⟨hinv, rfl⟩ has hrun
    exact hinv'.delivered (hterm.final_of_stuck ⟨hinv, rfl⟩ has hrun hstuck) hmsgs
  · obtain ⟨as, s', has, hrun, hidle⟩ := hterm.completes ⟨hinv, rfl⟩
    obtain ⟨⟨hinv', hmsgs⟩, -⟩ := hterm.run ⟨hinv, rfl⟩ has hrun
    exact ⟨as, s', has, hrun, hinv'.delivered hidle hmsgs⟩

end Runs

/-- Two frames for two clients: the first one is being enqueued when no more come in,
    and it comes to both. -/
theorem delivery_completes_one :
    ∃ as s', exec (step (entries [[0x61], [0x62]])) (initState (fun _ => 0) fun _ => []) as = some s' ∧
      s'.written 1 = [[0x24, 0x31, 0x26]] ∧ s'.fifo 1 = [] := by
  have hpaths : ∀ path ∈ [[0x61], [(0x62 : UInt8)]], path.length ≤ 127 ∧ (0 : UInt8) ∉ path := by
    decide
  obtain ⟨s, hrun, hmsgs⟩ :
      ∃ s, exec (step (entries [[0x61], [0x62]])) (initState (fun _ => 0) fun _ => [])
        [.frame [0x24, 0x31, 0x26]] = some s ∧ s.enqueued ++ pending s.uart = [[0x24, 0x31, 0x26]] :=
    ⟨_, rfl, rfl⟩
  have hreach : Reachable (step (entries [[0x61], [0x62]])) (fun _ => Allocates)
      (initState (fun _ => 0) fun _ => []) s :=
    Reachable.init.exec (fun a ha t => by rw [List.mem_singleton.mp ha]; trivial) hrun
  obtain ⟨as, s', -, hrest, hend⟩ := (delivery_completes hpaths hreach).2
  refine ⟨[.frame [0x24, 0x31, 0x26]] ++ as, s', ?_, ?_, hend.read 1 (by decide)⟩
  · rw [exec_append, hrun]
    exact hrest
  · rw [hend.written 1 (by decide), hend.enqueued, hmsgs]

end Gateway.User.Delivery
