/-
  Gateway.User.TransMsg

  The way of a message through the gateway: `Uart_ReadThread` (`uart/uart.c`)
  enqueues it and posts the semaphore, `TransMsgThread` (`user/main.c`) waits for
  the semaphore, dequeues it and writes it to the FIFO of every client, and the
  loop of `CoapClient` (`coapClient/coapClient.c`) reads its FIFO and builds a
  CoAP message from what it read.

  The threads and processes run interleaved: `step` is one step of one of them.
  A step that is not enabled, because the thread waits for the semaphore, for the
  mutex or for data, has no successor state.  A message stands for the string that
  the pointer in the queue points to.  A FIFO is a byte stream: `write` appends the
  message, and `read` takes some of what is there off the front.

  `written`, `enqueued` and `dispatched` are histories that no step looks at.
-/

import Mathlib.Logic.Function.Basic
import Gateway.Comm.LinkedList
import Gateway.CoapClient.Request

namespace Gateway.User.TransMsg

open Gateway.Lib.ByteWindow Gateway.Lib.NodeChain
open Gateway.Comm.LinkedList Gateway.CoapClient.Picocoap Gateway.CoapClient.Request

/-! ## State -/

/-- The bytes of a message, without its NUL. -/
abbrev Msg := List UInt8

/-- `coapIP`: what the dispatcher and the clients use of an entry of `iplist`. -/
structure CoapIP where
  path : List UInt8
  deriving DecidableEq, Repr

/-- The threads that lock `msgQ_mutex`. -/
inductive Thread where
  | uartRead
  | transMsg
  deriving DecidableEq, Repr

/-- Where `Uart_ReadThread` is, with `tmpMsg`. -/
inductive UartPc where
  | read
  | lock (tmpMsg : Msg)
  | enqueue (tmpMsg : Msg)
  | unlock
  | post
  deriving DecidableEq, Repr

/-- Where `TransMsgThread` is, with the index of the entry that `ptr` is at. -/
inductive TransPc where
  | semWait
  | lock
  | dequeue
  | unlock
  | write (ptr : Nat)
  deriving DecidableEq, Repr

/-- A client process: `message_id_counter`, `msg_buf` and the messages it built. -/
structure Client where
  messageIdCounter : UInt16
  msgBuf : List UInt8
  built : List CoapPdu

structure State where
  heap : Heap Msg
  coapMsgQ : CList
  msgQSem : Nat
  msgQMutex : Option Thread
  uart : UartPc
  trans : TransPc
  coapMsg : Option Msg
  fifo : Nat → List UInt8
  clients : Nat → Client
  written : Nat → List Msg
  enqueued : List Msg
  dispatched : List Msg

/-- The state after the start-up of `main`, with the clients at their first read. -/
def initState (mid : Nat → UInt16) (msgBuf : Nat → List UInt8) : State where
  heap := fun _ => none
  coapMsgQ := listInit
  msgQSem := 0
  msgQMutex := none
  uart := .read
  trans := .semWait
  coapMsg := none
  fifo := fun _ => []
  clients := fun i => { messageIdCounter := mid i, msgBuf := msgBuf i, built := [] }
  written := fun _ => []
  enqueued := []
  dispatched := []

/-! ## Steps -/

/-- A frame is complete in `uartRdBuf`, and `tmpMsg` is its copy. -/
def frameStep (s : State) (msg : Msg) : Option State :=
  match s.uart with
  | .read => some { s with uart := .lock msg }
  | _ => none

/-- A step of `Uart_ReadThread` behind that; `alloc` is what `malloc` returns in
    `list_ins_next`, an address that is free. -/
def uartStep (s : State) (alloc : Option Addr) : Option State :=
  match s.uart with
  | .read => none
  | .lock msg =>
    if s.msgQMutex = none then
      some { s with msgQMutex := some .uartRead, uart := .enqueue msg }
    else none
  | .enqueue msg =>
    if (alloc.bind s.heap).isSome then none else do
    let (rc, heap, queue) ← queueEnqueue s.heap s.coapMsgQ alloc msg
    some { s with
      heap := heap, coapMsgQ := queue, uart := .unlock,
      enqueued := if rc = 0 then s.enqueued ++ [msg] else s.enqueued }
  | .unlock => some { s with msgQMutex := none, uart := .post }
  | .post => some { s with msgQSem := s.msgQSem + 1, uart := .read }

/-- A step of `TransMsgThread`. -/
def transMsgStep (iplist : List CoapIP) (s : State) : Option State :=
  match s.trans with
  | .semWait => if 0 < s.msgQSem then some { s with msgQSem := s.msgQSem - 1, trans := .lock } else none
  | .lock =>
    if s.msgQMutex = none then
      some { s with msgQMutex := some .transMsg, trans := .dequeue }
    else none
  | .dequeue => do
    let (_, data, heap, queue) ← queueDequeue s.heap s.coapMsgQ
    -- when nothing is dequeued, `coapMsg` stays what it was
    some { s with
      heap := heap, coapMsgQ := queue, trans := .unlock, coapMsg := data.or s.coapMsg,
      dispatched := s.dispatched ++ data.toList }
  | .unlock =>
    some { s with msgQMutex := none, trans := if iplist.length > 0 then .write 0 else .semWait }
  | .write ptr =>
    if ptr < iplist.length then do
      let msg ← s.coapMsg
      some { s with
        fifo := Function.update s.fifo ptr (s.fifo ptr ++ msg),
        written := Function.update s.written ptr (s.written ptr ++ [msg]),
        trans := .write (ptr + 1) }
    else some { s with coapMsg := none, trans := .semWait }

/-- A turn of the loop of `CoapClient` of entry `i`: `read` returns `k` bytes of its FIFO, and
    `rand()` returns `token`. -/
def clientStep (iplist : List CoapIP) (s : State) (i k : Nat) (token : UInt64) : Option State := do
  let entry ← iplist[i]?
  if 0 < k ∧ k ≤ msgBufLen ∧ k ≤ (s.fifo i).length then do
    let client := s.clients i
    let msgBuf := splice client.msgBuf 0 ((s.fifo i).take k)
    let msgSend ← buildMessage entry.path msgBuf k client.messageIdCounter token
    some { s with
      fifo := Function.update s.fifo i ((s.fifo i).drop k),
      clients := Function.update s.clients i
        { messageIdCounter := client.messageIdCounter + 1, msgBuf := msgBuf,
          built := client.built ++ [msgSend] } }
  else none

/-- A frame is taken when the UART thread is in its read loop. -/
theorem frameStep_cases {s s' : State} {msg : Msg} (h : frameStep s msg = some s') :
    s.uart = .read ∧ s' = { s with uart := .lock msg } := by
  unfold frameStep at h
  cases hu : s.uart with
  | read =>
    rw [hu] at h
    exact ⟨rfl, (Option.some_inj.mp h).symm⟩
  | _ => rw [hu] at h; cases h

/-- What a step of the UART thread does. -/
theorem uartStep_cases {s s' : State} {alloc : Option Addr} (h : uartStep s alloc = some s') :
    (∃ msg, s.uart = .lock msg ∧ s.msgQMutex = none ∧
      s' = { s with msgQMutex := some .uartRead, uart := .enqueue msg }) ∨
    (∃ msg rc heap queue, s.uart = .enqueue msg ∧ alloc.bind s.heap = none ∧
      queueEnqueue s.heap s.coapMsgQ alloc msg = some (rc, heap, queue) ∧
      s' = { s with
        heap := heap, coapMsgQ := queue, uart := .unlock,
        enqueued := if rc = 0 then s.enqueued ++ [msg] else s.enqueued }) ∨
    (s.uart = .unlock ∧ s' = { s with msgQMutex := none, uart := .post }) ∨
    (s.uart = .post ∧ s' = { s with msgQSem := s.msgQSem + 1, uart := .read }) := by
  unfold uartStep at h
  cases hu : s.uart with
  | read => rw [hu] at h; cases h
  | lock msg =>
    rw [hu] at h
    simp only at h
    split at h
    · next hfree => exact Or.inl ⟨msg, rfl, hfree, (Option.some_inj.mp h).symm⟩
    · cases h
  | enqueue msg =>
    rw [hu] at h
    simp only at h
    split at h
    · cases h
    · next hnew =>
      obtain ⟨⟨rc, heap, queue⟩, hq, hs⟩ := Option.bind_eq_some_iff.mp h
      exact Or.inr (Or.inl ⟨msg, rc, heap, queue, rfl, Option.not_isSome_iff_eq_none.mp hnew, hq,
        (Option.some_inj.mp hs).symm⟩)
  | unlock =>
    rw [hu] at h
    exact Or.inr (Or.inr (Or.inl ⟨rfl, (Option.some_inj.mp h).symm⟩))
  | post =>
    rw [hu] at h
    exact Or.inr (Or.inr (Or.inr ⟨rfl, (Option.some_inj.mp h).symm⟩))

/-- What a step of the dispatcher does. -/
theorem transMsgStep_cases {iplist : List CoapIP} {s s' : State}
    (h : transMsgStep iplist s = some s') :
    (s.trans = .semWait ∧ 0 < s.msgQSem ∧
      s' = { s with msgQSem := s.msgQSem - 1, trans := .lock }) ∨
    (s.trans = .lock ∧ s.msgQMutex = none ∧
      s' = { s with msgQMutex := some .transMsg, trans := .dequeue }) ∨
    (∃ rc data heap queue, s.trans = .dequeue ∧
      queueDequeue s.heap s.coapMsgQ = some (rc, data, heap, queue) ∧
      s' = { s with
        heap := heap, coapMsgQ := queue, trans := .unlock, coapMsg := data.or s.coapMsg,
        dispatched := s.dispatched ++ data.toList }) ∨
    (s.trans = .unlock ∧
      s' = { s with
        msgQMutex := none, trans := if iplist.length > 0 then .write 0 else .semWait }) ∨
    (∃ ptr msg, s.trans = .write ptr ∧ ptr < iplist.length ∧ s.coapMsg = some msg ∧
      s' = { s with
        fifo := Function.update s.fifo ptr (s.fifo ptr ++ msg),
        written := Function.update s.written ptr (s.written ptr ++ [msg]),
        trans := .write (ptr + 1) }) ∨
    (∃ ptr, s.trans = .write ptr ∧ ¬ ptr < iplist.length ∧
      s' = { s with coapMsg := none, trans := .semWait }) := by
  unfold transMsgStep at h
  cases hd : s.trans with
  | semWait =>
    rw [hd] at h
    simp only at h
    split at h
    · next hsem => exact Or.inl ⟨rfl, hsem, (Option.some_inj.mp h).symm⟩
    · cases h
  | lock =>
    rw [hd] at h
    simp only at h
    split at h
    · next hfree => exact Or.inr (Or.inl ⟨rfl, hfree, (Option.some_inj.mp h).symm⟩)
    · cases h
  | dequeue =>
    rw [hd] at h
    obtain ⟨⟨rc, data, heap, queue⟩, hq, hs⟩ := Option.bind_eq_some_iff.mp h
    exact Or.inr (Or.inr (Or.inl ⟨rc, data, heap, queue, rfl, hq, (Option.some_inj.mp hs).symm⟩))
  | unlock =>
    rw [hd] at h
    exact Or.inr (Or.inr (Or.inr (Or.inl ⟨rfl, (Option.some_inj.mp h).symm⟩)))
  | write ptr =>
    rw [hd] at h
    simp only at h
    split at h
    · next hptr =>
      obtain ⟨msg, hmsg, hs⟩ := Option.bind_eq_some_iff.mp h
      exact Or.inr (Or.inr (Or.inr (Or.inr (Or.inl
        ⟨ptr, msg, rfl, hptr, hmsg, (Option.some_inj.mp hs).symm⟩))))
    · next hptr =>
      exact Or.inr (Or.inr (Or.inr (Or.inr (Or.inr
        ⟨ptr, rfl, hptr, (Option.some_inj.mp h).symm⟩))))

/-- What a step of the UART thread can change besides the queue, the semaphore and the mutex. -/
theorem uartStep_frame {s s' : State} {alloc : Option Addr} (h : uartStep s alloc = some s') :
    s'.clients = s.clients ∧ s'.fifo = s.fifo ∧ s'.written = s.written ∧
      s'.dispatched = s.dispatched ∧ s'.trans = s.trans ∧ s'.coapMsg = s.coapMsg ∧
      (s'.enqueued = s.enqueued ∨ ∃ msg, s.uart = .enqueue msg ∧ s'.enqueued = s.enqueued ++ [msg]) ∧
      (∀ msg, s'.uart = .lock msg ∨ s'.uart = .enqueue msg → s.uart = .lock msg) := by
  rcases uartStep_cases h with ⟨msg, hu, -, rfl⟩ | ⟨msg, rc, heap, queue, hu, -, -, rfl⟩ |
    ⟨-, rfl⟩ | ⟨-, rfl⟩
  · refine ⟨rfl, rfl, rfl, rfl, rfl, rfl, Or.inl rfl, fun m hm => ?_⟩
    rcases hm with hm | hm
    · cases hm
    · rw [hu, UartPc.enqueue.inj hm]
  · refine ⟨rfl, rfl, rfl, rfl, rfl, rfl, ?_, fun m hm => ?_⟩
    · by_cases hrc : rc = 0
      · exact Or.inr ⟨msg, hu, if_pos hrc⟩
      · exact Or.inl (if_neg hrc)
    · rcases hm with hm | hm <;> cases hm
  · exact ⟨rfl, rfl, rfl, rfl, rfl, rfl, Or.inl rfl, fun m hm => by rcases hm with hm | hm <;> cases hm⟩
  · exact ⟨rfl, rfl, rfl, rfl, rfl, rfl, Or.inl rfl, fun m hm => by rcases hm with hm | hm <;> cases hm⟩

/-- What a step of the dispatcher can change of the clients' side: one message behind one FIFO. -/
theorem transMsgStep_frame {iplist : List CoapIP} {s s' : State}
    (h : transMsgStep iplist s = some s') :
    s'.clients = s.clients ∧ s'.enqueued = s.enqueued ∧ s'.uart = s.uart ∧
      (s'.fifo = s.fifo ∧ s'.written = s.written ∨
        ∃ ptr msg, s.trans = .write ptr ∧ ptr < iplist.length ∧
          s'.fifo = Function.update s.fifo ptr (s.fifo ptr ++ msg) ∧
          s'.written = Function.update s.written ptr (s.written ptr ++ [msg])) := by
  rcases transMsgStep_cases h with ⟨-, -, rfl⟩ | ⟨-, -, rfl⟩ | ⟨rc, data, heap, queue, -, -, rfl⟩ |
    ⟨-, rfl⟩ | ⟨ptr, msg, hd, hptr, -, rfl⟩ | ⟨ptr, -, -, rfl⟩
  · exact ⟨rfl, rfl, rfl, Or.inl ⟨rfl, rfl⟩⟩
  · exact ⟨rfl, rfl, rfl, Or.inl ⟨rfl, rfl⟩⟩
  · exact ⟨rfl, rfl, rfl, Or.inl ⟨rfl, rfl⟩⟩
  · exact ⟨rfl, rfl, rfl, Or.inl ⟨rfl, rfl⟩⟩
  · exact ⟨rfl, rfl, rfl, Or.inr ⟨ptr, msg, hd, hptr, rfl, rfl⟩⟩
  · exact ⟨rfl, rfl, rfl, Or.inl ⟨rfl, rfl⟩⟩

/-- What a turn of a client does. -/
theorem clientStep_cases {iplist : List CoapIP} {s s' : State} {i k : Nat} {token : UInt64}
    (h : clientStep iplist s i k token = some s') :
    ∃ entry msgSend, iplist[i]? = some entry ∧ (0 < k ∧ k ≤ msgBufLen ∧ k ≤ (s.fifo i).length) ∧
      buildMessage entry.path (splice (s.clients i).msgBuf 0 ((s.fifo i).take k)) k
        (s.clients i).messageIdCounter token = some msgSend ∧
      s' = { s with
        fifo := Function.update s.fifo i ((s.fifo i).drop k),
        clients := Function.update s.clients i
          { messageIdCounter := (s.clients i).messageIdCounter + 1,
            msgBuf := splice (s.clients i).msgBuf 0 ((s.fifo i).take k),
            built := (s.clients i).built ++ [msgSend] } } := by
  unfold clientStep at h
  cases hentry : iplist[i]? with
  | none => rw [hentry] at h; cases h
  | some entry =>
    rw [hentry] at h
    simp only [Option.bind_eq_bind, Option.bind_some] at h
    split at h
    · next hk =>
      obtain ⟨msgSend, hbuild, hs'⟩ := Option.bind_eq_some_iff.mp h
      exact ⟨entry, msgSend, rfl, hk, hbuild, (Option.some_inj.mp hs').symm⟩
    · cases h

/-- Which thread or process takes a step, with what its calls return. -/
inductive Act where
  | frame (msg : Msg)
  | uart (alloc : Option Addr)
  | transMsg
  | client (i k : Nat) (token : UInt64)
  deriving DecidableEq, Repr

/-- A step of the gateway. -/
def step (iplist : List CoapIP) (s : State) : Act → Option State
  | .frame msg => frameStep s msg
  | .uart alloc => uartStep s alloc
  | .transMsg => transMsgStep iplist s
  | .client i k token => clientStep iplist s i k token

end Gateway.User.TransMsg
