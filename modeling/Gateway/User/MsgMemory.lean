/-
  Gateway.User.MsgMemory

  The memory of the messages between `Uart_ReadThread` (`uart/uart.c`) and
  `TransMsgThread` (`user/main.c`): which pointers are enqueued, taken, written and
  freed.

  A message is the block that `malloc` returned for it, named by its number, so two
  messages are never the same one.  The threads run interleaved, `malloc` fails for
  any of the nodes of the queue, and the size of `iplist` at each test is an argument
  of the step.  The dispatcher looks neither at the result of `queue_dequeue` nor, with
  an empty `iplist`, at the message it took.  So all goes well exactly in the runs in
  which a turn finds entries in `iplist` just when it has taken a message
  (`served_iff`).

  `took`, `enqueued`, `written` and `freed` are histories that no step looks at.
-/

import Gateway.Lib.Transition
import Gateway.User.TransMsg

namespace Gateway.User.MsgMemory

open Gateway.Lib.NodeChain Gateway.Lib.Transition
open Gateway.Comm.LinkedList
open Gateway.User.TransMsg (Thread)

/-! ## State -/

/-- The number of a block that `malloc` returned for a message. -/
abbrev MsgId := Nat

/-- Where `Uart_ReadThread` is, with `tmpMsg`. -/
inductive UartPc where
  | read
  | lock (tmpMsg : MsgId)
  | enqueue (tmpMsg : MsgId)
  | unlock
  | post
  deriving DecidableEq, Repr

/-- Where `TransMsgThread` is; in its loop with the index of the entry that `ptr` is at, and the
    size of `iplist`. -/
inductive TransPc where
  | semWait
  | lock
  | dequeue
  | unlock
  | test
  | write (ptr size : Nat)
  deriving DecidableEq, Repr

structure State where
  heap : Heap MsgId
  coapMsgQ : CList
  msgQSem : Nat
  msgQMutex : Option Thread
  nextMsg : MsgId
  uart : UartPc
  trans : TransPc
  coapMsg : Option MsgId
  /-- what `queue_dequeue` gave in this turn -/
  took : Option MsgId
  enqueued : List MsgId
  /-- the messages that were written, with the index of the entry -/
  written : List (MsgId × Nat)
  /-- the messages that were freed, with the size of `iplist` in that turn -/
  freed : List (MsgId × Nat)

/-- The state after the start-up of `main`. -/
def initState : State where
  heap := fun _ => none
  coapMsgQ := listInit
  msgQSem := 0
  msgQMutex := none
  nextMsg := 0
  uart := .read
  trans := .semWait
  coapMsg := none
  took := none
  enqueued := []
  written := []
  freed := []

/-! ## Steps -/

/-- A frame is complete in `uartRdBuf`, and `malloc` returns a block for its copy; when it
    returns NULL, the process exits. -/
def frameStep (s : State) : Option State :=
  match s.uart with
  | .read => some { s with uart := .lock s.nextMsg, nextMsg := s.nextMsg + 1 }
  | _ => none

/-- A step of `Uart_ReadThread` behind that; `alloc` is what `malloc` returns in
    `list_ins_next`, an address that is free. -/
def uartStep (s : State) (alloc : Option Addr) : Option State :=
  match s.uart with
  | .read => none
  | .lock tmpMsg =>
    if s.msgQMutex = none then
      some { s with msgQMutex := some .uartRead, uart := .enqueue tmpMsg }
    else none
  | .enqueue tmpMsg =>
    if (alloc.bind s.heap).isSome then none else do
    -- the thread does not look at `rc`
    let (rc, heap, queue) ← queueEnqueue s.heap s.coapMsgQ alloc tmpMsg
    some { s with
      heap := heap, coapMsgQ := queue, uart := .unlock,
      enqueued := if rc = 0 then s.enqueued ++ [tmpMsg] else s.enqueued }
  | .unlock => some { s with msgQMutex := none, uart := .post }
  | .post => some { s with msgQSem := s.msgQSem + 1, uart := .read }

/-- A step of `TransMsgThread`; `size` is `iplist.size`. -/
def transMsgStep (s : State) (size : Nat) : Option State :=
  match s.trans with
  | .semWait => if 0 < s.msgQSem then some { s with msgQSem := s.msgQSem - 1, trans := .lock } else none
  | .lock =>
    if s.msgQMutex = none then some { s with msgQMutex := some .transMsg, trans := .dequeue }
    else none
  | .dequeue => do
    let (_, data, heap, queue) ← queueDequeue s.heap s.coapMsgQ
    -- when nothing is dequeued, `coapMsg` stays what it was
    some { s with
      heap := heap, coapMsgQ := queue, trans := .unlock, coapMsg := data.or s.coapMsg, took := data }
  | .unlock => some { s with msgQMutex := none, trans := .test }
  | .test =>
    -- without entries the turn ends, and `coapMsg` stays what it is
    if 0 < size then some { s with trans := .write 0 size }
    else some { s with trans := .semWait, took := none }
  | .write ptr n =>
    if ptr < n then do
      -- `strlen` of NULL is a fault
      let msg ← s.coapMsg
      some { s with written := s.written ++ [(msg, ptr)], trans := .write (ptr + 1) n }
    else
      some { s with
        freed := s.freed ++ s.coapMsg.toList.map fun msg => (msg, n),
        coapMsg := none, trans := .semWait, took := none }

/-- Which thread takes a step, with what its calls return and read. -/
inductive Act where
  | frame
  | uart (alloc : Option Addr)
  | transMsg (size : Nat)
  deriving DecidableEq, Repr

/-- A step of the two threads. -/
def step (s : State) : Act → Option State
  | .frame => frameStep s
  | .uart alloc => uartStep s alloc
  | .transMsg size => transMsgStep s size

/-- What a step of the UART thread does. -/
theorem uartStep_cases {s s' : State} {alloc : Option Addr} (h : uartStep s alloc = some s') :
    (∃ tmpMsg, s.uart = .lock tmpMsg ∧ s.msgQMutex = none ∧
      s' = { s with msgQMutex := some .uartRead, uart := .enqueue tmpMsg }) ∨
    (∃ tmpMsg rc heap queue, s.uart = .enqueue tmpMsg ∧ alloc.bind s.heap = none ∧
      queueEnqueue s.heap s.coapMsgQ alloc tmpMsg = some (rc, heap, queue) ∧
      s' = { s with
        heap := heap, coapMsgQ := queue, uart := .unlock,
        enqueued := if rc = 0 then s.enqueued ++ [tmpMsg] else s.enqueued }) ∨
    (s.uart = .unlock ∧ s' = { s with msgQMutex := none, uart := .post }) ∨
    (s.uart = .post ∧ s' = { s with msgQSem := s.msgQSem + 1, uart := .read }) := by
  unfold uartStep at h
  cases hu : s.uart with
  | read => rw [hu] at h; cases h
  | lock tmpMsg =>
    rw [hu] at h
    simp only at h
    split at h
    · next hfree => exact Or.inl ⟨tmpMsg, rfl, hfree, (Option.some_inj.mp h).symm⟩
    · cases h
  | enqueue tmpMsg =>
    rw [hu] at h
    simp only at h
    split at h
    · cases h
    · next hnew =>
      obtain ⟨⟨rc, heap, queue⟩, hq, hs⟩ := Option.bind_eq_some_iff.mp h
      exact Or.inr (Or.inl ⟨tmpMsg, rc, heap, queue, rfl, Option.not_isSome_iff_eq_none.mp hnew, hq,
        (Option.some_inj.mp hs).symm⟩)
  | unlock =>
    rw [hu] at h
    exact Or.inr (Or.inr (Or.inl ⟨rfl, (Option.some_inj.mp h).symm⟩))
  | post =>
    rw [hu] at h
    exact Or.inr (Or.inr (Or.inr ⟨rfl, (Option.some_inj.mp h).symm⟩))

/-- What a step of the dispatcher does. -/
theorem transMsgStep_cases {s s' : State} {size : Nat} (h : transMsgStep s size = some s') :
    (s.trans = .semWait ∧ 0 < s.msgQSem ∧
      s' = { s with msgQSem := s.msgQSem - 1, trans := .lock }) ∨
    (s.trans = .lock ∧ s.msgQMutex = none ∧
      s' = { s with msgQMutex := some .transMsg, trans := .dequeue }) ∨
    (∃ rc data heap queue, s.trans = .dequeue ∧
      queueDequeue s.heap s.coapMsgQ = some (rc, data, heap, queue) ∧
      s' = { s with
        heap := heap, coapMsgQ := queue, trans := .unlock, coapMsg := data.or s.coapMsg,
        took := data }) ∨
    (s.trans = .unlock ∧ s' = { s with msgQMutex := none, trans := .test }) ∨
    (s.trans = .test ∧ 0 < size ∧ s' = { s with trans := .write 0 size }) ∨
    (s.trans = .test ∧ size = 0 ∧ s' = { s with trans := .semWait, took := none }) ∨
    (∃ ptr n msg, s.trans = .write ptr n ∧ ptr < n ∧ s.coapMsg = some msg ∧
      s' = { s with written := s.written ++ [(msg, ptr)], trans := .write (ptr + 1) n }) ∨
    (∃ ptr n, s.trans = .write ptr n ∧ n ≤ ptr ∧
      s' = { s with
        freed := s.freed ++ s.coapMsg.toList.map fun msg => (msg, n),
        coapMsg := none, trans := .semWait, took := none }) := by
  unfold transMsgStep at h
  cases hd : s.trans with
  | semWait =>
    rw [hd] at h
    simp only at h
    split at h
    · next hsem => exact Or.inl ⟨rfl, hsem, (Option.some_inj.mp h).symm⟩
    · cases h
  | lock =>
    rw [hd] at h
    simp only at h
    split at h
    · next hfree => exact Or.inr (Or.inl ⟨rfl, hfree, (Option.some_inj.mp h).symm⟩)
    · cases h
  | dequeue =>
    rw [hd] at h
    obtain ⟨⟨rc, data, heap, queue⟩, hq, hs⟩ := Option.bind_eq_some_iff.mp h
    exact Or.inr (Or.inr (Or.inl ⟨rc, data, heap, queue, rfl, hq, (Option.some_inj.mp hs).symm⟩))
  | unlock =>
    rw [hd] at h
    exact Or.inr (Or.inr (Or.inr (Or.inl ⟨rfl, (Option.some_inj.mp h).symm⟩)))
  | test =>
    rw [hd] at h
    simp only at h
    split at h
    · next hsize =>
      exact Or.inr (Or.inr (Or.inr (Or.inr (Or.inl ⟨rfl, hsize, (Option.some_inj.mp h).symm⟩))))
    · next hsize =>
      exact Or.inr (Or.inr (Or.inr (Or.inr (Or.inr (Or.inl
        ⟨rfl, Nat.eq_zero_of_not_pos hsize, (Option.some_inj.mp h).symm⟩)))))
  | write ptr n =>
    rw [hd] at h
    simp only at h
    split at h
    · next hptr =>
      obtain ⟨msg, hmsg, hs⟩ := Option.bind_eq_some_iff.mp h
      exact Or.inr (Or.inr (Or.inr (Or.inr (Or.inr (Or.inr (Or.inl
        ⟨ptr, n, msg, rfl, hptr, hmsg, (Option.some_inj.mp hs).symm⟩))))))
    · next hptr =>
      exact Or.inr (Or.inr (Or.inr (Or.inr (Or.inr (Or.inr (Or.inr
        ⟨ptr, n, rfl, Nat.not_lt.mp hptr, (Option.some_inj.mp h).symm⟩))))))

/-! ## What should hold -/

/-- The writes of a message that goes to `size` entries. -/
def writesOf (msg : MsgId × Nat) : List (MsgId × Nat) := (List.range msg.2).map fun i => (msg.1, i)

/-- The writes of the turn that is under way. -/
def writesNow (s : State) : List (MsgId × Nat) :=
  match s.trans with
  | .write ptr _ => s.took.toList.flatMap fun msg => writesOf (msg, ptr)
  | _ => []

/-- What is passed to `strlen`, `write` and `free` is the message that was taken in this turn; of
    the messages that were enqueued, each is, once, freed, or held by this turn, or in the queue;
    and each that was freed was written once to every entry. -/
structure Served (s : State) : Prop where
  used : ∀ ptr n, s.trans = .write ptr n → ∃ msg, s.coapMsg = some msg ∧ s.took = some msg
  once : ∃ q, Rep s.heap s.coapMsgQ q ∧
    s.enqueued = s.freed.map Prod.fst ++ s.took.toList ++ q
  nodup : s.enqueued.Nodup
  written : s.written = s.freed.flatMap writesOf ++ writesNow s

/-- The step does not test the size of `iplist`, or there are entries just when this turn has taken
    a message. -/
def SizeFits (s : State) : Act → Prop
  | .transMsg size => s.trans = .test → (0 < size ↔ s.took ≠ none)
  | _ => True

instance (s : State) : ∀ a, Decidable (SizeFits s a)
  | .frame => isTrue trivial
  | .uart _ => isTrue trivial
  | .transMsg size => inferInstanceAs (Decidable (s.trans = .test → (0 < size ↔ s.took ≠ none)))

/-- A message was taken in this turn, or may have been. -/
def afterDequeue : TransPc → Prop
  | .unlock => True
  | .test => True
  | .write _ _ => True
  | _ => False

/-- What is served, and why it stays so. -/
structure Inv (s : State) : Prop where
  served : Served s
  coapMsg_eq : s.coapMsg = s.took
  idle : ¬ afterDequeue s.trans → s.took = none
  ptr_le : ∀ ptr n, s.trans = .write ptr n → ptr ≤ n
  old : ∀ msg ∈ s.enqueued, msg < s.nextMsg
  tmpMsg : ∀ msg, s.uart = .lock msg ∨ s.uart = .enqueue msg →
    msg < s.nextMsg ∧ msg ∉ s.enqueued

theorem writesNow_eq_nil {s : State} (h : ∀ ptr n, s.trans ≠ .write ptr n) : writesNow s = [] := by
  unfold writesNow
  split
  · next ptr n hd => exact absurd hd (h ptr n)
  · rfl

theorem inv_init : Inv initState where
  served := ⟨nofun, ⟨[], rep_listInit, rfl⟩, List.nodup_nil, rfl⟩
  coapMsg_eq := rfl
  idle := fun _ => rfl
  ptr_le := nofun
  old := nofun
  tmpMsg := by rintro msg (h | h) <;> cases h

/-! ## The steps -/

section Steps

variable {s s' : State}

theorem frameStep_inv (h : Inv s) (hs : frameStep s = some s') : Inv s' := by
  unfold frameStep at hs
  cases hu : s.uart with
  | read =>
    rw [hu] at hs
    obtain rfl := Option.some_inj.mp hs
    refine ⟨⟨h.served.used, h.served.once, h.served.nodup, h.served.written⟩, h.coapMsg_eq, h.idle,
      h.ptr_le, fun msg hmsg => Nat.lt_succ_of_lt (h.old msg hmsg), ?_⟩
    -- the new block is none of those that were enqueued
    rintro msg (hlock | henq)
    · obtain rfl := UartPc.lock.inj hlock
      exact ⟨Nat.lt_succ_self _, fun hmem => absurd (h.old _ hmem) (Nat.lt_irrefl _)⟩
    · cases henq
  | _ => rw [hu] at hs; cases hs

/-- A step of the UART thread that leaves the queue alone. -/
theorem Inv.uartMoves {mutex : Option Thread} {sem : Nat} {uart : UartPc} (h : Inv s)
    (hkeep : ∀ msg, uart = .lock msg ∨ uart = .enqueue msg → s.uart = .lock msg) :
    Inv { s with msgQMutex := mutex, msgQSem := sem, uart := uart } :=
  ⟨⟨h.served.used, h.served.once, h.served.nodup, h.served.written⟩, h.coapMsg_eq, h.idle, h.ptr_le,
    h.old, fun msg hmsg => h.tmpMsg msg (Or.inl (hkeep msg hmsg))⟩

/-- The enqueued message is none of those before it, and stands behind them. -/
theorem Inv.enqueue {tmpMsg : MsgId} {heap : Heap MsgId} {queue : CList} {q : List MsgId}
    (h : Inv s) (hu : s.uart = .enqueue tmpMsg) (hrep : Rep heap queue (q ++ [tmpMsg]))
    (honce : s.enqueued = s.freed.map Prod.fst ++ s.took.toList ++ q) :
    Inv { s with
      heap := heap, coapMsgQ := queue, uart := .unlock, enqueued := s.enqueued ++ [tmpMsg] } := by
  obtain ⟨hlt, hnew⟩ := h.tmpMsg tmpMsg (Or.inr hu)
  refine ⟨⟨h.served.used, ⟨q ++ [tmpMsg], hrep, ?_⟩, ?_, h.served.written⟩, h.coapMsg_eq,
    h.idle, h.ptr_le, ?_, ?_⟩
  · show s.enqueued ++ [tmpMsg] = _
    rw [honce]
    simp only [List.append_assoc]
  · show (s.enqueued ++ [tmpMsg]).Nodup
    rw [List.nodup_append]
    refine ⟨h.served.nodup, List.nodup_singleton _, fun a ha b hb => ?_⟩
    rw [List.mem_singleton.mp hb]
    exact fun heq => hnew (heq ▸ ha)
  · intro msg hmsg
    rcases List.mem_append.mp hmsg with hmsg | hmsg
    · exact h.old msg hmsg
    · exact List.mem_singleton.mp hmsg ▸ hlt
  · rintro msg (hlock | henq)
    · cases hlock
    · cases henq

/-- Only the queue and the messages behind those that were enqueued change. -/
theorem uartStep_inv {alloc : Option Addr} (h : Inv s) (hs : uartStep s alloc = some s') :
    Inv s' := by
  rcases uartStep_cases hs with ⟨tmpMsg, hu, -, rfl⟩ | ⟨tmpMsg, rc, heap, queue, hu, hfree, hq, rfl⟩ |
    ⟨-, rfl⟩ | ⟨-, rfl⟩
  · refine h.uartMoves ?_
    rintro msg (hlock | henq)
    · cases hlock
    · rw [hu, UartPc.enqueue.inj henq]
  · obtain ⟨q, hrep, honce⟩ := h.served.once
    rcases queueEnqueue_cases hrep hfree hq with ⟨rfl, rfl, rfl, rfl⟩ | ⟨rfl, hrep'⟩
    · exact h.uartMoves (by rintro msg (hlock | henq) <;> contradiction)
    · exact h.enqueue hu hrep' honce
  · exact h.uartMoves (by rintro msg (hlock | henq) <;> contradiction)
  · exact h.uartMoves (by rintro msg (hlock | henq) <;> contradiction)

/-- The dequeue takes the first message of the queue, if there is one. -/
theorem Inv.dequeue {rc : Int} {data : Option MsgId} {heap : Heap MsgId} {queue : CList}
    (h : Inv s) (hd : s.trans = .dequeue)
    (hq : queueDequeue s.heap s.coapMsgQ = some (rc, data, heap, queue)) :
    Inv { s with
      heap := heap, coapMsgQ := queue, trans := .unlock, coapMsg := data.or s.coapMsg,
      took := data } := by
  have hidle : s.took = none := h.idle (by rw [hd]; exact id)
  have hnull : s.coapMsg = none := h.coapMsg_eq.trans hidle
  obtain ⟨q, hrep, honce⟩ := h.served.once
  have hwritten := h.served.written
  rw [hidle, Option.toList_none, List.append_nil] at honce
  rw [writesNow, hd] at hwritten
  refine ⟨⟨nofun, ?_, h.served.nodup, hwritten⟩, ?_, fun hbusy => absurd trivial hbusy, nofun, h.old,
    h.tmpMsg⟩
  · rcases queueDequeue_cases hrep hq with ⟨rfl, rfl, rfl, rfl⟩ | ⟨msg, q, rfl, rfl, hrep'⟩
    · exact ⟨[], hrep, by rw [honce]; simp⟩
    · exact ⟨q, hrep', by rw [honce]; simp⟩
  · show data.or s.coapMsg = data
    rw [hnull, Option.or_none]

/-- A message goes to one more entry. -/
theorem Inv.write {ptr n : Nat} {msg : MsgId} (h : Inv s) (hd : s.trans = .write ptr n)
    (hptr : ptr < n) (hmsg : s.coapMsg = some msg) :
    Inv { s with written := s.written ++ [(msg, ptr)], trans := .write (ptr + 1) n } := by
  have htook : s.took = some msg := h.coapMsg_eq.symm.trans hmsg
  have hwritten := h.served.written
  rw [writesNow, hd, htook] at hwritten
  refine ⟨⟨fun _ _ _ => ⟨msg, hmsg, htook⟩, h.served.once, h.served.nodup, ?_⟩, h.coapMsg_eq,
    fun hbusy => absurd trivial hbusy, ?_, h.old, h.tmpMsg⟩
  · show s.written ++ [(msg, ptr)] = s.freed.flatMap writesOf ++ _
    rw [hwritten, writesNow, htook]
    simp [writesOf, List.range_succ]
  · intro ptr' n' heq
    obtain ⟨rfl, rfl⟩ := TransPc.write.inj heq
    exact hptr

/-- Behind the last entry the message is freed. -/
theorem Inv.free {ptr n : Nat} (h : Inv s) (hd : s.trans = .write ptr n) (hptr : n ≤ ptr) :
    Inv { s with
      freed := s.freed ++ s.coapMsg.toList.map fun msg => (msg, n),
      coapMsg := none, trans := .semWait, took := none } := by
  obtain ⟨msg, hmsg, htook⟩ := h.served.used ptr n hd
  obtain ⟨q, hrep, honce⟩ := h.served.once
  have hwritten := h.served.written
  have hend : ptr = n := Nat.le_antisymm (h.ptr_le ptr n hd) hptr
  rw [writesNow, hd, htook, hend] at hwritten
  refine ⟨⟨nofun, ⟨q, hrep, ?_⟩, h.served.nodup, ?_⟩, rfl, fun _ => rfl, nofun, h.old, h.tmpMsg⟩
  · show s.enqueued = (s.freed ++ s.coapMsg.toList.map fun msg => (msg, n)).map Prod.fst ++ [] ++ q
    rw [honce, hmsg, htook]
    simp
  · show s.written = (s.freed ++ s.coapMsg.toList.map fun msg => (msg, n)).flatMap writesOf ++ []
    rw [hwritten, hmsg]
    simp

/-- The dispatcher goes on, outside of its loop. -/
theorem Inv.transMoves {mutex : Option Thread} {sem : Nat} {trans : TransPc} (h : Inv s)
    (hfrom : ∀ ptr n, s.trans ≠ .write ptr n) (hto : ∀ ptr n, trans ≠ .write ptr n)
    (hidle : afterDequeue s.trans → afterDequeue trans) :
    Inv { s with msgQMutex := mutex, msgQSem := sem, trans := trans } := by
  refine ⟨⟨fun ptr n hd => absurd hd (hto ptr n), h.served.once, h.served.nodup, ?_⟩, h.coapMsg_eq,
    fun hbusy => h.idle fun hafter => hbusy (hidle hafter), fun ptr n hd => absurd hd (hto ptr n),
    h.old, h.tmpMsg⟩
  have hwritten := h.served.written
  rwa [writesNow_eq_nil hfrom, ← @writesNow_eq_nil { s with trans := trans } hto] at hwritten

/-- The test finds entries, and a message was taken. -/
theorem Inv.starts {size : Nat} {msg : MsgId} (h : Inv s) (hd : s.trans = .test)
    (htook : s.took = some msg) : Inv { s with trans := .write 0 size } := by
  have hwritten := h.served.written
  rw [writesNow, hd] at hwritten
  refine ⟨⟨fun _ _ _ => ⟨msg, h.coapMsg_eq.trans htook, htook⟩, h.served.once, h.served.nodup, ?_⟩,
    h.coapMsg_eq, fun hbusy => absurd trivial hbusy, ?_, h.old, h.tmpMsg⟩
  · show s.written = s.freed.flatMap writesOf ++ _
    rw [hwritten, writesNow, htook]
    simp [writesOf]
  · intro ptr n heq
    obtain ⟨rfl, rfl⟩ := TransPc.write.inj heq
    exact Nat.zero_le _

/-- The test finds no entries, and nothing was taken. -/
theorem Inv.skips (h : Inv s) (hd : s.trans = .test) (htook : s.took = none) :
    Inv { s with trans := .semWait, took := none } := by
  obtain ⟨q, hrep, honce⟩ := h.served.once
  have hwritten := h.served.written
  rw [htook] at honce
  rw [writesNow, hd] at hwritten
  exact ⟨⟨nofun, ⟨q, hrep, honce⟩, h.served.nodup, hwritten⟩, h.coapMsg_eq.trans htook,
    fun _ => rfl, nofun, h.old, h.tmpMsg⟩

/-- The dispatcher keeps the invariant when the test of the size is right. -/
theorem transMsgStep_inv {size : Nat} (h : Inv s) (hfits : SizeFits s (.transMsg size))
    (hs : transMsgStep s size = some s') : Inv s' := by
  rcases transMsgStep_cases hs with ⟨hd, -, rfl⟩ | ⟨hd, -, rfl⟩ | ⟨rc, data, heap, queue, hd, hq, rfl⟩ |
    ⟨hd, rfl⟩ | ⟨hd, hsize, rfl⟩ | ⟨hd, hsize, rfl⟩ | ⟨ptr, n, msg, hd, hptr, hmsg, rfl⟩ |
    ⟨ptr, n, hd, hptr, rfl⟩
  · exact h.transMoves (by rw [hd]; nofun) nofun (by rw [hd]; exact id)
  · exact h.transMoves (by rw [hd]; nofun) nofun (by rw [hd]; exact id)
  · exact h.dequeue hd hq
  · exact h.transMoves (by rw [hd]; nofun) nofun fun _ => trivial
  · -- there are entries, so a message was taken
    obtain ⟨msg, htook⟩ := Option.ne_none_iff_exists'.mp ((hfits hd).mp hsize)
    exact h.starts hd htook
  · -- there are none, so nothing was taken
    have htook : s.took = none := by
      by_contra hne
      exact absurd ((hfits hd).mpr hne) (by omega)
    exact h.skips hd htook
  · exact h.write hd hptr hmsg
  · exact h.free hd hptr

theorem step_inv {a : Act} (h : Inv s) (hs : step s a = some s') (hfits : SizeFits s a) : Inv s' := by
  cases a with
  | frame => exact frameStep_inv h hs
  | uart alloc => exact uartStep_inv h hs
  | transMsg size => exact transMsgStep_inv h hfits hs

/-- A test that finds entries without a message, or no entries with one, breaks what should hold:
    the pointer of an earlier turn is used, or the message is never freed. -/
theorem not_served_of_not_sizeFits {a : Act} (h : Inv s) (hs : step s a = some s')
    (hfits : ¬ SizeFits s a) : ¬ Served s' := by
  cases a with
  | frame => exact absurd trivial hfits
  | uart alloc => exact absurd trivial hfits
  | transMsg size =>
    obtain ⟨hd, hcond⟩ := Classical.not_imp.mp hfits
    replace hs : transMsgStep s size = some s' := hs
    rw [transMsgStep, hd] at hs
    simp only at hs
    by_cases hsize : 0 < size
    · rw [if_pos hsize] at hs
      obtain rfl := Option.some_inj.mp hs
      have htook : s.took = none := by
        by_contra hne
        exact hcond ⟨fun _ => hne, fun _ => hsize⟩
      intro hserved
      obtain ⟨msg, -, hmsg⟩ := hserved.used 0 size rfl
      exact Option.some_ne_none msg (hmsg.symm.trans htook)
    · rw [if_neg hsize] at hs
      obtain rfl := Option.some_inj.mp hs
      obtain ⟨msg, htook⟩ : ∃ msg, s.took = some msg := by
        refine Option.ne_none_iff_exists'.mp fun hnone => ?_
        exact hcond ⟨fun hpos => absurd hpos hsize, fun hne => absurd hnone hne⟩
      intro hserved
      -- one message more was enqueued than are freed or in the queue
      obtain ⟨q, hrep, honce⟩ := h.served.once
      obtain ⟨q', hrep', honce'⟩ := hserved.once
      have hq : (q.length : Int) = q'.length := hrep.size_eq.symm.trans hrep'.size_eq
      have hlen := congrArg List.length (honce.symm.trans honce')
      rw [htook] at hlen
      simp only [List.length_append, Option.toList_some, Option.toList_none, List.length_singleton,
        List.length_nil] at hlen
      omega

end Steps

/-! ## The runs -/

/-- In every run, with any allocations of the queue failing and any sizes of `iplist`, the messages
    are served as they should be in every state exactly when every test of the size finds entries
    just when its turn has taken a message. -/
theorem served_iff {as : List Act} (hrun : exec step initState as ≠ none) :
    AllStates step Served initState as ↔ AllSteps step SizeFits initState as := by
  refine @allStates_iff_allSteps _ _ _ Inv Served SizeFits (fun _ => True) (fun s h => h.served)
    (fun s a s' h _ hs hfits => step_inv h hs hfits)
    (fun s a s' h hs hfits => not_served_of_not_sizeFits h hs hfits) _ _ inv_init
    (fun _ _ => trivial) hrun

/-- The steps of the UART thread for one frame. -/
def uartTurn (alloc : Option Addr) : List Act :=
  [.frame, .uart none, .uart alloc, .uart none, .uart none]

/-- The steps of the dispatcher up to its test, which finds `size` entries, and `more` steps. -/
def transMsgTurn (size more : Nat) : List Act := List.replicate (5 + more) (.transMsg size)

/-- A message goes to two clients; the next one is lost in the queue, while there are no clients. -/
theorem served_iff_twoClients : AllStates step Served initState
    (uartTurn (some 8) ++ transMsgTurn 2 3 ++ uartTurn none ++ transMsgTurn 0 0) :=
  (served_iff (Option.isSome_iff_ne_none.mp (by decide))).mpr (by decide)

/-- The allocation of the node fails, and there is a client. -/
def nullRun : List Act := uartTurn none ++ transMsgTurn 1 0

/-- A message is taken without clients; the next one is lost in the queue when there is one. -/
def staleRun : List Act := uartTurn (some 8) ++ transMsgTurn 0 0 ++ uartTurn none ++ transMsgTurn 1 0

/-- A message is taken without clients, the next one with a client. -/
def leakRun : List Act :=
  uartTurn (some 8) ++ transMsgTurn 0 0 ++ uartTurn (some 8) ++ transMsgTurn 1 2

/-- NULL goes to `strlen`, or the message of the turn before; and a message is never freed. -/
theorem not_served_runs :
    (∃ s, exec step initState nullRun = some s ∧ s.trans = .write 0 1 ∧ s.coapMsg = none) ∧
    (∃ s, exec step initState staleRun = some s ∧ s.trans = .write 0 1 ∧ s.coapMsg = some 0 ∧
      s.took = none) ∧
    (∃ s, exec step initState leakRun = some s ∧ s.enqueued = [0, 1] ∧ s.freed = [(1, 1)] ∧
      s.coapMsgQ.size = 0 ∧ s.coapMsg = none) ∧
    ∀ as ∈ [nullRun, staleRun, leakRun], ¬ AllStates step Served initState as := by
  have hnull : ∃ s, exec step initState nullRun = some s ∧ s.trans = .write 0 1 ∧
      s.coapMsg = none := ⟨_, rfl, rfl, rfl⟩
  have hstale : ∃ s, exec step initState staleRun = some s ∧ s.trans = .write 0 1 ∧
      s.coapMsg = some 0 ∧ s.took = none := ⟨_, rfl, rfl, rfl, rfl⟩
  have hleak : ∃ s, exec step initState leakRun = some s ∧ s.enqueued = [0, 1] ∧
      s.freed = [(1, 1)] ∧ s.coapMsgQ.size = 0 ∧ s.coapMsg = none ∧ s.took = none :=
    ⟨_, rfl, rfl, rfl, rfl, rfl, rfl⟩
  refine ⟨hnull, hstale, ?_, fun as has hall => ?_⟩
  · obtain ⟨s, hrun, henq, hfreed, hsize, hmsg, -⟩ := hleak
    exact ⟨s, hrun, henq, hfreed, hsize, hmsg⟩
  · simp only [List.mem_cons, List.not_mem_nil, or_false] at has
    rcases has with rfl | rfl | rfl
    · obtain ⟨s, hrun, hd, hmsg⟩ := hnull
      obtain ⟨msg, hsome, -⟩ := (hall.last hrun).used 0 1 hd
      exact Option.some_ne_none msg (hsome.symm.trans hmsg)
    · obtain ⟨s, hrun, hd, -, htook⟩ := hstale
      obtain ⟨msg, -, hsome⟩ := (hall.last hrun).used 0 1 hd
      exact Option.some_ne_none msg (hsome.symm.trans htook)
    · obtain ⟨s, hrun, henq, hfreed, hsize, -, htook⟩ := hleak
      obtain ⟨q, hrep, honce⟩ := (hall.last hrun).once
      have hq : (q.length : Int) = 0 := hrep.size_eq.symm.trans hsize
      rw [henq, hfreed, htook, List.length_eq_zero_iff.mp (by omega : q.length = 0)] at honce
      exact absurd honce (by decide)

end Gateway.User.MsgMemory
