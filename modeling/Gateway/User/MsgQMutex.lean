/-
  Gateway.User.MsgQMutex

  The lock around `coapMsgQ`, in every interleaving.

  `Uart_ReadThread` and `TransMsgThread` lock `msgQ_mutex` around `queue_enqueue` and
  `queue_dequeue`.  The mutex is held by the thread that is between its lock and its
  unlock, and by nobody else (`Exclusive`); so the two are never both there, only the
  holder changes the queue, and the holder never waits: it gives the mutex back after
  at most two steps of its own.  This needs no allocation to succeed.
-/

import Gateway.User.QueueOrder

namespace Gateway.User.MsgQMutex

open Gateway.Lib.NodeChain Gateway.Lib.Transition
open Gateway.Comm.LinkedList Gateway.User.TransMsg Gateway.User.QueueOrder

/-! ## The holder -/

/-- `Uart_ReadThread` is between its lock and its unlock. -/
def uartHolds : UartPc → Prop
  | .enqueue _ => True
  | .unlock => True
  | _ => False

/-- `TransMsgThread` is between its lock and its unlock. -/
def transHolds : TransPc → Prop
  | .dequeue => True
  | .unlock => True
  | _ => False

/-- The thread is between its lock and its unlock. -/
def Holds (s : State) : Thread → Prop
  | .uartRead => uartHolds s.uart
  | .transMsg => transHolds s.trans

/-- The mutex is held by the thread that is between its lock and its unlock. -/
def Exclusive (s : State) : Prop := ∀ t, s.msgQMutex = some t ↔ Holds s t

theorem exclusive_init (mid : Nat → UInt16) (msgBuf : Nat → List UInt8) :
    Exclusive (initState mid msgBuf) := by
  intro t
  constructor
  · intro h
    cases h
  · intro h
    cases t <;> exact h.elim

section Steps

variable {iplist : List CoapIP} {s s' : State}

/-- The mutex is free when no thread is between its lock and its unlock. -/
theorem Exclusive.free (h : Exclusive s) (huart : ¬ uartHolds s.uart)
    (htrans : ¬ transHolds s.trans) : s.msgQMutex = none := by
  apply Option.eq_none_iff_forall_ne_some.mpr
  intro t ht
  have hholds := (h t).mp ht
  cases t with
  | uartRead => exact huart hholds
  | transMsg => exact htrans hholds

/-- Only one thread is there. -/
theorem Exclusive.alone (h : Exclusive s) (huart : uartHolds s.uart) : ¬ transHolds s.trans := by
  intro htrans
  have hu : s.msgQMutex = some .uartRead := (h .uartRead).mpr huart
  have ht : s.msgQMutex = some .transMsg := (h .transMsg).mpr htrans
  rw [hu] at ht
  cases ht

/-- A step that leaves the mutex, and who is inside, as they are. -/
theorem Exclusive.frame (h : Exclusive s) (hmutex : s'.msgQMutex = s.msgQMutex)
    (huart : uartHolds s'.uart ↔ uartHolds s.uart)
    (htrans : transHolds s'.trans ↔ transHolds s.trans) : Exclusive s' := by
  intro t
  rw [hmutex, h t]
  cases t with
  | uartRead => exact huart.symm
  | transMsg => exact htrans.symm

/-- One thread takes the free mutex. -/
theorem Exclusive.lock {t : Thread} (h : Exclusive s) (hfree : s.msgQMutex = none)
    (hmutex : s'.msgQMutex = some t) (hin : Holds s' t)
    (hother : ∀ u, u ≠ t → (Holds s' u ↔ Holds s u)) : Exclusive s' := by
  intro u
  by_cases hu : u = t
  · rw [hu, hmutex]
    exact ⟨fun _ => hin, fun _ => rfl⟩
  · rw [hother u hu, ← h u, hmutex, hfree]
    constructor
    · intro heq
      exact absurd (Option.some_inj.mp heq).symm hu
    · intro heq
      cases heq

/-- The holder gives the mutex back. -/
theorem Exclusive.unlock {t : Thread} (h : Exclusive s) (hheld : Holds s t)
    (hmutex : s'.msgQMutex = none) (hout : ¬ Holds s' t)
    (hother : ∀ u, u ≠ t → (Holds s' u ↔ Holds s u)) : Exclusive s' := by
  intro u
  by_cases hu : u = t
  · rw [hu, hmutex]
    refine ⟨fun heq => ?_, fun hin => absurd hin hout⟩
    cases heq
  · rw [hother u hu, ← h u, hmutex, (h t).mpr hheld]
    constructor
    · intro heq
      cases heq
    · intro heq
      exact absurd (Option.some_inj.mp heq).symm hu

theorem uartStep_exclusive {alloc : Option Addr} (h : Exclusive s)
    (hs : uartStep s alloc = some s') : Exclusive s' := by
  rcases uartStep_cases hs with ⟨msg, hu, hfree, rfl⟩ | ⟨msg, rc, heap, queue, hu, -, -, rfl⟩ |
    ⟨hu, rfl⟩ | ⟨hu, rfl⟩
  · refine h.lock hfree rfl trivial fun u hne => ?_
    cases u with
    | uartRead => exact absurd rfl hne
    | transMsg => exact Iff.rfl
  · refine h.frame rfl ?_ Iff.rfl
    rw [hu]
    exact Iff.rfl
  · refine h.unlock (show Holds s .uartRead by rw [Holds, hu]; trivial) rfl id fun u hne => ?_
    cases u with
    | uartRead => exact absurd rfl hne
    | transMsg => exact Iff.rfl
  · refine h.frame rfl ?_ Iff.rfl
    rw [hu]
    exact Iff.rfl

theorem transMsgStep_exclusive (h : Exclusive s) (hs : transMsgStep iplist s = some s') :
    Exclusive s' := by
  rcases transMsgStep_cases hs with ⟨hd, -, rfl⟩ | ⟨hd, hfree, rfl⟩ |
    ⟨rc, data, heap, queue, hd, -, rfl⟩ | ⟨hd, rfl⟩ | ⟨ptr, msg, hd, -, -, rfl⟩ | ⟨ptr, hd, -, rfl⟩
  · refine h.frame rfl Iff.rfl ?_
    rw [hd]
    exact Iff.rfl
  · refine h.lock hfree rfl trivial fun u hne => ?_
    cases u with
    | uartRead => exact Iff.rfl
    | transMsg => exact absurd rfl hne
  · refine h.frame rfl Iff.rfl ?_
    rw [hd]
    exact Iff.rfl
  · refine h.unlock (show Holds s .transMsg by rw [Holds, hd]; trivial) rfl ?_ fun u hne => ?_
    · -- with or without clients, the dispatcher is behind its unlock
      show ¬ transHolds (if iplist.length > 0 then .write 0 else .semWait)
      split <;> exact id
    · cases u with
      | uartRead => exact Iff.rfl
      | transMsg => exact absurd rfl hne
  · refine h.frame rfl Iff.rfl ?_
    rw [hd]
    exact Iff.rfl
  · refine h.frame rfl Iff.rfl ?_
    rw [hd]
    exact Iff.rfl

/-- Every step keeps the mutex with its holder. -/
theorem step_exclusive {a : Act} (h : Exclusive s) (hs : step iplist s a = some s') :
    Exclusive s' := by
  cases a with
  | frame msg =>
    obtain ⟨hu, rfl⟩ := frameStep_cases hs
    refine h.frame rfl ?_ Iff.rfl
    rw [hu]
    exact Iff.rfl
  | uart alloc => exact uartStep_exclusive h hs
  | transMsg => exact transMsgStep_exclusive h hs
  | client i k token =>
    obtain ⟨entry, pdu, -, -, -, rfl⟩ := clientStep_cases hs
    exact h.frame rfl Iff.rfl Iff.rfl

/-! ## What the holder does -/

/-- The thread that takes a step. -/
def actThread : Act → Option Thread
  | .uart _ => some .uartRead
  | .transMsg => some .transMsg
  | _ => none

/-- A step that touches the queue is one between lock and unlock. -/
theorem queue_changed {a : Act} (hs : step iplist s a = some s')
    (hchange : s'.coapMsgQ ≠ s.coapMsgQ ∨ s'.heap ≠ s.heap) :
    ∃ t, actThread a = some t ∧ Holds s t := by
  have hsame : ¬ (s'.coapMsgQ = s.coapMsgQ ∧ s'.heap = s.heap) := by
    rintro ⟨hqueue, hheap⟩
    rcases hchange with hne | hne
    · exact hne hqueue
    · exact hne hheap
  cases a with
  | frame msg =>
    obtain ⟨-, rfl⟩ := frameStep_cases hs
    exact absurd ⟨rfl, rfl⟩ hsame
  | uart alloc =>
    rcases uartStep_cases hs with ⟨msg, -, -, rfl⟩ | ⟨msg, rc, heap, queue, hu, -, -, rfl⟩ |
      ⟨-, rfl⟩ | ⟨-, rfl⟩
    · exact absurd ⟨rfl, rfl⟩ hsame
    · refine ⟨.uartRead, rfl, ?_⟩
      rw [Holds, hu]
      trivial
    · exact absurd ⟨rfl, rfl⟩ hsame
    · exact absurd ⟨rfl, rfl⟩ hsame
  | transMsg =>
    rcases transMsgStep_cases hs with ⟨-, -, rfl⟩ | ⟨-, -, rfl⟩ |
      ⟨rc, data, heap, queue, hd, -, rfl⟩ | ⟨-, rfl⟩ | ⟨ptr, msg, -, -, -, rfl⟩ | ⟨ptr, -, -, rfl⟩
    · exact absurd ⟨rfl, rfl⟩ hsame
    · exact absurd ⟨rfl, rfl⟩ hsame
    · refine ⟨.transMsg, rfl, ?_⟩
      rw [Holds, hd]
      trivial
    · exact absurd ⟨rfl, rfl⟩ hsame
    · exact absurd ⟨rfl, rfl⟩ hsame
    · exact absurd ⟨rfl, rfl⟩ hsame
  | client i k token =>
    obtain ⟨entry, pdu, -, -, -, rfl⟩ := clientStep_cases hs
    exact absurd ⟨rfl, rfl⟩ hsame

/-- A dequeue does not fault: there is a message, or the list is empty. -/
theorem dequeue_returns {n : Nat} {q : List Msg} (h : QueueInv n s q) :
    ∃ rc data heap queue, queueDequeue s.heap s.coapMsgQ = some (rc, data, heap, queue) := by
  have hrep := h.rep
  cases q with
  | nil => exact ⟨_, _, _, _, queueDequeue_nil hrep⟩
  | cons msg rest =>
    obtain ⟨heap, queue, heq, -⟩ := queueDequeue_rep hrep
    exact ⟨_, _, _, _, heq⟩

/-- The dispatcher between lock and unlock is not blocked. -/
theorem transMsg_enabled {n : Nat} {q : List Msg} (h : QueueInv n s q)
    (htrans : transHolds s.trans) : ∃ s', transMsgStep iplist s = some s' := by
  cases hd : s.trans with
  | dequeue =>
    obtain ⟨rc, data, heap, queue, heq⟩ := dequeue_returns h
    rw [transMsgStep, hd, heq]
    exact ⟨_, rfl⟩
  | unlock =>
    rw [transMsgStep, hd]
    exact ⟨_, rfl⟩
  | _ =>
    rw [hd] at htrans
    exact htrans.elim

/-- Nor is the UART thread, not even when there is no memory. -/
theorem uart_enabled (huart : uartHolds s.uart) : ∃ s', uartStep s none = some s' := by
  cases hu : s.uart with
  | enqueue msg =>
    rw [uartStep, hu]
    exact ⟨_, rfl⟩
  | unlock =>
    rw [uartStep, hu]
    exact ⟨_, rfl⟩
  | _ =>
    rw [hu] at huart
    exact huart.elim

/-- Steps of the holder until it has given the mutex back. -/
def holderSteps (s : State) : Thread → Nat
  | .uartRead => match s.uart with | .enqueue _ => 2 | .unlock => 1 | _ => 0
  | .transMsg => match s.trans with | .dequeue => 2 | .unlock => 1 | _ => 0

/-- A step of the holder brings it closer to its unlock. -/
theorem holder_progress {a : Act} {t : Thread} (hs : step iplist s a = some s')
    (ha : actThread a = some t) (hheld : Holds s t) :
    holderSteps s' t < holderSteps s t := by
  cases a with
  | uart alloc =>
    obtain rfl := Option.some_inj.mp ha
    rcases uartStep_cases hs with ⟨msg, hu, -, rfl⟩ | ⟨msg, rc, heap, queue, hu, -, -, rfl⟩ |
      ⟨hu, rfl⟩ | ⟨hu, rfl⟩
    · rw [Holds, hu] at hheld
      exact hheld.elim
    · simp only [holderSteps, hu]
      omega
    · simp only [holderSteps, hu]
      omega
    · rw [Holds, hu] at hheld
      exact hheld.elim
  | transMsg =>
    obtain rfl := Option.some_inj.mp ha
    rcases transMsgStep_cases hs with ⟨hd, -, rfl⟩ | ⟨hd, -, rfl⟩ |
      ⟨rc, data, heap, queue, hd, -, rfl⟩ | ⟨hd, rfl⟩ | ⟨ptr, msg, hd, -, -, rfl⟩ |
      ⟨ptr, hd, -, rfl⟩
    · rw [Holds, hd] at hheld
      exact hheld.elim
    · rw [Holds, hd] at hheld
      exact hheld.elim
    · simp only [holderSteps, hd]
      omega
    · -- with or without clients
      by_cases hn : iplist.length > 0
      · simp only [holderSteps, hd, if_pos hn]
        omega
      · simp only [holderSteps, hd, if_neg hn]
        omega
    · rw [Holds, hd] at hheld
      exact hheld.elim
    · rw [Holds, hd] at hheld
      exact hheld.elim
  | frame msg => cases ha
  | client i k token => cases ha

end Steps

/-! ## Runs -/

section Runs

variable {iplist : List CoapIP} {mid : Nat → UInt16} {msgBuf : Nat → List UInt8} {s : State}

/-- What holds of every run, also when allocations fail. -/
theorem reachable_exclusive (h : Reachable (step iplist) (fun _ _ => True) (initState mid msgBuf) s) :
    Exclusive s ∧ ∃ q, QueueInv iplist.length s q := by
  refine @Reachable.invariant _ _ _ _ _ _
    (fun s => Exclusive s ∧ ∃ q, QueueInv iplist.length s q) h
    ⟨exclusive_init mid msgBuf, [], queueInv_init _ mid msgBuf⟩ ?_
  rintro s a s' ⟨hexcl, q, hq⟩ - hs
  obtain ⟨q', hq', -⟩ := step_inv hq hs
  exact ⟨step_exclusive hexcl hs, q', hq'⟩

/-- In every state that is reached, whatever the order of the steps and whichever allocations
    fail: the two threads are never both between their lock and their unlock; a step that changes
    the queue or its nodes is one of the thread that holds the mutex; and the holder can always
    take its next step, which brings it closer to its unlock. -/
theorem msgQMutex_protects
    (h : Reachable (step iplist) (fun _ _ => True) (initState mid msgBuf) s) :
    ¬ (Holds s .uartRead ∧ Holds s .transMsg) ∧
      (∀ a s', step iplist s a = some s' → s'.coapMsgQ ≠ s.coapMsgQ ∨ s'.heap ≠ s.heap →
        actThread a = s.msgQMutex ∧ s.msgQMutex ≠ none) ∧
      ∀ t, s.msgQMutex = some t →
        (∃ a s', actThread a = some t ∧ step iplist s a = some s') ∧
        ∀ a s', actThread a = some t → step iplist s a = some s' →
          holderSteps s' t < holderSteps s t := by
  obtain ⟨hexcl, q, hq⟩ := reachable_exclusive h
  refine ⟨fun hboth => hexcl.alone hboth.1 hboth.2, fun a s' hs hchange => ?_, fun t ht => ?_⟩
  · obtain ⟨t, hthread, hheld⟩ := queue_changed hs hchange
    rw [hthread, (hexcl t).mpr hheld]
    exact ⟨rfl, Option.some_ne_none t⟩
  · have hheld := (hexcl t).mp ht
    refine ⟨?_, fun a s' ha hs => holder_progress hs ha hheld⟩
    cases t with
    | uartRead =>
      obtain ⟨s', hs'⟩ := uart_enabled hheld
      exact ⟨.uart none, s', rfl, hs'⟩
    | transMsg =>
      obtain ⟨s', hs'⟩ := @transMsg_enabled iplist _ _ _ hq hheld
      exact ⟨.transMsg, s', rfl, hs'⟩

end Runs

/-- The UART thread holds the mutex while the dispatcher waits for it. -/
def contended : List Act :=
  [.frame [0x24, 0x26], .uart none, .uart (some 1), .uart none, .uart none, .transMsg,
    .frame [0x24, 0x26], .uart none]

theorem msgQMutex_protects_contended :
    ∃ s : State, s.msgQMutex = some .uartRead ∧ s.trans = .lock ∧
      transMsgStep [⟨[]⟩] s = none ∧ ∃ a s', actThread a = some .uartRead ∧
        step [⟨[]⟩] s a = some s' := by
  obtain ⟨s, hrun, hmutex, htrans, hwaits⟩ :
      ∃ s, exec (step [⟨[]⟩]) (initState (fun _ => 0) fun _ => []) contended = some s ∧
        s.msgQMutex = some .uartRead ∧ s.trans = .lock ∧ transMsgStep [⟨[]⟩] s = none :=
    ⟨_, rfl, rfl, rfl, rfl⟩
  have hreach := Reachable.init.exec (fun _ _ _ => trivial) hrun
  exact ⟨s, hmutex, htrans, hwaits, ((msgQMutex_protects hreach).2.2 _ hmutex).1⟩

end Gateway.User.MsgQMutex
