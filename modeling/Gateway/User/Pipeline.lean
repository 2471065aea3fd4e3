/-
  Gateway.User.Pipeline

  The gateway from the UART to the datagrams: the reader of the device, the two threads
  and the clients together.

  The state puts the reader of `Gateway.Uart.ReadThread` in front of the threads of
  `Gateway.User.TransMsg`: a poll is possible in the read loop, and the byte that
  completes a frame hands the string in the buffer over to the thread, which then takes
  its steps up to `sem_post`.  (The queue and the semaphore of the reader's own model are
  those of the threads here.)  `polls` and `reads` are histories: the polls of the
  device, and what each `read` of a client returned.

  As long as the nodes of the list can be allocated, in every interleaving each client
  reads the bytes of a first part of the messages of the stream, in their order and without
  a gap, and its datagrams are numbered requests for its path with what it read, if that
  fits (`pipeline_safe`).  When no more bytes come in, it has read all of them after
  finitely many steps, if moreover the reader has not stopped: its buffer, the statements
  of `Insert_db` and the memory can hold the stream (`pipeline_completes`).
-/

import Gateway.Uart.Framing
import Gateway.User.Delivery

namespace Gateway.User.Pipeline

open Gateway.Lib.ByteWindow Gateway.Lib.CString Gateway.Lib.Framing Gateway.Lib.NodeChain
open Gateway.Lib.Transition Gateway.Lib.Progress
open Gateway.Uart.ReadThread Gateway.Uart.Framing
open Gateway.Sqlite.InsertDb (Tm)
open Gateway.CoapClient.PduSpec Gateway.CoapClient.Request
open Gateway.User.TransMsg (Msg Act)
open Gateway.User.FifoStream Gateway.User.QueueOrder Gateway.User.Delivery

/-! ## The model -/

structure State where
  reader : Reader
  gateway : TransMsg.State
  polls : List Poll
  reads : Nat → List (List UInt8)

def initState (mid : Nat → UInt16) (msgBuf : Nat → List UInt8) : State where
  reader := initReader
  gateway := TransMsg.initState mid msgBuf
  polls := []
  reads := fun _ => []

/-- A poll of the device, in the read loop. -/
def pollStep (env : Env) (s : State) (p : Poll) : Option State :=
  if s.gateway.uart = .read ∧ s.reader.stop = none then
    let reader := poll env s.reader p
    let s' := { s with reader := reader, polls := s.polls ++ [p] }
    if reader.msgQSem = s.reader.msgQSem then some s' else do
      -- `tmpMsg` is a copy of the whole buffer, and the others take it for a string
      let tmpMsg ← reader.insertDb.getLast?
      let n ← strlen tmpMsg
      let gateway ← TransMsg.frameStep s.gateway (tmpMsg.take n)
      some { s' with gateway := gateway }
  else none

/-- A step of a thread behind the read loop, or of a client. -/
def gatewayStep (paths : List (List UInt8)) (s : State) (a : Act) : Option State :=
  match a with
  | .frame _ => none
  | .client i k _ => do
    let gateway ← TransMsg.step (entries paths) s.gateway a
    some { s with
      gateway := gateway,
      reads := Function.update s.reads i (s.reads i ++ [(s.gateway.fifo i).take k]) }
  | _ => do
    let gateway ← TransMsg.step (entries paths) s.gateway a
    some { s with gateway := gateway }

inductive Step where
  | poll (p : Poll)
  | gateway (a : Act)
  deriving DecidableEq, Repr

def step (env : Env) (paths : List (List UInt8)) (s : State) : Step → Option State
  | .poll p => pollStep env s p
  | .gateway a => gatewayStep paths s a

/-- The allocation of the node succeeds. -/
def Allocates : Step → Prop
  | .poll _ => True
  | .gateway a => QueueOrder.Allocates a

/-- No new byte, and the allocation of the node succeeds. -/
def Quiet : Step → Prop
  | .poll _ => False
  | .gateway a => Delivery.Quiet a

/-! ## The messages of a stream -/

/-- What the gateway is to deliver of a stream of bytes: the strings of the segments that begin
    with the start flag. -/
def messages (stream : List UInt8) : List Msg := (texts stream).map stringOf

/-- The messages are the strings in the arrays that are handed on. -/
theorem messages_eq (stream : List UInt8) : messages stream = (frames stream).map stringOf := by
  rw [messages, frames_eq, List.map_map]
  apply List.map_congr_left
  intro seg _
  exact (stringOf_padded uartRdBufSize seg).symm

/-! ## What a step does -/

section Steps

variable {env : Env} {paths : List (List UInt8)} {s s' : State}

/-- What a poll does: the reader goes on, and a message that it posts comes to the thread. -/
theorem pollStep_cases {p : Poll} (h : pollStep env s p = some s') :
    s.gateway.uart = .read ∧ s.reader.stop = none ∧ s'.reader = poll env s.reader p ∧
      s'.polls = s.polls ++ [p] ∧ s'.reads = s.reads ∧
      (s'.gateway = s.gateway ∧ s'.reader.msgQSem = s.reader.msgQSem ∧
          s.reader.insertDb <+: s'.reader.insertDb ∨
        ∃ tmpMsg, s'.reader.insertDb = s.reader.insertDb ++ [tmpMsg] ∧
          s'.reader.msgQSem = s.reader.msgQSem + 1 ∧
          TransMsg.frameStep s.gateway (stringOf tmpMsg) = some s'.gateway) := by
  unfold pollStep at h
  split at h
  · next hcond =>
    refine ⟨hcond.1, hcond.2, ?_⟩
    simp only at h
    have hcases := poll_cases env s.reader p
    split at h
    · next hsame =>
      obtain rfl := Option.some_inj.mp h
      refine ⟨rfl, rfl, rfl, Or.inl ⟨rfl, hsame, ?_⟩⟩
      rcases hcases with ⟨hlog, -⟩ | ⟨tmpMsg, hlog, -⟩
      · exact hlog ▸ List.prefix_refl _
      · exact ⟨[tmpMsg], hlog.symm⟩
    · next hpost =>
      rcases hcases with ⟨-, hsame⟩ | ⟨tmpMsg, hlog, ⟨hsame, -⟩ | ⟨hmore, -⟩⟩
      · exact absurd hsame hpost
      · exact absurd hsame hpost
      · rw [hlog, List.getLast?_concat] at h
        simp only [Option.bind_eq_bind, Option.bind_some] at h
        obtain ⟨n, hn, h⟩ := Option.bind_eq_some_iff.mp h
        obtain ⟨gateway, hframe, h⟩ := Option.bind_eq_some_iff.mp h
        rw [take_strlen hn] at hframe
        obtain rfl := Option.some_inj.mp h
        exact ⟨rfl, rfl, rfl, Or.inr ⟨tmpMsg, hlog, hmore, hframe⟩⟩
  · cases h

/-- What a step of a thread or a client does: the gateway goes on, the reader does not. -/
theorem gatewayStep_cases {a : Act} (h : gatewayStep paths s a = some s') :
    (∀ msg, a ≠ .frame msg) ∧ TransMsg.step (entries paths) s.gateway a = some s'.gateway ∧
      s'.reader = s.reader ∧ s'.polls = s.polls ∧
      (s'.reads = s.reads ∧ (∀ i k token, a ≠ .client i k token) ∨
        ∃ i k token, a = .client i k token ∧
          s'.reads = Function.update s.reads i (s.reads i ++ [(s.gateway.fifo i).take k])) := by
  cases a with
  | frame msg => cases h
  | uart alloc =>
    obtain ⟨gateway, hs, h⟩ := Option.bind_eq_some_iff.mp h
    obtain rfl := Option.some_inj.mp h
    refine ⟨fun _ hne => ?_, hs, rfl, rfl, Or.inl ⟨rfl, fun _ _ _ hne => ?_⟩⟩ <;> cases hne
  | transMsg =>
    obtain ⟨gateway, hs, h⟩ := Option.bind_eq_some_iff.mp h
    obtain rfl := Option.some_inj.mp h
    refine ⟨fun _ hne => ?_, hs, rfl, rfl, Or.inl ⟨rfl, fun _ _ _ hne => ?_⟩⟩ <;> cases hne
  | client i k token =>
    obtain ⟨gateway, hs, h⟩ := Option.bind_eq_some_iff.mp h
    obtain rfl := Option.some_inj.mp h
    refine ⟨fun _ hne => ?_, hs, rfl, rfl, Or.inr ⟨i, k, token, rfl, rfl⟩⟩
    cases hne

/-- A step of the gateway alone is one of the whole. -/
theorem gatewayStep_of_step {a : Act} {gateway : TransMsg.State} (ha : ∀ msg, a ≠ .frame msg)
    (h : TransMsg.step (entries paths) s.gateway a = some gateway) :
    ∃ s', gatewayStep paths s a = some s' := by
  cases a with
  | frame msg => exact absurd rfl (ha msg)
  | uart alloc =>
    refine ⟨{ s with gateway := gateway }, ?_⟩
    simp only [gatewayStep, h, Option.bind_eq_bind, Option.bind_some]
  | transMsg =>
    refine ⟨{ s with gateway := gateway }, ?_⟩
    simp only [gatewayStep, h, Option.bind_eq_bind, Option.bind_some]
  | client i k token =>
    refine ⟨{ s with
      gateway := gateway,
      reads := Function.update s.reads i (s.reads i ++ [(s.gateway.fifo i).take k]) }, ?_⟩
    simp only [gatewayStep, h, Option.bind_eq_bind, Option.bind_some]

end Steps

/-! ## The clients -/

/-- What client `i` did: it has read what was written to it, up to what is in its FIFO, and built
    a request with the next number from each read. -/
structure ClientInv (mid : UInt16) (path : List UInt8) (i : Nat) (s : State) : Prop where
  bytes : (s.reads i).flatten ++ s.gateway.fifo i = (s.gateway.written i).flatten
  msgBuf : (s.gateway.clients i).msgBuf.length = msgBufLen
  count : (s.gateway.clients i).built.length = (s.reads i).length
  counter : (s.gateway.clients i).messageIdCounter = mid + UInt16.ofNat (s.reads i).length
  built : ∀ k pdu, (s.gateway.clients i).built[k]? = some pdu → ∃ read token,
    (s.reads i)[k]? = some read ∧
      Encodes pdu (requestOf path (requestPayload path read) (mid + UInt16.ofNat k) token)

section Clients

variable {paths : List (List UInt8)} {path : List UInt8} {i : Nat} {mid : UInt16} {s s' : State}

/-- A step that does not touch the client and its FIFO. -/
theorem ClientInv.frame (h : ClientInv mid path i s) (hreads : s'.reads i = s.reads i)
    (hfifo : s'.gateway.fifo i = s.gateway.fifo i)
    (hwritten : s'.gateway.written i = s.gateway.written i)
    (hclient : s'.gateway.clients i = s.gateway.clients i) : ClientInv mid path i s' where
  bytes := by
    rw [hreads, hfifo, hwritten]
    exact h.bytes
  msgBuf := hclient ▸ h.msgBuf
  count := by
    rw [hclient, hreads]
    exact h.count
  counter := by
    rw [hclient, hreads]
    exact h.counter
  built := by
    rw [hclient, hreads]
    exact h.built

/-- A message is written behind what is in the FIFO. -/
theorem ClientInv.write {msg : Msg} (h : ClientInv mid path i s) (hreads : s'.reads i = s.reads i)
    (hfifo : s'.gateway.fifo i = s.gateway.fifo i ++ msg)
    (hwritten : s'.gateway.written i = s.gateway.written i ++ [msg])
    (hclient : s'.gateway.clients i = s.gateway.clients i) : ClientInv mid path i s' where
  bytes := by
    rw [hreads, hfifo, hwritten, List.flatten_append, List.flatten_singleton, ← h.bytes,
      List.append_assoc]
  msgBuf := hclient ▸ h.msgBuf
  count := by
    rw [hclient, hreads]
    exact h.count
  counter := by
    rw [hclient, hreads]
    exact h.counter
  built := by
    rw [hclient, hreads]
    exact h.built

/-- A turn of the client reads some bytes and builds one request of them. -/
theorem ClientInv.turn {k : Nat} {token : UInt64} (h : ClientInv mid path i s)
    (hpath : paths[i]? = some path) (hle : path.length ≤ 127) (hnul : 0 ∉ path)
    (hreads : s'.reads i = s.reads i ++ [(s.gateway.fifo i).take k])
    (hs : TransMsg.clientStep (entries paths) s.gateway i k token = some s'.gateway) :
    ClientInv mid path i s' := by
  obtain ⟨entry, msgSend, hentry, ⟨hpos, hmax, hfifo⟩, hbuild, hs'⟩ := TransMsg.clientStep_cases hs
  obtain rfl : entry = { path := padded coapPathLen path } := by
    rw [entries, List.getElem?_map, hpath] at hentry
    exact (Option.some_inj.mp hentry).symm
  have hlen : ((s.gateway.fifo i).take k).length = k := by
    rw [List.length_take]
    omega
  have hread := @take_splice _ (s.gateway.clients i).msgBuf ((s.gateway.fifo i).take k) 0
    (Nat.zero_le _)
  rw [Nat.zero_add, List.take_zero, List.nil_append] at hread
  obtain ⟨pdu, hpdu, -, henc⟩ := @buildMessage_eq path ((s.gateway.fifo i).take k)
    (s.gateway.clients i).messageIdCounter token _ hle hnul
    (fun hnil => by rw [hnil, List.length_nil] at hlen; omega) (by omega) hread
  rw [hlen, hbuild] at hpdu
  obtain rfl := Option.some_inj.mp hpdu
  have hclient : s'.gateway.clients i =
      { messageIdCounter := (s.gateway.clients i).messageIdCounter + 1,
        msgBuf := splice (s.gateway.clients i).msgBuf 0 ((s.gateway.fifo i).take k),
        built := (s.gateway.clients i).built ++ [msgSend] } := by
    rw [hs']
    exact Function.update_self ..
  refine ⟨?_, ?_, ?_, ?_, ?_⟩
  · have hrest : s'.gateway.fifo i = (s.gateway.fifo i).drop k := by
      rw [hs']
      exact Function.update_self ..
    have hsame : s'.gateway.written = s.gateway.written := by rw [hs']
    rw [hreads, hrest, hsame, List.flatten_append, List.flatten_singleton, List.append_assoc,
      List.take_append_drop]
    exact h.bytes
  · rw [hclient]
    show (splice _ _ _).length = _
    rw [splice_length, h.msgBuf]
    rw [h.msgBuf, hlen]
    omega
  · rw [hclient, hreads, List.length_append, List.length_append, h.count]
    rfl
  · rw [hclient, hreads, List.length_append, List.length_singleton]
    show (s.gateway.clients i).messageIdCounter + 1 = _
    rw [h.counter, UInt16.ofNat_add, UInt16.add_assoc]
    rfl
  · intro j pdu hj
    rw [hclient] at hj
    rw [hreads]
    rcases Nat.lt_or_ge j (s.gateway.clients i).built.length with hlt | hge
    · -- a request from before
      rw [List.getElem?_append_left hlt] at hj
      obtain ⟨read, token', hget, henc'⟩ := h.built j pdu hj
      refine ⟨read, token', ?_, henc'⟩
      rw [List.getElem?_append_left (h.count ▸ hlt)]
      exact hget
    · -- the new one
      rw [List.getElem?_append_right hge, List.getElem?_singleton] at hj
      split at hj
      · next hzero =>
        obtain rfl := Option.some_inj.mp hj
        have hj' : j = (s.reads i).length := by
          rw [← h.count]
          omega
        subst hj'
        refine ⟨_, token, List.getElem?_concat_length, ?_⟩
        rw [← h.counter]
        exact henc
      · cases hj

end Clients

/-! ## The invariant -/

/-- The reader has read the polls, the messages that it posted went to the queue, and each client
    did what a client does. -/
structure PipeInv (env : Env) (paths : List (List UInt8)) (mid : Nat → UInt16) (s : State) :
    Prop where
  reader : s.reader = uartReadThread env s.polls
  handedOn : s.gateway.enqueued ++ pending s.gateway.uart
    = (s.reader.insertDb.take s.reader.msgQSem).map stringOf
  threads : Delivering (entries paths).length s.gateway
  clients : ∀ i path, paths[i]? = some path → ClientInv (mid i) path i s

section Runs

variable {env : Env} {paths : List (List UInt8)} {mid : Nat → UInt16}
  {msgBuf : Nat → List UInt8} {s s' : State}

theorem pipeInv_init (hbuf : ∀ i, (msgBuf i).length = msgBufLen) :
    PipeInv env paths mid (initState mid msgBuf) where
  reader := rfl
  handedOn := rfl
  threads := delivering_init _ mid msgBuf
  clients := fun i path _ =>
    { bytes := rfl
      msgBuf := hbuf i
      count := rfl
      counter := (UInt16.add_zero (mid i)).symm
      built := fun _ _ h => by cases h }

theorem pollStep_inv {p : Poll} (h : PipeInv env paths mid s) (hs : pollStep env s p = some s') :
    PipeInv env paths mid s' := by
  obtain ⟨hu, hstop, hreader, hpolls, hreads, hcase⟩ := pollStep_cases hs
  have hrun : s'.reader = uartReadThread env s'.polls := by
    rw [hreader, hpolls, uartReadThread_concat, h.reader]
  have hposted : s.reader.msgQSem = s.reader.insertDb.length := by
    rw [h.reader]
    rw [h.reader] at hstop
    exact (reads_of_running hstop).posted
  have hbefore := h.handedOn
  rw [hu] at hbefore
  rcases hcase with ⟨hgateway, hsame, hlog⟩ | ⟨tmpMsg, hlog, hmore, hframe⟩
  · refine ⟨hrun, ?_, hgateway ▸ h.threads, fun i path hpath => ?_⟩
    · rw [hgateway, hu, hbefore, take_msgQSem_logged hposted hlog hsame]
    · refine (h.clients i path hpath).frame (congrFun hreads i) ?_ ?_ ?_ <;> rw [hgateway]
  · obtain ⟨-, hgateway⟩ := TransMsg.frameStep_cases hframe
    refine ⟨hrun, ?_, step_delivering h.threads (a := .frame (stringOf tmpMsg)) trivial hframe,
      fun i path hpath => ?_⟩
    · rw [take_msgQSem_posted hposted hlog hmore, List.map_append, ← hbefore, hgateway]
      exact congrArg (· ++ [stringOf tmpMsg]) (List.append_nil _).symm
    · refine (h.clients i path hpath).frame (congrFun hreads i) ?_ ?_ ?_ <;> rw [hgateway]

/-- The steps of the threads and clients, one client at a time. -/
theorem gatewayStep_clients {a : Act} {i : Nat} {path : List UInt8} (hpath : paths[i]? = some path)
    (hle : path.length ≤ 127) (hnul : 0 ∉ path) (h : ClientInv (mid i) path i s)
    (hs : gatewayStep paths s a = some s') : ClientInv (mid i) path i s' := by
  obtain ⟨hframe, hstep, -, -, hreads⟩ := gatewayStep_cases hs
  cases a with
  | frame msg => exact absurd rfl (hframe msg)
  | uart alloc =>
    obtain ⟨hclients, hfifo, hwritten, -⟩ := TransMsg.uartStep_frame hstep
    rcases hreads with ⟨hreads, -⟩ | ⟨i, k, token, heq, -⟩
    · exact h.frame (congrFun hreads i) (congrFun hfifo i) (congrFun hwritten i)
        (congrFun hclients i)
    · cases heq
  | transMsg =>
    obtain ⟨hclients, -, -, ⟨hfifo, hwritten⟩ | ⟨ptr, msg, -, -, hfifo, hwritten⟩⟩ :=
      TransMsg.transMsgStep_frame hstep
    · rcases hreads with ⟨hreads, -⟩ | ⟨i, k, token, heq, -⟩
      · exact h.frame (congrFun hreads i) (congrFun hfifo i) (congrFun hwritten i)
          (congrFun hclients i)
      · cases heq
    · rcases hreads with ⟨hreads, -⟩ | ⟨i, k, token, heq, -⟩
      · by_cases hi : i = ptr
        · subst hi
          refine @ClientInv.write _ _ _ _ _ msg h (congrFun hreads i) ?_ ?_ (congrFun hclients i)
          · rw [hfifo, Function.update_self]
          · rw [hwritten, Function.update_self]
        · refine h.frame (congrFun hreads i) ?_ ?_ (congrFun hclients i)
          · rw [hfifo, Function.update_of_ne hi]
          · rw [hwritten, Function.update_of_ne hi]
      · cases heq
  | client j k token =>
    rcases hreads with ⟨-, hnot⟩ | ⟨j', k', token', heq, hreads⟩
    · exact absurd rfl (hnot j k token)
    · cases heq
      by_cases hi : i = j
      · subst hi
        refine h.turn hpath hle hnul ?_ hstep
        rw [hreads, Function.update_self]
      · -- another client
        obtain ⟨entry, msgSend, -, -, -, hgateway⟩ := TransMsg.clientStep_cases hstep
        refine h.frame ?_ ?_ ?_ ?_
        · rw [hreads, Function.update_of_ne hi]
        · rw [hgateway]
          exact Function.update_of_ne hi _ _
        · rw [hgateway]
        · rw [hgateway]
          exact Function.update_of_ne hi _ _

theorem gatewayStep_inv {a : Act} (hpaths : ∀ path ∈ paths, path.length ≤ 127 ∧ 0 ∉ path)
    (ha : QueueOrder.Allocates a) (h : PipeInv env paths mid s)
    (hs : gatewayStep paths s a = some s') : PipeInv env paths mid s' := by
  obtain ⟨hframe, hstep, hreader, hpolls, -⟩ := gatewayStep_cases hs
  have hquiet : Delivery.Quiet a := by
    cases a with
    | frame msg => exact absurd rfl (hframe msg)
    | uart alloc => exact ha
    | _ => trivial
  obtain ⟨hthreads, hhanded⟩ := (Delivery.terminating hpaths _).keeps s.gateway a s'.gateway
    ⟨h.threads, h.handedOn⟩ hquiet hstep
  refine ⟨?_, hreader ▸ hhanded, hthreads, fun i path hpath => ?_⟩
  · rw [hreader, hpolls]
    exact h.reader
  · obtain ⟨hle, hnul⟩ := hpaths path (List.mem_of_getElem? hpath)
    exact gatewayStep_clients hpath hle hnul (h.clients i path hpath) hs

theorem step_inv {a : Step} (hpaths : ∀ path ∈ paths, path.length ≤ 127 ∧ 0 ∉ path)
    (ha : Allocates a) (h : PipeInv env paths mid s) (hs : step env paths s a = some s') :
    PipeInv env paths mid s' := by
  cases a with
  | poll p => exact pollStep_inv h hs
  | gateway a => exact gatewayStep_inv hpaths ha h hs

theorem reachable_pipeInv (hpaths : ∀ path ∈ paths, path.length ≤ 127 ∧ 0 ∉ path)
    (hbuf : ∀ i, (msgBuf i).length = msgBufLen)
    (h : Reachable (step env paths) (fun _ => Allocates) (initState mid msgBuf) s) :
    PipeInv env paths mid s :=
  h.invariant (pipeInv_init hbuf) fun _ _ _ hinv ha hs => step_inv hpaths ha hinv hs

/-- Whatever was received, what went to the queue is a first part of the messages of the
    stream. -/
theorem PipeInv.enqueued_isPrefix (h : PipeInv env paths mid s) :
    s.gateway.enqueued ++ pending s.gateway.uart <+: messages (received s.polls) := by
  rw [h.handedOn, h.reader, messages_eq]
  exact ((List.take_prefix _ _).trans (uartReadThread_handedOn env s.polls).logged).map stringOf

/-- Each client has read the bytes of a first part of the messages. -/
theorem PipeInv.reads_isPrefix (h : PipeInv env paths mid s) {i : Nat} {path : List UInt8}
    (hpath : paths[i]? = some path) :
    (s.reads i).flatten <+: (messages (received s.polls)).flatten := by
  obtain ⟨q, hq, -⟩ := h.threads.queue
  have hwritten : s.gateway.written i <+: messages (received s.polls) := by
    refine List.IsPrefix.trans ?_ h.enqueued_isPrefix
    rw [hq.order, List.append_assoc]
    exact (hq.written_isPrefix (entries_lt hpath)).trans (List.prefix_append _ _)
  have hread : (s.reads i).flatten <+: (s.gateway.written i).flatten :=
    ⟨_, (h.clients i path hpath).bytes⟩
  exact hread.trans hwritten.flatten

/-- The reader's buffer and the statements of `Insert_db` can hold the stream. -/
structure StreamFits (stream : List UInt8) : Prop where
  segs : ∀ seg ∈ segments uartEndFlag stream, seg.length ≤ uartRdBufSize
  statements : StatementsFit stream

/-- With memory for the reader's messages, all messages of a stream that fits went to the queue. -/
theorem PipeInv.enqueued {times : Nat → Tm} {tmpMsgOk newElementOk : Nat → Bool}
    (h : PipeInv (gatewayEnv times tmpMsgOk newElementOk) paths mid s)
    (htmp : ∀ k, tmpMsgOk k = true) (hfits : StreamFits (received s.polls)) :
    s.gateway.enqueued ++ pending s.gateway.uart = messages (received s.polls) := by
  obtain ⟨hall, hposted, -⟩ :=
    @gateway_all_posted times _ newElementOk _ htmp hfits.segs hfits.statements
  rw [h.handedOn, h.reader, hposted, List.take_length, hall, messages_eq]

/-- In every state that is reached while the nodes of the list can be allocated, whatever the
    order of the polls and of the steps of the threads and clients, and however the bytes are split
    up by polls and reads: a first part of the messages of the stream was enqueued in their order,
    but for the one that is on its way, and all of them when the stream fits and there was memory
    for the reader's messages; each client has read the bytes of a first part of them, without a
    gap; and its k-th datagram is a request for its path, with the k-th number and as payload what
    its k-th read returned, or none where that does not fit into the datagram. -/
theorem pipeline_safe {times : Nat → Tm} {tmpMsgOk newElementOk : Nat → Bool}
    (hpaths : ∀ path ∈ paths, path.length ≤ 127 ∧ 0 ∉ path)
    (hbuf : ∀ i, (msgBuf i).length = msgBufLen)
    (h : Reachable (step (gatewayEnv times tmpMsgOk newElementOk) paths) (fun _ => Allocates)
      (initState mid msgBuf) s) :
    s.gateway.enqueued ++ pending s.gateway.uart <+: messages (received s.polls) ∧
      ((∀ k, tmpMsgOk k = true) → StreamFits (received s.polls) →
        s.gateway.enqueued ++ pending s.gateway.uart = messages (received s.polls)) ∧
      ∀ i path, paths[i]? = some path →
        (s.reads i).flatten <+: (messages (received s.polls)).flatten ∧
        (s.gateway.clients i).built.length = (s.reads i).length ∧
        ∀ k pdu, (s.gateway.clients i).built[k]? = some pdu → ∃ read token,
          (s.reads i)[k]? = some read ∧
            Encodes pdu (requestOf path (requestPayload path read) (mid i + UInt16.ofNat k) token) := by
  have hinv := reachable_pipeInv hpaths hbuf h
  refine ⟨hinv.enqueued_isPrefix, hinv.enqueued, fun i path hpath => ?_⟩
  have hclient := hinv.clients i path hpath
  exact ⟨hinv.reads_isPrefix hpath, hclient.count, hclient.built⟩

/-- A frame in two bursts, which is then written to the FIFO of the client. -/
def oneFrame : List Step :=
  [.poll (.data 0x24), .poll (.data 0x31), .poll .timeout, .poll (.data 0x26),
    .gateway (.uart (some 1)), .gateway (.uart (some 1)), .gateway (.uart (some 1)),
    .gateway (.uart (some 1)), .gateway .transMsg, .gateway .transMsg, .gateway .transMsg,
    .gateway .transMsg, .gateway .transMsg, .gateway .transMsg]

/-- The start with one client, for the path `a`. -/
def oneClient : State := initState (fun _ => 7) fun _ => List.replicate msgBufLen 0

theorem oneFrame_reaches :
    ∃ s, exec (step newYearEnv [[0x61]]) oneClient oneFrame = some s ∧
      s.gateway.fifo 0 = [0x24, 0x31, 0x26] ∧ s.reads 0 = [] ∧
      received s.polls = [0x24, 0x31, 0x26] ∧ (s.gateway.clients 0).built = [] := by
  have hrun : (exec (step newYearEnv [[0x61]]) oneClient oneFrame).map (fun s =>
      (s.gateway.fifo 0, s.reads 0, received s.polls, (s.gateway.clients 0).built.length))
        = some ([0x24, 0x31, 0x26], [], [0x24, 0x31, 0x26], 0) := by decide +kernel
  obtain ⟨s, hs, hdata⟩ := Option.map_eq_some_iff.mp hrun
  simp only [Prod.mk.injEq] at hdata
  obtain ⟨hfifo, hreads, hreceived, hbuilt⟩ := hdata
  exact ⟨s, hs, hfifo, hreads, hreceived, List.eq_nil_of_length_eq_zero hbuilt⟩

theorem oneFrame_reachable {s : State}
    (h : exec (step newYearEnv [[0x61]]) oneClient oneFrame = some s) :
    Reachable (step newYearEnv [[0x61]]) (fun _ => Allocates) oneClient s :=
  Reachable.init.exec (by simp [oneFrame, Allocates, QueueOrder.Allocates]) h

theorem onePath_sound : ∀ path ∈ [[(0x61 : UInt8)]], path.length ≤ 127 ∧ (0 : UInt8) ∉ path := by
  decide

/-- The client has read two of the three bytes. -/
theorem pipeline_safe_oneFrame :
    ∃ (s : State) (pdu : CoapClient.Picocoap.CoapPdu) (token : UInt64),
      s.reads 0 = [[0x24, 0x31]] ∧ [0x24, 0x31] <+: (messages [0x24, 0x31, 0x26]).flatten ∧
        (s.gateway.clients 0).built = [pdu] ∧
        Encodes pdu (requestOf [0x61] [0x24, 0x31] 7 token) := by
  obtain ⟨s, hrun, hfifo, hnone, hreceived, hbuilt⟩ := oneFrame_reaches
  obtain ⟨gateway, hclient⟩ := @clientStep_enabled [[0x61]] [0x61] 0 s.gateway 2 7 rfl (by decide)
    (by decide) (by decide) (by decide) (by rw [hfifo]; decide)
  obtain ⟨s', hstep⟩ := @gatewayStep_of_step [[0x61]] s (.client 0 2 7) gateway
    (fun _ hne => by cases hne) hclient
  have halloc : Allocates (.gateway (.client 0 2 7)) := trivial
  have hreach := (oneFrame_reachable hrun).step halloc hstep
  obtain ⟨-, hgateway, -, hpolls, ⟨-, hnot⟩ | ⟨i, k, token, heq, hreads⟩⟩ := gatewayStep_cases hstep
  · exact absurd rfl (hnot 0 2 7)
  cases heq
  have hread : s'.reads 0 = [[0x24, 0x31]] := by
    rw [hreads, Function.update_self, hnone, hfifo]
    rfl
  have hstream : received s'.polls = [0x24, 0x31, 0x26] := by
    rw [hpolls]
    exact hreceived
  obtain ⟨-, -, hclients⟩ := pipeline_safe onePath_sound (fun _ => List.length_replicate) hreach
  obtain ⟨hstart, hcount, hrequests⟩ := hclients 0 [0x61] rfl
  rw [hread] at hcount
  obtain ⟨pdu, hpdu⟩ := List.length_eq_one_iff.mp hcount
  obtain ⟨read, token, hget, henc⟩ := hrequests 0 pdu (by rw [hpdu]; rfl)
  rw [hread] at hget hstart
  obtain rfl := Option.some_inj.mp hget
  rw [hstream] at hstart
  exact ⟨s', pdu, token, hread, hstart, hpdu, henc⟩

/-- The steps of the threads and clients, as steps of the whole. -/
theorem terminating (hpaths : ∀ path ∈ paths, path.length ≤ 127 ∧ 0 ∉ path) (polls : List Poll) :
    Terminating (step env paths) (fun s => PipeInv env paths mid s ∧ s.polls = polls)
      (fun _ => Quiet) (fun s => Idle (entries paths).length s.gateway)
      (fun s => work (entries paths).length s.gateway) where
  keeps := by
    rintro s a s' ⟨hinv, hpolls⟩ ha hs
    cases a with
    | poll p => exact ha.elim
    | gateway a =>
      have halloc : QueueOrder.Allocates a := by
        cases a with
        | uart alloc => exact ha
        | _ => trivial
      obtain ⟨-, -, -, hsame, -⟩ := gatewayStep_cases hs
      exact ⟨gatewayStep_inv hpaths halloc hinv hs, hsame.trans hpolls⟩
  lowers := by
    rintro s a s' ⟨hinv, -⟩ ha hs
    cases a with
    | poll p => exact ha.elim
    | gateway a =>
      obtain ⟨-, hstep, -⟩ := gatewayStep_cases hs
      exact (Delivery.terminating hpaths _).lowers s.gateway a s'.gateway ⟨hinv.threads, rfl⟩ ha hstep
  enabled := by
    rintro s ⟨hinv, -⟩ hbusy
    obtain ⟨a, gateway, ha, hstep⟩ := hinv.threads.enabled hpaths hbusy
    have hframe : ∀ msg, a ≠ .frame msg := by
      rintro msg rfl
      exact ha
    obtain ⟨s', hs'⟩ := @gatewayStep_of_step _ s _ _ hframe hstep
    exact ⟨.gateway a, s', ha, hs'⟩

end Runs

end Gateway.User.Pipeline
