/-
  Gateway.User.FifoStream

  What the messages of a client carry, compared with what was dispatched to it.

  The dispatcher writes messages, but the FIFO is a stream of bytes, and the client
  takes whatever one `read` returns for a message.  As long as each read returns
  just the bytes of one message, the payloads that the client builds are the
  dispatched messages in their order; the first read that returns more or less
  breaks this for good (`payloads_isPrefix_iff`).
-/

import Gateway.User.QueueOrder

namespace Gateway.User.FifoStream

open Gateway.Lib.ByteWindow Gateway.Lib.CString Gateway.Lib.CoapFormat Gateway.Lib.Transition
open Gateway.Lib.NodeChain (Addr)
open Gateway.CoapClient.PduSpec Gateway.CoapClient.Request
open Gateway.User.TransMsg Gateway.User.QueueOrder

/-! ## Payloads and messages -/

/-- The entries of `iplist` for these paths. -/
def entries (paths : List (List UInt8)) : List CoapIP :=
  paths.map fun path => { path := padded coapPathLen path }

/-- The payloads of the messages that the client of entry `i` built. -/
def payloads (i : Nat) (s : State) : List Msg := (s.clients i).built.map payloadOf

/-- A message that the UART thread enqueues is not empty, as it starts with `$`; with the path
    it fits in one datagram. -/
def Sendable (path : List UInt8) (msg : Msg) : Prop :=
  msg ≠ [] ∧ requestSize path msg ≤ msgBufLen

/-- The frames of the run can be sent to the client. -/
def FramesFit (path : List UInt8) : Act → Prop
  | .frame msg => Sendable path msg
  | _ => True

/-- A read of client `i` returns as many bytes as the oldest message has that it has not read. -/
def OneMessage (i : Nat) (s : State) : Act → Prop
  | .client j k _ =>
    j = i → ((s.written i)[(s.clients i).built.length]?).map List.length = some k
  | _ => True

/-- The dispatcher writes to client `i` only when its FIFO is empty, and a read of the client
    returns all that is there. -/
def Drained (i : Nat) (s : State) : Act → Prop
  | .client j k _ => j = i → k = (s.fifo i).length
  | .transMsg => s.trans = .write i → s.fifo i = []
  | _ => True

/-! ## The invariant -/

/-- The client built the first of the messages written to it; the FIFO holds the others. -/
structure StreamInv (paths : List (List UInt8)) (path : List UInt8) (i : Nat) (s : State) :
    Prop where
  queue : ∃ q, QueueInv (entries paths).length s q
  enqueued : ∀ msg ∈ s.enqueued, Sendable path msg
  tmpMsg : ∀ msg, s.uart = .lock msg ∨ s.uart = .enqueue msg → Sendable path msg
  msgBuf : (s.clients i).msgBuf.length = msgBufLen
  stream : ∃ left, s.written i = payloads i s ++ left ∧ s.fifo i = left.flatten

section Steps

variable {paths : List (List UInt8)} {path : List UInt8} {i : Nat} {s s' : State} {a : Act}

/-- The entry of a path. -/
theorem entries_lt (hpath : paths[i]? = some path) : i < (entries paths).length := by
  rw [entries, List.length_map]
  exact (List.getElem?_eq_some_iff.mp hpath).1

/-- What was built so far came first in what was dispatched. -/
theorem StreamInv.payloads_isPrefix (h : StreamInv paths path i s) (hi : i < (entries paths).length) :
    payloads i s <+: s.dispatched := by
  obtain ⟨q, hq⟩ := h.queue
  obtain ⟨left, hwritten, -⟩ := h.stream
  have hbuilt : payloads i s <+: s.written i := ⟨left, hwritten.symm⟩
  exact hbuilt.trans (hq.written_isPrefix hi)

/-- A message written to the client was enqueued. -/
theorem StreamInv.sendable (h : StreamInv paths path i s) (hi : i < (entries paths).length)
    {msg : Msg} (hmem : msg ∈ s.written i) : Sendable path msg := by
  obtain ⟨q, hq⟩ := h.queue
  refine h.enqueued msg ?_
  rw [hq.order]
  exact List.mem_append_left _ ((hq.written_isPrefix hi).subset hmem)

/-- What was written and not read is sendable. -/
theorem StreamInv.sendable_left (h : StreamInv paths path i s) (hi : i < (entries paths).length)
    {left : List Msg} (hleft : s.written i = payloads i s ++ left) {msg : Msg} (hmem : msg ∈ left) :
    Sendable path msg := by
  refine h.sendable hi ?_
  rw [hleft]
  exact List.mem_append_right _ hmem

/-- An empty FIFO: everything was read, as no message is empty. -/
theorem StreamInv.left_nil (h : StreamInv paths path i s) (hi : i < (entries paths).length)
    {left : List Msg} (hleft : s.written i = payloads i s ++ left) (hempty : left.flatten = []) :
    left = [] := by
  cases left with
  | nil => rfl
  | cons msg rest =>
    have hne := (h.sendable_left hi hleft (List.mem_cons_self ..)).1
    rw [List.flatten_cons, List.append_eq_nil_iff] at hempty
    exact absurd hempty.1 hne

/-- The request of a client turn: its payload is what was read, or nothing. -/
theorem client_payloads {k : Nat} {token : UInt64} (hpath : paths[i]? = some path)
    (hle : path.length ≤ 127) (hnul : 0 ∉ path)
    (hs : clientStep (entries paths) s i k token = some s') :
    0 < k ∧ k ≤ (s.fifo i).length ∧
      payloads i s' = payloads i s ++ [requestPayload path ((s.fifo i).take k)] := by
  obtain ⟨entry, msgSend, hentry, ⟨hpos, hmax, hfifo⟩, hbuild, rfl⟩ := clientStep_cases hs
  obtain rfl : entry = { path := padded coapPathLen path } := by
    rw [entries, List.getElem?_map, hpath] at hentry
    exact (Option.some_inj.mp hentry).symm
  have hlen : ((s.fifo i).take k).length = k := by
    rw [List.length_take]
    omega
  have hread : (splice (s.clients i).msgBuf 0 ((s.fifo i).take k)).take
      ((s.fifo i).take k).length = (s.fifo i).take k := by
    have htake := @take_splice _ (s.clients i).msgBuf ((s.fifo i).take k) 0 (Nat.zero_le _)
    rwa [Nat.zero_add, List.take_zero, List.nil_append] at htake
  obtain ⟨pdu, hpdu, -, henc⟩ := @buildMessage_eq path ((s.fifo i).take k)
    (s.clients i).messageIdCounter token _ hle hnul
    (fun hnil => by rw [hnil, List.length_nil] at hlen; omega) (by omega) hread
  rw [hlen, hbuild] at hpdu
  obtain rfl := Option.some_inj.mp hpdu
  refine ⟨hpos, hfifo, ?_⟩
  simp only [payloads, Function.update_self, List.map_append, List.map_cons, List.map_nil,
    henc.payloadOf]
  rfl

/-- The oldest message that the client has not read. -/
theorem oldest_eq {left : List Msg} (hleft : s.written i = payloads i s ++ left) :
    (s.written i)[(s.clients i).built.length]? = left.head? := by
  have hlen : (payloads i s).length = (s.clients i).built.length := List.length_map _
  rw [hleft, ← hlen, List.getElem?_append_right (Nat.le_refl _), Nat.sub_self,
    List.head?_eq_getElem?]

/-- A step of the dispatcher writes at most one message, behind what the client has not read. -/
theorem StreamInv.left_of_transMsg (h : StreamInv paths path i s)
    (hs : transMsgStep (entries paths) s = some s') :
    ∃ left, s'.written i = payloads i s ++ left ∧ s'.fifo i = left.flatten := by
  obtain ⟨left, hleft, hfifo⟩ := h.stream
  obtain ⟨-, -, -, ⟨hf, hw⟩ | ⟨ptr, msg, -, -, hf, hw⟩⟩ := transMsgStep_frame hs
  · exact ⟨left, by rw [hw, hf]; exact ⟨hleft, hfifo⟩⟩
  · rw [hw, hf]
    by_cases hi : i = ptr
    · subst hi
      refine ⟨left ++ [msg], ?_, ?_⟩
      · rw [Function.update_self, hleft, List.append_assoc]
      · rw [Function.update_self, hfifo, List.flatten_append, List.flatten_singleton]
    · -- the message is for another client
      rw [Function.update_of_ne hi, Function.update_of_ne hi]
      exact ⟨left, hleft, hfifo⟩

/-- What the UART thread enqueues was in `tmpMsg`. -/
theorem StreamInv.enqueued_of_uart {alloc : Option Addr} (h : StreamInv paths path i s)
    (hs : uartStep s alloc = some s') : ∀ msg ∈ s'.enqueued, Sendable path msg := by
  intro m hm
  obtain ⟨-, -, -, -, -, -, henq | ⟨msg, hu, henq⟩, -⟩ := uartStep_frame hs
  · exact h.enqueued m (henq ▸ hm)
  · rw [henq, List.mem_append, List.mem_singleton] at hm
    rcases hm with hm | rfl
    · exact h.enqueued m hm
    · exact h.tmpMsg m (Or.inr hu)

/-- The steps of the threads keep the stream, whatever they are. -/
theorem step_stream (h : StreamInv paths path i s) (ha : FramesFit path a)
    (hclient : ∀ k token, a ≠ .client i k token) (hs : step (entries paths) s a = some s') :
    StreamInv paths path i s' := by
  obtain ⟨q, hq⟩ := h.queue
  obtain ⟨q', hq', -⟩ := step_inv hq hs
  -- only the frame that comes in is new in `tmpMsg`, and only `enqueue` moves it on
  cases a with
  | frame msg =>
    obtain ⟨-, rfl⟩ := frameStep_cases hs
    refine ⟨⟨q', hq'⟩, h.enqueued, fun m hm => ?_, h.msgBuf, h.stream⟩
    rcases hm with hm | hm
    · obtain rfl := UartPc.lock.inj hm
      exact ha
    · cases hm
  | uart alloc =>
    obtain ⟨hclients, hfifo, hwritten, -, -, -, -, htmp⟩ := uartStep_frame hs
    refine ⟨⟨q', hq'⟩, h.enqueued_of_uart hs, fun m hm => h.tmpMsg m (Or.inl (htmp m hm)), ?_, ?_⟩
    · rw [hclients]
      exact h.msgBuf
    · obtain ⟨left, hleft⟩ := h.stream
      refine ⟨left, ?_⟩
      rw [payloads, hclients, hfifo, hwritten]
      exact hleft
  | transMsg =>
    obtain ⟨hclients, henq, hu, -⟩ := transMsgStep_frame hs
    refine ⟨⟨q', hq'⟩, henq ▸ h.enqueued, hu ▸ h.tmpMsg, hclients ▸ h.msgBuf, ?_⟩
    rw [payloads, hclients]
    exact h.left_of_transMsg hs
  | client j k token =>
    -- another client
    obtain ⟨entry, msgSend, -, -, -, rfl⟩ := clientStep_cases hs
    have hj : i ≠ j := by
      intro heq
      exact hclient k token (heq ▸ rfl)
    refine ⟨⟨q', hq'⟩, h.enqueued, h.tmpMsg, ?_, ?_⟩
    · simp only [Function.update_of_ne hj]
      exact h.msgBuf
    · simp only [payloads, Function.update_of_ne hj]
      exact h.stream

/-- Reading one message. -/
theorem client_oneMessage {k : Nat} {token : UInt64} (h : StreamInv paths path i s)
    (hpath : paths[i]? = some path) (hle : path.length ≤ 127) (hnul : 0 ∉ path)
    (hone : OneMessage i s (.client i k token))
    (hs : clientStep (entries paths) s i k token = some s') : StreamInv paths path i s' := by
  obtain ⟨q, hq⟩ := h.queue
  obtain ⟨left, hleft, hfifo⟩ := h.stream
  obtain ⟨-, -, hpayloads⟩ := client_payloads hpath hle hnul hs
  obtain ⟨hq', -⟩ := clientStep_inv hq hs
  have hi := entries_lt hpath
  have hhead := hone rfl
  rw [oldest_eq hleft] at hhead
  cases left with
  | nil => cases hhead
  | cons msg rest =>
    obtain rfl : msg.length = k := Option.some_inj.mp hhead
    have hfit := h.sendable_left hi hleft (List.mem_cons_self ..)
    rw [List.flatten_cons] at hfifo
    rw [hfifo, List.take_left, requestPayload, if_pos hfit.2] at hpayloads
    obtain ⟨entry, msgSend, -, ⟨-, hmax, -⟩, -, rfl⟩ := clientStep_cases hs
    refine ⟨⟨q, hq'⟩, h.enqueued, h.tmpMsg, ?_, rest, ?_, ?_⟩
    · simp only [Function.update_self]
      rw [splice_length, h.msgBuf]
      rw [h.msgBuf, List.length_take]
      omega
    · rw [hpayloads]
      show s.written i = _
      rw [hleft, List.append_assoc]
      rfl
    · simp only [Function.update_self]
      rw [hfifo, List.drop_left]

/-- Reading more or less than one message. -/
theorem client_not_oneMessage {k : Nat} {token : UInt64} (h : StreamInv paths path i s)
    (hpath : paths[i]? = some path) (hle : path.length ≤ 127) (hnul : 0 ∉ path)
    (hone : ¬ OneMessage i s (.client i k token))
    (hs : clientStep (entries paths) s i k token = some s') :
    ¬ payloads i s' <+: s'.dispatched := by
  intro hbuilt
  obtain ⟨q, hq⟩ := h.queue
  obtain ⟨left, hleft, hfifo⟩ := h.stream
  obtain ⟨hpos, hk, hpayloads⟩ := client_payloads hpath hle hnul hs
  have hi := entries_lt hpath
  have hdisp : s'.dispatched = s.dispatched := by
    obtain ⟨entry, msgSend, -, -, -, rfl⟩ := clientStep_cases hs
    rfl
  have hwritten := hq.written_isPrefix hi
  rw [hpayloads, hdisp] at hbuilt
  cases left with
  | nil =>
    rw [hfifo, List.flatten_nil, List.length_nil] at hk
    omega
  | cons msg rest =>
    have hfit := h.sendable_left hi hleft (List.mem_cons_self ..)
    -- the next payload stands where the oldest message does
    have heq : requestPayload path ((s.fifo i).take k) = msg := by
      obtain ⟨t, ht⟩ := hbuilt
      obtain ⟨u, hu⟩ := hwritten
      rw [hleft, ← ht, List.append_assoc, List.append_assoc] at hu
      exact (List.cons_eq_cons.mp (List.append_cancel_left hu)).1.symm
    unfold requestPayload at heq
    split at heq
    · refine hone fun _ => ?_
      rw [oldest_eq hleft, ← heq]
      have hlen : ((s.fifo i).take k).length = k := by
        rw [List.length_take]
        omega
      exact congrArg some hlen
    · exact hfit.1 heq.symm

end Steps

/-! ## Runs -/

section Runs

variable {paths : List (List UInt8)} {path : List UInt8} {i : Nat}
variable {mid : Nat → UInt16} {msgBuf : Nat → List UInt8} {acts : List Act}

theorem stream_init (hbuf : (msgBuf i).length = msgBufLen) :
    StreamInv paths path i (initState mid msgBuf) where
  queue := ⟨[], queueInv_init _ mid msgBuf⟩
  enqueued := fun _ hm => absurd hm List.not_mem_nil
  tmpMsg := fun _ hm => by rcases hm with hm | hm <;> cases hm
  msgBuf := hbuf
  stream := ⟨[], rfl, rfl⟩

/-- A step that reads one message, if it reads from this FIFO. -/
theorem step_oneMessage {s s' : State} {a : Act} (hpath : paths[i]? = some path)
    (hle : path.length ≤ 127) (hnul : 0 ∉ path) (h : StreamInv paths path i s)
    (ha : FramesFit path a) (hs : step (entries paths) s a = some s') (hone : OneMessage i s a) :
    StreamInv paths path i s' := by
  by_cases hclient : ∃ k token, a = .client i k token
  · obtain ⟨k, token, rfl⟩ := hclient
    exact client_oneMessage h hpath hle hnul hone hs
  · exact step_stream h ha (fun k token heq => hclient ⟨k, token, heq⟩) hs

/-- The client builds what was dispatched as long as it reads one message at a time. -/
theorem payloads_iff (hpath : paths[i]? = some path) (hle : path.length ≤ 127) (hnul : 0 ∉ path)
    (hbuf : (msgBuf i).length = msgBufLen) (hframes : ∀ a ∈ acts, FramesFit path a)
    (hrun : exec (step (entries paths)) (initState mid msgBuf) acts ≠ none) :
    AllStates (step (entries paths)) (fun s => payloads i s <+: s.dispatched)
        (initState mid msgBuf) acts ↔
      AllSteps (step (entries paths)) (OneMessage i) (initState mid msgBuf) acts := by
  have hi := entries_lt hpath
  refine @allStates_iff_allSteps _ _ _ (StreamInv paths path i) _ _ (FramesFit path)
    (fun s h => h.payloads_isPrefix hi)
    (fun s a s' h ha hs hone => step_oneMessage hpath hle hnul h ha hs hone)
    (fun s a s' h hs hone => ?_) _ _ (stream_init hbuf) hframes hrun
  cases a with
  | client j k token =>
    by_cases hj : j = i
    · subst hj
      exact client_not_oneMessage h hpath hle hnul hone hs
    · exact absurd (fun heq => absurd heq hj) hone
  | _ => exact absurd trivial hone

/-- At most one message was written that was not read. -/
def AtMostOne (i : Nat) (s : State) : Prop :=
  (s.written i).length ≤ (s.clients i).built.length + 1

/-- At most one message is in the FIFO. -/
theorem AtMostOne.left_length {s : State} {left : List Msg} (h : AtMostOne i s)
    (hleft : s.written i = payloads i s ++ left) : left.length ≤ 1 := by
  have hbuilt : (payloads i s).length = (s.clients i).built.length := List.length_map _
  have hlen := congrArg List.length hleft
  unfold AtMostOne at h
  rw [List.length_append] at hlen
  omega

/-- A write to an empty FIFO. -/
theorem transMsg_drained {s s' : State} (hi : i < (entries paths).length)
    (h : StreamInv paths path i s) (hle : AtMostOne i s)
    (hs : transMsgStep (entries paths) s = some s') (hd : Drained i s .transMsg) :
    AtMostOne i s' := by
  obtain ⟨left, hleft, hfifo⟩ := h.stream
  have hbuilt : (payloads i s).length = (s.clients i).built.length := List.length_map _
  obtain ⟨hclients, -, -, ⟨-, hwritten⟩ | ⟨ptr, msg, hptr, -, -, hwritten⟩⟩ := transMsgStep_frame hs
  · rw [AtMostOne, hclients, hwritten]
    exact hle
  · rw [AtMostOne, hclients, hwritten]
    by_cases hi' : i = ptr
    · -- the FIFO is empty, so everything was read
      subst hi'
      have hnil : left = [] := h.left_nil hi hleft (hfifo ▸ hd hptr)
      rw [Function.update_self, List.length_append, hleft, hnil, List.append_nil, hbuilt]
      exact Nat.le_refl _
    · rw [Function.update_of_ne hi']
      exact hle

/-- A read that empties a FIFO with at most one message in it. -/
theorem client_drained {s s' : State} {k : Nat} {token : UInt64} (h : StreamInv paths path i s)
    (hle : AtMostOne i s) (hs : clientStep (entries paths) s i k token = some s')
    (hall : k = (s.fifo i).length) :
    (s.written i)[(s.clients i).built.length]?.map List.length = some k ∧ AtMostOne i s' := by
  obtain ⟨left, hleft, hfifo⟩ := h.stream
  have hcount := hle.left_length hleft
  obtain ⟨entry, msgSend, -, ⟨hpos, -, hk⟩, -, rfl⟩ := clientStep_cases hs
  constructor
  · -- the one message that is left is all that is in the FIFO
    rw [oldest_eq hleft]
    match left, hcount with
    | [], _ =>
      rw [hfifo, List.flatten_nil, List.length_nil] at hk
      omega
    | [msg], _ =>
      rw [hall, hfifo, List.flatten_singleton]
      rfl
  · unfold AtMostOne at hle ⊢
    simp only [Function.update_self, List.length_append, List.length_singleton]
    omega

/-- A FIFO that is drained before each write and by each read holds one message at most. -/
theorem step_drained {s s' : State} {a : Act} (hpath : paths[i]? = some path)
    (h : StreamInv paths path i s) (hle : AtMostOne i s)
    (hs : step (entries paths) s a = some s') (hd : Drained i s a) :
    OneMessage i s a ∧ AtMostOne i s' := by
  cases a with
  | frame msg =>
    obtain ⟨-, rfl⟩ := frameStep_cases hs
    exact ⟨trivial, hle⟩
  | uart alloc =>
    obtain ⟨hclients, -, hwritten, -⟩ := uartStep_frame hs
    refine ⟨trivial, ?_⟩
    rw [AtMostOne, hclients, hwritten]
    exact hle
  | transMsg => exact ⟨trivial, transMsg_drained (entries_lt hpath) h hle hs hd⟩
  | client j k token =>
    by_cases hj : j = i
    · subst hj
      obtain ⟨hone, hmost⟩ := client_drained h hle hs (hd rfl)
      exact ⟨fun _ => hone, hmost⟩
    · obtain ⟨entry, msgSend, -, -, -, rfl⟩ := clientStep_cases hs
      refine ⟨fun heq => absurd heq hj, ?_⟩
      unfold AtMostOne at hle ⊢
      simp only [Function.update_of_ne (Ne.symm hj)]
      exact hle

theorem oneMessage_of_drained (hpath : paths[i]? = some path) (hle : path.length ≤ 127)
    (hnul : 0 ∉ path) (hbuf : (msgBuf i).length = msgBufLen)
    (hframes : ∀ a ∈ acts, FramesFit path a)
    (hrun : exec (step (entries paths)) (initState mid msgBuf) acts ≠ none)
    (hdrained : AllSteps (step (entries paths)) (Drained i) (initState mid msgBuf) acts) :
    AllSteps (step (entries paths)) (OneMessage i) (initState mid msgBuf) acts := by
  refine @AllSteps.mono _ _ _ (fun s => StreamInv paths path i s ∧ AtMostOne i s) (Drained i) _
    (FramesFit path) (fun s a s' h ha hs hd => ?_) _ _ ⟨stream_init hbuf, Nat.zero_le _⟩ hframes
    hrun hdrained
  obtain ⟨hone, hmost⟩ := step_drained hpath h.1 h.2 hs hd
  exact ⟨hone, step_oneMessage hpath hle hnul h.1 ha hs hone, hmost⟩

/-- All along a run, the payloads that a client builds are the first of the messages that were
    dispatched, if and only if every read of the client returns just the bytes of the oldest
    message that it has not read.  So it is when each write finds the FIFO empty and each read
    empties it. -/
theorem payloads_isPrefix_iff (hpath : paths[i]? = some path) (hle : path.length ≤ 127)
    (hnul : 0 ∉ path) (hbuf : (msgBuf i).length = msgBufLen)
    (hframes : ∀ a ∈ acts, FramesFit path a)
    (hrun : exec (step (entries paths)) (initState mid msgBuf) acts ≠ none) :
    (AllStates (step (entries paths)) (fun s => payloads i s <+: s.dispatched)
        (initState mid msgBuf) acts ↔
      AllSteps (step (entries paths)) (OneMessage i) (initState mid msgBuf) acts) ∧
    (AllSteps (step (entries paths)) (Drained i) (initState mid msgBuf) acts →
      AllStates (step (entries paths)) (fun s => payloads i s <+: s.dispatched)
        (initState mid msgBuf) acts) := by
  have hiff := @payloads_iff paths _ _ _ _ _ hpath hle hnul hbuf hframes hrun
  exact ⟨hiff, fun hd => hiff.mpr (oneMessage_of_drained hpath hle hnul hbuf hframes hrun hd)⟩

/-- A client can always turn what it reads into a message. -/
theorem clientStep_enabled {s : State} {k : Nat} (token : UInt64) (hpath : paths[i]? = some path)
    (hle : path.length ≤ 127) (hnul : 0 ∉ path) (hpos : 0 < k) (hmax : k ≤ msgBufLen)
    (hk : k ≤ (s.fifo i).length) : ∃ s', clientStep (entries paths) s i k token = some s' := by
  have hlen : ((s.fifo i).take k).length = k := by
    rw [List.length_take]
    omega
  have hread := @take_splice _ (s.clients i).msgBuf ((s.fifo i).take k) 0 (Nat.zero_le _)
  rw [Nat.zero_add, List.take_zero, List.nil_append] at hread
  obtain ⟨pdu, hpdu, -⟩ := @buildMessage_eq path ((s.fifo i).take k)
    (s.clients i).messageIdCounter token _ hle hnul
    (fun hnil => by rw [hnil, List.length_nil] at hlen; omega) (by omega) hread
  rw [hlen] at hpdu
  refine Option.ne_none_iff_exists'.mp fun hnone => ?_
  rw [clientStep, entries, List.getElem?_map, hpath] at hnone
  simp only [Option.map_some, Option.bind_eq_bind, Option.bind_some] at hnone
  rw [if_pos ⟨hpos, hmax, hk⟩, hpdu] at hnone
  cases hnone

end Runs

/-! ## Two runs -/

/-- The UART thread enqueues two frames, and the dispatcher writes both before the client
    reads. -/
def twoWritten : List Act :=
  [.frame [0x24, 0x31, 0x26], .uart (some 1), .uart (some 1), .uart (some 1), .uart (some 1),
    .frame [0x24, 0x32, 0x26], .uart (some 2), .uart (some 2), .uart (some 2), .uart (some 2),
    .transMsg, .transMsg, .transMsg, .transMsg, .transMsg, .transMsg,
    .transMsg, .transMsg, .transMsg, .transMsg, .transMsg]

/-- The start of the gateway with one client, for the path `a`. -/
def oneClient : State := initState (fun _ => 0) fun _ => List.replicate msgBufLen 0

theorem twoWritten_reaches :
    ∃ s, exec (step (entries [[0x61]])) oneClient twoWritten = some s ∧
      s.fifo 0 = [0x24, 0x31, 0x26, 0x24, 0x32, 0x26] ∧
      s.written 0 = [[0x24, 0x31, 0x26], [0x24, 0x32, 0x26]] ∧
      s.dispatched = [[0x24, 0x31, 0x26], [0x24, 0x32, 0x26]] ∧ (s.clients 0).built = [] :=
  ⟨_, rfl, rfl, rfl, rfl, rfl⟩

theorem twoWritten_fits (k : Nat) : ∀ a ∈ twoWritten ++ [.client 0 k 7], FramesFit [0x61] a := by
  have hfirst : Sendable [0x61] [0x24, 0x31, 0x26] := ⟨by decide, by decide⟩
  have hsecond : Sendable [0x61] [0x24, 0x32, 0x26] := ⟨by decide, by decide⟩
  simp [twoWritten, FramesFit, hfirst, hsecond]

/-- Reading the first of the two frames keeps the property. -/
theorem payloads_isPrefix_iff_first :
    AllStates (step (entries [[0x61]])) (fun s => payloads 0 s <+: s.dispatched) oneClient
      (twoWritten ++ [.client 0 3 7]) := by
  obtain ⟨s, hs, hfifo, hwritten, hdisp, hbuilt⟩ := twoWritten_reaches
  obtain ⟨s', hs'⟩ := @clientStep_enabled [[0x61]] [0x61] 0 s 3 7 rfl (by decide) (by decide)
    (by decide) (by decide) (by rw [hfifo]; decide)
  have hrun : exec (step (entries [[0x61]])) oneClient (twoWritten ++ [.client 0 3 7]) = some s' := by
    rw [exec_concat, hs]
    exact hs'
  refine (payloads_isPrefix_iff rfl (by decide) (by decide) List.length_replicate
    (twoWritten_fits 3) (by rw [← oneClient, hrun]; exact Option.some_ne_none _)).1.mpr ?_
  refine allSteps_concat.mpr ⟨allSteps_of_forall (by simp [twoWritten, OneMessage]), fun t ht => ?_⟩
  obtain rfl : t = s := Option.some_inj.mp (ht.symm.trans hs)
  intro _
  rw [hwritten, hbuilt]
  rfl

/-- Reading both frames at once makes one payload of two messages. -/
theorem payloads_merged :
    ∃ s, exec (step (entries [[0x61]])) oneClient (twoWritten ++ [.client 0 6 7]) = some s ∧
      (∀ a ∈ twoWritten ++ [.client 0 6 7], FramesFit [0x61] a) ∧
      ¬ payloads 0 s <+: s.dispatched := by
  obtain ⟨s, hs, hfifo, hwritten, hdisp, hbuilt⟩ := twoWritten_reaches
  obtain ⟨s', hs'⟩ := @clientStep_enabled [[0x61]] [0x61] 0 s 6 7 rfl (by decide) (by decide)
    (by decide) (by decide) (by rw [hfifo]; decide)
  have hrun : exec (step (entries [[0x61]])) oneClient (twoWritten ++ [.client 0 6 7]) = some s' := by
    rw [exec_concat, hs]
    exact hs'
  obtain ⟨-, -, hpayloads⟩ := @client_payloads [[0x61]] [0x61] 0 s s' 6 7 rfl (by decide)
    (by decide) hs'
  obtain ⟨entry, msgSend, -, -, -, rfl⟩ := clientStep_cases hs'
  refine ⟨_, hrun, twoWritten_fits 6, ?_⟩
  have hnone : payloads 0 s = [] := by rw [payloads, hbuilt, List.map_nil]
  rw [hpayloads, hnone, hfifo, List.nil_append]
  show ¬ _ <+: s.dispatched
  rw [hdisp]
  decide

end Gateway.User.FifoStream
