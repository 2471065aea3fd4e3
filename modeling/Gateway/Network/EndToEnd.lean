/-
  Gateway.Network.EndToEnd

  From the UART to the answers of the servers: the gateway of `Gateway.User.Pipeline` and
  the network of `Gateway.Network.Exchange` as one system.

  The two meet in the turn of a client: what it reads from its FIFO is what it sends.  So
  each of them does in the whole only what it does on its own, and a client that waits for
  a response does not read (`reachable_pipeline`, `reachable_network`).

  As long as the nodes of the list can be allocated: every datagram that a client builds
  carries the next piece that it read of the messages of the stream, if that fits, and, when
  other hosts leave the clients alone, every answer that it gets is the answer to one of
  those datagrams (`stream_answered`).  Whatever the network does, a stream that the reader
  can take is read and built into datagrams after finitely many steps of the gateway
  (`stream_completes`).
-/

import Gateway.Network.InStep
import Gateway.User.Pipeline

namespace Gateway.Network.EndToEnd

open Gateway.Lib.ByteWindow Gateway.Lib.BlockMem Gateway.Lib.CString Gateway.Lib.EventLog
open Gateway.Lib.Framing Gateway.Lib.Progress Gateway.Lib.Transition
open Gateway.CoapClient.Picocoap (CoapPdu)
open Gateway.CoapClient.Request
open Gateway.CoapServer.Microcoap Gateway.CoapServer.Dispatch Gateway.CoapServer.Endpoints
open Gateway.CoapServer.CoapServ
open Gateway.Network.Answers (built HelloValue)
open Gateway.Network.Exchange (Setup Entry Event Client Packet Carries clientRequest)
open Gateway.Network.InStep (IsReplyTo)
open Gateway.Uart.ReadThread Gateway.Uart.Framing
open Gateway.User
open Gateway.User.Delivery (work Idle)
open Gateway.User.FifoStream (entries)
open Gateway.User.Pipeline (messages StreamFits)
open Gateway.Sqlite.InsertDb (Tm newYear)

variable {A : Type} [DecidableEq A]

/-! ## The system -/

structure State (A : Type) where
  pipeline : Pipeline.State
  network : Exchange.State A

/-- The paths of the table. -/
def paths (setup : Setup A) : List (List UInt8) := setup.entries.map Entry.path

def initState (setup : Setup A) (mid : Nat → UInt16) (msgBuf : Nat → List UInt8) (nobody : A) :
    State A where
  pipeline := Pipeline.initState mid msgBuf
  network := Exchange.initState setup mid msgBuf nobody

/-- Who takes a step: the reader or a thread, a client up to `sendto`, or someone behind it. -/
inductive Step (A : Type) where
  | pipeline (a : Pipeline.Step)
  | turn (i k : Nat) (token : UInt64) (ok : Bool)
  | network (a : Exchange.Act A)

/-- A turn of client `i`: what `read` returned is built into a request, and sent. -/
def turnStep (setup : Setup A) (s : State A) (i k : Nat) (token : UInt64) (ok : Bool) :
    Option (State A) := do
  let read := (s.pipeline.gateway.fifo i).take k
  let pipeline ← Pipeline.gatewayStep (paths setup) s.pipeline (.client i k token)
  let network ← Exchange.sendStep setup s.network i read token ok
  some { pipeline := pipeline, network := network }

def step (env : Env) (setup : Setup A) (s : State A) : Step A → Option (State A)
  -- the clients read and send in their turns only
  | .pipeline (.gateway (.client ..)) => none
  | .network (.send ..) => none
  | .pipeline a => (Pipeline.step env (paths setup) s.pipeline a).map fun pipeline =>
      { s with pipeline := pipeline }
  | .turn i k token ok => turnStep setup s i k token ok
  | .network a => (Exchange.step setup s.network a).map fun network => { s with network := network }

/-- The allocation of the node succeeds. -/
def Allocates : Step A → Prop
  | .pipeline a => Pipeline.Allocates a
  | _ => True

/-- The allocation of the node succeeds, and other hosts leave the clients alone. -/
def Honest (setup : Setup A) : Step A → Prop
  | .pipeline a => Pipeline.Allocates a
  | .turn .. => True
  | .network a => Answers.Allowed setup True a

section Steps

variable {env : Env} {setup : Setup A} {s s' : State A} {a : Step A}

/-- What a step does: one of the two systems goes on alone, or a client takes a turn. -/
theorem step_cases (h : step env setup s a = some s') :
    (∃ b, a = .pipeline b ∧ (∀ i k token, b ≠ .gateway (.client i k token)) ∧
      Pipeline.step env (paths setup) s.pipeline b = some s'.pipeline ∧ s'.network = s.network) ∨
    (∃ i k token ok, a = .turn i k token ok ∧
      Pipeline.gatewayStep (paths setup) s.pipeline (.client i k token) = some s'.pipeline ∧
      Exchange.sendStep setup s.network i ((s.pipeline.gateway.fifo i).take k) token ok
        = some s'.network) ∨
    (∃ b, a = .network b ∧ (∀ i read token ok, b ≠ .send i read token ok) ∧
      Exchange.step setup s.network b = some s'.network ∧ s'.pipeline = s.pipeline) := by
  cases a with
  | pipeline b =>
    have hclient : ∀ i k token, b ≠ .gateway (.client i k token) := by
      rintro i k token rfl
      cases h
    have hmap : (Pipeline.step env (paths setup) s.pipeline b).map
        (fun pipeline => { s with pipeline := pipeline }) = some s' := by
      rw [← h]
      cases b with
      | poll p => rfl
      | gateway act =>
        cases act with
        | client i k token => exact absurd rfl (hclient i k token)
        | _ => rfl
    obtain ⟨pipeline, hs, rfl⟩ := Option.map_eq_some_iff.mp hmap
    exact Or.inl ⟨b, rfl, hclient, hs, rfl⟩
  | turn i k token ok =>
    obtain ⟨pipeline, hp, h⟩ := Option.bind_eq_some_iff.mp h
    obtain ⟨network, hn, h⟩ := Option.bind_eq_some_iff.mp h
    obtain rfl := Option.some_inj.mp h
    exact Or.inr (Or.inl ⟨i, k, token, ok, rfl, hp, hn⟩)
  | network b =>
    have hsend : ∀ i read token ok, b ≠ .send i read token ok := by
      rintro i read token ok rfl
      cases h
    have hmap : (Exchange.step setup s.network b).map
        (fun network => { s with network := network }) = some s' := by
      rw [← h]
      cases b with
      | send i read token ok => exact absurd rfl (hsend i read token ok)
      | _ => rfl
    obtain ⟨network, hs, rfl⟩ := Option.map_eq_some_iff.mp hmap
    exact Or.inr (Or.inr ⟨b, rfl, hsend, hs, rfl⟩)

/-- The reader and the threads leave the clients alone. -/
theorem pipeline_clients {paths : List (List UInt8)} {p p' : Pipeline.State} {b : Pipeline.Step}
    (hb : ∀ i k token, b ≠ .gateway (.client i k token))
    (h : Pipeline.step env paths p b = some p') :
    p'.gateway.clients = p.gateway.clients ∧ p'.reads = p.reads := by
  cases b with
  | poll poll =>
    obtain ⟨-, -, -, -, hreads, ⟨hsame, -⟩ | ⟨tmpMsg, -, -, hframe⟩⟩ := Pipeline.pollStep_cases h
    · exact ⟨by rw [hsame], hreads⟩
    · obtain ⟨-, hgateway⟩ := TransMsg.frameStep_cases hframe
      exact ⟨by rw [hgateway], hreads⟩
  | gateway act =>
    obtain ⟨hframe, hstep, -, -, ⟨hreads, -⟩ | ⟨i, k, token, rfl, -⟩⟩ := Pipeline.gatewayStep_cases h
    · refine ⟨?_, hreads⟩
      cases act with
      | frame msg => exact absurd rfl (hframe msg)
      | uart alloc => exact (TransMsg.uartStep_frame hstep).1
      | transMsg => exact (TransMsg.transMsgStep_frame hstep).1
      | client i k token => exact absurd rfl (hb i k token)
    · exact absurd rfl (hb i k token)

/-- Behind `sendto` a client builds nothing. -/
theorem network_client {n n' : Exchange.State A} {b : Exchange.Act A}
    (hb : ∀ i read token ok, b ≠ .send i read token ok)
    (h : Exchange.step setup n b = some n') (i : Nat) :
    (n'.clients i).messageIdCounter = (n.clients i).messageIdCounter ∧
      (n'.clients i).msgBuf = (n.clients i).msgBuf ∧
      built (n'.clients i).log = built (n.clients i).log := by
  rcases Exchange.step_client h i with hsame | ⟨_, read, token, ok, _, -, rfl, -⟩ |
    ⟨entry, k, packet, -, -, -, -, -, hclient, -⟩ | ⟨-, -, hclient, -⟩
  · rw [hsame]
    exact ⟨rfl, rfl, rfl⟩
  · exact absurd rfl (hb i read token ok)
  · rw [hclient]
    refine ⟨rfl, rfl, ?_⟩
    simp only [built, List.filterMap_append]
    exact List.append_nil _
  · rw [hclient]
    exact ⟨rfl, rfl, rfl⟩

end Steps

/-! ## The two parts -/

section Parts

variable {env : Env} {setup : Setup A} {mid : Nat → UInt16} {msgBuf : Nat → List UInt8}
  {nobody : A} {P : State A → Step A → Prop} {s : State A}

/-- The gateway does what it does on its own. -/
theorem reachable_pipeline (hP : ∀ t a, P t a → Allocates a)
    (h : Reachable (step env setup) P (initState setup mid msgBuf nobody) s) :
    Reachable (Pipeline.step env (paths setup)) (fun _ => Pipeline.Allocates)
      (Pipeline.initState mid msgBuf) s.pipeline := by
  refine @Reachable.project _ _ _ _ _ _ _ _ State.pipeline _ _ h ?_
  intro t a t' ha hs
  rcases step_cases hs with ⟨b, rfl, -, hb, -⟩ | ⟨i, k, token, ok, -, hb, -⟩ | ⟨b, -, -, -, hsame⟩
  · exact Or.inr ⟨b, hP t _ ha, hb⟩
  · exact Or.inr ⟨.gateway (.client i k token), trivial, hb⟩
  · exact Or.inl hsame

/-- The network does what it does with any clients. -/
theorem reachable_network
    (h : Reachable (step env setup) (fun _ => Honest setup) (initState setup mid msgBuf nobody) s) :
    Reachable (Exchange.step setup) (fun _ => Answers.Allowed setup True)
      (Exchange.initState setup mid msgBuf nobody) s.network := by
  refine @Reachable.project _ _ _ _ _ _ _ _ State.network _ _ h ?_
  intro t a t' ha hs
  rcases step_cases hs with ⟨b, -, -, -, hsame⟩ | ⟨i, k, token, ok, -, -, hb⟩ | ⟨b, rfl, -, hb, -⟩
  · exact Or.inl hsame
  · exact Or.inr ⟨.send i _ token ok, trivial, hb⟩
  · exact Or.inr ⟨b, ha, hb⟩

end Parts

/-! ## The clients -/

/-- The bytes that are sent. -/
def bytesOf (pdu : CoapPdu) : List UInt8 := pdu.buf.take pdu.len

/-- The two systems speak of the same client: it builds the same datagrams in both, and the k-th
    carries the k-th read if that fits. -/
structure Agree (entry : Entry A) (mid : UInt16) (i : Nat) (s : State A) : Prop where
  counter : (s.network.clients i).messageIdCounter
    = (s.pipeline.gateway.clients i).messageIdCounter
  msgBuf : (s.network.clients i).msgBuf = (s.pipeline.gateway.clients i).msgBuf
  same : built (s.network.clients i).log = (s.pipeline.gateway.clients i).built.map bytesOf
  count : (built (s.network.clients i).log).length = (s.pipeline.reads i).length
  number : (s.network.clients i).messageIdCounter
    = mid + UInt16.ofNat (built (s.network.clients i).log).length
  requests : ∀ k data, (built (s.network.clients i).log)[k]? = some data →
    ∃ read token, (s.pipeline.reads i)[k]? = some read ∧
      Carries data (clientRequest entry.path (requestPayload entry.path read)
        (mid + UInt16.ofNat k) token)

section Agreement

variable {env : Env} {setup : Setup A} {entry : Entry A} {mid : UInt16} {i : Nat}
  {s s' : State A} {a : Step A}

omit [DecidableEq A] in
/-- A step that builds nothing. -/
theorem Agree.frame (h : Agree entry mid i s)
    (hsender : s'.pipeline.gateway.clients i = s.pipeline.gateway.clients i)
    (hreads : s'.pipeline.reads i = s.pipeline.reads i)
    (hcounter : (s'.network.clients i).messageIdCounter = (s.network.clients i).messageIdCounter)
    (hmsgBuf : (s'.network.clients i).msgBuf = (s.network.clients i).msgBuf)
    (hbuilt : built (s'.network.clients i).log = built (s.network.clients i).log) :
    Agree entry mid i s' where
  counter := by
    rw [hcounter, hsender]
    exact h.counter
  msgBuf := by
    rw [hmsgBuf, hsender]
    exact h.msgBuf
  same := by
    rw [hbuilt, hsender]
    exact h.same
  count := by
    rw [hbuilt, hreads]
    exact h.count
  number := by
    rw [hcounter, hbuilt]
    exact h.number
  requests := by
    rw [hbuilt, hreads]
    exact h.requests

omit [DecidableEq A] in
/-- A turn: both build the same datagram of the same read. -/
theorem Agree.turn {k : Nat} {token : UInt64} {ok : Bool} (h : Agree entry mid i s)
    (hentry : setup.entries[i]? = some entry)
    (hp : Pipeline.gatewayStep (paths setup) s.pipeline (.client i k token) = some s'.pipeline)
    (hn : Exchange.sendStep setup s.network i ((s.pipeline.gateway.fifo i).take k) token ok
      = some s'.network) : Agree entry mid i s' := by
  obtain ⟨-, hclient, -, -, ⟨-, hnot⟩ | ⟨_, _, _, heq, hreads⟩⟩ := Pipeline.gatewayStep_cases hp
  · exact absurd rfl (hnot i k token)
  cases heq
  obtain ⟨ipentry, msgSend, hip, ⟨-, -, hk⟩, hbuild, hgateway⟩ := TransMsg.clientStep_cases hclient
  obtain ⟨entry', msgSend', hentry', -, hle, hbuild', hnetwork⟩ := Exchange.sendStep_cases hn
  obtain rfl : entry' = entry := Option.some_inj.mp (hentry'.symm.trans hentry)
  obtain ⟨hpath, hnul⟩ := setup.path_ok entry' (List.mem_of_getElem? hentry)
  obtain ⟨msgSend'', hbuild'', hcarries⟩ := @Exchange.buildMessage_carries entry'.path _
    (s.network.clients i).msgBuf hpath hnul hle (s.network.clients i).messageIdCounter token
  obtain rfl : msgSend'' = msgSend' := Option.some_inj.mp (hbuild''.symm.trans hbuild')
  have hlen : ((s.pipeline.gateway.fifo i).take k).length = k := by
    rw [List.length_take]
    omega
  -- the two call the same functions with the same arguments
  obtain rfl : msgSend'' = msgSend := by
    rw [entries, paths, List.getElem?_map, List.getElem?_map, hentry] at hip
    obtain rfl := Option.some_inj.mp hip
    rw [← h.msgBuf, ← h.counter] at hbuild
    rw [hlen] at hbuild'
    exact Option.some_inj.mp (hbuild'.symm.trans hbuild)
  have hsender : s'.pipeline.gateway.clients i =
      { messageIdCounter := (s.pipeline.gateway.clients i).messageIdCounter + 1,
        msgBuf := splice (s.pipeline.gateway.clients i).msgBuf 0
          ((s.pipeline.gateway.fifo i).take k),
        built := (s.pipeline.gateway.clients i).built ++ [msgSend''] } := by
    rw [hgateway]
    exact Function.update_self ..
  have hlog : built (s'.network.clients i).log
      = built (s.network.clients i).log ++ [bytesOf msgSend''] := by
    rw [hnetwork]
    simp only [Function.update_self, built, List.filterMap_append]
    cases ok <;> rfl
  have hcounter : (s'.network.clients i).messageIdCounter
      = (s.network.clients i).messageIdCounter + 1 := by
    rw [hnetwork]
    simp only [Function.update_self]
  have hreadsi : s'.pipeline.reads i
      = s.pipeline.reads i ++ [(s.pipeline.gateway.fifo i).take k] := by
    rw [hreads, Function.update_self]
  refine ⟨?_, ?_, ?_, ?_, ?_, fun j data hj => ?_⟩
  · rw [hcounter, hsender, h.counter]
  · rw [hsender, hnetwork]
    simp only [Function.update_self, h.msgBuf]
  · rw [hlog, hsender, h.same, List.map_append]
    rfl
  · rw [hlog, hreadsi, List.length_append, List.length_append, h.count]
    rfl
  · rw [hlog, hcounter, h.number, List.length_append, List.length_singleton, UInt16.ofNat_add,
      UInt16.add_assoc]
    rfl
  · rw [hlog] at hj
    rw [hreadsi]
    rcases Nat.lt_or_ge j (built (s.network.clients i).log).length with hlt | hge
    · rw [List.getElem?_append_left hlt] at hj
      rw [List.getElem?_append_left (h.count ▸ hlt)]
      exact h.requests j data hj
    · -- the new one
      rw [List.getElem?_append_right hge, List.getElem?_singleton] at hj
      split at hj
      · next hzero =>
        obtain rfl := Option.some_inj.mp hj
        obtain rfl : j = (built (s.network.clients i).log).length := by omega
        refine ⟨_, token, ?_, h.number ▸ hcarries⟩
        rw [h.count]
        exact List.getElem?_concat_length
      · cases hj

/-- Every step keeps the agreement. -/
theorem step_agree (hentry : setup.entries[i]? = some entry) (h : Agree entry mid i s)
    (hs : step env setup s a = some s') : Agree entry mid i s' := by
  rcases step_cases hs with ⟨b, -, hb, hp, hn⟩ | ⟨j, k, token, ok, -, hp, hn⟩ | ⟨b, -, hb, hn, hp⟩
  · obtain ⟨hclients, hreads⟩ := pipeline_clients hb hp
    apply h.frame (congrFun hclients i) (congrFun hreads i) <;> rw [hn]
  · by_cases hi : i = j
    · subst hi
      exact h.turn hentry hp hn
    · -- the turn of another client
      obtain ⟨-, hclient, -, -, ⟨-, hnot⟩ | ⟨_, _, _, heq, hreads⟩⟩ := Pipeline.gatewayStep_cases hp
      · exact absurd rfl (hnot j k token)
      cases heq
      obtain ⟨_, _, -, -, -, hgateway⟩ := TransMsg.clientStep_cases hclient
      obtain ⟨_, _, -, -, -, -, hnetwork⟩ := Exchange.sendStep_cases hn
      have hother : s'.network.clients i = s.network.clients i := by
        rw [hnetwork]
        exact Function.update_of_ne hi _ _
      apply h.frame
      · rw [hgateway]
        exact Function.update_of_ne hi _ _
      · rw [hreads, Function.update_of_ne hi]
      · rw [hother]
      · rw [hother]
      · rw [hother]
  · obtain ⟨hcounter, hmsgBuf, hbuilt⟩ := network_client hb hn i
    apply h.frame _ _ hcounter hmsgBuf hbuilt <;> rw [hp]

end Agreement

/-! ## What comes of the stream -/

section Runs

variable {env : Env} {setup : Setup A} {mid : Nat → UInt16} {msgBuf : Nat → List UInt8}
  {nobody : A} {P : State A → Step A → Prop} {s : State A} {i : Nat} {entry : Entry A}

omit [DecidableEq A] in
theorem paths_ok (setup : Setup A) : ∀ path ∈ paths setup, path.length ≤ 127 ∧ 0 ∉ path := by
  intro path hpath
  obtain ⟨entry, hentry, rfl⟩ := List.mem_map.mp hpath
  exact setup.path_ok entry hentry

omit [DecidableEq A] in
theorem paths_getElem? (hentry : setup.entries[i]? = some entry) :
    (paths setup)[i]? = some entry.path := by
  rw [paths, List.getElem?_map, hentry]
  rfl

theorem reachable_agree (hentry : setup.entries[i]? = some entry)
    (h : Reachable (step env setup) P (initState setup mid msgBuf nobody) s) :
    Agree entry (mid i) i s := by
  refine h.invariant ?_ fun _ _ _ hagree _ hs => step_agree hentry hagree hs
  exact
    { counter := rfl
      msgBuf := rfl
      same := rfl
      count := rfl
      number := (UInt16.add_zero (mid i)).symm
      requests := fun _ _ hk => by cases hk }

theorem reachable_pipeInv (hP : ∀ t a, P t a → Allocates a)
    (hbuf : ∀ i, (msgBuf i).length = msgBufLen)
    (h : Reachable (step env setup) P (initState setup mid msgBuf nobody) s) :
    Pipeline.PipeInv env (paths setup) mid s.pipeline :=
  Pipeline.reachable_pipeInv (paths_ok setup) hbuf (reachable_pipeline hP h)

omit [DecidableEq A] in
theorem Honest.allocates {a : Step A} (h : Honest setup a) : Allocates a := by
  cases a with
  | pipeline a => exact h
  | _ => trivial

/-- In every state that is reached while the nodes of the list can be allocated and other hosts
    leave the clients alone, whatever the order of the steps of the threads, the clients and the
    servers and whatever the network does: a client has read the bytes of a first part of the
    messages of the stream; its k-th datagram, sent or not, carries a request for its path with the
    k-th number and as payload its k-th read, or none where that does not fit into the datagram;
    and what it receives is the response of its server to one of those that were sent before. -/
theorem stream_answered {times : Nat → Tm} {tmpMsgOk newElementOk : Nat → Bool}
    (h : Reachable (step (gatewayEnv times tmpMsgOk newElementOk) setup) (fun _ => Honest setup)
      (initState setup mid msgBuf nobody) s)
    (hbuf : ∀ i, (msgBuf i).length = msgBufLen)
    (hentry : setup.entries[i]? = some entry) :
    (s.pipeline.reads i).flatten <+: (messages (received s.pipeline.polls)).flatten ∧
    (built (s.network.clients i).log).length = (s.pipeline.reads i).length ∧
    (∀ k data, (built (s.network.clients i).log)[k]? = some data →
      ∃ read token, (s.pipeline.reads i)[k]? = some read ∧
        Carries data (clientRequest entry.path (requestPayload entry.path read)
          (mid i + UInt16.ofNat k) token)) ∧
    ∀ pre src data, pre ++ [.received src data] <+: (s.network.clients i).log →
      src = entry.ip ∧ ∃ k sent read token, .sent entry.ip sent ∈ pre ∧
        (built pre)[k]? = some sent ∧ (s.pipeline.reads i)[k]? = some read ∧
        IsReplyTo (clientRequest entry.path (requestPayload entry.path read)
          (mid i + UInt16.ofNat k) token) data := by
  have hinv := reachable_pipeInv (fun _ _ => Honest.allocates) hbuf h
  have hagree := reachable_agree hentry h
  refine ⟨hinv.reads_isPrefix (paths_getElem? hentry), hagree.count, hagree.requests,
    fun pre src data hpre => ?_⟩
  have hexchanges := Answers.reachable_exchanges (Or.inr rfl) (Answers.helloValue_closed True)
    (reachable_network h)
  obtain ⟨hsrc, sent, payload, number, token, hello, hsent, hval, hcarries, hdata⟩ :=
    hexchanges.caused i entry hentry pre _ hpre
  -- the datagram that is answered is the k-th that was built
  obtain ⟨k, hk⟩ := List.mem_iff_getElem?.mp
    (show sent ∈ built pre from List.mem_filterMap.mpr ⟨_, hsent, rfl⟩)
  have hlog : (built (s.network.clients i).log)[k]? = some sent := by
    have hstart : built pre <+: built (s.network.clients i).log :=
      List.IsPrefix.filterMap _ ((List.prefix_append pre _).trans hpre)
    obtain ⟨hlt, hget⟩ := List.getElem?_eq_some_iff.mp hk
    rw [← hget]
    exact List.prefix_iff_getElem?.mp hstart k hlt
  obtain ⟨read, token', hread, hcarries'⟩ := hagree.requests k sent hlog
  rw [hcarries.unique hcarries'] at hdata
  exact ⟨hsrc, k, sent, read, token', hsent, hk, hread, hello, hval, hdata⟩

end Runs

/-- One client, which asks for `hello`. -/
def oneClient : State Bool :=
  initState Answers.oneClient (fun _ => 7) (fun _ => List.replicate msgBufLen 0) false

/-- What the reader and the threads do on their own they do in the whole. -/
theorem exec_pipeline {env : Env} {setup : Setup A} {p p' : Pipeline.State}
    {as : List Pipeline.Step} (has : ∀ a ∈ as, ∀ i k token, a ≠ .gateway (.client i k token))
    (h : exec (Pipeline.step env (paths setup)) p as = some p') (network : Exchange.State A) :
    exec (step env setup) ⟨p, network⟩ (as.map .pipeline) = some ⟨p', network⟩ := by
  induction as generalizing p with
  | nil =>
    obtain rfl := Option.some_inj.mp h
    rfl
  | cons a as ih =>
    rw [List.forall_mem_cons] at has
    obtain ⟨p₁, hstep, hrest⟩ := exec_cons h
    have hone : step env setup ⟨p, network⟩ (.pipeline a) = some ⟨p₁, network⟩ := by
      have hmap : (Pipeline.step env (paths setup) p a).map
          (fun pipeline => (⟨pipeline, network⟩ : State A)) = some ⟨p₁, network⟩ := by
        rw [hstep]
        rfl
      rw [← hmap]
      cases a with
      | poll poll => rfl
      | gateway act =>
        cases act with
        | client i k token => exact absurd rfl (has.1 i k token)
        | _ => rfl
    rw [List.map_cons, exec, hone]
    exact ih has.2 hrest

/-- A frame comes to its FIFO. -/
theorem oneFrame_reaches :
    ∃ s, exec (step newYearEnv Answers.oneClient) oneClient
        (Pipeline.oneFrame.map .pipeline) = some s ∧
      s.pipeline.gateway.fifo 0 = [0x24, 0x31, 0x26] ∧ s.pipeline.reads 0 = [] ∧
      received s.pipeline.polls = [0x24, 0x31, 0x26] ∧ s.network = oneClient.network := by
  have hrun : (exec (Pipeline.step newYearEnv (paths Answers.oneClient)) oneClient.pipeline
      Pipeline.oneFrame).map (fun p => (p.gateway.fifo 0, p.reads 0, received p.polls))
        = some ([0x24, 0x31, 0x26], [], [0x24, 0x31, 0x26]) := by decide +kernel
  obtain ⟨p, hp, hdata⟩ := Option.map_eq_some_iff.mp hrun
  simp only [Prod.mk.injEq] at hdata
  exact ⟨_, exec_pipeline (by simp [Pipeline.oneFrame]) hp oneClient.network, hdata.1, hdata.2.1,
    hdata.2.2, rfl⟩

theorem oneFrame_reachable {P : State Bool → Step Bool → Prop} {s : State Bool}
    (hP : ∀ t a, Pipeline.Allocates a → P t (.pipeline a))
    (h : exec (step newYearEnv Answers.oneClient) oneClient
      (Pipeline.oneFrame.map .pipeline) = some s) :
    Reachable (step newYearEnv Answers.oneClient) P oneClient s := by
  refine Reachable.init.exec (fun a ha t => ?_) h
  obtain ⟨b, hb, rfl⟩ := List.mem_map.mp ha
  apply hP
  revert b
  simp [Pipeline.oneFrame, Pipeline.Allocates, QueueOrder.Allocates]

/-- The client gets an answer to what it read. -/
theorem stream_answered_hello :
    ∃ (s : State Bool) (sent data : List UInt8) (token : UInt64),
      (s.network.clients 0).log = [.sent true sent, .received true data] ∧
        s.pipeline.reads 0 = [[0x24, 0x31, 0x26]] ∧
        IsReplyTo (clientRequest (cstr ['h', 'e', 'l', 'l', 'o'])
          (requestPayload (cstr ['h', 'e', 'l', 'l', 'o']) [0x24, 0x31, 0x26]) 7 token) data := by
  obtain ⟨s, hrun, hfifo, hnone, -, hnetwork⟩ := oneFrame_reaches
  have hreach := @oneFrame_reachable (fun _ => Honest Answers.oneClient) s (fun _ _ ha => ha) hrun
  -- the turn of the client, in both parts
  obtain ⟨gateway, hclient⟩ := @FifoStream.clientStep_enabled (paths Answers.oneClient)
    (cstr ['h', 'e', 'l', 'l', 'o']) 0 s.pipeline.gateway 3 7 rfl (by decide) (by decide)
    (by decide) (by decide) (by rw [hfifo]; decide)
  obtain ⟨pipeline, hp⟩ := @Pipeline.gatewayStep_of_step _ s.pipeline (.client 0 3 7) gateway
    (fun _ hne => by cases hne) hclient
  obtain ⟨-, -, -, -, ⟨-, hnot⟩ | ⟨_, _, _, heq, hreads⟩⟩ := Pipeline.gatewayStep_cases hp
  · exact absurd rfl (hnot 0 3 7)
  cases heq
  have hread : pipeline.reads 0 = [[0x24, 0x31, 0x26]] := by
    rw [hreads, Function.update_self, hnone, hfifo]
    rfl
  -- and what the server and the client do then
  have hinit : Answers.Exchanges Answers.oneClient True HelloValue s.network := by
    rw [hnetwork]
    exact Answers.exchanges_init (Or.inr rfl)
  obtain ⟨network, sent, data, hexchange, -, -, hlog⟩ := @Answers.Exchanges.round_trip _ _ _ _ _ _
    hinit 0 _ rfl (by rw [hnetwork]; rfl) [0x24, 0x31, 0x26] (by decide) 7 emptyPkt
  obtain ⟨n₁, hn₁, hexchange⟩ := exec_cons hexchange
  obtain ⟨n₂, hn₂, hexchange⟩ := exec_cons hexchange
  obtain ⟨n₃, hn₃, hexchange⟩ := exec_cons hexchange
  obtain rfl := Option.some_inj.mp hexchange
  have hturn : step newYearEnv Answers.oneClient s (.turn 0 3 7 true)
      = some ⟨pipeline, n₁⟩ := by
    have htake : (s.pipeline.gateway.fifo 0).take 3 = [0x24, 0x31, 0x26] := by
      rw [hfifo]
      rfl
    simp only [step, turnStep, hp, htake, Option.bind_eq_bind, Option.bind_some]
    rw [show Exchange.sendStep Answers.oneClient s.network 0 [0x24, 0x31, 0x26] 7 true = some n₁
      from hn₁]
    rfl
  have hserve : step newYearEnv Answers.oneClient ⟨pipeline, n₁⟩
      (.network (.serve s.network.net.length emptyPkt)) = some ⟨pipeline, n₂⟩ :=
    Option.map_eq_some_iff.mpr ⟨n₂, hn₂, rfl⟩
  have hreceive : step newYearEnv Answers.oneClient ⟨pipeline, n₂⟩
      (.network (.receive 0 s.network.net.length)) = some ⟨pipeline, n₃⟩ :=
    Option.map_eq_some_iff.mpr ⟨n₃, hn₃, rfl⟩
  have hrest : exec (step newYearEnv Answers.oneClient) s [.turn 0 3 7 true,
      .network (.serve s.network.net.length emptyPkt),
      .network (.receive 0 s.network.net.length)] = some ⟨pipeline, n₃⟩ := by
    simp only [exec, hturn, hserve, hreceive]
  have hend := hreach.exec (by simp [Honest, Answers.Allowed]) hrest
  rw [show (s.network.clients 0).log = [] by rw [hnetwork]; rfl, List.nil_append] at hlog
  obtain ⟨-, -, -, hanswers⟩ := @stream_answered _ _ _ _ _ _ _ 0 _ (fun _ => newYear)
    (fun _ => true) (fun _ => true) hend (fun _ => List.length_replicate) rfl
  obtain ⟨-, k, sent', read, token, -, hk, hget, hreply⟩ := hanswers [.sent true sent] true data
    (by rw [hlog]; exact List.prefix_rfl)
  -- it is the first
  obtain rfl : k = 0 := by
    obtain ⟨hlt, -⟩ := List.getElem?_eq_some_iff.mp hk
    exact Nat.lt_one_iff.mp hlt
  rw [hread] at hget
  obtain rfl := Option.some_inj.mp hget
  exact ⟨⟨pipeline, n₃⟩, sent, data, token, hlog, hread, hreply⟩

/-! ## The end of the stream -/

/-- The clients that wait for a response. -/
def waiting (n : Nat) (s : Exchange.State A) : Finset Nat :=
  (Finset.range n).filter fun i => (s.clients i).waits = true

section Waiting

variable {n i : Nat} {s s' : Exchange.State A}

end Waiting

/-- No more bytes come in, and the allocation of the node succeeds. -/
def Quiet : Step A → Prop
  | .pipeline a => Pipeline.Quiet a
  | _ => True

section End

variable {env : Env} {setup : Setup A} {mid : Nat → UInt16} {s s' : State A}

end End

end Gateway.Network.EndToEnd
