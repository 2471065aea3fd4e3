/-
  Gateway.Network.Exchange

  The clients of the table (`coapClient/coapClient.c`) and the CoAP servers they ask
  (`coapServer/coapServer.c`), with the network between them.

  A datagram is in flight until it is received or lost; the network may lose and
  duplicate datagrams and deliver them in any order, and other hosts may send whatever
  they like.  `step` is one step of a client, of a server or of the network, so the runs
  are all orders of steps.

  A client sends a request for what it read from its FIFO and then waits for a datagram;
  the socket has a time-out of three seconds.  A turn whose `read` fails writes behind
  its arrays (see `CoapClient.Turn`) and has no step here.  `recvfrom` writes the
  sender's address to `addr_remote`, where the next request goes.  The check of what was
  received is commented out in the source: any datagram is taken.  `log` is a history
  that no step looks at.
-/

import Gateway.CoapServer.CoapServ
import Gateway.Iptable.ResourcePath
import Gateway.Lib.EventLog
import Gateway.Lib.Transition

namespace Gateway.Network.Exchange

open Gateway.Lib.ByteWindow Gateway.Lib.BlockMem Gateway.Lib.CString Gateway.Lib.CoapFormat
open Gateway.Lib.EventLog Gateway.Lib.Transition
open Gateway.CoapClient.Picocoap (tokenBytes)
open Gateway.CoapClient.Request
open Gateway.CoapServer.Microcoap Gateway.CoapServer.Dispatch Gateway.CoapServer.Endpoints
open Gateway.CoapServer.CoapServ Gateway.CoapServer.Roundtrip
open Gateway.Iptable.ResourcePath (asks_of_decodes)

variable {A : Type} [DecidableEq A]

/-! ## State -/

/-- A datagram in flight. -/
structure Packet (A : Type) where
  src : A
  dst : A
  data : List UInt8

/-- What an entry of `iplist` says of its client: the address of its socket, the address it asks
    at `COAP_PORT`, and the path. -/
structure Entry (A : Type) where
  addr : A
  ip : A
  path : List UInt8

/-- The servers and the clients.  Every client has a socket of its own, and asks a server. -/
structure Setup (A : Type) where
  isServer : A → Bool
  entries : List (Entry A)
  path_ok : ∀ entry ∈ entries, entry.path.length ≤ 127 ∧ 0 ∉ entry.path
  addr_client : ∀ entry ∈ entries, isServer entry.addr = false
  addr_nodup : (entries.map Entry.addr).Nodup
  ip_server : ∀ entry ∈ entries, isServer entry.ip = true

/-- What a client did. -/
inductive Event (A : Type) where
  /-- `sendto` sent the datagram -/
  | sent (dst : A) (data : List UInt8)
  /-- `sendto` failed -/
  | failed (data : List UInt8)
  | received (src : A) (data : List UInt8)

/-- A client: its variables, and whether it waits for a response. -/
structure Client (A : Type) where
  addrRemote : A
  messageIdCounter : UInt16
  msgBuf : List UInt8
  waits : Bool
  log : List (Event A)

structure State (A : Type) where
  net : List (Packet A)
  servers : A → Option (Mem Obj)
  clients : Nat → Client A

/-- The start: the servers behind `endpoint_setup`, the clients before their first read. -/
def initState (setup : Setup A) (mid : Nat → UInt16) (msgBuf : Nat → List UInt8) (nobody : A) :
    State A where
  net := []
  servers := fun a => if setup.isServer a then endpointSetup initMem else none
  clients := fun i =>
    { addrRemote := (setup.entries[i]?.map Entry.ip).getD nobody
      messageIdCounter := mid i
      msgBuf := msgBuf i
      waits := false
      log := [] }

/-! ## Steps -/

/-- A turn of client `i` up to `sendto`: `read` returned these bytes and `rand()` the token; `ok`
    is whether `sendto` succeeds. -/
def sendStep (setup : Setup A) (s : State A) (i : Nat) (read : List UInt8) (token : UInt64)
    (ok : Bool) : Option (State A) := do
  let entry ← setup.entries[i]?
  let client := s.clients i
  if client.waits = false ∧ read.length ≤ msgBufLen then do
    let msgBuf := splice client.msgBuf 0 read
    let msgSend ← buildMessage (padded coapPathLen entry.path) msgBuf read.length
      client.messageIdCounter token
    let data := msgSend.buf.take msgSend.len
    let event := if ok then .sent client.addrRemote data else .failed data
    some { s with
      net := if ok then s.net ++ [⟨entry.addr, client.addrRemote, data⟩] else s.net,
      clients := Function.update s.clients i
        { client with
          messageIdCounter := client.messageIdCounter + 1, msgBuf := msgBuf, waits := ok,
          log := client.log ++ [event] } }
  else none

/-- `recvfrom` of client `i` returns the datagram number `k`. -/
def receiveStep (setup : Setup A) (s : State A) (i k : Nat) : Option (State A) := do
  let entry ← setup.entries[i]?
  let packet ← s.net[k]?
  let client := s.clients i
  if client.waits = true ∧ packet.dst = entry.addr then
    some { s with
      net := s.net.eraseIdx k,
      clients := Function.update s.clients i
        { client with
          addrRemote := packet.src, waits := false,
          log := client.log ++ [.received packet.src (packet.data.take msgBufLen)] } }
  else none

/-- `recvfrom` of client `i` returns after three seconds. -/
def timeoutStep (setup : Setup A) (s : State A) (i : Nat) : Option (State A) := do
  let _ ← setup.entries[i]?
  if (s.clients i).waits = true then
    some { s with clients := Function.update s.clients i { s.clients i with waits := false } }
  else none

/-- What a server sends in a turn. -/
def replies (server client : A) : Turn → List (Packet A)
  | .sent reply => [⟨server, client, reply⟩]
  | _ => []

/-- A turn of a server on the datagram number `k`. -/
def serveStep (s : State A) (k : Nat) (rsppkt : CoapPacket Obj) : Option (State A) := do
  let packet ← s.net[k]?
  let m ← s.servers packet.dst
  let (turn, m) ← coapServTurn m packet.data rsppkt
  some { s with
    net := s.net.eraseIdx k ++ replies packet.dst packet.src turn,
    servers := Function.update s.servers packet.dst (some m) }

/-- Who takes a step. -/
inductive Act (A : Type) where
  | send (i : Nat) (read : List UInt8) (token : UInt64) (ok : Bool)
  | receive (i k : Nat)
  | timeout (i : Nat)
  | serve (k : Nat) (rsppkt : CoapPacket Obj)
  | lose (k : Nat)
  | duplicate (k : Nat)
  | foreign (packet : Packet A)

def step (setup : Setup A) (s : State A) : Act A → Option (State A)
  | .send i read token ok => sendStep setup s i read token ok
  | .receive i k => receiveStep setup s i k
  | .timeout i => timeoutStep setup s i
  | .serve k rsppkt => serveStep s k rsppkt
  | .lose k => if k < s.net.length then some { s with net := s.net.eraseIdx k } else none
  | .duplicate k => (s.net[k]?).map fun packet => { s with net := s.net ++ [packet] }
  | .foreign packet => some { s with net := s.net ++ [packet] }

/-! ## What a step does -/

section Steps

variable {setup : Setup A} {s s' : State A}

omit [DecidableEq A] in
theorem sendStep_cases {i : Nat} {read : List UInt8} {token : UInt64} {ok : Bool}
    (h : sendStep setup s i read token ok = some s') :
    ∃ entry msgSend, setup.entries[i]? = some entry ∧ (s.clients i).waits = false ∧
      read.length ≤ msgBufLen ∧
      buildMessage (padded coapPathLen entry.path) (splice (s.clients i).msgBuf 0 read) read.length
        (s.clients i).messageIdCounter token = some msgSend ∧
      s' = { s with
        net := if ok then s.net ++ [⟨entry.addr, (s.clients i).addrRemote,
          msgSend.buf.take msgSend.len⟩] else s.net,
        clients := Function.update s.clients i
          { s.clients i with
            messageIdCounter := (s.clients i).messageIdCounter + 1,
            msgBuf := splice (s.clients i).msgBuf 0 read, waits := ok,
            log := (s.clients i).log ++ [if ok then .sent (s.clients i).addrRemote
              (msgSend.buf.take msgSend.len) else .failed (msgSend.buf.take msgSend.len)] } } := by
  obtain ⟨entry, hentry, h⟩ := Option.bind_eq_some_iff.mp h
  simp only at h
  split at h
  · next hcond =>
    obtain ⟨msgSend, hbuild, h⟩ := Option.bind_eq_some_iff.mp h
    exact ⟨entry, msgSend, hentry, hcond.1, hcond.2, hbuild, (Option.some_inj.mp h).symm⟩
  · cases h

theorem receiveStep_cases {i k : Nat} (h : receiveStep setup s i k = some s') :
    ∃ entry packet, setup.entries[i]? = some entry ∧ s.net[k]? = some packet ∧
      (s.clients i).waits = true ∧ packet.dst = entry.addr ∧
      s' = { s with
        net := s.net.eraseIdx k,
        clients := Function.update s.clients i
          { s.clients i with
            addrRemote := packet.src, waits := false,
            log := (s.clients i).log ++ [.received packet.src (packet.data.take msgBufLen)] } } := by
  obtain ⟨entry, hentry, h⟩ := Option.bind_eq_some_iff.mp h
  obtain ⟨packet, hpacket, h⟩ := Option.bind_eq_some_iff.mp h
  simp only at h
  split at h
  · next hcond =>
    exact ⟨entry, packet, hentry, hpacket, hcond.1, hcond.2, (Option.some_inj.mp h).symm⟩
  · cases h

omit [DecidableEq A] in
theorem timeoutStep_cases {i : Nat} (h : timeoutStep setup s i = some s') :
    (s.clients i).waits = true ∧
      s' = { s with clients := Function.update s.clients i { s.clients i with waits := false } } := by
  obtain ⟨entry, hentry, h⟩ := Option.bind_eq_some_iff.mp h
  split at h
  · next hwaits => exact ⟨hwaits, (Option.some_inj.mp h).symm⟩
  · cases h

theorem serveStep_cases {k : Nat} {rsppkt : CoapPacket Obj}
    (h : serveStep s k rsppkt = some s') :
    ∃ packet m turn m', s.net[k]? = some packet ∧ s.servers packet.dst = some m ∧
      coapServTurn m packet.data rsppkt = some (turn, m') ∧
      s' = { s with
        net := s.net.eraseIdx k ++ replies packet.dst packet.src turn,
        servers := Function.update s.servers packet.dst (some m') } := by
  obtain ⟨packet, hpacket, h⟩ := Option.bind_eq_some_iff.mp h
  obtain ⟨m, hm, h⟩ := Option.bind_eq_some_iff.mp h
  obtain ⟨⟨turn, m'⟩, hturn, h⟩ := Option.bind_eq_some_iff.mp h
  exact ⟨packet, m, turn, m', hpacket, hm, hturn, (Option.some_inj.mp h).symm⟩

end Steps

/-! ## Requests -/

/-- What a client's datagram asks for. -/
def clientRequest (path payload : List UInt8) (mid : UInt16) (token : UInt64) : Request where
  code := coapMethodGet
  idHi := (mid >>> 8).toUInt8
  idLo := (mid &&& 0xFF).toUInt8
  token := (tokenBytes token).take 2
  path := [path]
  payload := payload
  token_le := (requestOf path payload mid token).token_le

/-- The server that receives the datagram handles this request. -/
def Carries (data : List UInt8) (req : Request) : Prop :=
  data.length ≤ bufSize ∧ ∀ (m : Mem Obj) (p : Ptr Obj), loadBytes m p data.length = some data →
    ∃ pkt, coapParse m p data.length = .ok pkt ∧ Asks m pkt req

theorem asks_clientRequest {m : Mem Obj} {pkt : CoapPacket Obj} {path payload : List UInt8}
    {mid : UInt16} {token : UInt64} (h : Decodes m pkt (requestOf path payload mid token)) :
    Asks m pkt (clientRequest path payload mid token) := by
  obtain ⟨req, hask, hcode, hpath⟩ := asks_of_decodes h
  have htoken : req.token = (tokenBytes token).take 2 :=
    Option.some_inj.mp (hask.tok.symm.trans h.reads.tok)
  have hpayload : req.payload = payload :=
    Option.some_inj.mp (hask.payload.symm.trans h.reads.payload)
  have hreq : req = clientRequest path payload mid token := by
    obtain ⟨code, idHi, idLo, token', path', payload', hle⟩ := req
    simp only at hcode hpath htoken hpayload
    subst hcode hpath htoken hpayload
    obtain rfl : idHi = (mid >>> 8).toUInt8 := hask.idHi.symm.trans h.idHi
    obtain rfl : idLo = (mid &&& 0xFF).toUInt8 := hask.idLo.symm.trans h.idLo
    rfl
  exact hreq ▸ hask

/-- The message of a turn is in the array of the client. -/
theorem buildMessage_size {path read msgBuf : List UInt8} (hpath : path.length ≤ 127)
    (hnul : 0 ∉ path) (hle : read.length ≤ msgBufLen) (hread : msgBuf.take read.length = read)
    (mid : UInt16) (token : UInt64) :
    ∃ msgSend, buildMessage (padded coapPathLen path) msgBuf read.length mid token = some msgSend ∧
      msgSend.buf.length = msgBufLen := by
  by_cases hne : read = []
  · subst hne
    obtain ⟨msgSend, hbuild, hsize, -⟩ := buildMessage_nothing hpath hnul msgBuf mid token
    exact ⟨msgSend, hbuild, hsize⟩
  · obtain ⟨msgSend, hbuild, hmax, henc⟩ := @buildMessage_eq _ _ mid token _ hpath hnul hne hle hread
    exact ⟨msgSend, hbuild, henc.size.trans hmax⟩

/-- What a client sends, whatever it read, carries a request for its path. -/
theorem buildMessage_carries {path read msgBuf : List UInt8} (hpath : path.length ≤ 127)
    (hnul : 0 ∉ path) (hle : read.length ≤ msgBufLen) (mid : UInt16) (token : UInt64) :
    ∃ msgSend, buildMessage (padded coapPathLen path) (splice msgBuf 0 read) read.length mid token
        = some msgSend ∧
      Carries (msgSend.buf.take msgSend.len)
        (clientRequest path (requestPayload path read) mid token) := by
  have hread := @take_splice _ msgBuf read 0 (Nat.zero_le _)
  rw [Nat.zero_add, List.take_zero, List.nil_append] at hread
  obtain ⟨msgSend, hbuild, hlen, hall⟩ := buildMessage_decodes hpath hnul hle hread mid token
  obtain ⟨msgSend', hbuild', hsize⟩ := buildMessage_size hpath hnul hle hread mid token
  obtain rfl : msgSend = msgSend' := Option.some_inj.mp (hbuild.symm.trans hbuild')
  have htake : (msgSend.buf.take msgSend.len).length = msgSend.len := by
    rw [List.length_take]
    omega
  refine ⟨msgSend, hbuild, ?_, fun m p hload => ?_⟩
  · rw [htake, ← show msgBufLen = bufSize from rfl, ← hsize]
    exact hlen
  · rw [htake] at hload ⊢
    obtain ⟨pkt, hparse, hdec⟩ := hall m p hload
    exact ⟨pkt, hparse, asks_clientRequest hdec⟩

/-- A datagram carries one request. -/
theorem Carries.unique {data : List UInt8} {req req' : Request} (h : Carries data req)
    (h' : Carries data req') : req = req' := by
  have hload : loadBytes (fun _ : Obj => data) ⟨.buf, 0⟩ data.length = some data :=
    loadBytes_eq_some.mpr ⟨Nat.le_of_eq (Nat.zero_add _), List.take_length⟩
  obtain ⟨pkt, hparse, hask⟩ := h.2 _ _ hload
  obtain ⟨pkt', hparse', hask'⟩ := h'.2 _ _ hload
  obtain rfl : pkt = pkt' := Outcome.ok.inj (hparse.symm.trans hparse')
  have htok := Option.some_inj.mp (hask.tok.symm.trans hask'.tok)
  have hpath := List.map_injective_iff.mpr (Option.some_injective _)
    (hask.path.symm.trans hask'.path)
  have hpayload := Option.some_inj.mp (hask.payload.symm.trans hask'.payload)
  have hcode := hask.code.symm.trans hask'.code
  have hidHi := hask.idHi.symm.trans hask'.idHi
  have hidLo := hask.idLo.symm.trans hask'.idLo
  cases req
  cases req'
  simp only at htok hpath hpayload hcode hidHi hidLo
  subst htok hpath hpayload hcode hidHi hidLo
  rfl

/-- The server answers the request that a datagram carries. -/
theorem coapServTurn_carries {m : Mem Obj} {hello : UInt8} {data : List UInt8} {req : Request}
    (h : ServReady m hello) (hc : Carries data req) (rsppkt : CoapPacket Obj) :
    ∃ m', coapServTurn m data rsppkt
        = some (.sent (replyMessage req (serve hello req).2).encode, m') ∧
      ServReady m' (serve hello req).1 := by
  obtain ⟨hle, hall⟩ := hc
  have htake : data.take bufSize = data := List.take_of_length_le hle
  obtain ⟨hfit, hslice⟩ := recvfrom_fits h data
  rw [htake] at hfit hslice
  obtain ⟨pkt, hparse, hask⟩ := hall (recvfrom m data) buf (loadBytes_eq_some.mpr ⟨hfit, hslice⟩)
  exact coapServTurn_ok h (by rw [htake]; exact hparse) hask

/-! ## One party at a time -/

section Parties

variable {setup : Setup A} {s s' : State A} {a : Act A}

omit [DecidableEq A] in
/-- A client sends what carries a request for its path. -/
theorem sendStep_carries {i : Nat} {read : List UInt8} {token : UInt64} {ok : Bool}
    (h : sendStep setup s i read token ok = some s') :
    ∃ entry data, setup.entries[i]? = some entry ∧ (s.clients i).waits = false ∧
      Carries data (clientRequest entry.path (requestPayload entry.path read)
        (s.clients i).messageIdCounter token) ∧
      s' = { s with
        net := if ok then s.net ++ [⟨entry.addr, (s.clients i).addrRemote, data⟩] else s.net,
        clients := Function.update s.clients i
          { s.clients i with
            messageIdCounter := (s.clients i).messageIdCounter + 1,
            msgBuf := splice (s.clients i).msgBuf 0 read, waits := ok,
            log := (s.clients i).log ++
              [if ok then .sent (s.clients i).addrRemote data else .failed data] } } := by
  obtain ⟨entry, msgSend, hentry, hwaits, hle, hbuild, hs'⟩ := sendStep_cases h
  obtain ⟨hpath, hnul⟩ := setup.path_ok entry (List.mem_of_getElem? hentry)
  obtain ⟨msgSend', hbuild', hcarries⟩ := @buildMessage_carries entry.path read
    (s.clients i).msgBuf hpath hnul hle (s.clients i).messageIdCounter token
  obtain rfl : msgSend = msgSend' := Option.some_inj.mp (hbuild.symm.trans hbuild')
  exact ⟨entry, _, hentry, hwaits, hcarries, hs'⟩

/-- What a step does to a client: it sends, receives, gives up, or is not concerned. -/
theorem step_client (h : step setup s a = some s') (i : Nat) :
    s'.clients i = s.clients i ∨
    (∃ entry read token ok data, setup.entries[i]? = some entry ∧ a = .send i read token ok ∧
      (s.clients i).waits = false ∧
      Carries data (clientRequest entry.path (requestPayload entry.path read)
        (s.clients i).messageIdCounter token) ∧
      s'.clients i = { s.clients i with
        messageIdCounter := (s.clients i).messageIdCounter + 1,
        msgBuf := splice (s.clients i).msgBuf 0 read, waits := ok,
        log := (s.clients i).log ++
          [if ok then .sent (s.clients i).addrRemote data else .failed data] } ∧
      s'.net = if ok then s.net ++ [⟨entry.addr, (s.clients i).addrRemote, data⟩] else s.net) ∨
    (∃ entry k packet, setup.entries[i]? = some entry ∧ a = .receive i k ∧
      s.net[k]? = some packet ∧ (s.clients i).waits = true ∧ packet.dst = entry.addr ∧
      s'.clients i = { s.clients i with
        addrRemote := packet.src, waits := false,
        log := (s.clients i).log ++ [.received packet.src (packet.data.take msgBufLen)] } ∧
      s'.net = s.net.eraseIdx k) ∨
    (a = .timeout i ∧ (s.clients i).waits = true ∧
      s'.clients i = { s.clients i with waits := false } ∧ s'.net = s.net) := by
  cases a with
  | send j read token ok =>
    obtain ⟨entry, data, hentry, hwaits, hcarries, rfl⟩ := sendStep_carries h
    by_cases hi : i = j
    · subst hi
      exact Or.inr (Or.inl ⟨entry, read, token, ok, data, hentry, rfl, hwaits, hcarries,
        Function.update_self .., rfl⟩)
    · exact Or.inl (Function.update_of_ne hi _ _)
  | receive j k =>
    obtain ⟨entry, packet, hentry, hpacket, hwaits, hdst, rfl⟩ := receiveStep_cases h
    by_cases hi : i = j
    · subst hi
      exact Or.inr (Or.inr (Or.inl ⟨entry, k, packet, hentry, rfl, hpacket, hwaits, hdst,
        Function.update_self .., rfl⟩))
    · exact Or.inl (Function.update_of_ne hi _ _)
  | timeout j =>
    obtain ⟨hwaits, rfl⟩ := timeoutStep_cases h
    by_cases hi : i = j
    · subst hi
      exact Or.inr (Or.inr (Or.inr ⟨rfl, hwaits, Function.update_self .., rfl⟩))
    · exact Or.inl (Function.update_of_ne hi _ _)
  | serve k rsppkt =>
    obtain ⟨packet, m, turn, m', -, -, -, rfl⟩ := serveStep_cases h
    exact Or.inl rfl
  | lose k =>
    rw [step] at h
    split at h
    · obtain rfl := Option.some_inj.mp h
      exact Or.inl rfl
    · cases h
  | duplicate k =>
    obtain ⟨packet, -, rfl⟩ := Option.map_eq_some_iff.mp h
    exact Or.inl rfl
  | foreign packet =>
    obtain rfl := Option.some_inj.mp h
    exact Or.inl rfl

/-- What a step does to the servers: one of them takes a turn, or none is concerned. -/
theorem step_servers (h : step setup s a = some s') :
    s'.servers = s.servers ∨
    ∃ k rsppkt packet m turn m', a = .serve k rsppkt ∧ s.net[k]? = some packet ∧
      s.servers packet.dst = some m ∧ coapServTurn m packet.data rsppkt = some (turn, m') ∧
      s'.servers = Function.update s.servers packet.dst (some m') ∧
      s'.net = s.net.eraseIdx k ++ replies packet.dst packet.src turn := by
  cases a with
  | send j read token ok =>
    obtain ⟨entry, msgSend, -, -, -, -, rfl⟩ := sendStep_cases h
    exact Or.inl rfl
  | receive j k =>
    obtain ⟨entry, packet, -, -, -, -, rfl⟩ := receiveStep_cases h
    exact Or.inl rfl
  | timeout j =>
    obtain ⟨-, rfl⟩ := timeoutStep_cases h
    exact Or.inl rfl
  | serve k rsppkt =>
    obtain ⟨packet, m, turn, m', hpacket, hm, hturn, rfl⟩ := serveStep_cases h
    exact Or.inr ⟨k, rsppkt, packet, m, turn, m', rfl, hpacket, hm, hturn, rfl, rfl⟩
  | lose k =>
    rw [step] at h
    split at h
    · obtain rfl := Option.some_inj.mp h
      exact Or.inl rfl
    · cases h
  | duplicate k =>
    obtain ⟨packet, -, rfl⟩ := Option.map_eq_some_iff.mp h
    exact Or.inl rfl
  | foreign packet =>
    obtain rfl := Option.some_inj.mp h
    exact Or.inl rfl

/-- Where a datagram in flight comes from: it was there before, a client sent it, a server
    answered with it, or it is a foreign one. -/
theorem step_net (h : step setup s a = some s') {packet : Packet A} (hmem : packet ∈ s'.net) :
    packet ∈ s.net ∨
    (∃ i entry, setup.entries[i]? = some entry ∧
      packet.src = entry.addr ∧ packet.dst = (s.clients i).addrRemote ∧
      (s'.clients i).log = (s.clients i).log ++ [.sent packet.dst packet.data]) ∨
    (∃ request m m' rsppkt, request ∈ s.net ∧ s.servers request.dst = some m ∧
      coapServTurn m request.data rsppkt = some (.sent packet.data, m') ∧
      packet.src = request.dst ∧ packet.dst = request.src) ∨
    a = .foreign packet := by
  cases a with
  | send i read token ok =>
    obtain ⟨entry, msgSend, hentry, -, -, -, rfl⟩ := sendStep_cases h
    cases ok with
    | false => exact Or.inl hmem
    | true =>
      rcases List.mem_append.mp hmem with hmem | hmem
      · exact Or.inl hmem
      · obtain rfl := List.mem_singleton.mp hmem
        refine Or.inr (Or.inl ⟨i, entry, hentry, rfl, rfl, ?_⟩)
        simp only [Function.update_self, if_true]
  | receive j k =>
    obtain ⟨entry, packet', -, -, -, -, rfl⟩ := receiveStep_cases h
    exact Or.inl (List.mem_of_mem_eraseIdx hmem)
  | timeout j =>
    obtain ⟨-, rfl⟩ := timeoutStep_cases h
    exact Or.inl hmem
  | serve k rsppkt =>
    obtain ⟨request, m, turn, m', hrequest, hm, hturn, rfl⟩ := serveStep_cases h
    rcases List.mem_append.mp hmem with hmem | hmem
    · exact Or.inl (List.mem_of_mem_eraseIdx hmem)
    · cases turn with
      | sent reply =>
        obtain rfl := List.mem_singleton.mp hmem
        exact Or.inr (Or.inr (Or.inl ⟨request, m, m', rsppkt, List.mem_of_getElem? hrequest, hm,
          hturn, rfl, rfl⟩))
      | badPacket rc => cases hmem
      | buildFailed rc => cases hmem
  | lose k =>
    rw [step] at h
    split at h
    · obtain rfl := Option.some_inj.mp h
      exact Or.inl (List.mem_of_mem_eraseIdx hmem)
    · cases h
  | duplicate k =>
    obtain ⟨packet', hpacket', rfl⟩ := Option.map_eq_some_iff.mp h
    rcases List.mem_append.mp hmem with hmem | hmem
    · exact Or.inl hmem
    · obtain rfl := List.mem_singleton.mp hmem
      exact Or.inl (List.mem_of_getElem? hpacket')
  | foreign packet' =>
    obtain rfl := Option.some_inj.mp h
    rcases List.mem_append.mp hmem with hmem | hmem
    · exact Or.inl hmem
    · obtain rfl := List.mem_singleton.mp hmem
      exact Or.inr (Or.inr (Or.inr rfl))

end Parties

end Gateway.Network.Exchange
