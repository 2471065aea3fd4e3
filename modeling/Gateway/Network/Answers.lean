/-
  Gateway.Network.Answers

  What a client gets for its requests, over a network that loses, duplicates and reorders
  datagrams.

  `exchange_sound` needs no assumption about the other hosts: a server's turn comes to its end
  unless its `printf` finds no NUL, the datagrams of a client are numbered requests for its
  path, and each of them goes to whoever sent the last datagram that the client received.
  As long as the other hosts leave the clients' sockets alone, that is the server of the
  table, and whatever a client receives is the server's reply to a request that the client
  sent before (`replies_answer_requests`).  Without other hosts nobody changes `/hello`, and
  the path alone decides about the reply (`replies_of_path`).
-/

import Gateway.CoapServer.HelloRuns
import Gateway.Network.Exchange

namespace Gateway.Network.Answers

open Gateway.Lib.ByteWindow Gateway.Lib.BlockMem Gateway.Lib.CString Gateway.Lib.CoapFormat
open Gateway.Lib.EventLog Gateway.Lib.Transition
open Gateway.CoapClient.Request
open Gateway.CoapServer.Microcoap Gateway.CoapServer.Dispatch Gateway.CoapServer.Endpoints
open Gateway.CoapServer.CoapServ Gateway.CoapServer.HelloRuns
open Gateway.Network.Exchange

variable {A : Type} [DecidableEq A]

/-! ## Any network -/

/-- The sender of a datagram that was received. -/
def senderOf : Event A → Option A
  | .received src _ => some src
  | _ => none

/-- The datagram that was built. -/
def builtOf : Event A → Option (List UInt8)
  | .sent _ data => some data
  | .failed data => some data
  | .received _ _ => none

/-- The sender of the last datagram that was received, at first the address of the table. -/
def remoteAfter (ip : A) (log : List (Event A)) : A := (log.filterMap senderOf).getLast?.getD ip

/-- The datagrams that were built. -/
def built (log : List (Event A)) : List (List UInt8) := log.filterMap builtOf

/-- A datagram goes to the sender of the last one that was received. -/
def Follows (ip : A) (pre : List (Event A)) : Event A → Prop
  | .sent dst _ => dst = remoteAfter ip pre
  | _ => True

/-- A client, whatever it receives. -/
structure ClientSound (entry : Entry A) (mid : UInt16) (client : Client A) : Prop where
  remote : client.addrRemote = remoteAfter entry.ip client.log
  follows : Justified (Follows entry.ip) client.log
  counter : client.messageIdCounter = mid + UInt16.ofNat (built client.log).length
  requests : ∀ k data, (built client.log)[k]? = some data → ∃ payload token,
    Carries data (clientRequest entry.path payload (mid + UInt16.ofNat k) token)

/-- The servers, whatever they receive. -/
def ServersReady (setup : Setup A) (s : State A) : Prop :=
  ∀ a, setup.isServer a = true → ∃ m hello, s.servers a = some m ∧ ServReady m hello

section Any

variable {setup : Setup A} {s s' : State A} {a : Act A} {entry : Entry A} {mid : UInt16} {i : Nat}

omit [DecidableEq A] in
/-- A request is built, and sent if `sendto` succeeds. -/
theorem ClientSound.send {client : Client A} (h : ClientSound entry mid client) (ok : Bool)
    {data payload : List UInt8} {token : UInt64} (msgBuf : List UInt8)
    (hc : Carries data (clientRequest entry.path payload client.messageIdCounter token)) :
    ClientSound entry mid { client with
      messageIdCounter := client.messageIdCounter + 1, msgBuf := msgBuf, waits := ok,
      log := client.log ++ [if ok then .sent client.addrRemote data else .failed data] } := by
  have hsender : senderOf (if ok then Event.sent client.addrRemote data else .failed data)
      = none := by
    cases ok <;> rfl
  have hbuilt : built (client.log ++ [if ok then Event.sent client.addrRemote data
      else .failed data]) = built client.log ++ [data] := by
    rw [built, List.filterMap_append]
    cases ok <;> rfl
  refine ⟨?_, justified_concat.mpr ⟨h.follows, ?_⟩, ?_, fun k data' hk => ?_⟩
  · show client.addrRemote = remoteAfter entry.ip (client.log ++ _)
    rw [remoteAfter, List.filterMap_append, List.filterMap_cons_none hsender, List.filterMap_nil,
      List.append_nil]
    exact h.remote
  · cases ok with
    | false => trivial
    | true => exact h.remote
  · show client.messageIdCounter + 1 = mid + UInt16.ofNat (built (client.log ++ _)).length
    rw [hbuilt, List.length_append, List.length_singleton, h.counter, UInt16.ofNat_add,
      UInt16.add_assoc]
    rfl
  · -- the k-th request has the k-th number; the new one has the number of the counter
    change (built (client.log ++ _))[k]? = some data' at hk
    rw [hbuilt] at hk
    rcases Nat.lt_or_ge k (built client.log).length with hlt | hge
    · rw [List.getElem?_append_left hlt] at hk
      exact h.requests k data' hk
    · rw [List.getElem?_append_right hge, List.getElem?_singleton] at hk
      split at hk
      · next hzero =>
        obtain rfl := Option.some_inj.mp hk
        have hk' : k = (built client.log).length := by omega
        rw [hk', ← h.counter]
        exact ⟨payload, token, hc⟩
      · cases hk

omit [DecidableEq A] in
/-- A datagram is received: the next one goes to its sender. -/
theorem ClientSound.receive {client : Client A} (h : ClientSound entry mid client) (src : A)
    (data : List UInt8) : ClientSound entry mid { client with
      addrRemote := src, waits := false, log := client.log ++ [.received src data] } := by
  have hbuilt : built (client.log ++ [.received src data]) = built client.log := by
    rw [built, List.filterMap_append]
    exact List.append_nil _
  refine ⟨?_, justified_concat.mpr ⟨h.follows, trivial⟩, ?_, ?_⟩
  · show src = remoteAfter entry.ip (client.log ++ [.received src data])
    rw [remoteAfter, List.filterMap_append]
    show src = ((client.log.filterMap senderOf ++ [src]).getLast?).getD entry.ip
    rw [List.getLast?_concat, Option.getD_some]
  · show client.messageIdCounter = mid + UInt16.ofNat (built (client.log ++ _)).length
    rw [hbuilt]
    exact h.counter
  · show ∀ k data', (built (client.log ++ _))[k]? = some data' → _
    rw [hbuilt]
    exact h.requests

theorem step_clientSound (hentry : setup.entries[i]? = some entry)
    (h : ClientSound entry mid (s.clients i)) (hs : step setup s a = some s') :
    ClientSound entry mid (s'.clients i) := by
  rcases step_client hs i with hsame |
    ⟨entry', read, token, ok, data, hentry', -, -, hc, hclient, -⟩ |
    ⟨entry', k, packet, -, -, -, -, -, hclient, -⟩ | ⟨-, -, hclient, -⟩
  · rw [hsame]
    exact h
  · obtain rfl : entry = entry' := Option.some_inj.mp (hentry.symm.trans hentry')
    rw [hclient]
    exact h.send ok _ hc
  · rw [hclient]
    exact h.receive _ _
  · rw [hclient]
    exact ⟨h.remote, h.follows, h.counter, h.requests⟩

theorem step_serversReady (h : ServersReady setup s) (hs : step setup s a = some s') :
    ServersReady setup s' := by
  intro b hb
  obtain ⟨m, hello, hm, hready⟩ := h b hb
  rcases step_servers hs with hsame | ⟨k, rsppkt, packet, m₁, turn, m', -, -, hm₁, hturn, hnew, -⟩
  · rw [hsame]
    exact ⟨m, hello, hm, hready⟩
  · rw [hnew]
    by_cases hdst : b = packet.dst
    · subst hdst
      obtain rfl : m = m₁ := Option.some_inj.mp (hm.symm.trans hm₁)
      obtain ⟨turn', m'', hello', hturn', hready'⟩ := coapServTurn_ready hready packet.data rsppkt
      rw [hturn] at hturn'
      cases hturn'
      exact ⟨m', hello', Function.update_self .., hready'⟩
    · rw [Function.update_of_ne hdst]
      exact ⟨m, hello, hm, hready⟩

end Any

/-! ## Other hosts that leave the clients alone -/

/-- A host that is no client sends to a host that is no client. -/
def Outside (setup : Setup A) (packet : Packet A) : Prop :=
  ∀ entry ∈ setup.entries, packet.src ≠ entry.addr ∧ packet.dst ≠ entry.addr

/-- Other hosts, if there are any, leave the clients alone. -/
def Allowed (setup : Setup A) (others : Prop) : Act A → Prop
  | .foreign packet => others ∧ Outside setup packet
  | _ => True

/-- The datagram is the reply of a server, with a value of `/hello` in `values`, to a request for
    the path of the entry that the client sent. -/
def IsAnswer (entry : Entry A) (values : UInt8 → Prop) (log : List (Event A)) (data : List UInt8) :
    Prop :=
  ∃ sent payload mid token hello, .sent entry.ip sent ∈ log ∧ values hello ∧
    Carries sent (clientRequest entry.path payload mid token) ∧
    data = (replyMessage (clientRequest entry.path payload mid token)
      (serve hello (clientRequest entry.path payload mid token)).2).encode

/-- What a client sends is a request to its server, and what it receives is an answer. -/
def Caused (entry : Entry A) (values : UInt8 → Prop) (pre : List (Event A)) : Event A → Prop
  | .sent dst data => dst = entry.ip ∧
    ∃ payload mid token, Carries data (clientRequest entry.path payload mid token)
  | .failed _ => True
  | .received src data => src = entry.ip ∧ IsAnswer entry values pre data

/-- A request of a client is in flight. -/
def IsRequest (setup : Setup A) (s : State A) (packet : Packet A) : Prop :=
  ∃ i entry, setup.entries[i]? = some entry ∧ packet.src = entry.addr ∧ packet.dst = entry.ip ∧
    .sent entry.ip packet.data ∈ (s.clients i).log

/-- An answer to a client is in flight. -/
def IsReply (setup : Setup A) (values : UInt8 → Prop) (s : State A) (packet : Packet A) : Prop :=
  ∃ i entry, setup.entries[i]? = some entry ∧ packet.dst = entry.addr ∧ packet.src = entry.ip ∧
    IsAnswer entry values (s.clients i).log packet.data

/-- What holds between the clients and the servers. -/
structure Exchanges (setup : Setup A) (others : Prop) (values : UInt8 → Prop) (s : State A) :
    Prop where
  servers : ∀ a, setup.isServer a = true →
    ∃ m hello, s.servers a = some m ∧ ServReady m hello ∧ values hello
  clients : ∀ a, setup.isServer a = false → s.servers a = none
  remote : ∀ i entry, setup.entries[i]? = some entry → (s.clients i).addrRemote = entry.ip
  caused : ∀ i entry, setup.entries[i]? = some entry →
    Justified (Caused entry values) (s.clients i).log
  packets : ∀ packet ∈ s.net, IsRequest setup s packet ∨ IsReply setup values s packet ∨
    others ∧ Outside setup packet

section Honest

variable {setup : Setup A} {others : Prop} {values : UInt8 → Prop} {s s' : State A} {a : Act A}

/-- The servers know no other values when datagrams of others come in. -/
def Closed (others : Prop) (values : UInt8 → Prop) : Prop :=
  others → ∀ hello d, values hello → values (nextHello hello d)

/-- The log of a client only grows. -/
theorem step_log (h : step setup s a = some s') (i : Nat) :
    (s.clients i).log <+: (s'.clients i).log := by
  rcases step_client h i with hsame | ⟨entry, read, token, ok, data, -, -, -, -, hclient, -⟩ |
    ⟨entry, k, packet, -, -, -, -, -, hclient, -⟩ | ⟨-, -, hclient, -⟩
  · rw [hsame]
  · rw [hclient]
    exact List.prefix_append _ _
  · rw [hclient]
    exact List.prefix_append _ _
  · rw [hclient]

omit [DecidableEq A] in
theorem IsAnswer.mono {entry : Entry A} {log log' : List (Event A)} {data : List UInt8}
    (h : IsAnswer entry values log data) (hle : log <+: log') :
    IsAnswer entry values log' data := by
  obtain ⟨sent, payload, mid, token, hello, hsent, hrest⟩ := h
  exact ⟨sent, payload, mid, token, hello, hle.subset hsent, hrest⟩

/-- What is in flight stays what it is. -/
theorem packet_mono (h : step setup s a = some s') {packet : Packet A}
    (hp : IsRequest setup s packet ∨ IsReply setup values s packet ∨
      others ∧ Outside setup packet) :
    IsRequest setup s' packet ∨ IsReply setup values s' packet ∨
      others ∧ Outside setup packet := by
  rcases hp with ⟨i, entry, hentry, hsrc, hdst, hsent⟩ | ⟨i, entry, hentry, hdst, hsrc, hans⟩ | hout
  · exact Or.inl ⟨i, entry, hentry, hsrc, hdst, (step_log h i).subset hsent⟩
  · exact Or.inr (Or.inl ⟨i, entry, hentry, hdst, hsrc, hans.mono (step_log h i)⟩)
  · exact Or.inr (Or.inr hout)

omit [DecidableEq A] in
/-- A request that is in flight is one of the server. -/
theorem Exchanges.carries (h : Exchanges setup others values s) {packet : Packet A}
    {i : Nat} {entry : Entry A} (hentry : setup.entries[i]? = some entry)
    (hsent : .sent entry.ip packet.data ∈ (s.clients i).log) :
    ∃ payload mid token, Carries packet.data (clientRequest entry.path payload mid token) := by
  obtain ⟨pre, -, -, hcarries⟩ := (h.caused i entry hentry).of_mem hsent
  exact hcarries

/-- The value of `/hello` behind a GET. -/
theorem serve_clientRequest_fst (hello : UInt8) (path payload : List UInt8) (mid : UInt16)
    (token : UInt64) : (serve hello (clientRequest path payload mid token)).1 = hello := by
  have hne : coapMethodGet ≠ coapMethodPut := by decide
  rw [serve_fst, if_neg fun hput => hne hput.1]

omit [DecidableEq A] in
/-- A server that takes a turn keeps its values. -/
theorem Exchanges.turn (h : Exchanges setup others values s) (hclosed : Closed others values)
    {request : Packet A} {m m' : Mem Obj} {turn : Turn} {rsppkt : CoapPacket Obj}
    (hmem : request ∈ s.net) (hm : s.servers request.dst = some m)
    (hturn : coapServTurn m request.data rsppkt = some (turn, m')) :
    ∃ hello, ServReady m' hello ∧ values hello := by
  have hserver : setup.isServer request.dst = true := by
    by_contra hno
    rw [h.clients _ (Bool.eq_false_iff.mpr hno)] at hm
    cases hm
  obtain ⟨m₀, hello, hm₀, hready, hval⟩ := h.servers _ hserver
  obtain rfl : m = m₀ := Option.some_inj.mp (hm.symm.trans hm₀)
  rcases h.packets request hmem with ⟨i, entry, hentry, -, -, hsent⟩ | ⟨i, entry, hentry, hdst, -⟩ |
    ⟨hothers, -⟩
  · -- a GET changes nothing
    obtain ⟨payload, mid, token, hcarries⟩ := h.carries hentry hsent
    obtain ⟨m₁, hturn₁, hready₁⟩ := coapServTurn_carries hready hcarries rsppkt
    rw [hturn] at hturn₁
    cases hturn₁
    exact ⟨hello, by rw [serve_clientRequest_fst] at hready₁; exact hready₁, hval⟩
  · -- no server listens at the socket of a client
    rw [hdst, setup.addr_client entry (List.mem_of_getElem? hentry)] at hserver
    cases hserver
  · obtain ⟨turn₁, m₁, hturn₁, hready₁, -⟩ := coapServTurn_hello hready request.data rsppkt
    rw [hturn] at hturn₁
    cases hturn₁
    exact ⟨_, hready₁, hclosed hothers _ _ hval⟩

omit [DecidableEq A] in
/-- What a server sends answers a request of a client, or goes to another host. -/
theorem Exchanges.reply (h : Exchanges setup others values s)
    {request packet : Packet A} {m m' : Mem Obj} {rsppkt : CoapPacket Obj}
    (hmem : request ∈ s.net) (hm : s.servers request.dst = some m)
    (hturn : coapServTurn m request.data rsppkt = some (.sent packet.data, m'))
    (hsrc : packet.src = request.dst) (hdst : packet.dst = request.src) :
    IsReply setup values s packet ∨ others ∧ Outside setup packet := by
  rcases h.packets request hmem with ⟨i, entry, hentry, hfrom, hto, hsent⟩ |
    ⟨i, entry, hentry, hto, -⟩ | ⟨hothers, hout⟩
  · left
    obtain ⟨payload, mid, token, hcarries⟩ := h.carries hentry hsent
    obtain ⟨m₀, hello, hm₀, hready, hval⟩ :=
      h.servers request.dst (hto ▸ setup.ip_server entry (List.mem_of_getElem? hentry))
    obtain rfl : m = m₀ := Option.some_inj.mp (hm.symm.trans hm₀)
    obtain ⟨m₁, hturn₁, -⟩ := coapServTurn_carries hready hcarries rsppkt
    rw [hturn] at hturn₁
    obtain ⟨hreply, -⟩ := Prod.mk.inj (Option.some_inj.mp hturn₁)
    exact ⟨i, entry, hentry, hdst.trans hfrom, hsrc.trans hto, request.data, payload, mid, token,
      hello, hsent, hval, hcarries, Turn.sent.inj hreply⟩
  · -- no server listens at the socket of a client
    rw [h.clients _ (hto ▸ setup.addr_client entry (List.mem_of_getElem? hentry))] at hm
    cases hm
  · right
    refine ⟨hothers, fun entry hentry => ?_⟩
    rw [hsrc, hdst]
    exact ⟨(hout entry hentry).2, (hout entry hentry).1⟩

omit [DecidableEq A] in
/-- Of two clients with one address. -/
theorem entry_unique {i j : Nat} {entry entry' : Entry A} (hi : setup.entries[i]? = some entry)
    (hj : setup.entries[j]? = some entry') (haddr : entry.addr = entry'.addr) :
    i = j ∧ entry = entry' := by
  have hi' : (setup.entries.map Entry.addr)[i]? = some entry.addr := by
    rw [List.getElem?_map, hi]
    rfl
  have hj' : (setup.entries.map Entry.addr)[j]? = some entry.addr := by
    rw [List.getElem?_map, hj, haddr]
    rfl
  obtain ⟨hlt, -⟩ := List.getElem?_eq_some_iff.mp hi'
  obtain rfl : i = j := (List.getElem?_inj hlt setup.addr_nodup).mp (hi'.trans hj'.symm)
  exact ⟨rfl, Option.some_inj.mp (hi.symm.trans hj)⟩

omit [DecidableEq A] in
/-- A reply of a server fits into the array of the client. -/
theorem IsAnswer.take {entry : Entry A} {log : List (Event A)} {data : List UInt8}
    (h : IsAnswer entry values log data) : data.take msgBufLen = data := by
  obtain ⟨sent, payload, mid, token, hello, -, -, -, rfl⟩ := h
  apply List.take_of_length_le
  have hreply := replyMessage_length (clientRequest entry.path payload mid token)
    (serve hello (clientRequest entry.path payload mid token)).2
  have hpayload := serve_payload_length hello (clientRequest entry.path payload mid token)
  unfold msgBufLen
  omega

omit [DecidableEq A] in
/-- A datagram for a client is an answer to it. -/
theorem Exchanges.received (h : Exchanges setup others values s) {packet : Packet A} {i : Nat}
    {entry : Entry A} (hentry : setup.entries[i]? = some entry) (hmem : packet ∈ s.net)
    (hdst : packet.dst = entry.addr) :
    packet.src = entry.ip ∧ IsAnswer entry values (s.clients i).log packet.data := by
  have hin := List.mem_of_getElem? hentry
  rcases h.packets packet hmem with ⟨j, entry', hentry', -, hto, -⟩ |
    ⟨j, entry', hentry', hto, hfrom, hans⟩ | ⟨-, hout⟩
  · -- a request is for a server
    have hserver := setup.ip_server entry' (List.mem_of_getElem? hentry')
    rw [← hto, hdst, setup.addr_client entry hin] at hserver
    cases hserver
  · obtain ⟨rfl, rfl⟩ := entry_unique hentry' hentry (hto.symm.trans hdst)
    exact ⟨hfrom, hans⟩
  · exact absurd hdst (hout entry hin).2

theorem step_exchanges (hclosed : Closed others values) (h : Exchanges setup others values s)
    (ha : Allowed setup others a) (hs : step setup s a = some s') :
    Exchanges setup others values s' := by
  refine ⟨fun b hb => ?_, fun b hb => ?_, fun i entry hentry => ?_, fun i entry hentry => ?_,
    fun packet hmem => ?_⟩
  · rcases step_servers hs with hsame |
      ⟨k, rsppkt, packet, m, turn, m', -, hpacket, hm, hturn, hnew, -⟩
    · rw [hsame]
      exact h.servers b hb
    · rw [hnew]
      by_cases hdst : b = packet.dst
      · subst hdst
        obtain ⟨hello, hready, hval⟩ := h.turn hclosed (List.mem_of_getElem? hpacket) hm hturn
        exact ⟨m', hello, Function.update_self .., hready, hval⟩
      · rw [Function.update_of_ne hdst]
        exact h.servers b hb
  · rcases step_servers hs with hsame | ⟨k, rsppkt, packet, m, turn, m', -, -, hm, -, hnew, -⟩
    · rw [hsame]
      exact h.clients b hb
    · have hne : b ≠ packet.dst := by
        rintro rfl
        rw [h.clients _ hb] at hm
        cases hm
      rw [hnew, Function.update_of_ne hne]
      exact h.clients b hb
  · have hold := h.remote i entry hentry
    rcases step_client hs i with hsame | ⟨entry', read, token, ok, data, -, -, -, -, hclient, -⟩ |
      ⟨entry', k, packet, hentry', -, hpacket, -, hdst, hclient, -⟩ | ⟨-, -, hclient, -⟩
    · rw [hsame]
      exact hold
    · rw [hclient]
      exact hold
    · obtain rfl : entry = entry' := Option.some_inj.mp (hentry.symm.trans hentry')
      rw [hclient]
      exact (h.received hentry (List.mem_of_getElem? hpacket) hdst).1
    · rw [hclient]
      exact hold
  · have hold := h.caused i entry hentry
    rcases step_client hs i with hsame |
      ⟨entry', read, token, ok, data, hentry', -, -, hc, hclient, -⟩ |
      ⟨entry', k, packet, hentry', -, hpacket, -, hdst, hclient, -⟩ | ⟨-, -, hclient, -⟩
    · rw [hsame]
      exact hold
    · obtain rfl : entry = entry' := Option.some_inj.mp (hentry.symm.trans hentry')
      rw [hclient]
      refine justified_concat.mpr ⟨hold, ?_⟩
      cases ok with
      | false => trivial
      | true => exact ⟨h.remote i entry hentry, _, _, _, hc⟩
    · obtain rfl : entry = entry' := Option.some_inj.mp (hentry.symm.trans hentry')
      obtain ⟨hsrc, hans⟩ := h.received hentry (List.mem_of_getElem? hpacket) hdst
      rw [hclient]
      refine justified_concat.mpr ⟨hold, hsrc, ?_⟩
      rw [hans.take]
      exact hans
    · rw [hclient]
      exact hold
  · rcases step_net hs hmem with hold | ⟨i, entry, hentry, hsrc, hdst, hlog⟩ |
      ⟨request, m, m', rsppkt, hrequest, hm, hturn, hsrc, hdst⟩ | rfl
    · exact packet_mono hs (h.packets packet hold)
    · rw [h.remote i entry hentry] at hdst
      refine Or.inl ⟨i, entry, hentry, hsrc, hdst, ?_⟩
      rw [hlog, ← hdst]
      exact List.mem_append_right _ (List.mem_singleton_self _)
    · exact packet_mono hs (Or.inr (h.reply hrequest hm hturn hsrc hdst))
    · exact Or.inr (Or.inr ha)

omit [DecidableEq A] in
/-- An idle client can send. -/
theorem send_enabled {i : Nat} {entry : Entry A} (hentry : setup.entries[i]? = some entry)
    (hidle : (s.clients i).waits = false) {read : List UInt8} (hle : read.length ≤ msgBufLen)
    (token : UInt64) :
    ∃ s' sent, sendStep setup s i read token true = some s' ∧
      Carries sent (clientRequest entry.path (requestPayload entry.path read)
        (s.clients i).messageIdCounter token) ∧
      s'.net = s.net ++ [⟨entry.addr, (s.clients i).addrRemote, sent⟩] ∧
      s'.servers = s.servers ∧
      s'.clients i = { s.clients i with
        messageIdCounter := (s.clients i).messageIdCounter + 1,
        msgBuf := splice (s.clients i).msgBuf 0 read, waits := true,
        log := (s.clients i).log ++ [.sent (s.clients i).addrRemote sent] } := by
  obtain ⟨hpath, hnul⟩ := setup.path_ok entry (List.mem_of_getElem? hentry)
  obtain ⟨msgSend, hbuild, hcarries⟩ := @buildMessage_carries entry.path read (s.clients i).msgBuf
    hpath hnul hle (s.clients i).messageIdCounter token
  simp only [sendStep, hentry, hidle, hle, hbuild, Option.bind_eq_bind, Option.bind_some, and_self,
    if_true]
  exact ⟨_, msgSend.buf.take msgSend.len, rfl, hcarries, rfl, rfl, Function.update_self ..⟩

/-- A server can serve a request in flight. -/
theorem serve_enabled {k : Nat} {request : Packet A} {m : Mem Obj} {hello : UInt8} {req : Request}
    (hget : s.net[k]? = some request) (hm : s.servers request.dst = some m)
    (hready : ServReady m hello) (hc : Carries request.data req) (rsppkt : CoapPacket Obj) :
    ∃ s', serveStep s k rsppkt = some s' ∧
      s'.net = s.net.eraseIdx k ++
        [⟨request.dst, request.src, (replyMessage req (serve hello req).2).encode⟩] ∧
      s'.clients = s.clients := by
  obtain ⟨m', hturn, -⟩ := coapServTurn_carries hready hc rsppkt
  simp only [serveStep, hget, hm, hturn, Option.bind_eq_bind, Option.bind_some]
  exact ⟨_, rfl, rfl, rfl⟩

/-- A waiting client can receive a datagram in flight to it. -/
theorem receive_enabled {i k : Nat} {entry : Entry A} (hentry : setup.entries[i]? = some entry)
    (hwaits : (s.clients i).waits = true) {packet : Packet A} (hget : s.net[k]? = some packet)
    (hdst : packet.dst = entry.addr) :
    ∃ s', receiveStep setup s i k = some s' ∧ s'.net = s.net.eraseIdx k ∧
      (s'.clients i).waits = false ∧
      (s'.clients i).log =
        (s.clients i).log ++ [.received packet.src (packet.data.take msgBufLen)] := by
  simp only [receiveStep, hentry, hget, hwaits, hdst, Option.bind_eq_bind, Option.bind_some,
    and_self, if_true]
  exact ⟨_, rfl, rfl, by simp only [Function.update_self], by simp only [Function.update_self]⟩

omit [DecidableEq A] in
/-- A waiting client gives up. -/
theorem timeout_enabled {i : Nat} {entry : Entry A} (hentry : setup.entries[i]? = some entry)
    (hwaits : (s.clients i).waits = true) :
    ∃ s', timeoutStep setup s i = some s' ∧ s'.net = s.net ∧ s'.servers = s.servers ∧
      s'.clients i = { s.clients i with waits := false } := by
  simp only [timeoutStep, hentry, hwaits, Option.bind_eq_bind, Option.bind_some, if_true]
  exact ⟨_, rfl, rfl, rfl, Function.update_self ..⟩

omit [DecidableEq A] in
theorem getElem?_last {net net' : List (Packet A)} {packet : Packet A}
    (hnet : net' = net ++ [packet]) : net'[net.length]? = some packet := by
  rw [hnet]
  exact List.getElem?_concat_length

omit [DecidableEq A] in
theorem eraseIdx_last {net net' : List (Packet A)} {packet : Packet A}
    (hnet : net' = net ++ [packet]) : net'.eraseIdx net.length = net := by
  rw [hnet, List.eraseIdx_append_of_length_le (Nat.le_refl _), Nat.sub_self]
  exact List.append_nil _

/-- A client sends, its server serves the request, and the client receives the answer, while
    everything else in flight waits. -/
theorem Exchanges.round_trip (h : Exchanges setup others values s) {i : Nat} {entry : Entry A}
    (hentry : setup.entries[i]? = some entry) (hidle : (s.clients i).waits = false)
    {read : List UInt8} (hle : read.length ≤ msgBufLen) (token : UInt64)
    (rsppkt : CoapPacket Obj) :
    ∃ s' sent data, exec (step setup) s [.send i read token true, .serve s.net.length rsppkt,
        .receive i s.net.length] = some s' ∧
      s'.net = s.net ∧ (s'.clients i).waits = false ∧
      (s'.clients i).log =
        (s.clients i).log ++ [.sent entry.ip sent, .received entry.ip data] := by
  have hremote := h.remote i entry hentry
  obtain ⟨m, hello, hm, hready, hval⟩ :=
    h.servers entry.ip (setup.ip_server entry (List.mem_of_getElem? hentry))
  obtain ⟨s₁, sent, hs₁, hcarries, hnet₁, hservers₁, hclient₁⟩ :=
    send_enabled hentry hidle hle token
  rw [hremote] at hnet₁
  have hm₁ : s₁.servers entry.ip = some m := by rw [hservers₁, hm]
  obtain ⟨s₂, hs₂, hnet₂, hclients₂⟩ :=
    serve_enabled (getElem?_last hnet₁) hm₁ hready hcarries rsppkt
  rw [eraseIdx_last hnet₁] at hnet₂
  have hwaits₂ : (s₂.clients i).waits = true := by rw [hclients₂, hclient₁]
  obtain ⟨s₃, hs₃, hnet₃, hidle₃, hlog₃⟩ :=
    receive_enabled hentry hwaits₂ (getElem?_last hnet₂) rfl
  rw [eraseIdx_last hnet₂] at hnet₃
  have hrun : exec (step setup) s [.send i read token true, .serve s.net.length rsppkt,
      .receive i s.net.length] = some s₃ := by
    simp only [exec, step, hs₁, hs₂, hs₃]
  rw [hclients₂, hclient₁, hremote, List.append_assoc] at hlog₃
  exact ⟨s₃, sent, _, hrun, hnet₃, hidle₃, hlog₃⟩

end Honest

/-! ## Runs -/

section Runs

variable {setup : Setup A} {mid : Nat → UInt16} {msgBuf : Nat → List UInt8} {nobody : A}
  {s : State A}

omit [DecidableEq A] in
theorem serversReady_init : ServersReady setup (initState setup mid msgBuf nobody) := by
  intro a ha
  obtain ⟨m, hsetup, hready⟩ := endpointSetup_ready
  refine ⟨m, 0x31, ?_, hready⟩
  rw [initState]
  simp only [ha, if_true]
  exact hsetup

omit [DecidableEq A] in
theorem clientSound_init {i : Nat} {entry : Entry A} (hentry : setup.entries[i]? = some entry) :
    ClientSound entry (mid i) ((initState setup mid msgBuf nobody).clients i) where
  remote := by
    rw [initState]
    simp only [hentry]
    rfl
  follows := justified_nil
  counter := (UInt16.add_zero (mid i)).symm
  requests := fun k data hk => by cases hk

omit [DecidableEq A] in
theorem exchanges_init {others : Prop} {values : UInt8 → Prop} (hval : values 0x31) :
    Exchanges setup others values (initState setup mid msgBuf nobody) where
  servers := by
    intro a ha
    obtain ⟨m, hsetup, hready⟩ := endpointSetup_ready
    refine ⟨m, 0x31, ?_, hready, hval⟩
    rw [initState]
    simp only [ha, if_true]
    exact hsetup
  clients := by
    intro a ha
    rw [initState]
    simp only [ha, Bool.false_eq_true, if_false]
  remote := by
    intro i entry hentry
    rw [initState]
    simp only [hentry]
    rfl
  caused := fun i entry _ => justified_nil
  packets := fun packet hmem => absurd hmem List.not_mem_nil

/-- The two values of `/hello`. -/
def HelloValue (hello : UInt8) : Prop := hello = 0x30 ∨ hello = 0x31

/-- One client that asks a server for `hello`. -/
def oneClient : Setup Bool where
  isServer := id
  entries := [⟨false, true, cstr ['h', 'e', 'l', 'l', 'o']⟩]
  path_ok := by decide
  addr_client := by decide
  addr_nodup := by decide
  ip_server := by decide

/-- What a client and a server do in an exchange. -/
def Orderly : Act A → Prop
  | .send .. => True
  | .receive .. => True
  | .serve .. => True
  | _ => False

omit [DecidableEq A] in
theorem Orderly.allowed {others : Prop} {a : Act A} (h : Orderly a) : Allowed setup others a := by
  cases a with
  | foreign packet => exact h.elim
  | _ => trivial

/-- The client gets an answer. -/
theorem oneClient_reaches {P : State Bool → Act Bool → Prop} (hP : ∀ t a, Orderly a → P t a) :
    ∃ s sent data, Reachable (step oneClient) P
        (initState oneClient (fun _ => 7) (fun _ => List.replicate msgBufLen 0) false) s ∧
      (s.clients 0).log = [.sent true sent, .received true data] := by
  have hinit : Exchanges oneClient False HelloValue
      (initState oneClient (fun _ => 7) (fun _ => List.replicate msgBufLen 0) false) :=
    exchanges_init (Or.inr rfl)
  obtain ⟨s, sent, data, hrun, -, -, hlog⟩ := @Exchanges.round_trip _ _ _ _ _ _ hinit 0 _ rfl rfl
    [0x31] (by decide) 0 emptyPkt
  refine ⟨s, sent, data, Reachable.init.exec (fun a ha t => hP t a ?_) hrun, hlog⟩
  simp only [List.mem_cons, List.not_mem_nil, or_false] at ha
  rcases ha with rfl | rfl | rfl <;> trivial

/-- In every state that is reached, whatever the clients, the servers, the network and other hosts
    do: a server's turn on a datagram in flight reads behind `buf` exactly when that is accepted,
    has a payload, and no NUL stands in this or behind it, and comes to its end otherwise; the k-th
    datagram that a client builds carries a GET for its path with the k-th number; and it goes to
    the sender of the last datagram that the client received, at first to the address of the
    table. -/
theorem exchange_sound
    (h : Reachable (step setup) (fun _ _ => True) (initState setup mid msgBuf nobody) s) :
    (∀ k packet rsppkt, s.net[k]? = some packet → setup.isServer packet.dst = true →
      ∃ m, s.servers packet.dst = some m ∧
        (printingTurn m packet.data rsppkt = none ↔ Unterminated m packet.data) ∧
        (¬ Unterminated m packet.data →
          printingTurn m packet.data rsppkt = coapServTurn m packet.data rsppkt ∧
          ∃ s', step setup s (.serve k rsppkt) = some s')) ∧
    ∀ i entry, setup.entries[i]? = some entry →
      (∀ k data, (built (s.clients i).log)[k]? = some data → ∃ payload token,
        Carries data (clientRequest entry.path payload (mid i + UInt16.ofNat k) token)) ∧
      ∀ pre dst data, pre ++ [.sent dst data] <+: (s.clients i).log →
        dst = remoteAfter entry.ip pre := by
  have hinv : ServersReady setup s ∧ ∀ i entry, setup.entries[i]? = some entry →
      ClientSound entry (mid i) (s.clients i) := by
    refine @Reachable.invariant _ _ _ _ _ _ (fun s => ServersReady setup s ∧
      ∀ i entry, setup.entries[i]? = some entry → ClientSound entry (mid i) (s.clients i)) h
      ⟨serversReady_init, fun i entry hentry => clientSound_init hentry⟩ ?_
    rintro s a s' ⟨hservers, hclients⟩ - hs
    exact ⟨step_serversReady hservers hs,
      fun i entry hentry => step_clientSound hentry (hclients i entry hentry) hs⟩
  obtain ⟨hservers, hclients⟩ := hinv
  refine ⟨fun k packet rsppkt hpacket hserver => ?_, fun i entry hentry => ?_⟩
  · obtain ⟨m, hello, hm, hready⟩ := hservers packet.dst hserver
    obtain ⟨hiff, hsame⟩ := printingTurn_eq_none_iff hready packet.data rsppkt
    obtain ⟨turn, m', hello', hturn, -⟩ := coapServTurn_ready hready packet.data rsppkt
    refine ⟨m, hm, hiff, fun hends => ⟨hsame hends, ?_⟩⟩
    simp only [step, serveStep, hpacket, hm, hturn, Option.bind_eq_bind, Option.bind_some]
    exact ⟨_, rfl⟩
  · have hclient := hclients i entry hentry
    exact ⟨hclient.requests, fun pre dst data hpre => hclient.follows pre _ hpre⟩

/-- The first datagram of the client. -/
theorem exchange_sound_hello : ∃ (s : State Bool) (data payload : List UInt8) (token : UInt64),
    built (s.clients 0).log = [data] ∧
      Carries data (clientRequest (cstr ['h', 'e', 'l', 'l', 'o']) payload 7 token) := by
  obtain ⟨s, sent, data, hreach, hlog⟩ := @oneClient_reaches (fun _ _ => True) fun _ _ _ => trivial
  obtain ⟨-, hclients⟩ := exchange_sound hreach
  obtain ⟨hrequests, -⟩ := hclients 0 _ rfl
  have hbuilt : built (s.clients 0).log = [sent] := by
    rw [hlog]
    rfl
  obtain ⟨payload, token, hcarries⟩ := hrequests 0 sent (by rw [hbuilt]; rfl)
  exact ⟨s, sent, payload, token, hbuilt, hcarries⟩

theorem reachable_exchanges {others : Prop} {values : UInt8 → Prop} (hval : values 0x31)
    (hclosed : Closed others values)
    (h : Reachable (step setup) (fun _ => Allowed setup others)
      (initState setup mid msgBuf nobody) s) :
    Exchanges setup others values s :=
  h.invariant (exchanges_init hval) fun _ _ _ hinv ha hs => step_exchanges hclosed hinv ha hs

theorem helloValue_closed (others : Prop) : Closed others HelloValue := by
  intro _ hello d hval
  rw [nextHello]
  cases putByte d with
  | none => exact hval
  | some b =>
    rw [Option.map_some, Option.getD_some, helloChar]
    split
    · exact Or.inr rfl
    · exact Or.inl rfl

/-- In every state that is reached, however the network loses, duplicates and reorders datagrams
    and whatever other hosts send to the servers, as long as they leave the clients' sockets
    alone: every datagram that a client received came from the server of its entry, and is the
    acknowledgement of a request for its path that the client sent there before, with its number
    and token and the response that the server gives to it. -/
theorem replies_answer_requests
    (h : Reachable (step setup) (fun _ => Allowed setup True) (initState setup mid msgBuf nobody) s)
    {i : Nat} {entry : Entry A} (hentry : setup.entries[i]? = some entry) {pre : List (Event A)}
    {src : A} {data : List UInt8} (hpre : pre ++ [.received src data] <+: (s.clients i).log) :
    src = entry.ip ∧ ∃ sent payload mid token hello, .sent entry.ip sent ∈ pre ∧
      HelloValue hello ∧ Carries sent (clientRequest entry.path payload mid token) ∧
      data = (replyMessage (clientRequest entry.path payload mid token)
        (serve hello (clientRequest entry.path payload mid token)).2).encode :=
  (reachable_exchanges (Or.inr rfl) (helloValue_closed True) h).caused i entry hentry pre _ hpre

/-- The answer that the client gets. -/
theorem replies_answer_requests_hello : ∃ (s : State Bool) (sent data : List UInt8),
    (s.clients 0).log = [.sent true sent, .received true data] ∧
      ∃ payload mid token hello, HelloValue hello ∧
        data = (replyMessage (clientRequest (cstr ['h', 'e', 'l', 'l', 'o']) payload mid token)
          (serve hello
            (clientRequest (cstr ['h', 'e', 'l', 'l', 'o']) payload mid token)).2).encode := by
  obtain ⟨s, sent, data, hreach, hlog⟩ := @oneClient_reaches (fun _ => Allowed oneClient True)
    fun _ _ ha => ha.allowed
  obtain ⟨-, -, payload, mid, token, hello, -, hval, -, hdata⟩ := @replies_answer_requests _ _ _ _ _
    _ _ hreach 0 _ rfl [.sent true sent] true data (by rw [hlog]; exact List.prefix_rfl)
  exact ⟨s, sent, data, hlog, payload, mid, token, hello, hval, hdata⟩

/-- The response for a path, when nobody changes `/hello`. -/
def responseOf (path : List UInt8) : Response :=
  if path = cstr ['h', 'e', 'l', 'l', 'o'] then ⟨.content, .textPlain, [0x31]⟩
  else ⟨.notFound, .none, []⟩

theorem serve_clientRequest (path payload : List UInt8) (mid : UInt16) (token : UInt64) :
    (serve 0x31 (clientRequest path payload mid token)).2 = responseOf path := by
  have hcore : ¬ pathWellKnownCore.elems = [path] := by
    intro heq
    have hlen := congrArg List.length heq
    cases hlen
  have hput : ¬ coapMethodPut = coapMethodGet := by decide
  simp only [serve, clientRequest, hcore, hput, and_false, false_and, if_false, true_and,
    responseOf, pathHello, List.cons.injEq, and_true]
  by_cases hpath : path = cstr ['h', 'e', 'l', 'l', 'o']
  · rw [if_pos hpath.symm, if_pos hpath]
  · rw [if_neg fun heq => hpath heq.symm, if_neg hpath]

/-- Without other hosts no server's `/hello` ever changes, and the path alone decides what a client
    receives: the value `1` for the path `hello`, and 4.04 for every other path. -/
theorem replies_of_path
    (h : Reachable (step setup) (fun _ => Allowed setup False)
      (initState setup mid msgBuf nobody) s) :
    (∀ a, setup.isServer a = true → ∃ m, s.servers a = some m ∧ ServReady m 0x31) ∧
    ∀ i entry, setup.entries[i]? = some entry → ∀ pre src data,
      pre ++ [.received src data] <+: (s.clients i).log →
        ∃ sent payload mid token, .sent entry.ip sent ∈ pre ∧
          Carries sent (clientRequest entry.path payload mid token) ∧
          data = (replyMessage (clientRequest entry.path payload mid token)
            (responseOf entry.path)).encode := by
  have hclosed : Closed False (fun hello => hello = 0x31) := fun hno => hno.elim
  have hexchanges :=
    @reachable_exchanges _ _ _ _ _ _ _ _ (fun hello => hello = 0x31) rfl hclosed h
  refine ⟨fun a ha => ?_, fun i entry hentry pre src data hpre => ?_⟩
  · obtain ⟨m, hello, hm, hready, rfl⟩ := hexchanges.servers a ha
    exact ⟨m, hm, hready⟩
  · obtain ⟨-, sent, payload, mid', token, hello, hsent, rfl, hcarries, hdata⟩ :=
      hexchanges.caused i entry hentry pre _ hpre
    rw [serve_clientRequest] at hdata
    exact ⟨sent, payload, mid', token, hsent, hcarries, hdata⟩

/-- The client gets the value `1`. -/
theorem replies_of_path_hello : ∃ (s : State Bool) (sent data : List UInt8) (m : Mem Obj),
    (s.clients 0).log = [.sent true sent, .received true data] ∧
      s.servers true = some m ∧ ServReady m 0x31 ∧
      ∃ payload mid token, data =
        (replyMessage (clientRequest (cstr ['h', 'e', 'l', 'l', 'o']) payload mid token)
          ⟨.content, .textPlain, [0x31]⟩).encode := by
  obtain ⟨s, sent, data, hreach, hlog⟩ := @oneClient_reaches (fun _ => Allowed oneClient False)
    fun _ _ ha => ha.allowed
  obtain ⟨hservers, hreceived⟩ := replies_of_path hreach
  obtain ⟨m, hm, hready⟩ := hservers true rfl
  obtain ⟨-, payload, mid, token, -, -, hdata⟩ := hreceived 0 _ rfl [.sent true sent] true data
    (by rw [hlog]; exact List.prefix_rfl)
  exact ⟨s, sent, data, m, hlog, hm, hready, payload, mid, token, hdata⟩

end Runs

end Gateway.Network.Answers
