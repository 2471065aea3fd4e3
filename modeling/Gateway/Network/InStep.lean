/-
  Gateway.Network.InStep

  Whether a client gets the answer to its last request.

  A client takes the first datagram that comes in for the response to the request that it
  sent last.  It is, as long as no datagram is duplicated and the socket times out only
  when the request or its answer is lost (`answers_last_request`): then a client has at
  most one datagram in flight, and none while it does not wait.

  A response that is late is enough to break this: from every state that is reached in
  this way, one time-out leads to a client that takes the answer to an old request for
  the answer to its last one (`stale_answer`).
-/

import Mathlib.Data.List.Perm.Basic
import Gateway.Network.Answers

namespace Gateway.Network.InStep

open Gateway.Lib.BlockMem Gateway.Lib.CString
open Gateway.Lib.EventLog Gateway.Lib.Transition
open Gateway.CoapClient.Request
open Gateway.CoapServer.Microcoap Gateway.CoapServer.Dispatch Gateway.CoapServer.Endpoints
open Gateway.CoapServer.CoapServ
open Gateway.Network.Exchange Gateway.Network.Answers

variable {A : Type} [DecidableEq A]

/-- The datagram comes from the client or goes to it. -/
def Own (entry : Entry A) (packet : Packet A) : Prop :=
  packet.src = entry.addr ∨ packet.dst = entry.addr

instance (entry : Entry A) : DecidablePred (Own entry) := fun packet =>
  inferInstanceAs (Decidable (packet.src = entry.addr ∨ packet.dst = entry.addr))

/-- Nothing is duplicated, a client waits as long as its request or the answer is in flight, and
    other hosts leave the clients alone. -/
def Patient (setup : Setup A) (s : State A) : Act A → Prop
  | .duplicate _ => False
  | .timeout i => ∀ entry, setup.entries[i]? = some entry → ∀ packet ∈ s.net, ¬ Own entry packet
  | .foreign packet => Outside setup packet
  | _ => True

/-- The reply of a server to the request. -/
def IsReplyTo (req : Request) (data : List UInt8) : Prop :=
  ∃ hello, HelloValue hello ∧ data = (replyMessage req (serve hello req).2).encode

/-- The last datagram of the log carries this request, with the number that is its turn. -/
def LastSent (entry : Entry A) (mid : UInt16) (log : List (Event A)) (sent : List UInt8)
    (req : Request) : Prop :=
  ∃ pre payload token, log = pre ++ [.sent entry.ip sent] ∧ Carries sent req ∧
    req = clientRequest entry.path payload (mid + UInt16.ofNat (built pre).length) token

/-- A datagram that is received answers the one before it. -/
def InOrder (entry : Entry A) (mid : UInt16) (pre : List (Event A)) : Event A → Prop
  | .received _ data => ∃ sent req, LastSent entry mid pre sent req ∧ IsReplyTo req data
  | _ => True

/-- What is in flight for one client. -/
structure LockStep (entry : Entry A) (mid : UInt16) (net : List (Packet A)) (client : Client A) :
    Prop where
  few : net.countP (Own entry) ≤ 1
  idle : client.waits = false → ∀ packet ∈ net, ¬ Own entry packet
  last : client.waits = true → ∃ sent req, LastSent entry mid client.log sent req ∧
    ∀ packet ∈ net, (packet.src = entry.addr → packet.data = sent) ∧
      (packet.dst = entry.addr → IsReplyTo req packet.data)
  order : Justified (InOrder entry mid) client.log

/-! ## The datagrams of a client -/

section Count

variable {entry : Entry A} {net : List (Packet A)} {packet : Packet A} {k : Nat}

/-- The datagrams of a client when one datagram is gone. -/
theorem countP_eraseIdx (hget : net[k]? = some packet) :
    net.countP (Own entry) =
      (net.eraseIdx k).countP (Own entry) + if Own entry packet then 1 else 0 := by
  obtain ⟨hlt, hget⟩ := List.getElem?_eq_some_iff.mp hget
  have hperm := List.getElem_cons_eraseIdx_perm hlt
  rw [hget] at hperm
  rw [← hperm.countP_eq, List.countP_cons]
  simp only [decide_eq_true_eq]

/-- Without its only datagram. -/
theorem none_left (hfew : net.countP (Own entry) ≤ 1) (hget : net[k]? = some packet)
    (hown : Own entry packet) : ∀ other ∈ net.eraseIdx k, ¬ Own entry other := by
  have hcount := @countP_eraseIdx _ _ entry _ _ _ hget
  rw [if_pos hown] at hcount
  have hzero : (net.eraseIdx k).countP (Own entry) = 0 := by omega
  intro other hmem hother
  have := List.countP_eq_zero.mp hzero other hmem
  simp only [decide_eq_true_eq] at this
  exact this hother

theorem countP_none (h : ∀ packet ∈ net, ¬ Own entry packet) : net.countP (Own entry) = 0 := by
  rw [List.countP_eq_zero]
  intro packet hmem
  simp only [decide_eq_true_eq]
  exact h packet hmem

theorem countP_eraseIdx_le : (net.eraseIdx k).countP (Own entry) ≤ net.countP (Own entry) :=
  (List.eraseIdx_sublist ..).countP_le

end Count

section Preserved

variable {entry : Entry A} {mid : UInt16} {net net' : List (Packet A)} {client : Client A}
  {packet : Packet A} {k : Nat}

/-- A datagram is gone. -/
theorem LockStep.erase (h : LockStep entry mid net client) (k : Nat) :
    LockStep entry mid (net.eraseIdx k) client where
  few := Nat.le_trans countP_eraseIdx_le h.few
  idle := fun hidle packet hmem => h.idle hidle packet (List.mem_of_mem_eraseIdx hmem)
  last := fun hwaits => by
    obtain ⟨sent, req, hlast, hall⟩ := h.last hwaits
    exact ⟨sent, req, hlast, fun packet hmem => hall packet (List.mem_of_mem_eraseIdx hmem)⟩
  order := h.order

/-- A datagram of others. -/
theorem LockStep.other (h : LockStep entry mid net client) (hown : ¬ Own entry packet) :
    LockStep entry mid (net ++ [packet]) client where
  few := by
    rw [List.countP_append, List.countP_singleton, if_neg (by simpa using hown)]
    exact h.few
  idle := by
    intro hidle packet' hmem
    rcases List.mem_append.mp hmem with hmem | hmem
    · exact h.idle hidle packet' hmem
    · obtain rfl := List.mem_singleton.mp hmem
      exact hown
  last := by
    intro hwaits
    obtain ⟨sent, req, hlast, hall⟩ := h.last hwaits
    refine ⟨sent, req, hlast, fun packet' hmem => ?_⟩
    rcases List.mem_append.mp hmem with hmem | hmem
    · exact hall packet' hmem
    · obtain rfl := List.mem_singleton.mp hmem
      exact ⟨fun hsrc => absurd (Or.inl hsrc) hown, fun hdst => absurd (Or.inr hdst) hown⟩
  order := h.order

/-- A server replies to the request in flight. -/
theorem LockStep.serve (h : LockStep entry mid net client) {request reply : Packet A}
    (hget : net[k]? = some request) (hfrom : request.src = entry.addr)
    (hto : reply.dst = entry.addr) (hsrc : reply.src ≠ entry.addr)
    (hreply : ∀ req, Carries request.data req → IsReplyTo req reply.data) :
    LockStep entry mid (net.eraseIdx k ++ [reply]) client := by
  have hnone := none_left h.few hget (Or.inl hfrom)
  have hin := List.mem_of_getElem? hget
  refine ⟨?_, fun hidle => absurd (Or.inl hfrom) (h.idle hidle request hin), fun hwaits => ?_,
    h.order⟩
  · rw [List.countP_append, countP_none hnone, List.countP_singleton]
    split <;> omega
  · obtain ⟨sent, req, hlast, hall⟩ := h.last hwaits
    obtain rfl := (hall request hin).1 hfrom
    have hcarries : Carries request.data req := by
      obtain ⟨pre, payload, token, -, hcarries, -⟩ := hlast
      exact hcarries
    refine ⟨_, req, hlast, fun packet' hmem => ?_⟩
    rcases List.mem_append.mp hmem with hmem | hmem
    · have hnot := hnone packet' hmem
      exact ⟨fun hsrc' => absurd (Or.inl hsrc') hnot, fun hdst' => absurd (Or.inr hdst') hnot⟩
    · obtain rfl := List.mem_singleton.mp hmem
      exact ⟨fun hsrc' => absurd hsrc' hsrc, fun _ => hreply req hcarries⟩

end Preserved

/-! ## Steps -/

section Steps

variable {setup : Setup A} {s s' : State A} {a : Act A} {entry : Entry A} {mid : UInt16} {i : Nat}

omit [DecidableEq A] in
/-- A client is no server. -/
theorem addr_ne_ip {entry entry' : Entry A} (h : entry ∈ setup.entries)
    (h' : entry' ∈ setup.entries) : entry'.ip ≠ entry.addr := by
  intro heq
  have hserver := setup.ip_server entry' h'
  rw [heq, setup.addr_client entry h] at hserver
  cases hserver

/-- The client sends: nothing of it was in flight. -/
theorem LockStep.send (h : LockStep entry mid s.net (s.clients i))
    (hinv : Exchanges setup True HelloValue s) (hsound : ClientSound entry mid (s.clients i))
    (hentry : setup.entries[i]? = some entry) {read : List UInt8} {token : UInt64} {ok : Bool}
    (hs : sendStep setup s i read token ok = some s') :
    LockStep entry mid s'.net (s'.clients i) := by
  obtain ⟨entry', data, hentry', hwaits, hcarries, rfl⟩ := sendStep_carries hs
  obtain rfl : entry = entry' := Option.some_inj.mp (hentry.symm.trans hentry')
  have hin := List.mem_of_getElem? hentry
  have hnone := h.idle hwaits
  simp only [Function.update_self]
  cases ok with
  | false => exact ⟨h.few, fun _ => hnone, fun hno => absurd hno Bool.false_ne_true,
      justified_concat.mpr ⟨h.order, trivial⟩⟩
  | true =>
    refine ⟨?_, fun hno => absurd hno.symm Bool.false_ne_true, fun _ => ?_,
      justified_concat.mpr ⟨h.order, trivial⟩⟩
    · show List.countP _ (s.net ++ _) ≤ 1
      rw [List.countP_append, countP_none hnone, List.countP_singleton]
      split <;> omega
    · have hlast : LastSent entry mid ((s.clients i).log ++ [.sent (s.clients i).addrRemote data])
          data (clientRequest entry.path (requestPayload entry.path read)
            (s.clients i).messageIdCounter token) := by
        rw [hinv.remote i entry hentry]
        refine ⟨_, requestPayload entry.path read, token, rfl, hcarries, ?_⟩
        rw [hsound.counter]
      refine ⟨data, _, hlast, fun packet hmem => ?_⟩
      rcases List.mem_append.mp hmem with hmem | hmem
      · have hnot := hnone packet hmem
        exact ⟨fun hsrc => absurd (Or.inl hsrc) hnot, fun hdst => absurd (Or.inr hdst) hnot⟩
      · obtain rfl := List.mem_singleton.mp hmem
        refine ⟨fun _ => rfl, fun hdst => ?_⟩
        rw [hinv.remote i entry hentry] at hdst
        exact absurd hdst (addr_ne_ip hin hin)

/-- The client receives its only datagram. -/
theorem LockStep.receive (h : LockStep entry mid s.net (s.clients i))
    (hinv : Exchanges setup True HelloValue s) (hentry : setup.entries[i]? = some entry) {k : Nat}
    (hs : receiveStep setup s i k = some s') : LockStep entry mid s'.net (s'.clients i) := by
  obtain ⟨entry', packet, hentry', hget, hwaits, hdst, rfl⟩ := receiveStep_cases hs
  obtain rfl : entry = entry' := Option.some_inj.mp (hentry.symm.trans hentry')
  have hin := List.mem_of_getElem? hget
  have hnone := none_left h.few hget (Or.inr hdst)
  obtain ⟨sent, req, hlast, hall⟩ := h.last hwaits
  obtain ⟨-, hans⟩ := hinv.received hentry hin hdst
  simp only [Function.update_self]
  refine ⟨?_, fun _ => hnone, fun hno => absurd hno Bool.false_ne_true,
    justified_concat.mpr ⟨h.order, ?_⟩⟩
  · show List.countP _ (s.net.eraseIdx k) ≤ 1
    rw [countP_none hnone]
    exact Nat.zero_le 1
  · rw [hans.take]
    exact ⟨sent, req, hlast, (hall packet hin).2 hdst⟩

/-- A server takes a turn on a request of the client or on another datagram. -/
theorem LockStep.turn (h : LockStep entry mid s.net (s.clients i))
    (hinv : Exchanges setup True HelloValue s) (hentry : setup.entries[i]? = some entry) {k : Nat}
    {rsppkt : CoapPacket Obj} (hs : serveStep s k rsppkt = some s') :
    LockStep entry mid s'.net (s'.clients i) := by
  obtain ⟨request, m, turn, m', hget, hm, hturn, rfl⟩ := serveStep_cases hs
  have hin := List.mem_of_getElem? hget
  have hmem := List.mem_of_getElem? hentry
  -- no server listens at the socket of the client
  have hto : request.dst ≠ entry.addr := by
    intro heq
    rw [heq, hinv.clients _ (setup.addr_client entry hmem)] at hm
    cases hm
  show LockStep entry mid (s.net.eraseIdx k ++ replies request.dst request.src turn) (s.clients i)
  cases turn with
  | badPacket rc =>
    show LockStep entry mid (s.net.eraseIdx k ++ []) (s.clients i)
    rw [List.append_nil]
    exact h.erase k
  | buildFailed rc =>
    show LockStep entry mid (s.net.eraseIdx k ++ []) (s.clients i)
    rw [List.append_nil]
    exact h.erase k
  | sent reply =>
    by_cases hfrom : request.src = entry.addr
    · obtain ⟨m₀, hello, hm₀, hready, hval⟩ := hinv.servers request.dst (by
        by_contra hno
        rw [hinv.clients _ (Bool.eq_false_iff.mpr hno)] at hm
        cases hm)
      obtain rfl : m = m₀ := Option.some_inj.mp (hm.symm.trans hm₀)
      refine h.serve hget hfrom hfrom hto fun req hcarries => ?_
      obtain ⟨m₁, hturn₁, -⟩ := coapServTurn_carries hready hcarries rsppkt
      rw [hturn] at hturn₁
      obtain ⟨hreply, -⟩ := Prod.mk.inj (Option.some_inj.mp hturn₁)
      exact ⟨hello, hval, Turn.sent.inj hreply⟩
    · refine (h.erase k).other ?_
      rintro (hsrc | hdst)
      · exact hto hsrc
      · exact hfrom hdst

theorem step_lockStep (h : LockStep entry mid s.net (s.clients i))
    (hinv : Exchanges setup True HelloValue s) (hsound : ClientSound entry mid (s.clients i))
    (hentry : setup.entries[i]? = some entry) (ha : Patient setup s a)
    (hs : step setup s a = some s') : LockStep entry mid s'.net (s'.clients i) := by
  have hmem := List.mem_of_getElem? hentry
  cases a with
  | send j read token ok =>
    by_cases hi : i = j
    · subst hi
      exact h.send hinv hsound hentry hs
    · obtain ⟨entry', data, hentry', -, -, rfl⟩ := sendStep_carries hs
      have hin := List.mem_of_getElem? hentry'
      simp only [Function.update_of_ne hi]
      cases ok with
      | false => exact h
      | true =>
        refine h.other ?_
        rintro (hsrc | hdst)
        · exact hi (entry_unique hentry hentry' hsrc.symm).1
        · rw [hinv.remote j entry' hentry'] at hdst
          exact addr_ne_ip hmem hin hdst
  | receive j k =>
    by_cases hi : i = j
    · subst hi
      exact h.receive hinv hentry hs
    · obtain ⟨entry', packet, -, -, -, -, rfl⟩ := receiveStep_cases hs
      simp only [Function.update_of_ne hi]
      exact h.erase k
  | timeout j =>
    obtain ⟨hwaits, rfl⟩ := timeoutStep_cases hs
    by_cases hi : i = j
    · subst hi
      simp only [Function.update_self]
      exact ⟨h.few, fun _ => ha entry hentry, fun hno => absurd hno Bool.false_ne_true, h.order⟩
    · simp only [Function.update_of_ne hi]
      exact h
  | serve k rsppkt => exact h.turn hinv hentry hs
  | lose k =>
    rw [step] at hs
    split at hs
    · obtain rfl := Option.some_inj.mp hs
      exact h.erase k
    · cases hs
  | duplicate k => exact ha.elim
  | foreign packet =>
    obtain rfl := Option.some_inj.mp hs
    refine h.other ?_
    rintro (hsrc | hdst)
    · exact (ha entry hmem).1 hsrc
    · exact (ha entry hmem).2 hdst

end Steps

/-! ## Runs -/

section Runs

variable {setup : Setup A} {mid : Nat → UInt16} {msgBuf : Nat → List UInt8} {nobody : A}
  {s : State A} {i : Nat} {entry : Entry A}

omit [DecidableEq A] in
theorem Patient.allowed {a : Act A} (h : Patient setup s a) : Allowed setup True a := by
  cases a with
  | foreign packet => exact ⟨trivial, h⟩
  | _ => trivial

/-- In every state that is reached while no datagram is duplicated and no time-out comes before
    the request or its answer is lost, whatever else is lost or reordered and whatever other hosts
    send to the servers: a datagram that a client receives comes from its server and is the
    response to the request that the client sent just before, with the number and the token of
    that request. -/
theorem answers_last_request
    (h : Reachable (step setup) (Patient setup) (initState setup mid msgBuf nobody) s)
    (hentry : setup.entries[i]? = some entry) {pre : List (Event A)} {src : A} {data : List UInt8}
    (hpre : pre ++ [.received src data] <+: (s.clients i).log) :
    src = entry.ip ∧ ∃ pre' sent payload token hello, pre = pre' ++ [.sent entry.ip sent] ∧
      Carries sent (clientRequest entry.path payload
        (mid i + UInt16.ofNat (built pre').length) token) ∧
      HelloValue hello ∧
      data = (replyMessage (clientRequest entry.path payload
          (mid i + UInt16.ofNat (built pre').length) token)
        (serve hello (clientRequest entry.path payload
          (mid i + UInt16.ofNat (built pre').length) token)).2).encode := by
  have hinv : Exchanges setup True HelloValue s ∧ ClientSound entry (mid i) (s.clients i) ∧
      LockStep entry (mid i) s.net (s.clients i) := by
    refine @Reachable.invariant _ _ _ _ _ _ (fun s => Exchanges setup True HelloValue s ∧
      ClientSound entry (mid i) (s.clients i) ∧ LockStep entry (mid i) s.net (s.clients i)) h
      ⟨exchanges_init (Or.inr rfl), clientSound_init hentry, ?_⟩ ?_
    · exact ⟨Nat.zero_le 1, fun _ packet hmem => absurd hmem List.not_mem_nil,
        fun hno => absurd hno Bool.false_ne_true, justified_nil⟩
    · rintro s a s' ⟨hex, hsound, hlock⟩ ha hs
      exact ⟨step_exchanges (helloValue_closed True) hex ha.allowed hs,
        step_clientSound hentry hsound hs, step_lockStep hlock hex hsound hentry ha hs⟩
  obtain ⟨hex, -, hlock⟩ := hinv
  obtain ⟨hsrc, -⟩ := hex.caused i entry hentry pre _ hpre
  obtain ⟨sent, req, ⟨pre', payload, token, hlast, hcarries, rfl⟩, hello, hval, hdata⟩ :=
    hlock.order pre _ hpre
  exact ⟨hsrc, pre', sent, payload, token, hello, hlast, hcarries, hval, hdata⟩

/-- The client sends and gets the answer. -/
theorem answers_last_request_hello : ∃ (s : State Bool) (sent data : List UInt8),
    (s.clients 0).log = [.sent true sent, .received true data] ∧
      ∃ payload token hello, HelloValue hello ∧
        data = (replyMessage (clientRequest (cstr ['h', 'e', 'l', 'l', 'o']) payload 7 token)
          (serve hello
            (clientRequest (cstr ['h', 'e', 'l', 'l', 'o']) payload 7 token)).2).encode := by
  obtain ⟨s, sent, data, hreach, hlog⟩ := @oneClient_reaches (Patient oneClient)
    fun t a ha => by
      cases a with
      | send | receive | serve => trivial
      | _ => exact ha.elim
  obtain ⟨-, pre', sent', payload, token, hello, hpre, -, hval, hdata⟩ := @answers_last_request _ _
    _ _ _ _ _ 0 _ hreach rfl [.sent true sent] true data (by rw [hlog]; exact List.prefix_rfl)
  obtain ⟨rfl, -⟩ := @List.append_inj' _ [] _ _ _ hpre rfl
  exact ⟨s, sent, data, hlog, payload, token, hello, hval, hdata⟩

/-! ## Late answers -/

/-- Two numbers in a row have different last bytes. -/
theorem idLo_ne_next (c : UInt16) : (c &&& 0xFF).toUInt8 ≠ ((c + 1) &&& 0xFF).toUInt8 := by
  intro heq
  have hnat := congrArg UInt8.toNat heq
  simp only [UInt16.toNat_toUInt8, UInt16.toNat_and, UInt16.toNat_add] at hnat
  rw [show (255 : UInt16).toNat = 2 ^ 8 - 1 from rfl, Nat.and_two_pow_sub_one_eq_mod,
    Nat.and_two_pow_sub_one_eq_mod] at hnat
  have hone : (1 : UInt16).toNat = 1 := rfl
  omega

/-- A reply is for one number. -/
theorem IsReplyTo.idLo {req req' : Request} {data : List UInt8} (h : IsReplyTo req data)
    (h' : IsReplyTo req' data) : req.idLo = req'.idLo := by
  obtain ⟨hello, -, rfl⟩ := h
  obtain ⟨hello', -, heq⟩ := h'
  exact Option.some_inj.mp (congrArg (fun bytes => bytes[3]?) heq)

/-- In every state that is reached while other hosts leave the clients alone: a client that is not
    waiting sends a request, the socket times out, and it sends the next request; if the server
    only serves the first request now, the client takes the answer to that one for the answer to
    its last request. -/
theorem stale_answer
    (h : Reachable (step setup) (fun _ => Allowed setup True)
      (initState setup mid msgBuf nobody) s)
    (hentry : setup.entries[i]? = some entry) (hidle : (s.clients i).waits = false)
    {read read' : List UInt8} (hle : read.length ≤ msgBufLen) (hle' : read'.length ≤ msgBufLen)
    (token token' : UInt64) (rsppkt : CoapPacket Obj) :
    ∃ s' sent sent' data, exec (step setup) s [.send i read token true, .timeout i,
        .send i read' token' true, .serve s.net.length rsppkt, .receive i (s.net.length + 1)]
          = some s' ∧
      (s'.clients i).log = (s.clients i).log ++
        [.sent entry.ip sent, .sent entry.ip sent', .received entry.ip data] ∧
      Carries sent (clientRequest entry.path (requestPayload entry.path read)
        (s.clients i).messageIdCounter token) ∧
      Carries sent' (clientRequest entry.path (requestPayload entry.path read')
        ((s.clients i).messageIdCounter + 1) token') ∧
      IsReplyTo (clientRequest entry.path (requestPayload entry.path read)
        (s.clients i).messageIdCounter token) data ∧
      ¬ IsReplyTo (clientRequest entry.path (requestPayload entry.path read')
        ((s.clients i).messageIdCounter + 1) token') data := by
  have hinv := reachable_exchanges (Or.inr rfl) (helloValue_closed True) h
  have hremote := hinv.remote i entry hentry
  obtain ⟨m, hello, hm, hready, hval⟩ :=
    hinv.servers entry.ip (setup.ip_server entry (List.mem_of_getElem? hentry))
  -- the first request, and the time-out
  obtain ⟨s₁, sent, hs₁, hcarries, hnet₁, hservers₁, hclient₁⟩ :=
    send_enabled hentry hidle hle token
  obtain ⟨s₂, hs₂, hnet₂, hservers₂, hclient₂⟩ :=
    timeout_enabled hentry (show (s₁.clients i).waits = true by rw [hclient₁])
  rw [hclient₁] at hclient₂
  -- the second request
  obtain ⟨s₃, sent', hs₃, hcarries', hnet₃, hservers₃, hclient₃⟩ :=
    send_enabled hentry (show (s₂.clients i).waits = false by rw [hclient₂]) hle' token'
  rw [hclient₂] at hcarries' hnet₃ hclient₃
  rw [hnet₂, hnet₁, hremote] at hnet₃
  -- the server serves the first one
  have hget₃ : s₃.net[s.net.length]? = some ⟨entry.addr, entry.ip, sent⟩ := by
    rw [hnet₃, List.append_assoc, List.getElem?_append_right (Nat.le_refl _), Nat.sub_self]
    rfl
  have hm₃ : s₃.servers entry.ip = some m := by rw [hservers₃, hservers₂, hservers₁, hm]
  obtain ⟨s₄, hs₄, hnet₄, hclients₄⟩ := serve_enabled hget₃ hm₃ hready hcarries rsppkt
  have hrest₃ : s₃.net.eraseIdx s.net.length = s.net ++ [⟨entry.addr, entry.ip, sent'⟩] := by
    rw [hnet₃, List.append_assoc, List.eraseIdx_append_of_length_le (Nat.le_refl _), Nat.sub_self]
    rfl
  rw [hrest₃] at hnet₄
  -- and the client receives the answer
  have hget₄ := getElem?_last hnet₄
  rw [List.length_append, List.length_singleton] at hget₄
  obtain ⟨s₅, hs₅, -, -, hlog₅⟩ :=
    receive_enabled hentry (show (s₄.clients i).waits = true by rw [hclients₄, hclient₃]) hget₄ rfl
  have hreply : IsReplyTo (clientRequest entry.path (requestPayload entry.path read)
      (s.clients i).messageIdCounter token) (replyMessage _ _).encode := ⟨hello, hval, rfl⟩
  have hfits := @IsAnswer.take A HelloValue entry [.sent entry.ip sent] _
    ⟨_, _, _, _, hello, List.mem_singleton_self _, hval, hcarries, rfl⟩
  rw [hfits, hclients₄, hclient₃, hremote, List.append_assoc, List.append_assoc] at hlog₅
  have hrun : exec (step setup) s [.send i read token true, .timeout i,
      .send i read' token' true, .serve s.net.length rsppkt, .receive i (s.net.length + 1)]
        = some s₅ := by
    simp only [exec, step, hs₁, hs₂, hs₃, hs₄, hs₅]
  exact ⟨s₅, sent, sent', _, hrun, hlog₅, hcarries, hcarries', hreply,
    fun hother => idLo_ne_next _ (hreply.idLo hother)⟩

/-- The first request of the client is answered too late. -/
theorem stale_answer_hello : ∃ (s : State Bool) (sent sent' data : List UInt8),
    (s.clients 0).log = [.sent true sent, .sent true sent', .received true data] ∧
      IsReplyTo (clientRequest (cstr ['h', 'e', 'l', 'l', 'o']) [0x31] 7 0) data := by
  obtain ⟨s, sent, sent', data, -, hlog, -, -, hreply, -⟩ := @stale_answer _ _ oneClient
    (fun _ => 7) (fun _ => List.replicate msgBufLen 0) false _ 0 _ .init rfl rfl [0x31] [0x32]
    (by decide) (by decide) 0 0 emptyPkt
  exact ⟨s, sent, sent', data, hlog, hreply⟩

end Runs

end Gateway.Network.InStep
