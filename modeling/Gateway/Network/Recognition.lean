/-
  Gateway.Network.Recognition

  The check of a response in `CoapClient` (`coapClient/coapClient.c`).  It stands behind
  `recvfrom`, commented out: `coap_validate_pkt`, and then the number and the token of
  what was received against those of what was sent.

  `InStep.stale_answer` shows what the client does without it.  The check would accept
  every datagram that a client can receive as a packet, and take it for the response to a
  request of that client exactly when it is one (`isResponseToLast_iff`).
-/

import Gateway.CoapClient.GetterSpec
import Gateway.CoapClient.Turn
import Gateway.Network.InStep

namespace Gateway.Network.Recognition

open Gateway.Lib.ByteBits Gateway.Lib.ByteWindow Gateway.Lib.BlockMem Gateway.Lib.CString
open Gateway.Lib.CoapFormat Gateway.Lib.EventLog Gateway.Lib.Transition
open Gateway.CoapClient.Picocoap Gateway.CoapClient.PduSpec Gateway.CoapClient.GetterSpec
open Gateway.CoapClient.Request Gateway.CoapClient.Validate
open Gateway.CoapClient.Turn (carriesPayload_encode)
open Gateway.CoapServer.Microcoap
open Gateway.CoapServer.ParseSpec Gateway.CoapServer.Grammar Gateway.CoapServer.Dispatch
open Gateway.CoapServer.CoapServ
open Gateway.Network.Exchange Gateway.Network.Answers Gateway.Network.InStep

variable {A : Type} [DecidableEq A]

/-! ## The check -/

/-- The check of a response: a valid packet, with the number and the token of the request. -/
def isResponseToLast (msgRecv msgSend : CoapPdu) : Option Bool := do
  let err ← coapValidatePkt msgRecv
  if err ≠ .none then some false
  else do
  let midRecv ← coapGetMid msgRecv
  let midSend ← coapGetMid msgSend
  -- `&&` looks at the tokens only behind equal numbers
  if midRecv ≠ midSend then some false
  else do
  let tokenRecv ← coapGetToken msgRecv
  let tokenSend ← coapGetToken msgSend
  some (tokenRecv == tokenSend)

/-- `msg_recv` behind `recvfrom`: the datagram replaces the start of the array. -/
def received (msgRecvBuf data : List UInt8) : CoapPdu where
  buf := splice msgRecvBuf 0 data
  len := data.length
  max := msgBufLen

/-! ## What the getters read -/

section Getters

variable {pdu : CoapPdu} {b0 code idHi idLo idHi' idLo' : UInt8} {token token' body : List UInt8}

/-- The bytes of a packet stand at the start of its array. -/
theorem buf_eq_of_head (h : HeadToken (pdu.buf.take pdu.len) b0 code idHi idLo token body) :
    pdu.buf = b0 :: code :: idHi :: idLo :: (token ++ (body ++ pdu.buf.drop pdu.len)) := by
  calc pdu.buf = pdu.buf.take pdu.len ++ pdu.buf.drop pdu.len := (List.take_append_drop _ _).symm
    _ = _ := by rw [h.bytes, List.cons_append, List.cons_append, List.cons_append,
      List.cons_append, List.append_assoc]

theorem coapGetMid_of_head (h : HeadToken (pdu.buf.take pdu.len) b0 code idHi idLo token body) :
    coapGetMid pdu = some (idHi.toUInt16 <<< 8 ||| idLo.toUInt16) := by
  rw [coapGetMid, buf_eq_of_head h]
  rfl

theorem coapGetToken_of_head (h : HeadToken (pdu.buf.take pdu.len) b0 code idHi idLo token body) :
    coapGetToken pdu = some (tokenOf token) := by
  have hbuf := buf_eq_of_head h
  have htkl : coapGetTkl pdu = some (b0 &&& 0x0F) := by
    rw [coapGetTkl, hbuf]
    rfl
  have hnat : (b0 &&& 0x0F).toNat = token.length := (toNat_lowNibble b0).trans h.tkl
  have hlen := congrArg List.length h.bytes
  simp only [List.length_take, List.length_cons, List.length_append] at hlen
  have h8 : ¬ 8 < b0 &&& 0x0F := by
    rw [UInt8.lt_iff_toNat_lt, hnat]
    exact Nat.not_lt_of_le h.tkl_le
  rw [coapGetToken, htkl]
  simp only [Option.bind_eq_bind, Option.bind_some, hnat]
  rw [if_neg (by omega), if_neg (not_or.mpr ⟨h8, by omega⟩), slice, hbuf]
  simp only [List.drop_succ_cons, List.drop_zero, List.take_left]

theorem toNat_bigEndian (hi lo : UInt8) :
    (hi.toUInt16 <<< 8 ||| lo.toUInt16).toNat = hi.toNat * 256 + lo.toNat := by
  have hhi := hi.toNat_lt
  have hlo := lo.toNat_lt
  have hadd := bigEndian_add hi lo 0
  rw [Nat.add_zero] at hadd
  rw [← UInt16.add_zero (hi.toUInt16 <<< 8 ||| lo.toUInt16)]
  exact (congrArg UInt16.toNat hadd).trans (by rw [UInt16.toNat_ofNat']; omega)

/-- Equal numbers have equal bytes. -/
theorem mid_inj :
    idHi.toUInt16 <<< 8 ||| idLo.toUInt16 = idHi'.toUInt16 <<< 8 ||| idLo'.toUInt16
      ↔ idHi = idHi' ∧ idLo = idLo' := by
  refine ⟨fun heq => ?_, fun ⟨hhi, hlo⟩ => by rw [hhi, hlo]⟩
  have hnat := congrArg UInt16.toNat heq
  rw [toNat_bigEndian, toNat_bigEndian] at hnat
  have hlo := idLo.toNat_lt
  have hlo' := idLo'.toNat_lt
  exact ⟨UInt8.toNat_inj.mp (by omega), UInt8.toNat_inj.mp (by omega)⟩

/-- Equal tokens of one length have equal bytes. -/
theorem tokenOf_inj (hlen : token.length = token'.length) (hle : token.length ≤ 8) :
    tokenOf token = tokenOf token' ↔ token = token' := by
  refine ⟨fun heq => ?_, fun heq => by rw [heq]⟩
  have hbytes := congrArg tokenBytes heq
  rw [tokenBytes_tokenOf hle, tokenBytes_tokenOf (hlen ▸ hle)] at hbytes
  exact (List.append_inj hbytes hlen).1

end Getters

/-! ## Requests and replies -/

/-- The datagram of a request starts with its number and its token. -/
theorem head_of_carries {data : List UInt8} {req : Request} (h : Carries data req) :
    ∃ b0 code body, HeadToken data b0 code req.idHi req.idLo req.token body := by
  have hfit : 0 + data.length ≤ data.length := Nat.le_of_eq (Nat.zero_add _)
  obtain ⟨pkt, hparse, hask⟩ := h.2 (fun _ => data) ⟨.buf, 0⟩
    (loadBytes_eq_some.mpr ⟨hfit, List.take_length⟩)
  obtain ⟨r, hdec, rfl⟩ := (coapParse_eq_ok_iff hfit).mp hparse
  have htok := Option.some_inj.mp ((packetOf_reads hfit hdec).tok.symm.trans hask.tok)
  obtain ⟨hhead, -⟩ := headToken_of_decodeMsg hdec
  have hdata : slice data 0 data.length = data := List.take_length
  rw [hdata, htok] at hhead
  have hhi : r.idHi = req.idHi := hask.idHi
  have hlo : r.idLo = req.idLo := hask.idLo
  rw [hhi, hlo] at hhead
  exact ⟨r.b0, r.code, _, hhead⟩

/-- So does the reply to it, and the client's check of the packet accepts that. -/
theorem head_of_isReplyTo {data : List UInt8} {req : Request} (h : IsReplyTo req data) :
    WellFormed data ∧ ∃ b0 code body, HeadToken data b0 code req.idHi req.idLo req.token body := by
  obtain ⟨hello, -, rfl⟩ := h
  have hformat : ∀ o ∈ (replyMessage req (serve hello req).2).opts,
      o.num ≤ 65535 ∧ o.value.length ≤ 65535 := by
    intro o ho
    obtain rfl := List.mem_singleton.mp ho
    exact ⟨show 12 ≤ 65535 by decide, show 2 ≤ 65535 by decide⟩
  have hhead : (headByte 1 2 req.token.length).toNat = 1 * 64 + 2 * 16 + req.token.length :=
    headByte_toNat (by decide) (by decide) (Nat.lt_of_le_of_lt req.token_le (by decide))
  have hle := req.token_le
  have hbytes := encode_eq (replyMessage req (serve hello req).2)
  exact ⟨⟨_, carriesPayload_encode rfl (fun o ho => (hformat o ho).1)
    fun o ho => (hformat o ho).2⟩, _, _, _,
    ⟨hbytes, show (headByte 1 2 req.token.length).toNat / 64 = 1 by omega,
      show (headByte 1 2 req.token.length).toNat % 16 = req.token.length by omega, hle⟩⟩

/-- A reply repeats of its request the number and the token. -/
theorem replyMessage_congr {req req' : Request} (hhi : req.idHi = req'.idHi)
    (hlo : req.idLo = req'.idLo) (htok : req.token = req'.token) (rsp : Response) :
    replyMessage req rsp = replyMessage req' rsp := by
  cases req
  cases req'
  simp only at hhi hlo htok
  subst hhi hlo htok
  rfl

/-- The response to a GET does not depend on its payload, its number and its token. -/
theorem serve_clientRequest_snd (hello : UInt8) (path payload payload' : List UInt8)
    (mid mid' : UInt16) (token token' : UInt64) :
    (serve hello (clientRequest path payload mid token)).2
      = (serve hello (clientRequest path payload' mid' token')).2 := by
  have hput : ¬ coapMethodPut = coapMethodGet := by decide
  simp only [serve, clientRequest, hput, false_and, if_false]

/-- The reply to one request of a client is the reply to another one exactly when the two have one
    number and one token. -/
theorem isReplyTo_iff {path payload payload' data : List UInt8} {mid mid' : UInt16}
    {token token' : UInt64} (h : IsReplyTo (clientRequest path payload mid token) data) :
    IsReplyTo (clientRequest path payload' mid' token') data ↔
      (clientRequest path payload mid token).idHi = (clientRequest path payload' mid' token').idHi ∧
      (clientRequest path payload mid token).idLo = (clientRequest path payload' mid' token').idLo ∧
      (clientRequest path payload mid token).token
        = (clientRequest path payload' mid' token').token := by
  constructor
  · intro h'
    obtain ⟨-, _, _, _, hhead⟩ := head_of_isReplyTo h
    obtain ⟨-, _, _, _, hhead'⟩ := head_of_isReplyTo h'
    obtain ⟨-, -, hhi, hlo, htok, -⟩ := hhead.unique hhead'
    exact ⟨hhi, hlo, htok⟩
  · rintro ⟨hhi, hlo, htok⟩
    obtain ⟨hello, hval, rfl⟩ := h
    refine ⟨hello, hval, ?_⟩
    rw [serve_clientRequest_snd hello path payload payload' mid mid' token token']
    exact congrArg Message.encode (replyMessage_congr hhi hlo htok _)

/-! ## Runs -/

/-- The datagram stands in the array. -/
theorem received_take {msgRecvBuf data : List UInt8} :
    (received msgRecvBuf data).buf.take (received msgRecvBuf data).len = data := by
  have htake := @take_splice _ msgRecvBuf data 0 (Nat.zero_le _)
  rw [Nat.zero_add, List.take_zero, List.nil_append] at htake
  exact htake

/-- The check of a reply against a request that stands in the other packet. -/
theorem isResponseToLast_of_head {msgRecvBuf data : List UInt8} {msgSend : CoapPdu}
    {req req' : Request} {b0 code : UInt8} {body : List UInt8}
    (hsize : msgRecvBuf.length = msgBufLen) (hle : data.length ≤ msgBufLen)
    (hreply : IsReplyTo req data) (hlen : req.token.length = req'.token.length)
    (hsend : HeadToken (msgSend.buf.take msgSend.len) b0 code req'.idHi req'.idLo req'.token
      body) :
    ∃ b, isResponseToLast (received msgRecvBuf data) msgSend = some b ∧
      (b = true ↔ req.idHi = req'.idHi ∧ req.idLo = req'.idLo ∧ req.token = req'.token) := by
  obtain ⟨hwell, b1, code1, body1, hrecv⟩ := head_of_isReplyTo hreply
  rw [← @received_take msgRecvBuf data] at hwell hrecv
  have hbuf : (received msgRecvBuf data).buf.length = (received msgRecvBuf data).max :=
    (splice_length (by omega)).trans hsize
  have hvalid : coapValidatePkt (received msgRecvBuf data) = some .none :=
    coapValidatePkt_of_wellFormed hbuf (show msgBufLen < 2 ^ 63 by decide) hle hwell
  simp only [isResponseToLast, hvalid, coapGetMid_of_head hrecv, coapGetMid_of_head hsend,
    coapGetToken_of_head hrecv, coapGetToken_of_head hsend, Option.bind_eq_bind, Option.bind_some,
    ne_eq, not_true_eq_false, if_false]
  split
  · next hmid =>
    refine ⟨false, rfl, fun hno => absurd hno Bool.false_ne_true, fun ⟨hhi, hlo, _⟩ => ?_⟩
    exact absurd (mid_inj.mpr ⟨hhi, hlo⟩) hmid
  · next hmid =>
    obtain ⟨hhi, hlo⟩ := mid_inj.mp (not_not.mp hmid)
    refine ⟨_, rfl, ?_⟩
    rw [beq_iff_eq, tokenOf_inj hlen req.token_le]
    exact ⟨fun htok => ⟨hhi, hlo, htok⟩, fun ⟨_, _, htok⟩ => htok⟩

section Runs

variable {setup : Setup A} {mid : Nat → UInt16} {msgBuf : Nat → List UInt8} {nobody : A}
  {s : State A} {i : Nat} {entry : Entry A}

/-- In every state that is reached while other hosts leave the clients alone, however the network
    loses, duplicates and reorders datagrams: for every datagram that a client received and every
    request that it sent, the check succeeds without a fault, and it accepts the datagram exactly
    when that is the reply of a server to this request. -/
theorem isResponseToLast_iff
    (h : Reachable (step setup) (fun _ => Allowed setup True) (initState setup mid msgBuf nobody) s)
    (hentry : setup.entries[i]? = some entry) {src dst : A} {data sent msgRecvBuf : List UInt8}
    (hdata : .received src data ∈ (s.clients i).log) (hsent : .sent dst sent ∈ (s.clients i).log)
    (hsize : msgRecvBuf.length = msgBufLen) {msgSend : CoapPdu}
    (hsend : msgSend.buf.take msgSend.len = sent) :
    ∃ req b, Carries sent req ∧
      isResponseToLast (received msgRecvBuf data) msgSend = some b ∧
      (b = true ↔ IsReplyTo req data) := by
  have hinv := reachable_exchanges (Or.inr rfl) (helloValue_closed True) h
  obtain ⟨pre, -, -, payload', mid', token', hcarries⟩ := (hinv.caused i entry hentry).of_mem hsent
  obtain ⟨pre', -, -, hanswer⟩ := (hinv.caused i entry hentry).of_mem hdata
  have hle : data.length ≤ msgBufLen := (List.take_eq_self_iff data).mp hanswer.take
  obtain ⟨-, payload, mid, token, hello, -, hval, -, hreply⟩ := hanswer
  have hfor : IsReplyTo (clientRequest entry.path payload mid token) data := ⟨hello, hval, hreply⟩
  obtain ⟨b0, code, body, hhead⟩ := head_of_carries hcarries
  rw [← hsend] at hhead
  have hlen : (clientRequest entry.path payload mid token).token.length
      = (clientRequest entry.path payload' mid' token').token.length := rfl
  obtain ⟨b, hcheck, hiff⟩ := isResponseToLast_of_head hsize hle hfor hlen hhead
  exact ⟨_, b, hcarries, hcheck, hiff.trans (isReplyTo_iff hfor).symm⟩

/-- The check accepts the answer that the client gets. -/
theorem isResponseToLast_iff_hello : ∃ (s : State Bool) (sent data : List UInt8),
    (s.clients 0).log = [.sent true sent, .received true data] ∧
      isResponseToLast (received (List.replicate msgBufLen 0) data) ⟨sent, sent.length, sent.length⟩
        = some true := by
  obtain ⟨s, sent, data, hreach, hlog⟩ := @oneClient_reaches (fun _ => Allowed oneClient True)
    fun _ _ ha => ha.allowed
  obtain ⟨req, b, hcarries, hcheck, hiff⟩ := @isResponseToLast_iff _ _ _ _ _ _ _ 0 _ hreach rfl
    true true data sent (List.replicate msgBufLen 0) (by rw [hlog]; simp) (by rw [hlog]; simp)
    List.length_replicate ⟨sent, sent.length, sent.length⟩ List.take_length
  -- there is no other request
  obtain ⟨-, sent', payload, mid, token, hello, hmem, hval, hcarries', hdata⟩ :=
    (reachable_exchanges (Or.inr rfl) (helloValue_closed True) hreach).caused 0 _ rfl
      [.sent true sent] (.received true data) (by rw [hlog]; exact List.prefix_rfl)
  obtain ⟨-, rfl⟩ : true = true ∧ sent' = sent := by simpa using hmem
  obtain rfl := hcarries.unique hcarries'
  rw [hiff.mpr ⟨hello, hval, hdata⟩] at hcheck
  exact ⟨s, sent', data, hlog, hcheck⟩

end Runs

end Gateway.Network.Recognition
