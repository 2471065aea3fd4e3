/-
  Gateway.CoapServer.CoapServ

  The loop of the CoAP server (`coapServer/coapServer.c`).

  `coapServTurn` is one turn: the datagram is received into `buf`, parsed, handled,
  and the reply is built into `buf` again, while the parsed packet still points
  there.  `serve` says what the server is for: a state `hello` of one byte and, for
  every request, a response.  `coapServTurn_ok` connects the two: a turn on an
  accepted datagram sends the encoding of the message that `serve` gives.

  The `printf` of the payload changes nothing, but it reads up to the next NUL.
  `coapServTurn` leaves it out; `printingTurn` is the turn with it, and comes to its end
  unless the datagram is `Unterminated` (`printingTurn_eq_none_iff`).
-/

import Gateway.CoapServer.Dispatch
import Gateway.CoapServer.Endpoints

namespace Gateway.CoapServer.CoapServ

open Gateway.Lib.ByteWindow Gateway.Lib.BlockMem Gateway.Lib.CString Gateway.Lib.CoapFormat
open Gateway.CoapServer.Microcoap Gateway.CoapServer.ParseSpec Gateway.CoapServer.BuildSpec
open Gateway.CoapServer.Roundtrip Gateway.CoapServer.Grammar Gateway.CoapServer.OptionNums
open Gateway.CoapServer.Dispatch Gateway.CoapServer.Endpoints

/-! ## The loop -/

/-- `BUF_SIZE`. -/
def bufSize : Nat := 512

/-- `buf`. -/
def buf : Ptr Obj := ⟨.buf, 0⟩

/-- `scratch_buf`. -/
def scratchBuf : CoapRwBuffer Obj := { p := ⟨.scratchRaw, 0⟩, len := bufSize }

/-- `recvfrom`: the datagram replaces the start of `buf`; the bytes behind it stay. -/
def recvfrom (m : Mem Obj) (d : List UInt8) : Mem Obj :=
  setObj m .buf (splice (m .buf) 0 (d.take bufSize))

/-- What a turn does with a datagram. -/
inductive Turn where
  | badPacket (rc : CoapError)
  | buildFailed (rc : CoapError)
  | sent (d : List UInt8)
  deriving DecidableEq, Repr

/-- One turn of the loop of `CoapServ`, without its `printf`s.  `rsppkt` is the uninitialized local
    variable. -/
def coapServTurn (m : Mem Obj) (d : List UInt8) (rsppkt : CoapPacket Obj) :
    Option (Turn × Mem Obj) :=
  let m := recvfrom m d
  match coapParse m buf (d.take bufSize).length with
  | .fault => none
  | .err rc => some (.badPacket rc, m)
  | .ok pkt => do
    -- the return value of coap_handle_req is not looked at
    let (_, m, rsppkt) ← coapHandleReq m scratchBuf pkt rsppkt endpoints
    let (rc, m, rsplen) ← coapBuild m buf bufSize rsppkt
    if rc ≠ .none then some (.buildFailed rc, m) else do
    let reply ← loadBytes m buf rsplen
    some (.sent reply, m)

/-- What the `printf` behind `coap_parse` finds for its `%s`: the string that starts with the
    payload, whatever stands behind that; the C library has a text of its own for NULL.  `none`
    when there is no NUL up to the end of the object. -/
def printedPayload (m : Mem Obj) (pkt : CoapPacket Obj) : Option (List UInt8) :=
  match pkt.payload.p with
  | none => some (cstr "(null)".toList)
  | some p => do
    let n ← strlen ((m p.obj).drop p.off)
    some (((m p.obj).drop p.off).take n)

/-- A turn with that `printf`. -/
def printingTurn (m : Mem Obj) (d : List UInt8) (rsppkt : CoapPacket Obj) :
    Option (Turn × Mem Obj) :=
  match coapParse (recvfrom m d) buf (d.take bufSize).length with
  | .ok pkt => do
    let _ ← printedPayload (recvfrom m d) pkt
    coapServTurn m d rsppkt
  | _ => coapServTurn m d rsppkt

/-! ## What the server is for -/

/-- A response, apart from what it repeats of the request. -/
structure Response where
  code : CoapResponsecode
  format : CoapContentType
  payload : List UInt8
  deriving DecidableEq, Repr

/-- The server's state is the value of the resource `/hello`; for a request it gives the new
    value and the response. -/
def serve (hello : UInt8) (req : Request) : UInt8 × Response :=
  if coapMethodGet = req.code ∧ pathWellKnownCore.elems = req.path then
    (hello, ⟨.content, .applicationLinkformat, rspText⟩)
  else if coapMethodGet = req.code ∧ pathHello.elems = req.path then
    (hello, ⟨.content, .textPlain, [hello]⟩)
  else if coapMethodPut = req.code ∧ pathHello.elems = req.path then
    match req.payload with
    | [] => (hello, ⟨.badRequest, .textPlain, []⟩)
    | b :: _ =>
      let hello' : UInt8 := if b = 0x31 then 0x31 else 0x30
      (hello', ⟨.changed, .textPlain, [hello']⟩)
  else (hello, ⟨.notFound, .none, []⟩)

/-- The reply to a request: an acknowledgement that repeats its message id and its token. -/
def replyMessage (req : Request) (rsp : Response) : Message where
  ver := 1
  type := 2
  code := rsp.code.code
  idHi := req.idHi
  idLo := req.idLo
  token := req.token
  opts := [⟨12, formatBytes rsp.format⟩]
  payload := rsp.payload
  token_le := req.token_le
  sorted := List.pairwise_singleton _ _

theorem serve_payload_length (hello : UInt8) (req : Request) :
    (serve hello req).2.payload.length ≤ 39 := by
  unfold serve
  split
  · exact Nat.le_of_eq rspText_length
  split
  · simp
  split
  · split <;> simp
  · simp

/-- Every reply is a message the parser can represent. -/
theorem replyMessage_parseable (req : Request) (rsp : Response) :
    Parseable (replyMessage req rsp) where
  ver := rfl
  count := by simp [replyMessage, maxopt]
  nums := by simp [replyMessage]
  lens := by simp [replyMessage, formatBytes]

theorem replyMessage_length (req : Request) (rsp : Response) :
    (replyMessage req rsp).encode.length ≤ 16 + rsp.payload.length := by
  have htok := req.token_le
  have hpay : (payloadBytes rsp.payload).length ≤ 1 + rsp.payload.length := by
    rw [payloadBytes]
    split
    · exact Nat.zero_le _
    · rw [List.length_cons, Nat.add_comm]
  have hopt : (optsBytes (toWire 0 [⟨12, formatBytes rsp.format⟩])).length = 3 := rfl
  rw [Message.encode, wireMessage_length]
  simp only [replyMessage] at htok ⊢
  omega

/-! ## The state between turns -/

/-- The state between two turns: the buffers have their sizes, `rsp` holds the discovery text
    and `retHello` the value of the resource. -/
structure ServReady (m : Mem Obj) (hello : UInt8) : Prop where
  buf : (m .buf).length = bufSize
  scratch : (m .scratchRaw).length = bufSize
  rsp : m .rsp = padded rsplen rspText
  retHello : m .retHello = [hello]

/-- The static variables at program start. -/
def initMem : Mem Obj
  | .buf | .scratchRaw => List.replicate bufSize 0
  | .rsp => padded rsplen []
  | .retHello => [0x31]

/-- `CoapServ` calls `endpoint_setup` before the first turn. -/
theorem endpointSetup_ready :
    ∃ m, endpointSetup initMem = some m ∧ ServReady m 0x31 := by
  refine ⟨_, endpointSetup_eq rfl, ?_, ?_, ?_, ?_⟩
  · exact List.length_replicate
  · exact List.length_replicate
  · rw [setObj_self]
  · rw [setObj_ne _ _ (by decide)]
    rfl

/-- A write into one of the two buffers leaves the server ready. -/
theorem ServReady.overwrite {m : Mem Obj} {hello : UInt8} (h : ServReady m hello) {p : Ptr Obj}
    {w : List UInt8} (hobj : p.obj = .buf ∨ p.obj = .scratchRaw)
    (hfit : p.off + w.length ≤ bufSize) : ServReady (written m p w) hello := by
  obtain ⟨o, off⟩ := p
  have hlen : ∀ l : List UInt8, l.length = bufSize → (splice l off w).length = bufSize := by
    intro l hl
    rw [splice_length (by rw [hl]; exact hfit), hl]
  rcases hobj with rfl | rfl
  · refine ⟨?_, h.scratch, h.rsp, h.retHello⟩
    rw [written, setObj_self]
    exact hlen _ h.buf
  · refine ⟨h.buf, ?_, h.rsp, h.retHello⟩
    rw [written, setObj_self]
    exact hlen _ h.scratch

theorem ServReady.recvfrom {m : Mem Obj} {hello : UInt8} (h : ServReady m hello)
    (d : List UInt8) : ServReady (recvfrom m d) hello := by
  refine @ServReady.overwrite _ _ h ⟨.buf, 0⟩ (d.take bufSize) (Or.inl rfl) ?_
  rw [Nat.zero_add]
  exact List.length_take_le _ _

/-- The parser is called on the bytes of the datagram. -/
theorem recvfrom_fits {m : Mem Obj} {hello : UInt8} (h : ServReady m hello) (d : List UInt8) :
    buf.off + (d.take bufSize).length ≤ (recvfrom m d buf.obj).length ∧
      slice (recvfrom m d buf.obj) buf.off (d.take bufSize).length = d.take bufSize := by
  have hfit : 0 + (d.take bufSize).length ≤ (m .buf).length := by
    rw [h.buf, List.length_take]
    omega
  simp only [buf, CoapServ.recvfrom, setObj_self]
  rw [splice_length hfit, slice_splice_self hfit]
  exact ⟨hfit, rfl⟩

/-! ## One turn -/

/-- The memory and the response packet after `coap_handle_req`, before `coap_build`. -/
structure Prepared (m m' : Mem Obj) (hello : UInt8) (pkt out : CoapPacket Obj) (req : Request)
    (rsp : Response) : Prop where
  ready : ServReady m' hello
  same : m' .buf = m .buf
  out_eq : ∃ content, out = responsePkt scratchBuf.p content pkt.tok req.idHi req.idLo rsp.code ∧
    content.read m' = some rsp.payload ∧ Apart content .buf
  format : slice (m' .scratchRaw) 0 2 = formatBytes rsp.format

/-- A call of `coap_make_response` prepares the response. -/
theorem makeResponse_prepared {m : Mem Obj} {hello : UInt8} {pkt outpkt : CoapPacket Obj}
    {content : CoapBuffer Obj} {req : Request} {rsp : Response} (h : ServReady m hello)
    (hread : content.read m = some rsp.payload) (hbuf : Apart content .buf)
    (hscratch : Apart content .scratchRaw) :
    ∃ m' out, coapMakeResponse m scratchBuf outpkt content req.idHi req.idLo (some pkt.tok)
        rsp.code rsp.format = some (.none, m', out) ∧ Prepared m m' hello pkt out req rsp := by
  have hfit : 0 + (formatBytes rsp.format).length ≤ (m .scratchRaw).length := by
    rw [h.scratch]
    exact (by decide : 0 + 2 ≤ bufSize)
  refine ⟨_, _, coapMakeResponse_eq (by decide) hfit,
    h.overwrite (Or.inr rfl) (by rw [← h.scratch]; exact hfit), ?_, ⟨content, rfl, ?_, hbuf⟩, ?_⟩
  · rw [written, setObj_ne _ _ (by decide)]
  · exact read_written hscratch hread
  · simp only [written, scratchBuf, setObj_self]
    exact slice_splice_self hfit

section Handlers

variable {m : Mem Obj} {hello : UInt8} {pkt outpkt : CoapPacket Obj} {req : Request}

theorem apart_null (o : Obj) : Apart { p := none, len := 0 } o := fun p hp => by cases hp

theorem apart_of_ne {o o' : Obj} {off len : Nat} (h : o ≠ o') :
    Apart { p := some ⟨o, off⟩, len := len } o' := by
  intro p hp
  cases hp
  exact h

/-- What `retHello` stands for. -/
theorem ServReady.read_retHello (h : ServReady m hello) :
    CoapBuffer.read m { p := some ⟨.retHello, 0⟩, len := 1 } = some [hello] := by
  rw [CoapBuffer.read, if_neg (by decide)]
  exact loadBytes_eq_some.mpr ⟨by rw [h.retHello]; exact Nat.le_refl 1, by rw [h.retHello]; rfl⟩

/-- What `rsp` stands for. -/
theorem ServReady.read_rsp (h : ServReady m hello) :
    CoapBuffer.read m { p := some ⟨.rsp, 0⟩, len := rspText.length } = some rspText := by
  have hlen := rspText_length
  rw [CoapBuffer.read, if_neg (by simp only; omega)]
  refine loadBytes_eq_some.mpr ⟨?_, ?_⟩
  · rw [h.rsp, padded_length (by unfold rsplen; omega)]
    simp only [rsplen]
    omega
  · rw [h.rsp, slice, List.drop_zero]
    exact List.take_left

theorem handleGetWellKnownCore_prepared (h : ServReady m hello) :
    ∃ m' out, handleGetWellKnownCore m scratchBuf pkt outpkt req.idHi req.idLo
        = some (.none, m', out) ∧
      Prepared m m' hello pkt out req ⟨.content, .applicationLinkformat, rspText⟩ := by
  have hlen : strlen (m .rsp) = some rspText.length := by
    have hrsp := rspText_length
    rw [h.rsp]
    exact strlen_padded (by unfold rsplen; omega) rspText_nul
  simp only [handleGetWellKnownCore, hlen, Option.bind_eq_bind, Option.bind_some]
  exact @makeResponse_prepared m hello pkt outpkt _ req ⟨.content, .applicationLinkformat, rspText⟩
    h h.read_rsp (apart_of_ne (by decide)) (apart_of_ne (by decide))

theorem handleGetHello_prepared (h : ServReady m hello) :
    ∃ m' out, handleGetHello m scratchBuf pkt outpkt req.idHi req.idLo = some (.none, m', out) ∧
      Prepared m m' hello pkt out req ⟨.content, .textPlain, [hello]⟩ :=
  @makeResponse_prepared m hello pkt outpkt _ req ⟨.content, .textPlain, [hello]⟩ h
    h.read_retHello (apart_of_ne (by decide)) (apart_of_ne (by decide))

/-- A PUT without a payload changes nothing. -/
theorem handlePutHello_nil (h : ServReady m hello) (hlen : pkt.payload.len = 0) :
    ∃ m' out, handlePutHello m scratchBuf pkt outpkt req.idHi req.idLo = some (.none, m', out) ∧
      Prepared m m' hello pkt out req ⟨.badRequest, .textPlain, []⟩ := by
  rw [handlePutHello, if_pos hlen]
  exact @makeResponse_prepared m hello pkt outpkt _ req ⟨.badRequest, .textPlain, []⟩ h rfl
    (apart_null _) (apart_null _)

/-- A PUT stores a character and answers with it. -/
theorem handlePutHello_cons {b : UInt8} {bs : List UInt8} (h : ServReady m hello)
    (hread : pkt.payload.read m = some (b :: bs)) :
    ∃ m' out, handlePutHello m scratchBuf pkt outpkt req.idHi req.idLo = some (.none, m', out) ∧
      Prepared m m' (if b = 0x31 then 0x31 else 0x30) pkt out req
        ⟨.changed, .textPlain, [if b = 0x31 then 0x31 else 0x30]⟩ := by
  have hlen := CoapBuffer.read_length hread
  rw [List.length_cons] at hlen
  rw [CoapBuffer.read, if_neg (by omega)] at hread
  obtain ⟨q, hq, hload⟩ := Option.bind_eq_some_iff.mp hread
  have hb : load m q = some b := load_of_slice (loadBytes_eq_some.mp hload).2
  generalize hv : (if b = 0x31 then (0x31 : UInt8) else 0x30) = v
  have hstore : store m ⟨.retHello, 0⟩ v = some (setObj m .retHello [v]) := by
    rw [store, storeBytes_eq (by rw [h.retHello]; exact Nat.le_refl 1), h.retHello]
    rfl
  -- the character is stored before the response is made, which points to it
  have hready : ServReady (setObj m .retHello [v]) v :=
    ⟨h.buf, h.scratch, h.rsp, setObj_self _ _ _⟩
  rw [handlePutHello, if_neg (by omega), hq]
  simp only [Option.bind_eq_bind, Option.bind_some, hb, hv, hstore]
  obtain ⟨m', out, hmake, hprep⟩ := @makeResponse_prepared _ v pkt outpkt _ req
    ⟨.changed, .textPlain, [v]⟩ hready hready.read_retHello (apart_of_ne (by decide))
    (apart_of_ne (by decide))
  exact ⟨m', out, hmake, hprep.ready, hprep.same.trans (setObj_ne _ _ (by decide)), hprep.out_eq,
    hprep.format⟩

/-- The end of the table. -/
theorem notFound_prepared (h : ServReady m hello) (hask : Asks m pkt req)
    {ep : CoapEndpoint Obj} (hep : ep.handler = none) :
    ∃ m' out, coapHandleReq m scratchBuf pkt outpkt [ep] = some (.none, m', out) ∧
      Prepared m m' hello pkt out req ⟨.notFound, .none, []⟩ := by
  have hfit : scratchBuf.p.off + 2 ≤ (m scratchBuf.p.obj).length := by
    simp only [scratchBuf, h.scratch]
    decide
  obtain ⟨m', out, hmake, hprep⟩ := @makeResponse_prepared m hello pkt outpkt
    { p := none, len := 0 } req ⟨.notFound, .none, []⟩ h rfl (apart_null _) (apart_null _)
  rw [coapMakeResponse_eq (by decide) hfit] at hmake
  rw [coapHandleReq_last hask hep (by decide) hfit]
  exact ⟨m', out, hmake, hprep⟩

/-- The handlers prepare the response that `serve` gives. -/
theorem coapHandleReq_prepared (h : ServReady m hello) (hask : Asks m pkt req) :
    ∃ m' out, coapHandleReq m scratchBuf pkt outpkt endpoints = some (.none, m', out) ∧
      Prepared m m' (serve hello req).1 pkt out req (serve hello req).2 := by
  -- one entry of the table after the other, as `serve` asks
  rw [endpoints, coapHandleReq_cons hask rfl rfl (by decide)]
  unfold serve
  by_cases hcore : coapMethodGet = req.code ∧ pathWellKnownCore.elems = req.path
  · rw [if_pos hcore, if_pos hcore]
    exact handleGetWellKnownCore_prepared h
  rw [if_neg hcore, if_neg hcore, coapHandleReq_cons hask rfl rfl (by decide)]
  by_cases hget : coapMethodGet = req.code ∧ pathHello.elems = req.path
  · rw [if_pos hget, if_pos hget]
    exact handleGetHello_prepared h
  rw [if_neg hget, if_neg hget, coapHandleReq_cons hask rfl rfl (by decide)]
  by_cases hput : coapMethodPut = req.code ∧ pathHello.elems = req.path
  · rw [if_pos hput, if_pos hput]
    have hpay := hask.payload
    cases hp : req.payload with
    | nil =>
      rw [hp] at hpay
      exact handlePutHello_nil h (CoapBuffer.read_length hpay).symm
    | cons b bs =>
      rw [hp] at hpay
      exact handlePutHello_cons h hpay
  rw [if_neg hput, if_neg hput]
  exact notFound_prepared h hask rfl

/-- The response packet can be encoded into `buf`, although its token stands there. -/
theorem Prepared.encodable {m' : Mem Obj} {hello' : UInt8} {out : CoapPacket Obj} {rsp : Response}
    (h : Prepared m m' hello' pkt out req rsp) (hask : Asks m pkt req)
    (htok : pkt.tok.p = none ∨ pkt.tok.p = some (buf.add 4)) (hlen : rsp.payload.length ≤ 39) :
    ∃ henc : Encodable m' buf bufSize out req.token [formatBytes rsp.format] rsp.payload,
      henc.message = replyMessage req rsp := by
  obtain ⟨hready, hsame, ⟨content, rfl, hcontent, happart⟩, hformat⟩ := h
  have htokLen := CoapBuffer.read_length hask.tok
  have hle := req.token_le
  -- the handlers wrote nothing to `buf`, where the token of the request stands
  have htokRead : pkt.tok.read m' = some req.token := by
    rw [← hask.tok]
    refine CoapBuffer.read_congr fun p hp => ?_
    rcases htok with h0 | h0
    · rw [h0] at hp
      cases hp
    · rw [h0] at hp
      cases hp
      exact hsame
  have hopt : CoapBuffer.read m' { p := some scratchBuf.p, len := 2 }
      = some (formatBytes rsp.format) := by
    rw [CoapBuffer.read, if_neg (by decide)]
    refine loadBytes_eq_some.mpr ⟨?_, hformat⟩
    simp only [scratchBuf, hready.scratch]
    decide
  have hwire := replyMessage_length req rsp
  have hreply : (replyMessage req rsp).encode.length
      = packetSize req.token [(coapOptionContentFormat, formatBytes rsp.format)] rsp.payload := by
    rw [Message.encode, wireMessage_length]
    rfl
  have henc : Encodable m' buf bufSize (responsePkt scratchBuf.p content pkt.tok req.idHi req.idLo
      rsp.code) req.token [formatBytes rsp.format] rsp.payload := by
    refine ⟨rfl, (by decide : (2 : Nat) ≤ 3), ?_, by simp only [responsePkt]; omega, by simp [responsePkt, maxopt],
      List.pairwise_singleton _ _, by simp [responsePkt], ⟨htokRead, ?_, hcontent⟩, ?_, ?_, happart,
      ?_, ?_⟩
    · simp only [responsePkt, UInt8.toNat_ofNat']
      omega
    · simp only [responsePkt, List.map_cons, List.map_nil, hopt]
    · refine htok.imp (fun h0 p hp => ?_) id
      simp only [responsePkt] at hp
      rw [h0] at hp
      cases hp
    · intro o ho
      obtain rfl := List.mem_singleton.mp ho
      exact apart_of_ne (by decide)
    · exact Nat.le_of_eq ((Nat.zero_add _).trans hready.buf.symm)
    · refine Nat.le_trans (Nat.le_of_eq hreply.symm) (Nat.le_trans hwire ?_)
      unfold bufSize
      omega
  exact ⟨henc, rfl⟩

/-- A turn on an accepted datagram sends the reply that `serve` gives, and leaves the server
    ready with the new value. -/
theorem coapServTurn_ok {d : List UInt8} {rsppkt : CoapPacket Obj} (h : ServReady m hello)
    (hacc : coapParse (recvfrom m d) buf (d.take bufSize).length = .ok pkt)
    (hask : Asks (recvfrom m d) pkt req) :
    ∃ m', coapServTurn m d rsppkt
        = some (.sent (replyMessage req (serve hello req).2).encode, m') ∧
      ServReady m' (serve hello req).1 := by
  obtain ⟨hfit, -⟩ := recvfrom_fits h d
  obtain ⟨m2, out, hhandle, hprep⟩ := @coapHandleReq_prepared _ hello pkt rsppkt req
    (h.recvfrom d) hask
  have hplen := serve_payload_length hello req
  obtain ⟨henc, hmsg⟩ := hprep.encodable hask (tok_of_coapParse hfit hacc) hplen
  obtain ⟨hbuild, hroom, hslice⟩ := henc.coapBuild_eq
  have hshort : ∀ o ∈ out.opts, o.buf.len < 269 := by
    obtain ⟨content, rfl, -⟩ := hprep.out_eq
    simp [responsePkt]
  rw [henc.pktBytes_eq hshort, hmsg] at hbuild hroom hslice
  refine ⟨written m2 buf (replyMessage req (serve hello req).2).encode, ?_, ?_⟩
  · have hload := loadBytes_eq_some.mpr ⟨hroom, hslice⟩
    simp only [coapServTurn, hacc, hhandle, Option.bind_eq_bind, Option.bind_some, hbuild]
    rw [if_neg (by simp), hload]
    rfl
  · have hready := hprep.ready
    have hsize := replyMessage_length req (serve hello req).2
    refine hready.overwrite (Or.inl rfl) ?_
    simp only [buf]
    unfold bufSize
    omega

/-- Every turn leaves the server ready. -/
theorem coapServTurn_ready (h : ServReady m hello) (d : List UInt8) (rsppkt : CoapPacket Obj) :
    ∃ turn m' hello', coapServTurn m d rsppkt = some (turn, m') ∧ ServReady m' hello' := by
  obtain ⟨hfit, hslice⟩ := recvfrom_fits h d
  cases hdec : decodeMsg (slice (recvfrom m d buf.obj) buf.off (d.take bufSize).length) with
  | none =>
    -- a bad packet is reported and dropped
    obtain ⟨rc, hrc⟩ := coapParse_err hfit hdec
    exact ⟨.badPacket rc, recvfrom m d, hello, by rw [coapServTurn, hrc], h.recvfrom d⟩
  | some r =>
    have hacc := coapParse_ok hfit hdec
    obtain ⟨req, hask⟩ := exists_asks hfit hacc
    obtain ⟨m', hturn, hready⟩ := @coapServTurn_ok _ _ _ _ _ rsppkt h hacc hask
    exact ⟨_, m', _, hturn, hready⟩

end Handlers

/-! ## The payload that is printed -/

/-- The datagram is accepted and has a payload, and there is no NUL in that, nor in what older
    datagrams left in `buf` behind it. -/
def Unterminated (m : Mem Obj) (d : List UInt8) : Prop :=
  ∃ r, decodeMsg (d.take bufSize) = some r ∧ payloadOf r.tail ≠ [] ∧ 0 ∉ payloadOf r.tail ∧
    0 ∉ (m .buf).drop (d.take bufSize).length

section Printing

variable {m : Mem Obj} {hello : UInt8} {d : List UInt8} {r : Parsed}

theorem tail_of_payloadOf {tail : List UInt8} (h : payloadOf tail ≠ []) :
    tail = 0xFF :: payloadOf tail := by
  match tail, h with
  | [], h => exact absurd rfl h
  | [_], h => exact absurd rfl h
  | b :: x :: xs, h =>
    rw [payloadOf] at h ⊢
    by_cases hb : b = 0xFF
    · rw [if_pos hb, hb]
    · rw [if_neg hb] at h
      exact absurd rfl h

/-- Behind the start of the payload stand its bytes, and then the old ones. -/
theorem printedPayload_eq (hr : decodeMsg (d.take bufSize) = some r)
    (hne : payloadOf r.tail ≠ []) :
    printedPayload (recvfrom m d) (packetOf buf r)
      = (strlen (payloadOf r.tail ++ (m .buf).drop (d.take bufSize).length)).map fun n =>
          (payloadOf r.tail ++ (m .buf).drop (d.take bufSize).length).take n := by
  obtain ⟨hbs, -⟩ := decodeMsg_bytes hr
  have hfront : d.take bufSize
      = (r.b0 :: r.code :: r.idHi :: r.idLo :: (r.token ++ (seenBytes r.seen ++ [0xFF])))
        ++ payloadOf r.tail := by
    rw [tail_of_payloadOf hne] at hbs
    rw [hbs]
    simp only [List.cons_append, List.append_assoc, List.nil_append]
  have hbuf : recvfrom m d .buf = d.take bufSize ++ (m .buf).drop (d.take bufSize).length := by
    rw [recvfrom, setObj_self, splice, List.take_zero, List.nil_append, Nat.zero_add]
  have hdrop : (recvfrom m d .buf).drop
      (0 + 4 + r.token.length + (seenBytes r.seen).length + 1)
        = payloadOf r.tail ++ (m .buf).drop (d.take bufSize).length := by
    rw [hbuf, hfront, List.append_assoc]
    apply List.drop_left'
    simp only [List.length_cons, List.length_append, List.length_nil]
    omega
  have hp : (packetOf buf r).payload.p
      = some ⟨.buf, 0 + 4 + r.token.length + (seenBytes r.seen).length + 1⟩ := by
    simp only [packetOf, layoutPayload, if_neg hne]
    rfl
  rw [printedPayload, hp]
  simp only [hdrop]
  cases strlen (payloadOf r.tail ++ (m .buf).drop (d.take bufSize).length) <;> rfl

/-- Of an accepted datagram, the string that is printed goes on behind `buf`. -/
theorem unterminated_iff (hr : decodeMsg (d.take bufSize) = some r) :
    Unterminated m d ↔ printedPayload (recvfrom m d) (packetOf buf r) = none := by
  have hunique : Unterminated m d ↔ payloadOf r.tail ≠ [] ∧
      0 ∉ payloadOf r.tail ++ (m .buf).drop (d.take bufSize).length := by
    rw [List.mem_append, not_or]
    refine ⟨?_, fun hrest => ⟨r, hr, hrest⟩⟩
    rintro ⟨r', hr', hrest⟩
    rw [hr] at hr'
    rw [Option.some_inj.mp hr']
    exact hrest
  rw [hunique]
  by_cases hne : payloadOf r.tail = []
  · have hnull : (packetOf buf r).payload.p = none := by
      simp only [packetOf, layoutPayload, if_pos hne]
    rw [printedPayload, hnull]
    exact ⟨fun hc => absurd hne hc.1, fun hc => absurd hc (Option.some_ne_none _)⟩
  · rw [printedPayload_eq hr hne, Option.map_eq_none_iff, strlen_eq_none_iff]
    exact ⟨fun hc => hc.2, fun hc => ⟨hne, hc⟩⟩

/-- The `printf` reads behind `buf` exactly for these datagrams; otherwise the turn is as it is
    without it. -/
theorem printingTurn_eq_none_iff (h : ServReady m hello) (d : List UInt8)
    (rsppkt : CoapPacket Obj) :
    (printingTurn m d rsppkt = none ↔ Unterminated m d) ∧
      (¬ Unterminated m d → printingTurn m d rsppkt = coapServTurn m d rsppkt) := by
  obtain ⟨hfit, hslice⟩ := recvfrom_fits h d
  obtain ⟨turn, m', -, hturn, -⟩ := coapServTurn_ready h d rsppkt
  cases hdec : decodeMsg (d.take bufSize) with
  | none =>
    -- a bad packet is not printed
    have hno : ¬ Unterminated m d := by
      rintro ⟨r, hr, -⟩
      rw [hdec] at hr
      cases hr
    obtain ⟨rc, hrc⟩ := coapParse_err hfit (by rw [hslice]; exact hdec)
    have hsame : printingTurn m d rsppkt = coapServTurn m d rsppkt := by rw [printingTurn, hrc]
    rw [hsame, hturn]
    exact ⟨⟨fun hc => absurd hc (Option.some_ne_none _), fun hc => absurd hc hno⟩, fun _ => rfl⟩
  | some r =>
    have hprint : printingTurn m d rsppkt
        = (printedPayload (recvfrom m d) (packetOf buf r)).bind fun _ =>
            coapServTurn m d rsppkt := by
      rw [printingTurn, coapParse_ok hfit (by rw [hslice]; exact hdec)]
      rfl
    rw [hprint, hturn, unterminated_iff hdec]
    cases printedPayload (recvfrom m d) (packetOf buf r) with
    | none => exact ⟨⟨fun _ => rfl, fun _ => rfl⟩, fun hc => absurd rfl hc⟩
    | some text =>
      exact ⟨⟨fun hc => absurd hc (Option.some_ne_none _),
        fun hc => absurd hc (Option.some_ne_none _)⟩, fun _ => rfl⟩

end Printing

/-! ## Runs -/

/-- The turns on a sequence of datagrams, each with what is in the uninitialized `rsppkt`. -/
def coapServRun : Mem Obj → List (List UInt8 × CoapPacket Obj) → Option (List Turn × Mem Obj)
  | m, [] => some ([], m)
  | m, (d, rsppkt) :: ds => do
    let (turn, m) ← coapServTurn m d rsppkt
    let (turns, m) ← coapServRun m ds
    some (turn :: turns, m)

/-- After any sequence of datagrams the server is ready for the next one. -/
theorem coapServRun_ready {m : Mem Obj} {hello : UInt8} (h : ServReady m hello)
    (ds : List (List UInt8 × CoapPacket Obj)) :
    ∃ turns m' hello', coapServRun m ds = some (turns, m') ∧ turns.length = ds.length ∧
      ServReady m' hello' := by
  induction ds generalizing m hello with
  | nil => exact ⟨[], m, hello, rfl, rfl, h⟩
  | cons d ds ih =>
    obtain ⟨turn, m1, hello1, hturn, hready⟩ := coapServTurn_ready h d.1 d.2
    obtain ⟨turns, m', hello', hrun, hlen, hready'⟩ := ih hready
    refine ⟨turn :: turns, m', hello', ?_, by rw [List.length_cons, hlen, List.length_cons], hready'⟩
    rw [coapServRun, hturn]
    simp only [Option.bind_eq_bind, Option.bind_some, hrun]

/-! ## The reply -/

/-- The packet that is parsed from a reply. -/
theorem exists_reply_packet (req : Request) (rsp : Response) :
    ∃ pkt, coapParse (datagram (replyMessage req rsp).encode) ⟨(), 0⟩
        (replyMessage req rsp).encode.length = .ok pkt ∧
      Decodes (datagram (replyMessage req rsp).encode) pkt (replyMessage req rsp) := by
  refine coapParse_encode (replyMessage_parseable req rsp) ?_ ?_
  · exact Nat.le_of_eq (Nat.zero_add _)
  · exact List.take_length

/-- The one option of the packet that stands for a reply. -/
theorem exists_reply_option {m : Mem Unit} {pkt : CoapPacket Unit} {req : Request}
    {rsp : Response} (h : Decodes m pkt (replyMessage req rsp)) :
    ∃ o, pkt.opts = [o] ∧ o.num = coapOptionContentFormat ∧ o.buf.len = 2 ∧
      o.buf.read m = some (formatBytes rsp.format) := by
  have hnums := h.nums
  have hreads := h.reads.opts
  obtain ⟨o, ho⟩ := List.length_eq_one_iff.mp (by simpa [replyMessage] using congrArg List.length hnums)
  rw [ho] at hnums hreads
  have hnum : o.num.toNat = 12 := by simpa [replyMessage] using hnums
  have hread : o.buf.read m = some (formatBytes rsp.format) := by
    simpa [replyMessage] using hreads
  exact ⟨o, ho, UInt8.toNat_inj.mp hnum, (CoapBuffer.read_length hread).symm, hread⟩

/-- For every accepted datagram and every value of `/hello`, the server sends a reply of at most
    512 bytes.  It parses as an acknowledgement with the message id and the token of the
    request, one Content-Format option of two bytes, and the code and payload of the endpoint
    that matched. -/
theorem coapServTurn_reply {m : Mem Obj} {hello : UInt8} {d : List UInt8}
    {pkt rsppkt : CoapPacket Obj} (h : ServReady m hello) (hd : d.length ≤ bufSize)
    (hacc : coapParse (recvfrom m d) buf d.length = .ok pkt) :
    ∃ req m' reply pkt', Asks (recvfrom m d) pkt req ∧
      coapServTurn m d rsppkt = some (.sent reply, m') ∧
      ServReady m' (serve hello req).1 ∧
      reply.length ≤ bufSize ∧
      coapParse (datagram reply) ⟨(), 0⟩ reply.length = .ok pkt' ∧
      pkt'.hdr.ver = 1 ∧ pkt'.hdr.t = coapTypeAck ∧
      pkt'.hdr.idHi = pkt.hdr.idHi ∧ pkt'.hdr.idLo = pkt.hdr.idLo ∧
      pkt'.tok.read (datagram reply) = pkt.tok.read (recvfrom m d) ∧
      (∃ o, pkt'.opts = [o] ∧ o.num = coapOptionContentFormat ∧ o.buf.len = 2 ∧
        o.buf.read (datagram reply) = some (formatBytes (serve hello req).2.format)) ∧
      pkt'.hdr.code = (serve hello req).2.code.code ∧
      pkt'.payload.read (datagram reply) = some (serve hello req).2.payload := by
  have htake : d.take bufSize = d := List.take_of_length_le hd
  have hacc' : coapParse (recvfrom m d) buf (d.take bufSize).length = .ok pkt := by
    rw [htake]
    exact hacc
  obtain ⟨hfit, -⟩ := recvfrom_fits h d
  obtain ⟨req, hask⟩ := exists_asks hfit hacc'
  obtain ⟨m', hturn, hready⟩ := @coapServTurn_ok _ _ _ _ _ rsppkt h hacc' hask
  obtain ⟨pkt', hparse, hdec⟩ := exists_reply_packet req (serve hello req).2
  have hsize := replyMessage_length req (serve hello req).2
  have hplen := serve_payload_length hello req
  refine ⟨req, m', _, pkt', hask, hturn, hready, ?_, hparse, ?_, ?_, ?_, ?_, ?_, ?_, ?_, ?_⟩
  · unfold bufSize
    omega
  · exact UInt8.toNat_inj.mp hdec.ver
  · exact UInt8.toNat_inj.mp hdec.type
  · rw [hask.idHi]
    exact hdec.idHi
  · rw [hask.idLo]
    exact hdec.idLo
  · rw [hask.tok]
    exact hdec.reads.tok
  · exact exists_reply_option hdec
  · exact hdec.code
  · exact hdec.reads.payload

/-- The memory of a server whose `/hello` is `hello`, before the first datagram. -/
def readyMem (hello : UInt8) : Mem Obj
  | .buf | .scratchRaw => List.replicate bufSize 0
  | .rsp => padded rsplen rspText
  | .retHello => [hello]

theorem readyMem_ready (hello : UInt8) : ServReady (readyMem hello) hello :=
  ⟨List.length_replicate, List.length_replicate, rfl, rfl⟩

/-- A GET for `/hello` with a token of one byte. -/
def getHello : List UInt8 := [0x41, 0x01, 0x12, 0x34, 0x07, 0xB5, 0x68, 0x65, 0x6C, 0x6C, 0x6F]

theorem getHello_accepted (hello : UInt8) :
    ∃ pkt, coapParse (recvfrom (readyMem hello) getHello) buf getHello.length = .ok pkt := by
  obtain ⟨hfit, hslice⟩ := recvfrom_fits (readyMem_ready hello) getHello
  have htake : getHello.take bufSize = getHello := by decide
  have hdec : (decodeMsg getHello).isSome := by decide
  obtain ⟨r, hr⟩ := Option.isSome_iff_exists.mp hdec
  rw [htake] at hfit hslice
  rw [← hslice] at hr
  exact ⟨_, coapParse_ok hfit hr⟩

/-- A packet of zeros. -/
def emptyPkt : CoapPacket Obj :=
  { hdr := ⟨0, 0, 0, 0, 0, 0⟩, tok := ⟨none, 0⟩, opts := [], payload := ⟨none, 0⟩ }

/-- The server answers that GET. -/
theorem coapServTurn_reply_hello : ∃ m' reply pkt',
    coapServTurn (readyMem 0x31) getHello emptyPkt = some (.sent reply, m') ∧
      coapParse (datagram reply) ⟨(), 0⟩ reply.length = .ok pkt' ∧ pkt'.hdr.t = coapTypeAck := by
  obtain ⟨pkt, hpkt⟩ := getHello_accepted 0x31
  obtain ⟨req, m', reply, pkt', -, hturn, -, -, hparse, -, hack, -⟩ :=
    @coapServTurn_reply _ _ _ _ emptyPkt (readyMem_ready 0x31) (by decide) hpkt
  exact ⟨m', reply, pkt', hturn, hparse, hack⟩

end Gateway.CoapServer.CoapServ
