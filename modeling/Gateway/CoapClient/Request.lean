/-
  Gateway.CoapClient.Request

  The message that a turn of the loop of `CoapClient` (`coapClient/coapClient.c`)
  builds from what it read from its FIFO, and what the server makes of it.

  The client writes with its own library and the server reads with another one;
  both are measured by the message format: the packet is the encoding of
  `requestOf`, and `coap_parse` accepts the encoding of every message it can
  represent.
-/

import Gateway.Lib.CString
import Gateway.CoapClient.PduSpec
import Gateway.CoapServer.Roundtrip

namespace Gateway.CoapClient.Request

open Gateway.Lib.ByteWindow Gateway.Lib.BlockMem Gateway.Lib.CString Gateway.Lib.CoapFormat
open Gateway.CoapClient.Picocoap Gateway.CoapClient.DecodeSpec Gateway.CoapClient.PduSpec
open Gateway.CoapServer.Microcoap Gateway.CoapServer.ParseSpec Gateway.CoapServer.Roundtrip

/-! ## The model -/

/-- `MSG_BUF_LEN`. -/
def msgBufLen : Nat := 512

/-- `COAP_PATH_LEN`. -/
def coapPathLen : Nat := 128

/-- What a turn builds in `msg_send`: `path` is the array of the client's entry, `msgBuf` the
    array that was read into and `msgLen` what `read` returned, `mid` and `token` the values of
    the counter and of `rand()`.  The codes that the setters return are not looked at. -/
def buildMessage (path msgBuf : List UInt8) (msgLen : Int) (mid : UInt16) (token : UInt64) :
    Option CoapPdu := do
  let msgSend : CoapPdu := { buf := List.replicate msgBufLen 0, len := 0, max := msgBufLen }
  let (_, msgSend) ← coapInitPdu msgSend
  let (_, msgSend) ← coapSetVersion msgSend .v1
  let (_, msgSend) ← coapSetType msgSend .con
  let (_, msgSend) ← coapSetCode msgSend ccGet
  let (_, msgSend) ← coapSetMid msgSend mid
  let (_, msgSend) ← coapSetToken msgSend token 2
  let n ← strlen path
  let (_, msgSend) ← coapAddOption msgSend conUriPath path (UInt16.ofNat n)
  let (_, msgSend) ← coapSetPayload msgSend msgBuf (sz msgLen)
  some msgSend

/-! ## Arrays that are longer than what is copied -/

theorem coapSetPayload_take {pdu : CoapPdu} {payload : List UInt8} {n : Nat}
    (h : n ≤ payload.length) :
    coapSetPayload pdu (payload.take n) n = coapSetPayload pdu payload n := by
  have hput : ∀ buf ptr, putPayload pdu buf (payload.take n) n ptr
      = putPayload pdu buf payload n ptr := by
    intro buf ptr
    rw [putPayload, putPayload, List.length_take, Nat.min_eq_left h, if_neg (Nat.lt_irrefl n),
      if_neg (Nat.not_lt.mpr h), List.take_take, Nat.min_self]
  simp only [coapSetPayload, hput]

theorem coapAddOption_take {pdu : CoapPdu} {num : Int} {value : List UInt8} {n : UInt16}
    (h : n.toNat ≤ value.length) :
    coapAddOption pdu num (value.take n.toNat) n = coapAddOption pdu num value n := by
  have hinsert : ∀ ptr lopt, insertOption pdu num (value.take n.toNat) n ptr lopt
      = insertOption pdu num value n ptr lopt := by
    intro ptr lopt
    simp only [insertOption, List.length_take, Nat.min_eq_left h, if_neg (Nat.lt_irrefl n.toNat),
      if_neg (Nat.not_lt.mpr h), List.take_take, Nat.min_self]
  simp only [coapAddOption, hinsert]

/-! ## The message that is built -/

/-- The request of a client: a confirmable GET with the path as one option. -/
def requestOf (path payload : List UInt8) (mid : UInt16) (token : UInt64) : Message where
  ver := 1
  type := 0
  code := ccGet
  idHi := (mid >>> 8).toUInt8
  idLo := (mid &&& 0xFF).toUInt8
  token := (tokenBytes token).take 2
  opts := [⟨conUriPath, path⟩]
  payload := payload
  token_le := by
    rw [List.length_take]
    omega
  sorted := List.pairwise_singleton _ _

/-- The size of a request: header, token, option header, path, marker and payload. -/
def requestSize (path payload : List UInt8) : Nat :=
  4 + 2 + (if path.length < 13 then 1 else 2) + path.length + 1 + payload.length

section Request

variable {path payload : List UInt8} {mid : UInt16} {token : UInt64}

theorem requestOf_encode_length (hpath : path.length < 269) :
    (requestOf path payload mid token).encode.length
      = 4 + 2 + (if path.length < 13 then 1 else 2) + path.length
        + (payloadBytes payload).length := by
  have htok : (requestOf path payload mid token).token.length = 2 := rfl
  have hhdr : (optHeader conUriPath path.length).length = if path.length < 13 then 1 else 2 := by
    rw [optHeader, List.length_cons, List.length_append]
    by_cases h13 : path.length < 13
    · rw [if_pos h13, ext, ext, if_pos h13]
      rfl
    · rw [if_neg h13, ext, ext, if_neg h13, if_pos hpath]
      rfl
  rw [encode_front, List.length_append, frontOf_length, htok]
  simp only [requestOf, toWire_cons, toWire_nil, optsBytes_cons, optsBytes_nil, WireOpt.bytes,
    Nat.sub_zero, List.append_nil, List.length_append, hhdr, Nat.add_assoc]

theorem requestOf_encode_length_payload (hpath : path.length < 269) (hne : payload ≠ []) :
    (requestOf path payload mid token).encode.length = requestSize path payload := by
  rw [requestOf_encode_length hpath, payloadBytes_of_ne_nil hne, List.length_cons, requestSize]
  omega

/-- The request before option and payload are added. -/
def headOf (mid : UInt16) (token : UInt64) : Message :=
  { requestOf [] [] mid token with opts := [], sorted := noOpts_sorted }

/-- The payload of the request: what was read, when it fits. -/
def requestPayload (path read : List UInt8) : List UInt8 :=
  if requestSize path read ≤ msgBufLen then read else []

/-- The calls up to the token build the head of the request, whatever the path and what was
    read. -/
theorem buildMessage_head (mid : UInt16) (token : UInt64) :
    ∃ pdu, pdu.max = msgBufLen ∧ Encodes pdu (headOf mid token) ∧
      ∀ (path msgBuf : List UInt8) (msgLen : Int),
        buildMessage path msgBuf msgLen mid token
          = (strlen path).bind fun n =>
              (coapAddOption pdu conUriPath path (UInt16.ofNat n)).bind fun added =>
                (coapSetPayload added.2 msgBuf (sz msgLen)).bind fun set => some set.2 := by
  have hhead : 4 ≤ msgBufLen := by decide
  have hmax0 : msgBufLen < 2 ^ 63 := by decide
  -- each setter in turn, on the message that the ones before it made
  obtain ⟨p0, h0, hmax0, henc0⟩ := @coapInitPdu_encodes
    { buf := List.replicate msgBufLen 0, len := 0, max := msgBufLen } List.length_replicate
    hmax0 hhead
  have hmax0 : p0.max = msgBufLen := hmax0
  obtain ⟨p1, h1, hmax1, henc1⟩ := (coapSetVersion_sets henc0).succeeds trivial
    (hmax0 ▸ hhead)
  have hmax1 : p1.max = msgBufLen := hmax1.trans hmax0
  obtain ⟨p2, h2, hmax2, henc2⟩ := (coapSetType_sets henc1 .con).succeeds trivial
    (hmax1 ▸ hhead)
  have hmax2 : p2.max = msgBufLen := hmax2.trans hmax1
  obtain ⟨p3, h3, hmax3, henc3⟩ := (coapSetCode_sets henc2 ccGet).succeeds trivial
    (hmax2 ▸ hhead)
  have hmax3 : p3.max = msgBufLen := hmax3.trans hmax2
  obtain ⟨p4, h4, hmax4, henc4⟩ := (coapSetMid_sets henc3 mid).succeeds trivial
    (hmax3 ▸ hhead)
  have hmax4 : p4.max = msgBufLen := hmax4.trans hmax3
  obtain ⟨p5, h5, hmax5, henc5⟩ := (coapSetToken_sets henc4 token 2).succeeds (by decide)
    (hmax4 ▸ (by decide : 6 ≤ msgBufLen))
  refine ⟨p5, hmax5.trans hmax4, henc5, fun path msgBuf msgLen => ?_⟩
  simp only [buildMessage, Option.bind_eq_bind, h0, h1, h2, h3, h4, h5, Option.bind_some]

/-- The path of the entry becomes the only option; it always fits. -/
theorem addPath {pdu : CoapPdu} (hmax : pdu.max = msgBufLen)
    (henc : Encodes pdu (headOf mid token)) (hpath : path.length ≤ 127) :
    ∃ pdu', coapAddOption pdu conUriPath (padded coapPathLen path) (UInt16.ofNat path.length)
        = some (.none, pdu') ∧
      pdu'.max = msgBufLen ∧ Encodes pdu' (requestOf path [] mid token) := by
  have hshort := @requestOf_encode_length path [] mid token (by omega)
  rw [payloadBytes_nil, List.length_nil] at hshort
  have hnums : ∀ o ∈ (headOf mid token).opts, o.num ≤ conUriPath :=
    fun o ho => absurd ho List.not_mem_nil
  have hnat : (UInt16.ofNat path.length).toNat = path.length := by
    rw [UInt16.toNat_ofNat']
    omega
  have hpadded : (padded coapPathLen path).length = coapPathLen :=
    padded_length (by unfold coapPathLen; omega)
  obtain ⟨pdu', hadd, hmax', henc'⟩ := (coapAddOption_sets henc (by decide)
    (show path.length ≤ 65535 by omega) hnums).succeeds trivial (by
      rw [hmax]
      refine (show _ = _ from hshort).trans_le ?_
      unfold msgBufLen
      split <;> omega)
  refine ⟨pdu', ?_, hmax'.trans hmax, henc'⟩
  -- only the string in the array is copied
  rw [← coapAddOption_take (by rw [hnat, hpadded]; unfold coapPathLen; omega), hnat,
    show (padded coapPathLen path).take path.length = path from List.take_left]
  exact hadd

/-- A turn builds a request; what was read and does not fit is left out. -/
theorem buildMessage_eq {msgBuf : List UInt8} (hpath : path.length ≤ 127) (hnul : 0 ∉ path)
    (hne : payload ≠ []) (hle : payload.length ≤ msgBufLen)
    (hread : msgBuf.take payload.length = payload) :
    ∃ pdu, buildMessage (padded coapPathLen path) msgBuf payload.length mid token = some pdu ∧
      pdu.max = msgBufLen ∧
      Encodes pdu (requestOf path (requestPayload path payload) mid token) := by
  have hlen := @requestOf_encode_length_payload path payload mid token (by omega) hne
  have hpayload : payload.length < 2 ^ 63 := by
    unfold msgBufLen at hle
    omega
  have hbufLen := congrArg List.length hread
  rw [List.length_take] at hbufLen
  have hstrlen : strlen (padded coapPathLen path) = some path.length :=
    strlen_padded (by unfold coapPathLen; omega) hnul
  obtain ⟨p, hmax, henc, hrest⟩ := buildMessage_head mid token
  obtain ⟨p', hadd, hmax', henc'⟩ := addPath hmax henc hpath
  have hsets := coapSetPayload_sets henc' rfl hne hpayload
  have hbuild : ∀ e pdu, coapSetPayload p' payload payload.length = some (e, pdu) →
      buildMessage (padded coapPathLen path) msgBuf payload.length mid token = some pdu := by
    intro e pdu h
    rw [hrest, hstrlen, Option.bind_some, hadd, Option.bind_some, sz_natCast (by omega),
      ← coapSetPayload_take (by omega), hread, h]
    rfl
  by_cases hfit : requestSize path payload ≤ msgBufLen
  · obtain ⟨pdu, hset, hmax'', henc''⟩ := hsets.succeeds trivial
      (show (requestOf path payload mid token).encode.length ≤ p'.max by rw [hlen, hmax']; exact hfit)
    rw [requestPayload, if_pos hfit]
    exact ⟨pdu, hbuild _ pdu hset, hmax''.trans hmax', henc''⟩
  · -- `coap_set_payload` fails, and the request goes out without a payload
    obtain ⟨e, hset⟩ := hsets.fails
      (show p'.max < (requestOf path payload mid token).encode.length by rw [hlen, hmax']; omega)
    rw [requestPayload, if_neg hfit]
    exact ⟨p', hbuild e p' hset, hmax', henc'⟩

/-- A turn that reads nothing builds a request that ends with a marker. -/
theorem buildMessage_nothing (hpath : path.length ≤ 127) (hnul : 0 ∉ path) (msgBuf : List UInt8)
    (mid : UInt16) (token : UInt64) :
    ∃ pdu, buildMessage (padded coapPathLen path) msgBuf 0 mid token = some pdu ∧
      pdu.buf.length = msgBufLen ∧ pdu.len = (requestOf path [] mid token).encode.length + 1 ∧
      pdu.buf.take pdu.len = (requestOf path [] mid token).encode ++ [0xFF] := by
  have hlen := @requestOf_encode_length path [] mid token (by omega)
  rw [payloadBytes_nil, List.length_nil] at hlen
  have hstrlen : strlen (padded coapPathLen path) = some path.length :=
    strlen_padded (by unfold coapPathLen; omega) hnul
  obtain ⟨p, hmax, henc, hrest⟩ := buildMessage_head mid token
  obtain ⟨p', hadd, hmax', henc'⟩ := addPath hmax henc hpath
  have hroom : p'.len < p'.max := by
    rw [henc'.len, hlen, hmax']
    unfold msgBufLen
    split <;> omega
  have hsize := henc'.size
  have hset := coapSetPayload_nothing henc' rfl hroom msgBuf
  refine ⟨{ p' with buf := splice p'.buf p'.len [0xFF], len := p'.len + 1 }, ?_, ?_,
    congrArg (· + 1) henc'.len, ?_⟩
  · rw [hrest, hstrlen, Option.bind_some, hadd, Option.bind_some, show sz 0 = 0 from rfl, hset]
    rfl
  · show (splice p'.buf p'.len [0xFF]).length = msgBufLen
    rw [splice_length (by rw [List.length_singleton]; omega), hsize, hmax']
  · rw [← henc'.take_eq]
    exact @take_splice _ p'.buf [0xFF] p'.len (by omega)

/-- The server can represent every request. -/
theorem requestOf_parseable (hpath : path.length ≤ 127) :
    Parseable (requestOf path payload mid token) := by
  refine ⟨rfl, (by decide : 1 ≤ maxopt), fun o ho => ?_, fun o ho => ?_⟩ <;>
    rw [List.mem_singleton.mp ho]
  · exact (by decide : conUriPath < 256)
  · simp only
    omega

/-- Whatever a turn reads, the server accepts the request that it builds, in whatever buffer it
    receives it, and the packet stands for a request for the path. -/
theorem buildMessage_decodes {msgBuf : List UInt8} (hpath : path.length ≤ 127) (hnul : 0 ∉ path)
    (hle : payload.length ≤ msgBufLen) (hread : msgBuf.take payload.length = payload)
    (mid : UInt16) (token : UInt64) :
    ∃ pdu, buildMessage (padded coapPathLen path) msgBuf payload.length mid token = some pdu ∧
      pdu.len ≤ pdu.buf.length ∧
      ∀ {O : Type} (m : Mem O) (buf : Ptr O), loadBytes m buf pdu.len = some (pdu.buf.take pdu.len) →
        ∃ pkt, coapParse m buf pdu.len = .ok pkt ∧
          Decodes m pkt (requestOf path (requestPayload path payload) mid token) := by
  by_cases hne : payload = []
  · subst hne
    obtain ⟨pdu, hbuild, hsize, hlen, htake⟩ := buildMessage_nothing hpath hnul msgBuf mid token
    have hnone : requestPayload path [] = [] := by
      rw [requestPayload]
      split <;> rfl
    rw [hnone]
    refine ⟨pdu, hbuild, ?_, fun m buf hload => ?_⟩
    · have htakeLen := congrArg List.length htake
      rw [List.length_take, List.length_append, List.length_singleton, ← hlen] at htakeLen
      omega
    · obtain ⟨hin, hslice⟩ := loadBytes_eq_some.mp hload
      rw [htake, hlen] at hslice
      rw [hlen] at hin ⊢
      exact coapParse_encode_marker (requestOf_parseable hpath) rfl hin hslice
  · obtain ⟨pdu, hbuild, -, henc⟩ := @buildMessage_eq _ _ mid token _ hpath hnul hne hle hread
    refine ⟨pdu, hbuild, henc.size ▸ henc.len_le, fun m buf hload => ?_⟩
    obtain ⟨hin, hslice⟩ := loadBytes_eq_some.mp hload
    rw [henc.take_eq, henc.len] at hslice
    rw [henc.len] at hin ⊢
    exact coapParse_encode (requestOf_parseable hpath) hin hslice

/-- The low two bytes of the token, the lowest first. -/
theorem take_two_tokenBytes (token : UInt64) :
    (tokenBytes token).take 2 = [token.toUInt8, (token >>> 8).toUInt8] := by
  have hzero : token >>> UInt64.ofNat (8 * 0) = token := UInt64.shiftRight_zero
  show [(token >>> UInt64.ofNat (8 * 0)).toUInt8, (token >>> UInt64.ofNat (8 * 1)).toUInt8] = _
  rw [hzero]
  rfl

/-- The datagram of a turn, in whatever buffer the server receives it, is accepted and says
    what the client said. -/
theorem buildMessage_coapParse {O : Type} {msgBuf : List UInt8} (hpath : path.length ≤ 127)
    (hnul : 0 ∉ path) (hne : payload ≠ []) (hread : msgBuf.take payload.length = payload)
    (hfit : requestSize path payload ≤ msgBufLen) :
    ∃ pdu, buildMessage (padded coapPathLen path) msgBuf payload.length mid token = some pdu ∧
      pdu.len ≤ pdu.buf.length ∧ pdu.buf.length = msgBufLen ∧
      ∀ (m : Mem O) (buf : Ptr O), loadBytes m buf pdu.len = some (pdu.buf.take pdu.len) →
        ∃ pkt opt, coapParse m buf pdu.len = .ok pkt ∧
          pkt.hdr.ver.toNat = 1 ∧ pkt.hdr.t.toNat = CoapType.con.toUInt8.toNat ∧
          pkt.hdr.code = ccGet ∧ pkt.hdr.idHi = (mid >>> 8).toUInt8 ∧
          pkt.hdr.idLo = (mid &&& 0xFF).toUInt8 ∧
          pkt.tok.read m = some [token.toUInt8, (token >>> 8).toUInt8] ∧
          pkt.opts = [opt] ∧ opt.num.toNat = 11 ∧ opt.buf.read m = some path ∧
          pkt.payload.read m = some payload := by
  have hle : payload.length ≤ msgBufLen := by
    unfold requestSize at hfit
    omega
  obtain ⟨pdu, hbuild, hmax, henc⟩ := @buildMessage_eq _ _ mid token _ hpath hnul hne hle hread
  rw [requestPayload, if_pos hfit] at henc
  refine ⟨pdu, hbuild, henc.size ▸ henc.len_le, henc.size.trans hmax, fun m buf hload => ?_⟩
  obtain ⟨hin, hslice⟩ := loadBytes_eq_some.mp hload
  rw [henc.take_eq, henc.len] at hslice
  rw [henc.len] at hin
  obtain ⟨pkt, hparse, hdec⟩ := coapParse_encode (requestOf_parseable hpath) hin hslice
  obtain ⟨opt, hopt⟩ : ∃ opt, pkt.opts = [opt] := by
    have hcount := congrArg List.length hdec.nums
    rw [List.length_map, List.length_map] at hcount
    exact List.length_eq_one_iff.mp hcount
  have hnums := hdec.nums
  have hvalues := hdec.reads.opts
  rw [hopt] at hnums hvalues
  have htok := hdec.reads.tok
  refine ⟨pkt, opt, henc.len ▸ hparse, hdec.ver, hdec.type, hdec.code, hdec.idHi, hdec.idLo, ?_,
    hopt, (List.cons_eq_cons.mp hnums).1, (List.cons_eq_cons.mp hvalues).1, hdec.reads.payload⟩
  rw [htok]
  exact congrArg some (take_two_tokenBytes token)

end Request

/-- A path of 13 bytes, and a payload that starts with a marker. -/
theorem buildMessage_coapParse_long :
    ∃ pdu pkt, buildMessage (padded coapPathLen (List.replicate 13 0x61)) [0xFF, 0x31, 0x00] 2
        0x1234 0xABCD = some pdu ∧
      coapParse (fun _ : Unit => pdu.buf) ⟨(), 0⟩ pdu.len = .ok pkt ∧
      pkt.tok.read (fun _ => pdu.buf) = some [0xCD, 0xAB] ∧
      pkt.payload.read (fun _ => pdu.buf) = some [0xFF, 0x31] := by
  obtain ⟨pdu, hbuild, hle, -, hparse⟩ := @buildMessage_coapParse (List.replicate 13 0x61)
    [0xFF, 0x31] 0x1234 0xABCD Unit [0xFF, 0x31, 0x00] (by decide) (by decide) (by decide) rfl
    (by decide)
  have hload : loadBytes (fun _ : Unit => pdu.buf) ⟨(), 0⟩ pdu.len
      = some (pdu.buf.take pdu.len) :=
    loadBytes_eq_some.mpr ⟨by simp only; omega, rfl⟩
  obtain ⟨pkt, opt, hok, -, -, -, -, -, htok, -, -, -, hpayload⟩ := hparse _ _ hload
  exact ⟨pdu, pkt, hbuild, hok, htok, hpayload⟩

end Gateway.CoapClient.Request
