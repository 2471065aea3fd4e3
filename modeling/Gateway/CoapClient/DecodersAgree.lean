/-
  Gateway.CoapClient.DecodersAgree

  The gateway has two decoders for the same format: `coap_parse` of the server and
  the getters of the client's library.  On every message both are made for
  (`Common`) they report the same (`Agree`), because each one reports the parts of
  the message: `coapParse_encode` for the server, `GetterSpec` for the client.
-/

import Gateway.CoapClient.GetterSpec
import Gateway.CoapServer.Roundtrip

namespace Gateway.CoapClient.DecodersAgree

open Gateway.Lib.ByteWindow Gateway.Lib.BlockMem Gateway.Lib.CoapFormat
open Gateway.CoapClient.Picocoap Gateway.CoapClient.DecodeSpec Gateway.CoapClient.PduSpec
open Gateway.CoapClient.GetterSpec
open Gateway.CoapServer.Microcoap (CoapPacket coapParse coapMethodGet maxopt)
open Gateway.CoapServer.Roundtrip (Decodes Parseable coapParse_encode)

variable {O : Type} {m : Mem O} {buf : Ptr O} {addr : Nat} {pdu : CoapPdu} {msg : Message}
  {pkt : CoapPacket O}

/-! ## What is compared -/

/-- The messages both decoders are made for. -/
structure Common (msg : Message) : Prop where
  ver : msg.ver = 1
  count : msg.opts.length ≤ maxopt
  nums : ∀ o ∈ msg.opts, 1 ≤ o.num ∧ o.num ≤ 255
  size : msg.encode.length ≤ 65535

/-- The `coap_pdu` with its buffer at address `addr` holds the bytes of the message. -/
structure Holds (addr : Nat) (pdu : CoapPdu) (msg : Message) : Prop where
  size : pdu.buf.length = pdu.max
  max_lt : pdu.max < 2 ^ 63
  pos : 0 < addr
  lt : addr + pdu.max < 2 ^ 64
  bytes : ∃ rest, pdu.buf = msg.encode ++ rest
  len : pdu.len = msg.encode.length

/-- The bytes of an option that `coap_get_option` returned, if they are inside the packet. -/
def readOption (addr : Nat) (pdu : CoapPdu) (opt : CoapOption) : Option (List UInt8) :=
  if addr ≤ opt.val ∧ opt.val + opt.len ≤ addr + pdu.len then
    some (slice pdu.buf (opt.val - addr) opt.len)
  else none

/-- The bytes of a payload that `coap_get_payload` returned, if they are inside the packet. -/
def readPayload (pdu : CoapPdu) (payload : CoapPayload) : Option (List UInt8) :=
  if payload.len = 0 then some [] else do
  let off ← payload.val
  if off + payload.len ≤ pdu.len then some (slice pdu.buf off payload.len) else none

/-- The getters report what stands in the packet of `coap_parse`: the header fields, the token
    with zeros up to the 8 bytes of a `uint64_t`, the options in their order up to a number 0,
    and the payload. -/
structure Agree (m : Mem O) (pkt : CoapPacket O) (addr : Nat) (pdu : CoapPdu) : Prop where
  version : coapGetVersion pdu = some pkt.hdr.ver
  type : coapGetType pdu = some pkt.hdr.t
  tkl : coapGetTkl pdu = some pkt.hdr.tkl
  code : coapGetCode pdu = some pkt.hdr.code
  mid : coapGetMid pdu = some (pkt.hdr.idHi.toUInt16 <<< 8 ||| pkt.hdr.idLo.toUInt16)
  token : ∃ token bytes, coapGetToken pdu = some token ∧ pkt.tok.read m = some bytes ∧
    bytes.length = pkt.hdr.tkl.toNat ∧
    tokenBytes token = bytes ++ List.replicate (8 - bytes.length) 0
  options : ∀ start : CoapOption, start.num = 0 →
    ∃ opts last, prettyPrintOptions addr pdu (pdu.buf.length + 1) start = some (opts, last) ∧
      last.num = 0 ∧
      opts.map (fun o => (o.num.toNat, readOption addr pdu o))
        = pkt.opts.map fun o => (o.num.toNat, o.buf.read m)
  payload : ∃ payload bytes, coapGetPayload pdu = some payload ∧
    readPayload pdu payload = some bytes ∧ pkt.payload.read m = some bytes

/-! ## Each decoder reports the message -/

/-- No value is longer than the message. -/
theorem value_length_le {o : Opt} (ho : o ∈ msg.opts) : o.value.length ≤ msg.encode.length := by
  have hwire : ∀ prev, o.value.length ≤ (optsBytes (toWire prev msg.opts)).length := by
    generalize msg.opts = os at ho
    induction os with
    | nil => cases ho
    | cons o' os ih =>
      intro prev
      rw [toWire_cons, optsBytes_cons, List.length_append, WireOpt.bytes_length]
      rcases List.mem_cons.mp ho with rfl | ho
      · show _ ≤ _ + o.value.length + _
        omega
      · have hle := ih ho o'.num
        omega
  have hle := hwire 0
  rw [encode_length, bodyOf, List.length_append]
  omega

theorem Common.parseable (h : Common msg) : Parseable msg where
  ver := h.ver
  count := h.count
  nums o ho := Nat.lt_succ_of_le (h.nums o ho).2
  lens _ ho := Nat.lt_succ_of_le ((value_length_le ho).trans h.size)

theorem Holds.encodes (h : Holds addr pdu msg) (hmsg : Common msg) : Encodes pdu msg where
  size := h.size
  max_lt := h.max_lt
  bytes := h.bytes
  len := h.len
  ver := hmsg.ver
  nums o ho := (hmsg.nums o ho).2.trans (by decide)
  lens _ ho := (value_length_le ho).trans hmsg.size

theorem Holds.placedAt (h : Holds addr pdu msg) (hmsg : Common msg) : PlacedAt addr pdu where
  pos := h.pos
  lt := by
    have hle := (h.encodes hmsg).len_le
    have hlt := h.lt
    omega

/-- The client's options are those of the message. -/
theorem map_readOption {opts : List CoapOption} {os : List Opt}
    (h : List.Forall₂ (IsOption addr pdu) opts os) :
    opts.map (fun o => (o.num.toNat, readOption addr pdu o))
      = os.map fun o => (o.num, some o.value) := by
  induction h with
  | nil => rfl
  | cons hopt _ ih =>
    rw [List.map_cons, List.map_cons, ih, hopt.num, readOption, if_pos ⟨hopt.lower, hopt.upper⟩,
      hopt.value]

/-- The server's options are those of the message. -/
theorem map_read_of_decodes (h : Decodes m pkt msg) :
    pkt.opts.map (fun o => (o.num.toNat, o.buf.read m))
      = msg.opts.map fun o => (o.num, some o.value) := by
  have hnums := h.nums
  have hvalues := h.reads.opts
  rw [List.map_map] at hvalues
  rw [← List.zip_map', ← List.zip_map', hnums, hvalues]
  rfl

/-- The client's payload is that of the message. -/
theorem readPayload_of_encodes (h : Encodes pdu msg) :
    ∃ payload, coapGetPayload pdu = some payload ∧
      readPayload pdu payload = some msg.payload := by
  refine ⟨_, h.coapGetPayload, ?_⟩
  by_cases h0 : msg.payload = []
  · rw [h0]
    rfl
  · have hbytes := h.optionsAt.bytes
    have hfill := h.optionsAt.length_eq
    rw [payloadBytes_of_ne_nil h0] at hbytes hfill
    rw [List.length_cons] at hfill
    -- behind the options and the marker
    have hrest := slice_succ_of_slice_eq_cons (slice_add_of_slice_eq_append hbytes)
    have hlen : msg.payload.length ≠ 0 := fun hl => h0 (List.length_eq_zero_iff.mp hl)
    rw [readPayload, if_neg hlen, if_neg h0]
    simp only [Option.bind_eq_bind, Option.bind_some]
    rw [if_pos (by omega)]
    refine congrArg some (Eq.trans ?_ hrest)
    congr 1
    omega

/-! ## The decoders agree -/

/-- On every message of at most 65535 bytes and 16 options with numbers from 1 to 255,
    `coap_parse` succeeds and the client's getters report the same. -/
theorem coapParse_agrees_getters (hmsg : Common msg)
    (hfit : buf.off + msg.encode.length ≤ (m buf.obj).length)
    (hs : slice (m buf.obj) buf.off msg.encode.length = msg.encode) (hpdu : Holds addr pdu msg) :
    ∃ pkt, coapParse m buf msg.encode.length = .ok pkt ∧ Agree m pkt addr pdu := by
  have henc := hpdu.encodes hmsg
  obtain ⟨pkt, hparse, hdec⟩ := coapParse_encode hmsg.parseable hfit hs
  obtain ⟨ver, hver, hverNat⟩ := coapGetVersion_of_encodes henc
  obtain ⟨t, ht, htNat⟩ := coapGetType_of_encodes henc
  obtain ⟨tkl, htkl, htklNat⟩ := henc.tkl
  -- both sides are the same part of the message
  refine ⟨pkt, hparse, ?_, ?_, ?_, ?_, ?_, ?_, ?_, ?_⟩
  · rw [hver, UInt8.toNat_inj.mp (hverNat.trans hdec.ver.symm)]
  · rw [ht, UInt8.toNat_inj.mp (htNat.trans hdec.type.symm)]
  · rw [htkl, UInt8.toNat_inj.mp (htklNat.trans hdec.tkl.symm)]
  · rw [coapGetCode_of_encodes henc, hdec.code]
  · rw [coapGetMid_of_encodes henc, hdec.idHi, hdec.idLo]
  · exact ⟨_, _, coapGetToken_of_encodes henc, hdec.reads.tok, hdec.tkl.symm,
      tokenBytes_tokenOf msg.token_le⟩
  · intro start hstart
    have hopts := henc.optionsAt
    obtain ⟨opts, hrun, hall⟩ := prettyPrintOptions_eq (hpdu.placedAt hmsg)
      (standsAt_first_of_encodes henc hstart) hopts (Nat.zero_le _) (fun o ho => (hmsg.nums o ho).1)
      hopts.length_lt_fuel
    exact ⟨opts, _, hrun, endOption_num .., (map_readOption hall).trans (map_read_of_decodes hdec).symm⟩
  · obtain ⟨payload, hget, hread⟩ := readPayload_of_encodes henc
    exact ⟨payload, msg.payload, hget, hread, hdec.reads.payload⟩

/-- A GET with a token, an empty value, a repeated number and a payload. -/
def sampleMessage : Message where
  ver := 1
  type := 0
  code := coapMethodGet
  idHi := 0x12
  idLo := 0x34
  token := [0xAA, 0xBB]
  opts := [⟨11, [0x61]⟩, ⟨11, []⟩, ⟨60, [0x01]⟩]
  payload := [0x24, 0x26]
  token_le := by decide
  sorted := by decide

theorem coapParse_agrees_getters_sample :
    ∃ pkt, coapParse (fun _ : Unit => sampleMessage.encode) ⟨(), 0⟩ sampleMessage.encode.length
        = .ok pkt ∧
      Agree (fun _ : Unit => sampleMessage.encode) pkt 4096
        ⟨sampleMessage.encode, sampleMessage.encode.length, sampleMessage.encode.length⟩ := by
  have hmsg : Common sampleMessage :=
    ⟨rfl, by decide, by decide, by decide⟩
  have hpdu : Holds 4096
      ⟨sampleMessage.encode, sampleMessage.encode.length, sampleMessage.encode.length⟩
      sampleMessage :=
    ⟨rfl, by decide, by decide, by decide, ⟨[], (List.append_nil _).symm⟩, rfl⟩
  exact coapParse_agrees_getters hmsg (by decide) (by decide) hpdu

end Gateway.CoapClient.DecodersAgree
