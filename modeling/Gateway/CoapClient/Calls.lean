/-
  Gateway.CoapClient.Calls

  Sequences of setter calls on one packet.

  A `Call` is one setter with its arguments.  `Built pdu₀ pdu msg` says that
  `coap_init_pdu` on `pdu₀` and then some calls, failed ones among them, lead to
  `pdu`, and that `msg` is what the calls that returned `CE_NONE` make of the
  message of a fresh packet.  Whatever the calls and their order, the buffer
  encodes that message (`built_encode`).
-/

import Gateway.CoapClient.PduSpec

namespace Gateway.CoapClient.Calls

open Gateway.Lib.CoapFormat
open Gateway.CoapClient.Picocoap Gateway.CoapClient.PduSpec

/-! ## Calls -/

/-- A setter call. -/
inductive Call where
  | setVersion
  | setType (mtype : CoapType)
  | setCode (code : UInt8)
  | setMid (mid : UInt16)
  | setToken (token : UInt64) (tkl : UInt8)
  | addOption (num : Nat) (value : List UInt8)
  | setPayload (payload : List UInt8)
  deriving DecidableEq, Repr

/-- The call in the library. -/
def Call.exec (pdu : CoapPdu) : Call → Option (CoapError × CoapPdu)
  | setVersion => coapSetVersion pdu .v1
  | setType mtype => coapSetType pdu mtype
  | setCode code => coapSetCode pdu code
  | setMid mid => coapSetMid pdu mid
  | setToken token tkl => coapSetToken pdu token tkl
  | addOption num value => coapAddOption pdu num value (UInt16.ofNat value.length)
  | setPayload payload => coapSetPayload pdu payload payload.length

/-- What the caller promises: options come in order, with 16-bit numbers and lengths, and a
    payload is an object that is not empty. -/
def Call.Allowed (msg : Message) : Call → Prop
  | addOption num value =>
    1 ≤ num ∧ num ≤ 65535 ∧ value.length ≤ 65535 ∧ ∀ o ∈ msg.opts, o.num ≤ num
  | setPayload payload => payload ≠ [] ∧ payload.length < 2 ^ 63
  | _ => True

/-- No payload is set over another one. -/
def Call.Fresh (msg : Message) : Call → Prop
  | setPayload _ => msg.payload = []
  | _ => True

/-- The format has a place for the argument. -/
def Call.Valid : Call → Prop
  | setToken _ tkl => tkl ≤ 8
  | _ => True

/-- What the call means for the message. -/
def Call.apply (msg : Message) : (c : Call) → c.Allowed msg → Message
  | setVersion, _ => msg
  | setType mtype, _ => PduSpec.setType msg mtype
  | setCode code, _ => PduSpec.setCode msg code
  | setMid mid, _ => PduSpec.setMid msg mid
  | setToken token tkl, _ => PduSpec.setToken msg token tkl
  | addOption num value, h => PduSpec.addOption msg num value h.2.2.2
  | setPayload payload, _ => PduSpec.setPayload msg payload

/-! ## One call -/

section Step

variable {pdu : CoapPdu} {msg : Message}

theorem Call.exec_sets (h : Encodes pdu msg) (c : Call) (hc : c.Allowed msg) (hf : c.Fresh msg) :
    Sets (c.exec pdu) pdu c.Valid (c.apply msg hc) := by
  cases c with
  | setVersion => exact coapSetVersion_sets h
  | setType mtype => exact coapSetType_sets h mtype
  | setCode code => exact coapSetCode_sets h code
  | setMid mid => exact coapSetMid_sets h mid
  | setToken token tkl => exact coapSetToken_sets h token tkl
  | addOption num value => exact coapAddOption_sets h hc.2.1 hc.2.2.1 hc.2.2.2
  | setPayload payload => exact coapSetPayload_sets h hf hc.1 hc.2

/-- A call that succeeds changes the message. -/
theorem Call.exec_succeeded {pdu' : CoapPdu} (h : Encodes pdu msg) {c : Call}
    (hc : c.Allowed msg) (hf : c.Fresh msg) (hexec : c.exec pdu = some (.none, pdu')) :
    Encodes pdu' (c.apply msg hc) := by
  obtain ⟨e, pdu'', hsets, hcases⟩ := c.exec_sets h hc hf
  obtain ⟨rfl, rfl⟩ : CoapError.none = e ∧ pdu' = pdu'' := by
    rw [hexec] at hsets
    simpa using hsets
  rcases hcases with ⟨-, -, henc⟩ | ⟨hne, -, -⟩
  · exact henc
  · exact absurd rfl hne

/-- A call returns, and an error changes nothing. -/
theorem Call.exec_returns (h : Encodes pdu msg) (c : Call) (hc : c.Allowed msg) :
    ∃ e pdu', c.exec pdu = some (e, pdu') ∧ (e ≠ .none → pdu' = pdu) := by
  -- only a payload can stand there already
  by_cases hf : c.Fresh msg
  · obtain ⟨e, pdu', hsets, hcases⟩ := c.exec_sets h hc hf
    refine ⟨e, pdu', hsets, fun hne => ?_⟩
    rcases hcases with ⟨he, -, -⟩ | ⟨-, hsame, -⟩
    · exact absurd he hne
    · exact hsame
  · cases c with
    | setPayload payload => exact coapSetPayload_again h hf hc.2
    | setVersion => exact absurd trivial hf
    | setType mtype => exact absurd trivial hf
    | setCode code => exact absurd trivial hf
    | setMid mid => exact absurd trivial hf
    | setToken token tkl => exact absurd trivial hf
    | addOption num value => exact absurd trivial hf

end Step

/-! ## Sequences of calls -/

/-- The packets and messages that `coap_init_pdu` on `pdu₀` and setter calls lead to. -/
inductive Built (pdu₀ : CoapPdu) : CoapPdu → Message → Prop where
  | init {pdu : CoapPdu} : coapInitPdu pdu₀ = some (.none, pdu) → Built pdu₀ pdu initMessage
  | succeeded {pdu pdu' : CoapPdu} {msg : Message} (c : Call) (hc : c.Allowed msg) :
      Built pdu₀ pdu msg → c.Fresh msg → c.exec pdu = some (.none, pdu') →
      Built pdu₀ pdu' (c.apply msg hc)
  | failed {pdu pdu' : CoapPdu} {msg : Message} {e : CoapError} (c : Call) :
      Built pdu₀ pdu msg → c.Allowed msg → c.exec pdu = some (e, pdu') → e ≠ .none →
      Built pdu₀ pdu' msg

variable {pdu₀ pdu : CoapPdu} {msg : Message}

/-- `coap_init_pdu` succeeds on a buffer with room for a header only. -/
theorem encodes_of_coapInitPdu (hsize : pdu₀.buf.length = pdu₀.max) (hmax : pdu₀.max < 2 ^ 63)
    (h : coapInitPdu pdu₀ = some (.none, pdu)) : Encodes pdu initMessage := by
  by_cases h4 : pdu₀.max < 4
  · rw [coapInitPdu, if_pos h4] at h
    cases h
  obtain ⟨pdu', hinit, -, henc⟩ := coapInitPdu_encodes hsize hmax (Nat.not_lt.mp h4)
  rw [hinit, Option.some_inj] at h
  obtain ⟨-, rfl⟩ := Prod.mk.inj h
  exact henc

theorem Built.encodes (hsize : pdu₀.buf.length = pdu₀.max) (hmax : pdu₀.max < 2 ^ 63)
    (h : Built pdu₀ pdu msg) : Encodes pdu msg := by
  induction h with
  | init hinit => exact encodes_of_coapInitPdu hsize hmax hinit
  | succeeded c hc hb hf hexec ih => exact Call.exec_succeeded ih hc hf hexec
  | failed c hb hc hexec hne ih =>
    obtain ⟨e', pdu'', hexec', hsame⟩ := c.exec_returns ih hc
    obtain ⟨rfl, rfl⟩ : _ = e' ∧ _ = pdu'' := by
      rw [hexec] at hexec'
      simpa using hexec'
    rw [hsame hne]
    exact ih

/-- After `coap_init_pdu` and any calls, the packet is the encoding of the message that the
    successful calls make, it fits the buffer, and a call that fails leaves it as it is. -/
theorem built_encode (hsize : pdu₀.buf.length = pdu₀.max) (hmax : pdu₀.max < 2 ^ 63)
    (h : Built pdu₀ pdu msg) :
    pdu.buf.take pdu.len = msg.encode ∧ pdu.len ≤ pdu.max ∧ pdu.buf.length = pdu.max ∧
      ∀ c : Call, c.Allowed msg → ∃ e pdu', c.exec pdu = some (e, pdu') ∧
        (e ≠ .none → pdu'.buf.take pdu.len = pdu.buf.take pdu.len ∧ pdu'.len = pdu.len) := by
  have henc := h.encodes hsize hmax
  refine ⟨henc.take_eq, henc.len_le, henc.size, fun c hc => ?_⟩
  obtain ⟨e, pdu', hexec, hsame⟩ := c.exec_returns henc hc
  refine ⟨e, pdu', hexec, fun hne => ?_⟩
  rw [hsame hne]
  exact ⟨rfl, rfl⟩

/-- A packet in a buffer of 16 bytes that was not cleared. -/
def rawPacket (bytes : List UInt8) : CoapPdu :=
  { buf := bytes ++ List.replicate (16 - bytes.length) 0xAA, len := bytes.length, max := 16 }

/-- A payload, an option in front of it, a value that does not fit, and a token in front of
    everything. -/
theorem built_encode_raw :
    ∃ msg, Built (rawPacket []) (rawPacket [0x72, 0, 0, 0, 2, 1, 0xB1, 0x61, 0xFF, 1, 0xFF]) msg ∧
      [0x72, 0, 0, 0, 2, 1, 0xB1, 0x61, 0xFF, 1, 0xFF] = msg.encode := by
  have hinit : Built (rawPacket []) (rawPacket [0x70, 0, 0, 0]) _ := Built.init (by decide)
  have hpayload : Built (rawPacket []) (rawPacket [0x70, 0, 0, 0, 0xFF, 1, 0xFF]) _ :=
    hinit.succeeded (.setPayload [1, 0xFF]) ⟨by decide, by decide⟩ rfl (by decide)
  have hoption : Built (rawPacket []) (rawPacket [0x70, 0, 0, 0, 0xB1, 0x61, 0xFF, 1, 0xFF]) _ :=
    hpayload.succeeded (.addOption 11 [0x61])
      ⟨by decide, by decide, by decide, fun o ho => absurd ho List.not_mem_nil⟩ trivial (by decide)
  have hfull : Built (rawPacket []) (rawPacket [0x70, 0, 0, 0, 0xB1, 0x61, 0xFF, 1, 0xFF]) _ :=
    hoption.failed (.addOption 11 [1, 2, 3, 4, 5, 6, 7])
      ⟨by decide, by decide, by decide, by decide⟩
      (show _ = some (CoapError.insufficientBuffer, _) by decide) (by decide)
  have htoken : Built (rawPacket [])
      (rawPacket [0x72, 0, 0, 0, 2, 1, 0xB1, 0x61, 0xFF, 1, 0xFF]) _ :=
    hfull.succeeded (.setToken 0x0102 2) trivial trivial (by decide)
  exact ⟨_, htoken, (built_encode rfl (by decide) htoken).1⟩

end Gateway.CoapClient.Calls
