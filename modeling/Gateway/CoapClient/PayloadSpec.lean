/-
  Gateway.CoapClient.PayloadSpec

  `coap_set_payload` from any state of a well-formed packet, with or without a
  payload in it.

  The branch for the end of the packet writes the marker and the payload behind it.
  The branch for the marker neither writes it nor steps over it: the payload is copied
  to the marker's own place.  What `coap_get_payload` finds after that is at least one
  byte shorter than what was set, so the call does what it is for exactly when there
  is no payload yet, or when the new one does not fit anyway.
-/

import Gateway.CoapClient.PduSpec

namespace Gateway.CoapClient.PayloadSpec

open Gateway.Lib.ByteWindow Gateway.Lib.BlockMem Gateway.Lib.CoapFormat
open Gateway.CoapClient.Picocoap Gateway.CoapClient.DecodeSpec Gateway.CoapClient.PduSpec

/-! ## What coap_get_payload can find -/

section GetPayload

variable {pdu : CoapPdu}

/-- The search passes over the options that stand in the buffer, also when the packet is
    longer than they are. -/
theorem getPayloadLoop_skip {short : CoapPdu} {ptr prev fuel : Nat} {os : List Opt}
    {tail : List UInt8} (h : OptionsAt short ptr prev os tail) (hbuf : pdu.buf = short.buf)
    (hle : short.len ≤ pdu.len) (hlt : pdu.len < 2 ^ 64) :
    getPayloadLoop pdu (fuel + os.length) ptr
      = getPayloadLoop pdu fuel (ptr + (optsBytes (toWire prev os)).length) := by
  induction os generalizing ptr prev with
  | nil => rfl
  | cons o os ih =>
    obtain ⟨hdr, hhdr, hdecode, hrest, hin, hpos⟩ := h.cons
    have hv := h.lens o (List.mem_cons_self ..)
    have hptr := h.ptr_le
    have hlen : (UInt16.ofNat o.value.length).toNat = o.value.length := by
      rw [UInt16.toNat_ofNat']; omega
    have hshort := h.len_lt
    -- both packets go on behind `ptr`
    have hn : sz (pdu.len - ptr) ≠ 0 := by rw [sz_sub (by omega) hlt]; omega
    have hk : sz (short.len - ptr) ≠ 0 := by rw [sz_sub hptr hshort]; omega
    rw [List.length_cons, ← Nat.add_assoc, getPayloadLoop, hbuf, coapDecodeOption_pktLen hn hk,
      hdecode]
    simp only [hlen]
    rw [ih hrest]
    simp only [toWire_cons, optsBytes_cons, WireOpt.bytes, List.length_append, ← hhdr,
      Nat.add_assoc]

/-- A payload that is found stands behind a byte of the buffer that is not before `ptr`. -/
theorem getPayloadLoop_found {fuel ptr len val : Nat}
    (h : getPayloadLoop pdu fuel ptr = some { len := len, val := some val }) :
    ∃ off, ptr ≤ off ∧ off < pdu.buf.length ∧ sz (pdu.len - off) ≠ 0 ∧
      len = sz (pdu.len - off - 1) := by
  induction fuel generalizing ptr with
  | zero => cases h
  | succ fuel ih =>
    rw [getPayloadLoop] at h
    cases hdec : coapDecodeOption pdu.buf ptr (sz (pdu.len - ptr)) with
    | fault =>
      rw [hdec] at h
      cases h
    | err e =>
      rw [hdec] at h
      by_cases he : e = .foundPayloadMarker
      · subst he
        -- the marker is at `ptr`
        have hn : sz (pdu.len - ptr) ≠ 0 := by
          intro h0
          rw [h0, coapDecodeOption_end] at hdec
          exact absurd (Outcome.err.inj hdec) (by decide)
        have hin := lt_of_coapDecodeOption hn (by rw [hdec]; intro hc; cases hc)
        refine ⟨ptr, Nat.le_refl _, hin, hn, ?_⟩
        · exact (congrArg CoapPayload.len (Option.some_inj.mp h)).symm
      · cases e <;> first | exact absurd rfl he | cases h
    | ok r =>
      obtain ⟨delta, vlen, vptr⟩ := r
      rw [hdec] at h
      -- behind an option the search is further on
      obtain ⟨off, hoff, hrest⟩ := ih h
      obtain ⟨hgrow, -⟩ := coapDecodeOption_ptr_lt hdec
      exact ⟨off, by omega, hrest⟩

end GetPayload

/-! ## The claim of the setter -/

/-- What the setter is for: it succeeds exactly when the message with the new payload fits, then
    the new payload is what `coap_get_payload` finds and the rest of the message is the old
    one; otherwise the packet stays as it is. -/
def SetsPayload (pdu : CoapPdu) (msg : Message) (payload : List UInt8) : Prop :=
  ∃ e pdu', coapSetPayload pdu payload payload.length = some (e, pdu') ∧
    (e = .none ↔ (setPayload msg payload).encode.length ≤ pdu.max) ∧
    (e = .none → Encodes pdu' (setPayload msg payload) ∧
      ∃ off, coapGetPayload pdu' = some { len := payload.length, val := some off } ∧
        slice pdu'.buf off payload.length = payload) ∧
    (e ≠ .none → e = .insufficientBuffer ∧ pdu'.len = pdu.len ∧
      pdu'.buf.take pdu.len = pdu.buf.take pdu.len)

section SetPayload

variable {pdu : CoapPdu} {msg : Message} {payload : List UInt8}

theorem setPayload_encode_length (hne : payload ≠ []) :
    (setPayload msg payload).encode.length = (frontOf msg).length + 1 + payload.length := by
  have hfront : frontOf (setPayload msg payload) = frontOf msg := rfl
  rw [encode_front, hfront, setPayload, payloadBytes_of_ne_nil hne, List.length_append,
    List.length_cons]
  omega

/-- The bytes of the payload stand where `coap_get_payload` finds them. -/
theorem payloadAt_of_encodes (h : Encodes pdu msg) (hsome : msg.payload ≠ []) :
    ∃ off, coapGetPayload pdu = some { len := msg.payload.length, val := some off } ∧
      slice pdu.buf off msg.payload.length = msg.payload := by
  have hget := h.coapGetPayload
  have hfound := h.payloadOf
  rw [if_neg hsome] at hget
  refine ⟨_, hget, ?_⟩
  rw [payloadOf, hget] at hfound
  exact hfound

/-- The options stand behind the token in every buffer that starts like the packet. -/
theorem optionsAt_front (h : Encodes pdu msg) {buf : List UInt8} (max : Nat)
    (hbuf : buf.take (frontOf msg).length = frontOf msg)
    (hin : (frontOf msg).length ≤ buf.length) :
    OptionsAt { buf := buf, len := (frontOf msg).length, max := max } (4 + msg.token.length) 0
      msg.opts [] := by
  have hold := h.optionsAt
  have hlen := h.len
  have hlt := hold.len_lt
  have hfront := frontOf_length msg
  rw [encode_front, List.length_append] at hlen
  refine ⟨?_, ?_, hin, ?_, hold.sorted, hold.nums, hold.lens, Or.inl rfl⟩
  · have hn : (frontOf msg).length - (4 + msg.token.length)
        = (optsBytes (toWire 0 msg.opts)).length := by omega
    have hdrop : (frontOf msg).drop (4 + msg.token.length) = optsBytes (toWire 0 msg.opts) := by
      rw [frontOf, Nat.add_comm]
      simp only [List.drop_succ_cons, List.drop_left]
    rw [List.append_nil]
    simp only
    rw [slice, ← List.drop_take, hbuf, hdrop]
  · simp only
    omega
  · simp only
    omega

/-- Behind the front of the message `coap_get_payload` finds at most one byte less than there
    is. -/
theorem coapGetPayload_short (h : Encodes pdu msg) {buf : List UInt8} {n off : Nat}
    (hbuf : buf.take (frontOf msg).length = frontOf msg) (hsize : buf.length = pdu.max)
    (hin : (frontOf msg).length + n ≤ pdu.max) :
    coapGetPayload { pdu with buf := buf, len := (frontOf msg).length + n }
      ≠ some { len := n, val := some off } := by
  obtain ⟨tkl, htkl, hnat⟩ := h.tkl
  have hmax := h.max_lt
  have hopts := optionsAt_front h pdu.max hbuf (by omega)
  have hcount := hopts.length_lt_fuel
  have hlenLe := length_le_optsBytes 0 msg.opts
  have hfront := frontOf_length msg
  have hfrontPdu := h.take_front
  -- the first byte is that of the packet
  have hfirst : buf[0]? = pdu.buf[0]? := by
    rw [← @List.getElem?_take_of_lt _ buf 0 (frontOf msg).length (by omega), hbuf, ← hfrontPdu,
      List.getElem?_take_of_lt (by omega)]
  have htkl' : coapGetTkl { pdu with buf := buf, len := (frontOf msg).length + n } = some tkl := by
    rw [← htkl, coapGetTkl, coapGetTkl, hfirst]
  rw [coapGetPayload, htkl']
  simp only [Option.bind_eq_bind, Option.bind_some, hnat]
  -- the search passes over the options, and what it finds is behind them
  obtain ⟨fuel, hfuel⟩ : ∃ fuel, buf.length + 1 = fuel + msg.opts.length :=
    ⟨buf.length + 1 - msg.opts.length, by omega⟩
  rw [hfuel, @getPayloadLoop_skip { pdu with buf := buf, len := (frontOf msg).length + n } _ _ _
    fuel _ _ hopts rfl (by simp only; omega) (by simp only; omega)]
  intro hfound
  obtain ⟨off, hoff, hlt, hne, hval⟩ := getPayloadLoop_found hfound
  simp only at hoff hlt hne hval
  by_cases hend : off < (frontOf msg).length + n
  · rw [sz_of_range (by omega) (by omega)] at hval
    omega
  · -- behind the end of the packet the number of bytes wraps around
    unfold sz at hval hne
    omega

/-- The only error of the setter on a well-formed packet. -/
theorem coapSetPayload_error (h : Encodes pdu msg) {n : Nat} {e : CoapError} {pdu' : CoapPdu}
    (hset : coapSetPayload pdu payload n = some (e, pdu')) (he : e ≠ .none) :
    e = .insufficientBuffer := by
  obtain ⟨tkl, htkl, hnat⟩ := h.tkl
  have hopts := h.optionsAt
  have hfind := @findOptionsEnd_eq _ _ _ _ _ (pdu.buf.length + 1) hopts hopts.length_lt_fuel
  have hput : ∀ buf ptr, putPayload pdu buf payload n ptr = some (e, pdu') → e = .none := by
    intro buf ptr hp
    unfold putPayload at hp
    split at hp
    · cases hp
    · obtain ⟨b, -, hp⟩ := Option.bind_eq_some_iff.mp hp
      exact (Prod.mk.inj (Option.some_inj.mp hp)).1.symm
  rw [coapSetPayload, htkl] at hset
  simp only [Option.bind_eq_bind, Option.bind_some, hnat, hfind] at hset
  -- the search ended without an error, so there is a check and the copy
  split at hset
  · next hbad =>
    exfalso
    unfold endError at hbad
    split at hbad <;> simp at hbad
  split at hset
  · split at hset
    · exact (Prod.mk.inj (Option.some_inj.mp hset)).1.symm
    · obtain ⟨b, -, hset⟩ := Option.bind_eq_some_iff.mp hset
      exact absurd (hput _ _ hset) he
  split at hset
  · exact (Prod.mk.inj (Option.some_inj.mp hset)).1.symm
  · exact absurd (hput _ _ hset) he

/-- Without a payload in the packet the setter does what it is for. -/
theorem setsPayload_of_none (h : Encodes pdu msg) (hnone : msg.payload = []) (hne : payload ≠ [])
    (hlt : payload.length < 2 ^ 63) : SetsPayload pdu msg payload := by
  obtain ⟨e, pdu', hset, ⟨rfl, hmax', henc⟩ | ⟨he, rfl, hno⟩⟩ := coapSetPayload_sets h hnone hne hlt
  · refine ⟨_, pdu', hset, ⟨fun _ => ?_, fun _ => rfl⟩, fun _ => ⟨henc, payloadAt_of_encodes henc hne⟩,
      fun hc => absurd rfl hc⟩
    have hfit := henc.len_le
    rw [henc.len, hmax'] at hfit
    exact hfit
  · exact ⟨e, pdu', hset, ⟨fun hc => absurd hc he, fun hfit => absurd ⟨trivial, hfit⟩ hno⟩,
      fun hc => absurd hc he, fun _ => ⟨coapSetPayload_error h hset he, rfl, rfl⟩⟩

/-- With a payload in the packet only a message that does not fit is treated rightly. -/
theorem setsPayload_of_some_iff (h : Encodes pdu msg) (hsome : msg.payload ≠ []) (hne : payload ≠ [])
    (hlt : payload.length < 2 ^ 63) :
    SetsPayload pdu msg payload ↔ pdu.max < (setPayload msg payload).encode.length := by
  have hlen := h.len
  have hsize := h.size
  have hover := coapSetPayload_over h hsome hlt
  have hold := List.length_pos_of_ne_nil hsome
  have hpos := List.length_pos_of_ne_nil hne
  rw [encode_front, List.length_append, payloadBytes_of_ne_nil hsome, List.length_cons] at hlen
  rw [setPayload_encode_length hne]
  constructor
  · rintro ⟨e, pdu', hset, hiff, hok, -⟩
    rw [setPayload_encode_length hne] at hiff
    by_contra hfit
    -- the message fits, so the call has succeeded, over the marker
    have he : e = .none := hiff.mpr (Nat.not_lt.mp hfit)
    obtain ⟨-, off, hget, -⟩ := hok he
    rw [hset] at hover
    split at hover
    · exact absurd ((Prod.mk.inj (Option.some_inj.mp hover)).1.symm.trans he) (by decide)
    · rw [(Prod.mk.inj (Option.some_inj.mp hover)).2] at hget
      refine @coapGetPayload_short _ _ h _ payload.length off ?_ ?_ (by omega) hget
      · rw [take_splice_of_le (Nat.le_refl _) (by omega), h.take_front]
      · rw [splice_length (by omega), hsize]
  · intro hbig
    rw [if_pos (by omega)] at hover
    refine ⟨_, _, hover, ⟨fun hc => absurd hc (by decide), fun hfit => ?_⟩,
      fun hc => absurd hc (by decide), fun _ => ⟨rfl, rfl, rfl⟩⟩
    rw [setPayload_encode_length hne] at hfit
    omega

/-- On a message whose option values have at most 65535 bytes (`Encodes`), the setter does what it
    is for exactly when there is no payload yet or the new one does not fit. -/
theorem coapSetPayload_iff (h : Encodes pdu msg) (hne : payload ≠ [])
    (hlt : payload.length < 2 ^ 63) :
    SetsPayload pdu msg payload
      ↔ msg.payload = [] ∨ pdu.max < (setPayload msg payload).encode.length := by
  by_cases hnone : msg.payload = []
  · exact ⟨fun _ => Or.inl hnone, fun _ => setsPayload_of_none h hnone hne hlt⟩
  · rw [setsPayload_of_some_iff h hnone hne hlt, or_iff_right hnone]

end SetPayload

/-- A message with a payload of one byte. -/
def oneByteMessage : Message where
  ver := 1
  type := 0
  code := ccGet
  idHi := 0
  idLo := 1
  token := []
  opts := []
  payload := [0x61]
  token_le := noToken_le
  sorted := noOpts_sorted

/-- The message in a buffer of ten bytes. -/
def oneBytePdu : CoapPdu :=
  { buf := oneByteMessage.encode ++ [0, 0, 0, 0], len := 6, max := 10 }

theorem oneBytePdu_encodes : Encodes oneBytePdu oneByteMessage :=
  ⟨rfl, by decide, ⟨_, rfl⟩, rfl, rfl, by decide, by decide⟩

/-- Seven bytes of payload do not fit into the ten bytes. -/
theorem coapSetPayload_iff_big :
    SetsPayload oneBytePdu oneByteMessage (List.replicate 7 0x62) :=
  (coapSetPayload_iff oneBytePdu_encodes (by decide) (by decide)).mpr (Or.inr (by decide))

/-- Two bytes of payload fit, but the first of them takes the place of the marker. -/
theorem not_setsPayload_oneByte :
    Encodes oneBytePdu oneByteMessage ∧
      ¬ SetsPayload oneBytePdu oneByteMessage [0x62, 0x63] := by
  refine ⟨oneBytePdu_encodes, fun h => ?_⟩
  have hbig := (setsPayload_of_some_iff oneBytePdu_encodes (by decide) (by decide) (by decide)).mp h
  exact absurd hbig (by decide)

end Gateway.CoapClient.PayloadSpec
