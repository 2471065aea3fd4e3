/-
  Gateway.CoapClient.Validate

  `coap_validate_pkt`, the check that the getters rely on, against the message format
  (`WellFormed`).

  `CE_NONE` is 0, and the loop over the options runs while the code is not 0: it ends
  behind the first option that decodes, so one option header is all that is looked at.
  The check rejects a packet for its four header fields (`HeaderBad`) or for a nibble
  15 in that option header (`ReservedNibble`), and for nothing else.
-/

import Gateway.CoapClient.DecodeSpec
import Gateway.CoapServer.Grammar

namespace Gateway.CoapClient.Validate

open Gateway.Lib.ByteWindow Gateway.Lib.BlockMem Gateway.Lib.ByteBits Gateway.Lib.CoapFormat
open Gateway.CoapClient.Picocoap Gateway.CoapClient.DecodeSpec Gateway.CoapServer.Grammar

/-! ## The model -/

/-- The loop of `coap_validate_pkt`, with the first option at `ov`.  No branch leads to a second
    turn. -/
def validateOptions (pdu : CoapPdu) (ov : Nat) : Option CoapError :=
  match coapDecodeOption pdu.buf ov (sz (pdu.len - ov)) with
  | .fault => none
  -- `CE_NONE` is 0 and ends the loop; the branch that continues on `CE_NONE` is inside of it
  | .ok _ => some .none
  | .err .endOfPacket => some .none
  | .err .foundPayloadMarker =>
    -- `ov` is at the marker and not behind it
    if pdu.len = ov then some .invalidPacket else some .none
  | .err err => some err

/-- `coap_validate_pkt`. -/
def coapValidatePkt (pdu : CoapPdu) : Option CoapError :=
  if pdu.max < pdu.len then some .invalidPacket
  else if pdu.len < 4 then some .invalidPacket
  else do
  let ver ← coapGetVersion pdu
  if ver ≠ 1 then some .invalidPacket else do
  let tkl ← coapGetTkl pdu
  if 8 < tkl then some .invalidPacket else
  validateOptions pdu (4 + tkl.toNat)

/-! ## The format -/

/-- The bytes are a message of the format with this payload. -/
def CarriesPayload (bs payload : List UInt8) : Prop :=
  ∃ b0 code idHi idLo token os,
    HeadToken bs b0 code idHi idLo token (optsBytes os ++ payloadBytes payload) ∧
      ∀ o ∈ os, o.Fits

/-- The format: header of version 1 and token, options with whole headers and values, then the
    end or a marker with at least one byte behind it. -/
def WellFormed (bs : List UInt8) : Prop := ∃ payload, CarriesPayload bs payload

/-- What the check is for. -/
def Validates (pdu : CoapPdu) : Prop :=
  ∃ e, coapValidatePkt pdu = some e ∧
    (e = .none ↔ pdu.len ≤ pdu.max ∧ WellFormed (pdu.buf.take pdu.len))

/-! ## What it rejects -/

/-- The length, the version or the TKL is none of the format. -/
def HeaderBad (pdu : CoapPdu) : Prop :=
  pdu.max < pdu.len ∨ pdu.len < 4 ∨
    ∃ b0, pdu.buf[0]? = some b0 ∧ (b0.toNat / 64 ≠ 1 ∨ 8 < b0.toNat % 16)

/-- The number of extension bytes of a nibble. -/
def extLen (nib : Nat) : Nat := if nib < 13 then 0 else if nib = 13 then 1 else 2

/-- At `off` stands the first byte of an option header, with a delta nibble 15, or with a length
    nibble 15 behind whose byte the extension of the delta is in the buffer. -/
def ReservedNibble (buf : List UInt8) (off : Nat) : Prop :=
  ∃ b, buf[off]? = some b ∧ b ≠ 0xFF ∧
    (b.toNat / 16 = 15 ∨
      b.toNat / 16 < 15 ∧ b.toNat % 16 = 15 ∧ off + 1 + extLen (b.toNat / 16) ≤ buf.length)

/-- Something stands behind the token, and it starts with a reserved nibble. -/
def FirstReserved (pdu : CoapPdu) : Prop :=
  ∃ b0, pdu.buf[0]? = some b0 ∧ pdu.len ≠ 4 + b0.toNat % 16 ∧
    ReservedNibble pdu.buf (4 + b0.toNat % 16)

section DecodeErrors

variable {buf : List UInt8} {ptr : Nat}

theorem getElem?_isSome {i : Nat} (h : i < buf.length) : ∃ b, buf[i]? = some b :=
  ⟨_, List.getElem?_eq_getElem h⟩

/-- A nibble below 15 is read, when its extension is in the buffer. -/
theorem decodeExt_some {nib : UInt16} (h : nib.toNat < 15)
    (hin : ptr + extLen nib.toNat ≤ buf.length) :
    ∃ n, decodeExt buf nib ptr = .ok (n, ptr + extLen nib.toNat) := by
  unfold extLen at hin ⊢
  simp only [decodeExt, UInt16.lt_iff_toNat_lt, ← UInt16.toNat_inj, UInt16.reduceToNat]
  by_cases h13 : nib.toNat < 13
  · rw [if_pos h13, if_pos h13]
    exact ⟨nib, rfl⟩
  rw [if_neg h13] at hin
  rw [if_neg h13, if_neg h13]
  by_cases heq : nib.toNat = 13
  · rw [if_pos heq] at hin
    obtain ⟨b, hb⟩ := @getElem?_isSome buf ptr (by omega)
    rw [if_pos heq, if_pos heq, hb]
    exact ⟨_, rfl⟩
  · rw [if_neg heq] at hin
    obtain ⟨b, hb⟩ := @getElem?_isSome buf ptr (by omega)
    obtain ⟨c, hc⟩ := @getElem?_isSome buf (ptr + 1) (by omega)
    rw [if_neg heq, if_neg heq, if_pos (by omega), hb, hc]
    exact ⟨_, rfl⟩

/-- Beyond the end of the buffer the extension cannot be read. -/
theorem decodeExt_ok_le {nib n : UInt16} {ptr' : Nat} (hptr : ptr ≤ buf.length)
    (h : decodeExt buf nib ptr = .ok (n, ptr')) :
    nib.toNat < 15 ∧ ptr' = ptr + extLen nib.toNat ∧ ptr' ≤ buf.length := by
  unfold extLen
  simp only [decodeExt, UInt16.lt_iff_toNat_lt, ← UInt16.toNat_inj, UInt16.reduceToNat] at h
  split at h
  · next h13 =>
    obtain ⟨-, rfl⟩ := Prod.mk.inj (Outcome.ok.inj h)
    rw [if_pos h13]
    omega
  next h13 =>
  rw [if_neg h13]
  split at h
  · next heq =>
    obtain ⟨b, hb, h⟩ := Outcome.bind_eq_ok.mp h
    obtain ⟨-, rfl⟩ := Prod.mk.inj (Outcome.ok.inj h)
    have hlt := (List.getElem?_eq_some_iff.mp (Outcome.liftM_eq_ok.mp hb)).1
    rw [if_pos heq]
    omega
  next hne =>
  rw [if_neg hne]
  split at h
  · obtain ⟨b, hb, h⟩ := Outcome.bind_eq_ok.mp h
    obtain ⟨c, hc, h⟩ := Outcome.bind_eq_ok.mp h
    obtain ⟨-, rfl⟩ := Prod.mk.inj (Outcome.ok.inj h)
    have hlt := (List.getElem?_eq_some_iff.mp (Outcome.liftM_eq_ok.mp hc)).1
    omega
  · cases h

/-- Only nibble 15 is an error, and it is one whatever is in the buffer. -/
theorem decodeExt_err_iff {nib : UInt16} (hnib : nib.toNat ≤ 15) {e : CoapError} :
    decodeExt buf nib ptr = .err e ↔ e = .invalidPacket ∧ nib.toNat = 15 := by
  constructor
  · intro h
    simp only [decodeExt, UInt16.lt_iff_toNat_lt, ← UInt16.toNat_inj, UInt16.reduceToNat] at h
    by_cases h13 : nib.toNat < 13
    · rw [if_pos h13] at h
      cases h
    rw [if_neg h13] at h
    by_cases heq : nib.toNat = 13
    · rw [if_pos heq] at h
      cases hb : buf[ptr]? <;> rw [hb] at h <;> cases h
    rw [if_neg heq] at h
    by_cases heq' : nib.toNat = 14
    · rw [if_pos heq'] at h
      cases hb : buf[ptr]? <;> cases hc : buf[ptr + 1]? <;> rw [hb, hc] at h <;> cases h
    rw [if_neg heq'] at h
    exact ⟨(Outcome.err.inj h).symm, by omega⟩
  · rintro ⟨rfl, h15⟩
    obtain rfl : nib = 15 := UInt16.toNat_inj.mp h15
    rfl

/-- A nibble is read exactly when it is below 15 and its extension is in the buffer. -/
theorem decodeExt_isOk_iff {nib : UInt16} (hptr : ptr ≤ buf.length) :
    (∃ r, decodeExt buf nib ptr = .ok r)
      ↔ nib.toNat < 15 ∧ ptr + extLen nib.toNat ≤ buf.length := by
  constructor
  · rintro ⟨⟨n, ptr'⟩, h⟩
    obtain ⟨hlt, rfl, hle⟩ := decodeExt_ok_le hptr h
    exact ⟨hlt, hle⟩
  · rintro ⟨hlt, hin⟩
    obtain ⟨n, h⟩ := decodeExt_some hlt hin
    exact ⟨_, h⟩

/-- A reserved nibble, at a byte that is known. -/
theorem reservedNibble_iff {b : UInt8} (hb : buf[ptr]? = some b) :
    ReservedNibble buf ptr ↔ b ≠ 0xFF ∧
      (b.toNat / 16 = 15 ∨
        b.toNat / 16 < 15 ∧ b.toNat % 16 = 15 ∧ ptr + 1 + extLen (b.toNat / 16) ≤ buf.length) := by
  constructor
  · rintro ⟨b', hb', h⟩
    obtain rfl : b = b' := Option.some_inj.mp (hb.symm.trans hb')
    exact h
  · intro h
    exact ⟨b, hb, h⟩

/-- The decoder rejects an option header exactly for a reserved nibble. -/
theorem coapDecodeOption_err_iff {n : Nat} (hn : n ≠ 0) {e : CoapError}
    (hmark : e ≠ .foundPayloadMarker) :
    coapDecodeOption buf ptr n = .err e ↔ e = .invalidPacket ∧ ReservedNibble buf ptr := by
  rw [coapDecodeOption, if_neg hn]
  cases hb : buf[ptr]? with
  | none =>
    constructor
    · intro h
      cases h
    · rintro ⟨-, b, hb', -⟩
      rw [hb] at hb'
      cases hb'
  | some b =>
    have hlt := (List.getElem?_eq_some_iff.mp hb).1
    have hbyte := b.toNat_lt
    have hhi : (b >>> 4).toUInt16.toNat = b.toNat / 16 := by
      rw [UInt8.toNat_toUInt16, toNat_shiftRight4]
    have hlo : (b &&& 0x0F).toUInt16.toNat = b.toNat % 16 := by
      rw [UInt8.toNat_toUInt16, toNat_lowNibble]
    rw [reservedNibble_iff hb]
    simp only [Outcome.liftM_some, Outcome.ok_bind]
    by_cases hff : b = 0xFF
    · rw [if_pos hff]
      constructor
      · intro h
        exact absurd (Outcome.err.inj h).symm hmark
      · rintro ⟨-, hne, -⟩
        exact absurd hff hne
    rw [if_neg hff]
    -- the nibble of the delta fails, or that of the length behind it
    have hread := @decodeExt_isOk_iff buf (ptr + 1) (b >>> 4).toUInt16 hlt
    rw [hhi] at hread
    rw [Outcome.bind_eq_err, decodeExt_err_iff (by omega), hhi]
    constructor
    · rintro (⟨rfl, hdelta⟩ | ⟨r, hr, h⟩)
      · exact ⟨rfl, hff, Or.inl hdelta⟩
      · obtain ⟨hdelta, hin⟩ := hread.mp ⟨r, hr⟩
        obtain h | ⟨_, -, h⟩ := Outcome.bind_eq_err.mp h
        · obtain ⟨rfl, hlength⟩ := (decodeExt_err_iff (by omega)).mp h
          exact ⟨rfl, hff, Or.inr ⟨hdelta, hlo ▸ hlength, hin⟩⟩
        · cases h
    · rintro ⟨rfl, -, hdelta | ⟨hdelta, hlength, hin⟩⟩
      · exact Or.inl ⟨rfl, hdelta⟩
      · obtain ⟨r, hr⟩ := hread.mpr ⟨hdelta, hin⟩
        refine Or.inr ⟨r, hr, Outcome.bind_eq_err.mpr (Or.inl ?_)⟩
        exact (decodeExt_err_iff (by omega)).mpr ⟨rfl, hlo.trans hlength⟩

end DecodeErrors

/-! ## Uniqueness -/

/-- The payload of a message is determined. -/
theorem CarriesPayload.unique {bs payload payload' : List UInt8} (h : CarriesPayload bs payload)
    (h' : CarriesPayload bs payload') : payload = payload' := by
  obtain ⟨_, _, _, _, _, os, hhead, hfits⟩ := h
  obtain ⟨_, _, _, _, _, os', hhead', hfits'⟩ := h'
  obtain ⟨-, -, -, -, -, hbody⟩ := hhead.unique hhead'
  obtain ⟨-, htail⟩ := optsBytes_append_inj hfits hfits' (payloadBytes_cases _)
    (payloadBytes_cases _) hbody
  exact payloadBytes_inj htail

/-! ## The result of the check -/

section Check

variable {pdu : CoapPdu}

theorem sz_len_eq_zero {len ov : Nat} (hlen : len < 2 ^ 63) (hov : ov < 2 ^ 63) :
    sz (len - ov) = 0 ↔ len = ov := by
  unfold sz
  omega

/-- A bad header is rejected. -/
theorem coapValidatePkt_headerBad (h : HeaderBad pdu) :
    coapValidatePkt pdu = some .invalidPacket := by
  rw [coapValidatePkt]
  by_cases hlong : pdu.max < pdu.len
  · rw [if_pos hlong]
  by_cases hshort : pdu.len < 4
  · rw [if_neg hlong, if_pos hshort]
  obtain hlong' | hshort' | ⟨b0, hb0, hbad⟩ := h
  · exact absurd hlong' hlong
  · exact absurd hshort' hshort
  have hbyte := b0.toNat_lt
  rw [if_neg hlong, if_neg hshort, coapGetVersion, coapGetTkl, hb0]
  simp only [Option.bind_eq_bind, Option.bind_some, ne_eq, ← UInt8.toNat_inj,
    UInt8.lt_iff_toNat_lt, toNat_shiftRight6, toNat_lowNibble, UInt8.reduceToNat]
  by_cases hver : b0.toNat / 64 = 1
  · rw [if_neg (not_not.mpr hver), if_pos (hbad.resolve_left (not_not.mpr hver))]
  · rw [if_pos hver]

/-- Behind a good header the first option decides. -/
theorem coapValidatePkt_header (hsize : pdu.buf.length = pdu.max) (h : ¬ HeaderBad pdu) :
    ∃ b0, pdu.buf[0]? = some b0 ∧ b0.toNat % 16 ≤ 8 ∧ pdu.len ≤ pdu.max ∧
      coapValidatePkt pdu = validateOptions pdu (4 + b0.toNat % 16) := by
  have hlong : ¬ pdu.max < pdu.len := fun hc => h (Or.inl hc)
  have hshort : ¬ pdu.len < 4 := fun hc => h (Or.inr (Or.inl hc))
  obtain ⟨b0, hb0⟩ := @getElem?_isSome pdu.buf 0 (by omega)
  have hver : b0.toNat / 64 = 1 := by
    by_contra hc
    exact h (Or.inr (Or.inr ⟨b0, hb0, Or.inl hc⟩))
  have htkl : ¬ 8 < b0.toNat % 16 := fun hc => h (Or.inr (Or.inr ⟨b0, hb0, Or.inr hc⟩))
  refine ⟨b0, hb0, by omega, by omega, ?_⟩
  rw [coapValidatePkt, if_neg hlong, if_neg hshort, coapGetVersion, coapGetTkl, hb0]
  simp only [Option.bind_eq_bind, Option.bind_some, ne_eq, ← UInt8.toNat_inj,
    UInt8.lt_iff_toNat_lt, toNat_shiftRight6, toNat_lowNibble, UInt8.reduceToNat]
  rw [if_neg (not_not.mpr hver), if_neg htkl]

/-- Among the options only a reserved nibble in the first header is rejected. -/
theorem validateOptions_error {ov : Nat} (hlen : pdu.len < 2 ^ 63) (hov : ov < 2 ^ 63) :
    (∃ e, validateOptions pdu ov = some e ∧ e ≠ .none)
      ↔ pdu.len ≠ ov ∧ ReservedNibble pdu.buf ov := by
  have hzero := @sz_len_eq_zero pdu.len ov hlen hov
  rw [validateOptions]
  by_cases hend : pdu.len = ov
  · rw [hzero.mpr hend, coapDecodeOption_end]
    constructor
    · rintro ⟨e, he, hne⟩
      exact absurd (Option.some_inj.mp he).symm hne
    · rintro ⟨hne, -⟩
      exact absurd hend hne
  have hn : sz (pdu.len - ov) ≠ 0 := fun hc => hend (hzero.mp hc)
  have herr := fun e => @coapDecodeOption_err_iff pdu.buf ov _ hn e
  constructor
  · rintro ⟨e, he, hne⟩
    refine ⟨hend, ?_⟩
    cases hdec : coapDecodeOption pdu.buf ov (sz (pdu.len - ov)) with
    | ok r =>
      rw [hdec] at he
      exact absurd (Option.some_inj.mp he).symm hne
    | fault =>
      rw [hdec] at he
      cases he
    | err e' =>
      by_cases hmark : e' = .foundPayloadMarker
      · rw [hdec, hmark] at he
        simp only [if_neg hend] at he
        exact absurd (Option.some_inj.mp he).symm hne
      · exact ((herr e' hmark).mp hdec).2
  · rintro ⟨-, hreserved⟩
    rw [(herr .invalidPacket (by decide)).mpr ⟨rfl, hreserved⟩]
    exact ⟨_, rfl, by decide⟩

/-- What is rejected. -/
theorem coapValidatePkt_error_iff (hsize : pdu.buf.length = pdu.max) (hmax : pdu.max < 2 ^ 63) :
    (∃ e, coapValidatePkt pdu = some e ∧ e ≠ .none) ↔ HeaderBad pdu ∨ FirstReserved pdu := by
  by_cases hbad : HeaderBad pdu
  · rw [coapValidatePkt_headerBad hbad]
    exact ⟨fun _ => Or.inl hbad, fun _ => ⟨_, rfl, by decide⟩⟩
  obtain ⟨b0, hb0, htkl, hle, hcheck⟩ := coapValidatePkt_header hsize hbad
  rw [hcheck, validateOptions_error (by omega) (by omega), or_iff_right hbad, FirstReserved]
  constructor
  · intro h
    exact ⟨b0, hb0, h⟩
  · rintro ⟨b, hb, h⟩
    obtain rfl : b0 = b := Option.some_inj.mp (hb0.symm.trans hb)
    exact h

/-- The first bytes of the packet are those of the message. -/
theorem getElem?_of_take {l rest : List UInt8} {n : Nat} {b : UInt8}
    (h : l.take n = b :: rest) : l[0]? = some b := by
  cases l with
  | nil => simp at h
  | cons a l =>
    cases n with
    | zero => cases h
    | succ n => exact congrArg some (List.cons_eq_cons.mp h).1

/-- A message of the format is accepted. -/
theorem coapValidatePkt_of_wellFormed (hsize : pdu.buf.length = pdu.max) (hmax : pdu.max < 2 ^ 63)
    (hle : pdu.len ≤ pdu.max) (h : WellFormed (pdu.buf.take pdu.len)) :
    coapValidatePkt pdu = some .none := by
  obtain ⟨payload, b0, code, idHi, idLo, token, os, hhead, hfits⟩ := h
  obtain ⟨hbytes, hver, htkl, htok⟩ := hhead
  have hb0 : pdu.buf[0]? = some b0 := getElem?_of_take hbytes
  have hlens := congrArg List.length hbytes
  simp only [List.length_take, List.length_cons, List.length_append] at hlens
  have hgood : ¬ HeaderBad pdu := by
    rintro (hc | hc | ⟨b, hb, hc⟩)
    · omega
    · omega
    · rw [hb0] at hb
      cases hb
      omega
  obtain ⟨b, hb, -, -, hcheck⟩ := coapValidatePkt_header hsize hgood
  obtain rfl : b0 = b := Option.some_inj.mp (hb0.symm.trans hb)
  rw [hcheck, htkl, validateOptions]
  -- the options and the payload stand behind the token
  have hbody : slice pdu.buf (4 + token.length) (pdu.len - (4 + token.length))
      = optsBytes os ++ payloadBytes payload := by
    rw [slice, ← List.drop_take, hbytes, Nat.add_comm]
    simp only [List.drop_succ_cons, List.drop_left]
  have hn : sz (pdu.len - (4 + token.length : Nat))
      = (optsBytes os).length + (payloadBytes payload).length := by
    rw [sz_sub (by omega) (by omega)]
    omega
  rw [hn]
  cases os with
  | nil =>
    rcases payloadBytes_cases payload with hnil | ⟨t, ht⟩
    · rw [hnil]
      rfl
    · rw [ht] at hbody hlens ⊢
      rw [coapDecodeOption_marker hbody (by rw [List.length_cons]; omega)]
      simp only [optsBytes_nil, List.length_nil, List.length_cons] at hlens
      simp only
      rw [if_neg (by omega)]
  | cons o os =>
    obtain ⟨hd, hl⟩ := hfits o (List.mem_cons_self ..)
    have hpos := optHeader_length_pos o.delta o.value.length
    rw [optsBytes_cons, WireOpt.bytes, List.append_assoc, List.append_assoc] at hbody
    rw [coapDecodeOption_ok hbody hd hl (by
      rw [optsBytes_cons, WireOpt.bytes, List.length_append, List.length_append]
      omega)]

/-- The check is right exactly on messages of the format, on packets that it rejects for the
    header, and on packets whose first option has a reserved nibble. -/
theorem coapValidatePkt_iff (hsize : pdu.buf.length = pdu.max) (hmax : pdu.max < 2 ^ 63) :
    Validates pdu ↔
      (pdu.len ≤ pdu.max ∧ WellFormed (pdu.buf.take pdu.len)) ∨ HeaderBad pdu ∨
        FirstReserved pdu := by
  have herr := coapValidatePkt_error_iff hsize hmax
  constructor
  · rintro ⟨e, he, hiff⟩
    by_cases hnone : e = .none
    · exact Or.inl (hiff.mp hnone)
    · exact Or.inr (herr.mp ⟨e, he, hnone⟩)
  · rintro (⟨hle, hwf⟩ | hbad)
    · exact ⟨.none, coapValidatePkt_of_wellFormed hsize hmax hle hwf, fun _ => ⟨hle, hwf⟩,
        fun _ => rfl⟩
    · obtain ⟨e, he, hne⟩ := herr.mpr hbad
      refine ⟨e, he, fun hc => absurd hc hne, fun ⟨hle, hwf⟩ => ?_⟩
      rw [coapValidatePkt_of_wellFormed hsize hmax hle hwf] at he
      exact (Option.some_inj.mp he).symm

end Check

/-- A packet that fills its buffer. -/
def packetOf (bytes : List UInt8) : CoapPdu :=
  { buf := bytes, len := bytes.length, max := bytes.length }

/-- A request with one option and a payload is accepted. -/
theorem coapValidatePkt_iff_get :
    Validates (packetOf [0x40, 0x01, 0x00, 0x01, 0xB1, 0x61, 0xFF, 0x62]) := by
  refine (coapValidatePkt_iff rfl (by decide)).mpr (Or.inl ⟨by decide, [0x62], 0x40, 0x01, 0x00,
    0x01, [], [⟨11, [0x61]⟩], ⟨rfl, by decide, rfl, by decide⟩, fun o ho => ?_⟩)
  rw [List.mem_singleton.mp ho]
  exact ⟨by decide, by decide⟩

/-- Neither a lone marker nor an option that ends behind the packet is rejected. -/
theorem not_validates_cut :
    ¬ Validates (packetOf [0x40, 0x01, 0x00, 0x01, 0xFF]) ∧
      ¬ Validates (packetOf [0x40, 0x01, 0x00, 0x01, 0xB3, 0x61]) := by
  have hno : ∀ {body : List UInt8}, body = [0xFF] ∨ body = [0xB3, 0x61] →
      ¬ WellFormed (0x40 :: 0x01 :: 0x00 :: 0x01 :: body) := by
    rintro body hbody ⟨payload, b0, code, idHi, idLo, token, os, hhead, hfits⟩
    have hhead' : HeadToken (0x40 :: 0x01 :: 0x00 :: 0x01 :: body) 0x40 0x01 0x00 0x01 [] body :=
      ⟨rfl, by decide, rfl, by decide⟩
    obtain ⟨-, -, -, -, -, hrest⟩ := hhead.unique hhead'
    cases os with
    | nil =>
      unfold payloadBytes at hrest
      rcases hbody with rfl | rfl <;> split at hrest <;> simp_all
    | cons o os =>
      obtain ⟨hd, hl⟩ := hfits o (List.mem_cons_self ..)
      have hread := readOptHeader_optHeader hd hl (o.value ++ (optsBytes os ++ payloadBytes payload))
      simp only [optsBytes_cons, WireOpt.bytes, List.append_assoc] at hrest
      rw [hrest] at hread
      rcases hbody with rfl | rfl
      · cases hread
      · -- the header announces three bytes, and there is one
        obtain ⟨-, hlen, hvalue⟩ : 11 = o.delta ∧ 3 = o.value.length ∧
            [0x61] = o.value ++ (optsBytes os ++ payloadBytes payload) := by
          simpa [readOptHeader, readExt] using hread
        have hlens := congrArg List.length hvalue
        rw [List.length_append, List.length_singleton] at hlens
        omega
  refine ⟨?_, ?_⟩
  · rintro ⟨e, he, hiff⟩
    have hnone : e = .none := (Option.some_inj.mp (show some e = some .none from he.symm))
    exact hno (Or.inl rfl) (hiff.mp hnone).2
  · rintro ⟨e, he, hiff⟩
    have hnone : e = .none := (Option.some_inj.mp (show some e = some .none from he.symm))
    exact hno (Or.inr rfl) (hiff.mp hnone).2

end Gateway.CoapClient.Validate
