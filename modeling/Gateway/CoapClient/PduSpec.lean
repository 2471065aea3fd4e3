/-
  Gateway.CoapClient.PduSpec

  The setters of the client's library against the message format.

  `Encodes pdu msg` says that the first `len` bytes of the buffer are the encoding
  of `msg`.  Each setter keeps the relation: it either returns an error and changes
  nothing, or it returns `CE_NONE` and the buffer encodes the changed message.
-/

import Gateway.CoapClient.DecodeSpec

namespace Gateway.CoapClient.PduSpec

open Gateway.Lib.ByteWindow Gateway.Lib.BlockMem Gateway.Lib.ByteBits Gateway.Lib.CoapFormat
open Gateway.CoapClient.Picocoap Gateway.CoapClient.DecodeSpec

/-! ## coap_build_option_header -/

theorem computeExtLen_eq (n : Nat) : computeExtLen n = (ext n).length := by
  unfold computeExtLen ext
  by_cases h13 : n < 13
  · rw [if_pos (by omega), if_pos h13]
    rfl
  · rw [if_neg (by omega), if_neg h13]
    by_cases h269 : n < 269
    · rw [if_pos (by omega), if_pos h269]
      rfl
    · rw [if_neg (by omega), if_neg h269]
      rfl

theorem coapComputeOptionHeaderLen_eq (d l : Nat) :
    coapComputeOptionHeaderLen d l = (optHeader d l).length := by
  rw [coapComputeOptionHeaderLen, computeExtLen_eq, computeExtLen_eq, optHeader, List.length_cons,
    List.length_append]
  omega

theorem ofInt_natCast (n : Nat) : UInt8.ofInt n = UInt8.ofNat n := by
  apply UInt8.toNat_inj.mp
  rw [UInt8.ofInt, UInt8.toNat_ofNat', UInt8.toNat_ofNat']
  omega

/-- One block writes the extension bytes of the format. -/
theorem buildExt_eq {buf : List UInt8} {hdr ptr maxLen n : Nat} (hn : n ≤ extMax)
    (hmax : ptr - hdr + (ext n).length ≤ maxLen) (hfit : ptr + (ext n).length ≤ buf.length) :
    buildExt buf hdr ptr maxLen n
      = some (some (UInt8.ofNat (nibble n)), splice buf ptr (ext n), ptr + (ext n).length) := by
  unfold buildExt
  unfold ext at hmax hfit ⊢
  unfold nibble
  unfold extMax at hn
  -- the three forms of the extension: none, one byte, two bytes
  by_cases h13 : n < 13
  · rw [if_pos (by omega), if_pos h13, if_pos h13, ofInt_natCast, splice_nil]
    rfl
  rw [if_neg h13] at hmax hfit
  rw [if_neg (by omega), if_neg h13, if_neg h13]
  by_cases h269 : n < 269
  · rw [if_pos h269] at hmax hfit
    have hb : UInt8.ofInt ((n : Int) - 13) = UInt8.ofNat (n - 13) := by
      rw [← ofInt_natCast]
      congr 1
      omega
    rw [List.length_singleton] at hmax
    rw [if_pos (by omega), if_pos h269, if_pos h269, if_neg (by omega), hb, putAt_eq hfit]
    rfl
  · rw [if_neg h269] at hmax hfit
    have hhi : UInt8.ofInt (((n : Int) - 269) / 256) = UInt8.ofNat ((n - 269) / 256) := by
      rw [← ofInt_natCast]
      congr 1
      omega
    have hlo : UInt8.ofInt ((n : Int) - 269) = UInt8.ofNat ((n - 269) % 256) := by
      apply UInt8.toNat_inj.mp
      rw [UInt8.ofInt, UInt8.toNat_ofNat', UInt8.toNat_ofNat']
      omega
    rw [List.length_cons, List.length_singleton] at hmax
    rw [if_neg (by omega), if_neg h269, if_neg h269, if_neg (by omega), hhi, hlo, putAt_eq hfit]
    rfl

/-- The header of the format is written, when there is room for it. -/
theorem coapBuildOptionHeader_room {buf : List UInt8} {hdr maxLen d l : Nat} (hd : d ≤ extMax)
    (hl : l ≤ extMax) (hmax : (optHeader d l).length ≤ maxLen)
    (hfit : hdr + (optHeader d l).length ≤ buf.length) :
    coapBuildOptionHeader buf hdr maxLen d l
      = some (splice buf hdr (optHeader d l), (optHeader d l).length) := by
  have hlen : (optHeader d l).length = 1 + (ext d).length + (ext l).length := by
    rw [optHeader, List.length_cons, List.length_append]
    omega
  rw [hlen] at hmax hfit ⊢
  -- the extension bytes of the delta and of the length are written behind the first byte
  have hdelta := @buildExt_eq buf hdr (hdr + 1) maxLen d hd (by omega) (by omega)
  have hlen1 : (splice buf (hdr + 1) (ext d)).length = buf.length := splice_length (by omega)
  have hlength := @buildExt_eq (splice buf (hdr + 1) (ext d)) hdr (hdr + 1 + (ext d).length)
    maxLen l hl (by omega) (by omega)
  have hsplice := @splice_splice_append _ buf (ext d) (ext l) (hdr + 1) (by omega)
  rw [hsplice] at hlength
  -- the first byte is written last
  have hlen2 : (splice buf (hdr + 1) (ext d ++ ext l)).length = buf.length :=
    splice_length (by rw [List.length_append]; omega)
  have hput : putAt (splice buf (hdr + 1) (ext d ++ ext l)) hdr
      [UInt8.ofNat (nibble d * 16 + nibble l)] = some (splice buf hdr (optHeader d l)) := by
    rw [putAt_eq (by rw [hlen2, List.length_singleton]; omega)]
    exact congrArg some (@splice_splice_before _ buf [UInt8.ofNat (nibble d * 16 + nibble l)]
      (ext d ++ ext l) hdr (by rw [List.length_singleton, List.length_append]; omega))
  rw [coapBuildOptionHeader, if_neg (by omega), hdelta]
  simp only [Option.bind_eq_bind, Option.bind_some, hlength, nibbles_or, hput]
  congr 2
  omega

/-- The computed space is enough. -/
theorem coapBuildOptionHeader_eq {buf : List UInt8} {hdr d l : Nat} (hd : d ≤ extMax)
    (hl : l ≤ extMax) (hfit : hdr + (optHeader d l).length ≤ buf.length) :
    coapBuildOptionHeader buf hdr (optHeader d l).length d l
      = some (splice buf hdr (optHeader d l), (optHeader d l).length) :=
  coapBuildOptionHeader_room hd hl (Nat.le_refl _) hfit

/-! ## Messages in a buffer -/

/-- The first `len` bytes of the buffer are the encoding of the message; the option numbers
    and the lengths of the values are 16-bit numbers, as `coap_decode_option` keeps them.  The
    format has values of up to 65804 bytes, and the results do not speak of the longer ones. -/
structure Encodes (pdu : CoapPdu) (msg : Message) : Prop where
  size : pdu.buf.length = pdu.max
  max_lt : pdu.max < 2 ^ 63
  bytes : ∃ rest, pdu.buf = msg.encode ++ rest
  len : pdu.len = msg.encode.length
  ver : msg.ver = 1
  nums : ∀ o ∈ msg.opts, o.num ≤ 65535
  lens : ∀ o ∈ msg.opts, o.value.length ≤ 65535

/-- What stands behind the token. -/
def bodyOf (msg : Message) : List UInt8 :=
  optsBytes (toWire 0 msg.opts) ++ payloadBytes msg.payload

theorem encode_eq (msg : Message) :
    msg.encode = headByte msg.ver msg.type msg.token.length :: msg.code :: msg.idHi :: msg.idLo
      :: (msg.token ++ bodyOf msg) := rfl

theorem encode_length (msg : Message) :
    msg.encode.length = 4 + msg.token.length + (bodyOf msg).length := by
  rw [encode_eq]
  simp only [List.length_cons, List.length_append]
  omega

section Setters

variable {pdu : CoapPdu} {msg : Message}

theorem Encodes.len_le (h : Encodes pdu msg) : pdu.len ≤ pdu.max := by
  obtain ⟨rest, hbuf⟩ := h.bytes
  have hsize := h.size
  rw [hbuf, List.length_append] at hsize
  rw [h.len]
  omega

theorem Encodes.take_eq (h : Encodes pdu msg) : pdu.buf.take pdu.len = msg.encode := by
  obtain ⟨rest, hbuf⟩ := h.bytes
  rw [hbuf, h.len, List.take_left]

/-- The token length of the message is read back. -/
theorem coapGetTkl_of_bytes {rest : List UInt8} (hbuf : pdu.buf = msg.encode ++ rest) :
    ∃ tkl, coapGetTkl pdu = some tkl ∧ tkl.toNat = msg.token.length := by
  have hle := msg.token_le
  have hver := msg.ver.isLt
  have htype := msg.type.isLt
  refine ⟨headByte msg.ver msg.type msg.token.length &&& 0x0F, ?_, ?_⟩
  · rw [coapGetTkl, hbuf, encode_eq]
    rfl
  · rw [toNat_lowNibble, headByte_toNat hver htype (by omega)]
    omega

theorem Encodes.tkl (h : Encodes pdu msg) :
    ∃ tkl, coapGetTkl pdu = some tkl ∧ tkl.toNat = msg.token.length := by
  obtain ⟨rest, hbuf⟩ := h.bytes
  exact coapGetTkl_of_bytes hbuf

/-- The options of the message stand behind the token, also when their values are long. -/
theorem listedAt_of_bytes {rest : List UInt8} (hbuf : pdu.buf = msg.encode ++ rest)
    (hlen : pdu.len = msg.encode.length) (hlt : pdu.len < 2 ^ 64)
    (hnums : ∀ o ∈ msg.opts, o.num ≤ 65535) (hlens : ∀ o ∈ msg.opts, o.value.length ≤ extMax) :
    ListedAt pdu (4 + msg.token.length) 0 msg.opts (payloadBytes msg.payload) := by
  have hsize := congrArg List.length hbuf
  rw [List.length_append] at hsize
  rw [encode_length] at hlen hsize
  refine ⟨?_, by omega, by omega, hlt,
    List.pairwise_cons.mpr ⟨fun _ _ => Nat.zero_le _, msg.sorted⟩, hnums, hlens,
    payloadBytes_cases msg.payload⟩
  have hdrop : pdu.buf.drop (4 + msg.token.length) = bodyOf msg ++ rest := by
    rw [hbuf, encode_eq, Nat.add_comm]
    simp only [List.cons_append, List.append_assoc, List.drop_succ_cons, List.drop_left]
  have hn : pdu.len - (4 + msg.token.length) = (bodyOf msg).length := by omega
  rw [slice, hdrop, hn, List.take_left]
  rfl

theorem Encodes.optionsAt (h : Encodes pdu msg) :
    OptionsAt pdu (4 + msg.token.length) 0 msg.opts (payloadBytes msg.payload) := by
  have hle := h.len_le
  have hmax := h.max_lt
  obtain ⟨rest, hbuf⟩ := h.bytes
  have hlisted := listedAt_of_bytes hbuf h.len (by omega) h.nums
    fun o ho => Nat.le_trans (h.lens o ho) (by decide)
  exact hlisted.optionsAt h.lens

/-- The payload is found, with the number of its bytes. -/
theorem Encodes.coapGetPayload (h : Encodes pdu msg) :
    coapGetPayload pdu = some
      { len := msg.payload.length,
        val := if msg.payload = [] then none
          else some (4 + msg.token.length + (optsBytes (toWire 0 msg.opts)).length + 1) } := by
  obtain ⟨tkl, htkl, hnat⟩ := h.tkl
  have hopts := h.optionsAt
  rw [Picocoap.coapGetPayload, htkl]
  simp only [Option.bind_eq_bind, Option.bind_some, hnat]
  exact getPayloadLoop_eq hopts hopts.length_lt_fuel

/-! ## Header and token -/

/-- What a setter does: the changed message, or an error and nothing else.  There is an error
    only when the arguments are not `ok` or the changed message does not fit. -/
def Sets (r : Option (CoapError × CoapPdu)) (pdu : CoapPdu) (ok : Prop) (msg' : Message) : Prop :=
  ∃ e pdu', r = some (e, pdu') ∧
    (e = .none ∧ pdu'.max = pdu.max ∧ Encodes pdu' msg'
      ∨ e ≠ .none ∧ pdu' = pdu ∧ ¬ (ok ∧ msg'.encode.length ≤ pdu.max))

theorem Sets.of_encodes {r : Option (CoapError × CoapPdu)} {ok : Prop} {msg' : Message}
    {pdu' : CoapPdu} (henc : Encodes pdu' msg') (hmax : pdu'.max = pdu.max)
    (hr : r = some (.none, pdu')) : Sets r pdu ok msg' :=
  ⟨.none, pdu', hr, Or.inl ⟨rfl, hmax, henc⟩⟩

theorem Sets.of_error {r : Option (CoapError × CoapPdu)} {ok : Prop} {msg' : Message}
    {e : CoapError} (he : e ≠ .none) (hr : r = some (e, pdu))
    (hbig : ok → pdu.max < msg'.encode.length) : Sets r pdu ok msg' :=
  ⟨e, pdu, hr, Or.inr ⟨he, rfl, fun h => Nat.not_le_of_lt (hbig h.1) h.2⟩⟩

/-- A message that fits is set. -/
theorem Sets.succeeds {r : Option (CoapError × CoapPdu)} {ok : Prop} {msg' : Message}
    (h : Sets r pdu ok msg') (hok : ok) (hfit : msg'.encode.length ≤ pdu.max) :
    ∃ pdu', r = some (.none, pdu') ∧ pdu'.max = pdu.max ∧ Encodes pdu' msg' := by
  obtain ⟨e, pdu', hr, ⟨rfl, hmax, henc⟩ | ⟨-, -, hno⟩⟩ := h
  · exact ⟨pdu', hr, hmax, henc⟩
  · exact absurd ⟨hok, hfit⟩ hno

/-- A message that does not fit is not set. -/
theorem Sets.fails {r : Option (CoapError × CoapPdu)} {ok : Prop} {msg' : Message}
    (h : Sets r pdu ok msg') (hbig : pdu.max < msg'.encode.length) :
    ∃ e, r = some (e, pdu) := by
  obtain ⟨e, pdu', hr, ⟨-, hmax, henc⟩ | ⟨-, rfl, -⟩⟩ := h
  · have hle := henc.len_le
    rw [henc.len, hmax] at hle
    omega
  · exact ⟨e, hr⟩

/-- A change of the four header bytes. -/
theorem Encodes.setHeader (h : Encodes pdu msg) {msg' : Message} {b0 code idHi idLo : UInt8}
    {buf rest : List UInt8} (htok : msg'.token = msg.token) (hopts : msg'.opts = msg.opts)
    (hpay : msg'.payload = msg.payload) (hver : msg'.ver = 1)
    (hb0 : b0 = headByte 1 msg'.type msg'.token.length) (hcode : code = msg'.code)
    (hhi : idHi = msg'.idHi) (hlo : idLo = msg'.idLo)
    (hbuf : buf = b0 :: code :: idHi :: idLo :: (msg.token ++ bodyOf msg ++ rest))
    (hsize : buf.length = pdu.max) :
    Encodes { pdu with buf := buf } msg' where
  size := hsize
  max_lt := h.max_lt
  bytes := by
    refine ⟨rest, ?_⟩
    have hhead : headByte msg'.ver msg'.type msg'.token.length = b0 := by
      rw [hb0, hver]
      rfl
    rw [encode_eq, hhead, ← hcode, ← hhi, ← hlo, htok, bodyOf, hopts, hpay, ← bodyOf]
    simp only [hbuf, List.cons_append, List.append_assoc]
  len := by
    have hlen := h.len
    rw [encode_length] at hlen ⊢
    rw [htok, bodyOf, hopts, hpay, ← bodyOf]
    exact hlen
  ver := hver
  nums := hopts ▸ h.nums
  lens := hopts ▸ h.lens

/-- The type of a message. -/
def typeOf (t : CoapType) : Fin 4 := ⟨t.toUInt8.toNat, by cases t <;> decide⟩

/-- The message with another type. -/
def setType (msg : Message) (t : CoapType) : Message := { msg with type := typeOf t }

/-- The message with another code. -/
def setCode (msg : Message) (code : UInt8) : Message := { msg with code := code }

/-- The message with another id. -/
def setMid (msg : Message) (mid : UInt16) : Message :=
  { msg with idHi := (mid >>> 8).toUInt8, idLo := (mid &&& 0xFF).toUInt8 }

theorem headByte_version (t : Fin 4) (k : Fin 9) :
    CoapVersion.v1.toUInt8 <<< 6 ||| (headByte 1 t k &&& 0x3F) = headByte 1 t k := by
  revert t k
  decide +kernel

theorem headByte_type (mtype : CoapType) (t : Fin 4) (k : Fin 9) :
    mtype.toUInt8 <<< 4 ||| (headByte 1 t k &&& 0xCF) = headByte 1 (typeOf mtype) k := by
  cases mtype <;> revert t k <;> decide +kernel

theorem headByte_tkl (t : Fin 4) (k k' : Fin 9) :
    (UInt8.ofNat k' &&& 0x0F) ||| (headByte 1 t k &&& 0xF0) = headByte 1 t k' := by
  revert t k k'
  decide +kernel

/-- The header, the token, the body and what is left of the buffer. -/
theorem Encodes.buf_eq (h : Encodes pdu msg) :
    ∃ rest, pdu.buf = headByte 1 msg.type msg.token.length :: msg.code :: msg.idHi :: msg.idLo
      :: (msg.token ++ bodyOf msg ++ rest) := by
  obtain ⟨rest, hbuf⟩ := h.bytes
  refine ⟨rest, ?_⟩
  rw [hbuf, encode_eq, h.ver]
  simp only [List.cons_append, List.append_assoc]
  rfl

theorem Encodes.four_le (h : Encodes pdu msg) : 4 ≤ pdu.len := by
  rw [h.len, encode_length]
  omega

theorem Encodes.first (h : Encodes pdu msg) :
    pdu.buf[0]? = some (headByte 1 msg.type msg.token.length) := by
  obtain ⟨rest, hbuf⟩ := h.buf_eq
  rw [hbuf]
  rfl

theorem coapSetVersion_sets (h : Encodes pdu msg) : Sets (coapSetVersion pdu .v1) pdu True msg := by
  obtain ⟨rest, hbuf⟩ := h.buf_eq
  have hle := h.len_le
  have h4 := h.four_le
  have htok := msg.token_le
  have hbyte := headByte_version msg.type ⟨msg.token.length, by omega⟩
  -- the version bits are set to what they are
  have hput : putAt pdu.buf 0 [headByte 1 msg.type msg.token.length] = some pdu.buf := by
    rw [hbuf]
    exact @putAt_append _ [] [headByte 1 msg.type msg.token.length] _ _ rfl
  refine Sets.of_encodes h rfl ?_
  rw [coapSetVersion, if_neg (by omega), h.first]
  simp only [Option.bind_eq_bind, Option.bind_some, hbyte, hput]
  rw [if_neg (by omega)]

theorem coapSetType_sets (h : Encodes pdu msg) (t : CoapType) :
    Sets (coapSetType pdu t) pdu True (setType msg t) := by
  obtain ⟨rest, hbuf⟩ := h.buf_eq
  have hle := h.len_le
  have h4 := h.four_le
  have htok := msg.token_le
  have hbyte := headByte_type t msg.type ⟨msg.token.length, by omega⟩
  have hput : putAt pdu.buf 0 [headByte 1 (typeOf t) msg.token.length]
      = some (headByte 1 (typeOf t) msg.token.length :: msg.code :: msg.idHi :: msg.idLo
        :: (msg.token ++ bodyOf msg ++ rest)) := by
    rw [hbuf]
    exact @putAt_append _ [] [headByte 1 msg.type msg.token.length] _ _ rfl
  have hset := @Encodes.setHeader _ _ h (setType msg t)
    (headByte 1 (typeOf t) msg.token.length) msg.code msg.idHi msg.idLo _ rest rfl rfl rfl h.ver
    rfl rfl rfl rfl rfl (by rw [← h.size, hbuf]; rfl)
  refine Sets.of_encodes hset rfl ?_
  rw [coapSetType, if_neg (by omega), h.first]
  simp only [Option.bind_eq_bind, Option.bind_some, hbyte, hput]
  rw [if_neg (by omega)]

theorem coapSetCode_sets (h : Encodes pdu msg) (code : UInt8) :
    Sets (coapSetCode pdu code) pdu True (setCode msg code) := by
  obtain ⟨rest, hbuf⟩ := h.buf_eq
  have hle := h.len_le
  have h4 := h.four_le
  have hput : putAt pdu.buf 1 [code]
      = some (headByte 1 msg.type msg.token.length :: code :: msg.idHi :: msg.idLo
        :: (msg.token ++ bodyOf msg ++ rest)) := by
    rw [hbuf]
    exact @putAt_append _ [headByte 1 msg.type msg.token.length] [msg.code] _ _ rfl
  have hset := @Encodes.setHeader _ _ h (setCode msg code)
    (headByte 1 msg.type msg.token.length) code msg.idHi msg.idLo _ rest rfl rfl rfl h.ver
    rfl rfl rfl rfl rfl (by rw [← h.size, hbuf]; rfl)
  refine Sets.of_encodes hset rfl ?_
  rw [coapSetCode, if_neg (by omega), hput]
  simp only [Option.bind_eq_bind, Option.bind_some]
  rw [if_neg (by omega)]

theorem coapSetMid_sets (h : Encodes pdu msg) (mid : UInt16) :
    Sets (coapSetMid pdu mid) pdu True (setMid msg mid) := by
  obtain ⟨rest, hbuf⟩ := h.buf_eq
  have hle := h.len_le
  have h4 := h.four_le
  have hput : putAt pdu.buf 2 [(mid >>> 8).toUInt8, (mid &&& 0xFF).toUInt8]
      = some (headByte 1 msg.type msg.token.length :: msg.code :: (mid >>> 8).toUInt8
        :: (mid &&& 0xFF).toUInt8 :: (msg.token ++ bodyOf msg ++ rest)) := by
    rw [hbuf]
    exact @putAt_append _ [headByte 1 msg.type msg.token.length, msg.code] [msg.idHi, msg.idLo]
      _ _ rfl
  have hset := @Encodes.setHeader _ _ h (setMid msg mid)
    (headByte 1 msg.type msg.token.length) msg.code (mid >>> 8).toUInt8 (mid &&& 0xFF).toUInt8
    _ rest rfl rfl rfl h.ver rfl rfl rfl rfl rfl (by rw [← h.size, hbuf]; rfl)
  refine Sets.of_encodes hset rfl ?_
  rw [coapSetMid, if_neg (by omega), hput]
  simp only [Option.bind_eq_bind, Option.bind_some]
  rw [if_neg (by omega)]

/-- The message with the low `tkl` bytes of `token` as its token. -/
def setToken (msg : Message) (token : UInt64) (tkl : UInt8) : Message :=
  { msg with
    token := (tokenBytes token).take tkl.toNat
    token_le := by
      rw [List.length_take, tokenBytes, List.length_map, List.length_range]
      omega }

theorem setToken_length {token : UInt64} {tkl : UInt8} (h8 : tkl ≤ 8) :
    (setToken msg token tkl).token.length = tkl.toNat := by
  have h8' : tkl.toNat ≤ 8 := h8
  rw [setToken, List.length_take, tokenBytes, List.length_map, List.length_range]
  omega

/-- The body does not depend on the token. -/
theorem setToken_encode_length {token : UInt64} {tkl : UInt8} (h8 : tkl ≤ 8) :
    (setToken msg token tkl).encode.length = 4 + tkl.toNat + (bodyOf msg).length := by
  rw [encode_length, setToken_length h8]
  rfl

/-- The message with the new token is in the buffer, whatever is behind it. -/
theorem Encodes.setToken (h : Encodes pdu msg) {token : UInt64} {tkl : UInt8} (h8 : tkl ≤ 8)
    {rest : List UInt8} {buf : List UInt8} (hsize : buf.length = pdu.max)
    (hbuf : buf = headByte 1 msg.type tkl.toNat :: msg.code :: msg.idHi :: msg.idLo
      :: ((tokenBytes token).take tkl.toNat ++ bodyOf msg ++ rest)) :
    Encodes { pdu with buf := buf, len := 4 + tkl.toNat + (bodyOf msg).length }
      (setToken msg token tkl) where
  size := hsize
  max_lt := h.max_lt
  bytes := by
    refine ⟨rest, ?_⟩
    rw [encode_eq, setToken_length h8]
    simp only [hbuf, List.cons_append, PduSpec.setToken, h.ver]
    rfl
  len := (setToken_encode_length h8).symm
  ver := h.ver
  nums := h.nums
  lens := h.lens

/-- The part of the packet behind the token moves to `dst`. -/
theorem Encodes.moveBody (h : Encodes pdu msg) {dst : Nat}
    (hfit : dst + (bodyOf msg).length ≤ pdu.buf.length) :
    moveAt pdu.buf dst (4 + msg.token.length) (sz (pdu.len - 4 - msg.token.length))
      = some (splice pdu.buf dst (bodyOf msg)) := by
  have hlen := h.len
  have hle := h.len_le
  have hsize := h.size
  have hmax := h.max_lt
  rw [encode_length] at hlen
  have hn : sz (pdu.len - 4 - msg.token.length) = pdu.len - (4 + msg.token.length) := by
    rw [sz_of_range (by omega) (by omega)]
    omega
  rw [hn]
  exact moveAt_eq h.optionsAt.bytes (by omega) (by omega)

/-- The token and what is behind it, written over the old ones. -/
theorem Encodes.putToken (h : Encodes pdu msg) {tok : List UInt8}
    (hfit : 4 + tok.length + (bodyOf msg).length ≤ pdu.buf.length) :
    ∃ rest, putAt (splice pdu.buf (4 + tok.length) (bodyOf msg)) 4 tok
      = some (headByte 1 msg.type msg.token.length :: msg.code :: msg.idHi :: msg.idLo
        :: (tok ++ bodyOf msg ++ rest)) := by
  obtain ⟨rest, hbuf⟩ := h.buf_eq
  have hlen : (splice pdu.buf (4 + tok.length) (bodyOf msg)).length = pdu.buf.length :=
    splice_length hfit
  have hjoin := @splice_splice_before _ pdu.buf tok (bodyOf msg) 4 hfit
  have hsplice := @splice_append _ [headByte 1 msg.type msg.token.length, msg.code, msg.idHi,
    msg.idLo] (msg.token ++ bodyOf msg ++ rest) (tok ++ bodyOf msg)
  refine ⟨(msg.token ++ bodyOf msg ++ rest).drop (tok ++ bodyOf msg).length, ?_⟩
  rw [putAt_eq (by omega), hjoin, hbuf]
  exact congrArg some hsplice

theorem coapSetToken_sets (h : Encodes pdu msg) (token : UInt64) (tkl : UInt8) :
    Sets (coapSetToken pdu token tkl) pdu (tkl ≤ 8) (setToken msg token tkl) := by
  obtain ⟨old, hold, holdNat⟩ := h.tkl
  have hle := h.len_le
  have hlen := h.len
  have hsize := h.size
  have hmax := h.max_lt
  have hold8 := msg.token_le
  rw [encode_length] at hlen
  unfold coapSetToken
  -- the checks of the source one after the other, each with what it says about the message
  by_cases hroom : pdu.max < 4 + tkl.toNat
  · refine Sets.of_error (by decide) (if_pos hroom) fun h8 => ?_
    rw [setToken_encode_length h8]
    omega
  rw [if_neg hroom]
  by_cases h8 : 8 < tkl
  · exact Sets.of_error (by decide) (if_pos h8) fun hc => absurd hc (UInt8.not_le.mpr h8)
  rw [if_neg h8, hold]
  have hle8 : tkl ≤ 8 := UInt8.not_lt.mp h8
  have htkl : tkl.toNat ≤ 8 := hle8
  -- the new length of the packet, which does not wrap around
  have hnew : sz (pdu.len + (tkl.toNat - msg.token.length))
      = 4 + tkl.toNat + (bodyOf msg).length := by
    rw [sz_of_range (by omega) (by omega)]
    omega
  simp only [Option.bind_eq_bind, Option.bind_some, holdNat, hnew]
  by_cases hgrow : 4 < pdu.len ∧ pdu.max < 4 + tkl.toNat + (bodyOf msg).length
  · refine Sets.of_error (by decide) (if_pos hgrow) fun _ => ?_
    rw [setToken_encode_length hle8]
    exact hgrow.2
  rw [if_neg hgrow]
  have htokLen : ((tokenBytes token).take tkl.toNat).length = tkl.toNat :=
    @setToken_length msg token tkl hle8
  have hfit : 4 + ((tokenBytes token).take tkl.toNat).length + (bodyOf msg).length
      ≤ pdu.buf.length := by omega
  obtain ⟨rest, hput⟩ := h.putToken hfit
  have hhead := @putAt_append _ [] [headByte 1 msg.type msg.token.length]
    (msg.code :: msg.idHi :: msg.idLo
      :: ((tokenBytes token).take tkl.toNat ++ bodyOf msg ++ rest))
    [headByte 1 msg.type tkl.toNat] rfl
  -- the new token length replaces the low bits of the first byte
  have hbyte := headByte_tkl msg.type ⟨msg.token.length, by omega⟩ ⟨tkl.toNat, by omega⟩
  simp only [UInt8.ofNat_toNat] at hbyte
  simp only [List.nil_append, List.singleton_append, List.length_nil] at hhead
  -- the writes are in place, so the buffer keeps its length
  have hkeep := (putAt_length hhead).trans (putAt_length hput)
  rw [splice_length hfit] at hkeep
  refine Sets.of_encodes (h.setToken hle8 (hkeep.trans hsize) rfl) rfl ?_
  -- with nothing behind the header, nothing moves
  by_cases h4 : 4 < pdu.len
  · have hmove := h.moveBody hfit
    rw [htokLen] at hmove hput
    rw [if_pos h4, hmove]
    simp only [Option.bind_some, hput, List.getElem?_cons_zero, hbyte, hhead]
  · have hnil : bodyOf msg = [] := List.eq_nil_of_length_eq_zero (by omega)
    rw [hnil, splice_nil] at hput
    rw [if_neg h4, hnil]
    rw [hnil] at hhead
    simp only [Option.bind_some, hput, List.getElem?_cons_zero, hbyte, hhead]

/-! ## Options and payload -/

/-- The bytes of the message up to the end of the last option. -/
def frontOf (msg : Message) : List UInt8 :=
  headByte msg.ver msg.type msg.token.length :: msg.code :: msg.idHi :: msg.idLo
    :: (msg.token ++ optsBytes (toWire 0 msg.opts))

theorem encode_front (msg : Message) :
    msg.encode = frontOf msg ++ payloadBytes msg.payload := by
  rw [encode_eq, bodyOf, frontOf]
  simp only [List.cons_append, List.append_assoc]

theorem frontOf_length (msg : Message) :
    (frontOf msg).length = 4 + msg.token.length + (optsBytes (toWire 0 msg.opts)).length := by
  rw [frontOf]
  simp only [List.length_cons, List.length_append]
  omega

theorem Encodes.take_front (h : Encodes pdu msg) :
    pdu.buf.take (frontOf msg).length = frontOf msg := by
  obtain ⟨rest, hbuf⟩ := h.bytes
  rw [hbuf, encode_front, List.append_assoc, List.take_left]

/-- What is written behind the last option becomes the end of the message. -/
theorem Encodes.putBehind (h : Encodes pdu msg) {msg' : Message} {w : List UInt8}
    (hencode : msg'.encode = frontOf msg ++ w) (hfit : (frontOf msg).length + w.length ≤ pdu.max)
    (hver : msg'.ver = 1) (hnums : ∀ o ∈ msg'.opts, o.num ≤ 65535)
    (hlens : ∀ o ∈ msg'.opts, o.value.length ≤ 65535) :
    Encodes { pdu with
      buf := splice pdu.buf (frontOf msg).length w, len := (frontOf msg).length + w.length }
      msg' := by
  obtain ⟨rest, hbuf⟩ := h.bytes
  have hsize := h.size
  refine ⟨?_, h.max_lt, ⟨(payloadBytes msg.payload ++ rest).drop w.length, ?_⟩, ?_, hver, hnums,
    hlens⟩
  · simp only
    rw [splice_length (by omega), hsize]
  · simp only
    rw [hbuf, encode_front, List.append_assoc, splice_append, hencode]
  · simp only
    rw [hencode, List.length_append]

/-- The numbers are not larger than that of the last option. -/
theorem lastNum_le {prev num : Nat} {os : List Opt} (hprev : prev ≤ num)
    (h : ∀ o ∈ os, o.num ≤ num) : lastNum prev os ≤ num := by
  induction os generalizing prev with
  | nil => exact hprev
  | cons o os ih =>
    exact ih (h o (List.mem_cons_self ..)) fun o' ho' => h o' (List.mem_cons_of_mem _ ho')

/-- At the payload marker no delta is adjusted. -/
theorem coapAdjustOptionDeltas_marker {buf bs : List UInt8} {start optsLen maxLen k : Nat}
    {offset : Int} (hs : slice buf start k = 0xFF :: bs) (hlt : optsLen < 2 ^ 64)
    (hpos : optsLen ≠ 0) :
    coapAdjustOptionDeltas buf start optsLen maxLen offset = some (.none, buf, optsLen) := by
  have hn : sz (optsLen - (start - start)) = optsLen := by
    rw [sz_of_range (by omega) (by omega)]
    omega
  rw [coapAdjustOptionDeltas, adjustLoop, if_neg (by omega), hn,
    coapDecodeOption_marker hs (by omega)]
  rfl

/-- The message with one more option. -/
def addOption (msg : Message) (num : Nat) (value : List UInt8)
    (hlast : ∀ o ∈ msg.opts, o.num ≤ num) : Message :=
  { msg with
    opts := msg.opts ++ [⟨num, value⟩]
    sorted := by
      rw [List.map_append, List.pairwise_append]
      refine ⟨msg.sorted, List.pairwise_singleton _ _, fun a ha b hb => ?_⟩
      obtain ⟨o, ho, rfl⟩ := List.mem_map.mp ha
      rw [List.map_singleton, List.mem_singleton] at hb
      exact hb ▸ hlast o ho }

theorem addOption_forall {num : Nat} {value : List UInt8} (P : Opt → Prop)
    {hlast : ∀ o ∈ msg.opts, o.num ≤ num} (h : ∀ o ∈ msg.opts, P o) (hnew : P ⟨num, value⟩) :
    ∀ o ∈ (addOption msg num value hlast).opts, P o := by
  intro o ho
  rcases List.mem_append.mp ho with ho | ho
  · exact h o ho
  · exact (List.mem_singleton.mp ho) ▸ hnew

/-- The header and the value of the added option. -/
def addedBytes (msg : Message) (num : Nat) (value : List UInt8) : List UInt8 :=
  optHeader (num - lastNum 0 msg.opts) value.length ++ value

theorem addOption_encode (msg : Message) (num : Nat) (value : List UInt8)
    (hlast : ∀ o ∈ msg.opts, o.num ≤ num) :
    (addOption msg num value hlast).encode
      = frontOf msg ++ (addedBytes msg num value ++ payloadBytes msg.payload) := by
  rw [encode_front, ← List.append_assoc]
  congr 1
  simp only [frontOf, addOption, addedBytes, toWire_append, toWire_cons, toWire_nil,
    optsBytes_append, optsBytes_cons, optsBytes_nil, WireOpt.bytes, List.append_nil,
    List.cons_append, List.append_assoc]

/-- Header and value are written as one piece. -/
theorem putOption {buf value : List UInt8} {ptr d : Nat} (hd : d ≤ extMax)
    (hvalue : value.length ≤ extMax)
    (hfit : ptr + (optHeader d value.length ++ value).length ≤ buf.length) :
    (coapBuildOptionHeader buf ptr (optHeader d value.length).length d value.length).bind
        (fun r => putAt r.1 (ptr + (optHeader d value.length).length) value)
      = some (splice buf ptr (optHeader d value.length ++ value)) := by
  rw [List.length_append] at hfit
  have hlen : (splice buf ptr (optHeader d value.length)).length = buf.length :=
    splice_length (by omega)
  rw [coapBuildOptionHeader_eq hd hvalue (by omega), Option.bind_some]
  simp only
  rw [putAt_eq (by omega), splice_splice_append (by omega)]

/-- What stands behind the last option. -/
theorem Encodes.slice_behind (h : Encodes pdu msg) :
    slice pdu.buf (frontOf msg).length (payloadBytes msg.payload).length
      = payloadBytes msg.payload := by
  obtain ⟨rest, hbuf⟩ := h.bytes
  rw [hbuf, encode_front, List.append_assoc, slice_append_right, List.take_left]

/-- The call in terms of the bytes of the option: no number is cut to 16 bits, and the length
    does not wrap. -/
theorem insertOption_start {last num ptr : Nat} {value : List UInt8} (hlast : last ≤ num)
    (hnum : num ≤ 65535) (hvalue : value.length ≤ 65535) (hlen : pdu.len < 2 ^ 63) :
    insertOption pdu num value (UInt16.ofNat value.length) ptr (UInt16.ofNat last)
      = let hdr := optHeader (num - last) value.length
        let size := (hdr ++ value).length
        if pdu.max < pdu.len + size then some (.insufficientBuffer, pdu)
        else
          (if pdu.len ≠ ptr then
            (moveAt pdu.buf (ptr + size) ptr (sz (pdu.len - ptr))).bind fun buf =>
              (coapAdjustOptionDeltas buf (ptr + size) (sz ((pdu.len + size : Nat) - ptr))
                (sz (pdu.max - ptr)) ((last : Nat) - (num : Int))).bind fun r =>
                  some (r.2.1, sz ((pdu.len + size : Nat) + (r.2.2 - ((pdu.len + size : Nat) - ptr))))
          else some (pdu.buf, pdu.len + size)).bind fun m =>
            ((coapBuildOptionHeader m.1 ptr hdr.length ((num - last : Nat) : Int)
              value.length).bind fun r => putAt r.1 (ptr + hdr.length) value).bind fun buf =>
                some (.none, { pdu with buf := buf, len := m.2 }) := by
  have hlastNat : (UInt16.ofNat last).toNat = last := by
    rw [UInt16.toNat_ofNat']
    omega
  have hvalueNat : (UInt16.ofNat value.length).toNat = value.length := by
    rw [UInt16.toNat_ofNat']
    omega
  have hdelta : (num : Int) - (last : Nat) = ((num - last : Nat) : Int) := by omega
  have hhdr5 := optHeader_length_le (num - last) value.length
  have hsize : pdu.len + (optHeader (num - last) value.length).length + value.length
      = pdu.len + (optHeader (num - last) value.length ++ value).length := by
    rw [List.length_append, Nat.add_assoc]
  have hstart : ptr + (optHeader (num - last) value.length).length + value.length
      = ptr + (optHeader (num - last) value.length ++ value).length := by
    rw [List.length_append, Nat.add_assoc]
  have hnew : sz ((pdu.len : Int) + (optHeader (num - last) value.length).length + value.length)
      = pdu.len + (optHeader (num - last) value.length).length + value.length :=
    sz_natCast (by omega)
  have htakeAll : value.take value.length = value := List.take_length
  simp only [insertOption, hlastNat, hvalueNat, hdelta, coapComputeOptionHeaderLen_eq, hnew, hsize,
    hstart, htakeAll, if_neg (Nat.lt_irrefl value.length), Option.bind_eq_bind]
  by_cases hfull : pdu.max < pdu.len + (optHeader (num - last) value.length ++ value).length
  · rw [if_pos hfull, if_pos hfull]
  rw [if_neg hfull, if_neg hfull]
  by_cases hend : pdu.len ≠ ptr
  · simp only [if_pos hend, Option.bind_assoc]
  · simp only [if_neg hend, Option.bind_assoc]

/-- A buffer without room for the option. -/
theorem insertOption_full {last num ptr : Nat} {value : List UInt8} (hlast : last ≤ num)
    (hnum : num ≤ 65535) (hvalue : value.length ≤ 65535) (hlen : pdu.len < 2 ^ 63)
    (hfull : pdu.max < pdu.len + (optHeader (num - last) value.length ++ value).length) :
    insertOption pdu num value (UInt16.ofNat value.length) ptr (UInt16.ofNat last)
      = some (.insufficientBuffer, pdu) := by
  rw [insertOption_start hlast hnum hvalue hlen]
  exact if_pos hfull

/-- The end of the packet: nothing makes room. -/
theorem insertOption_end {last num ptr : Nat} {value : List UInt8} (hlast : last ≤ num)
    (hnum : num ≤ 65535) (hvalue : value.length ≤ 65535) (hsize : pdu.buf.length = pdu.max)
    (hmax : pdu.max < 2 ^ 63) (hend : pdu.len = ptr)
    (hroom : pdu.len + (optHeader (num - last) value.length ++ value).length ≤ pdu.max) :
    insertOption pdu num value (UInt16.ofNat value.length) ptr (UInt16.ofNat last)
      = some (.none, { pdu with
          buf := splice pdu.buf ptr (optHeader (num - last) value.length ++ value),
          len := ptr + (optHeader (num - last) value.length ++ value).length }) := by
  have hput := @putOption pdu.buf value ptr (num - last) (by unfold extMax; omega)
    (by unfold extMax; omega) (by omega)
  rw [insertOption_start hlast hnum hvalue (by omega)]
  simp only
  rw [if_neg (by omega), if_neg (by omega)]
  simp only [Option.bind_some]
  rw [hput, hend]
  rfl

/-- Inside of the packet: `rest` makes room, its deltas are adjusted, with the result `adj`, and
    the option is written in front of it. -/
theorem insertOption_behind {last num ptr : Nat} {value rest : List UInt8}
    {adj : Option (CoapError × List UInt8 × Nat)} (hlast : last ≤ num) (hnum : num ≤ 65535)
    (hvalue : value.length ≤ 65535) (hsize : pdu.buf.length = pdu.max) (hmax : pdu.max < 2 ^ 63)
    (hlen : pdu.len = ptr + rest.length) (hrest : rest ≠ [])
    (hbehind : slice pdu.buf ptr rest.length = rest)
    (hroom : pdu.len + (optHeader (num - last) value.length ++ value).length ≤ pdu.max)
    (hadj : coapAdjustOptionDeltas
        (splice pdu.buf (ptr + (optHeader (num - last) value.length ++ value).length) rest)
        (ptr + (optHeader (num - last) value.length ++ value).length)
        ((optHeader (num - last) value.length ++ value).length + rest.length)
        (pdu.max - ptr) ((last : Nat) - (num : Int)) = adj)
    (hsame : ∀ e buf' L, adj = some (e, buf', L) → buf'.length = pdu.buf.length) :
    insertOption pdu num value (UInt16.ofNat value.length) ptr (UInt16.ofNat last)
      = adj.bind fun r => some (.none, { pdu with
          buf := splice r.2.1 ptr (optHeader (num - last) value.length ++ value),
          len := sz (ptr + r.2.2) }) := by
  have hpos : 0 < rest.length := List.length_pos_iff.mpr hrest
  have hput := fun buf => @putOption buf value ptr (num - last) (by unfold extMax; omega)
    (by unfold extMax; omega)
  rw [insertOption_start hlast hnum hvalue (by omega)]
  simp only
  -- from here on only the lengths of the parts matter
  generalize (optHeader (num - last) value.length ++ value).length = size at hroom hadj hput ⊢
  have hn : sz (pdu.len - ptr) = rest.length := by
    rw [sz_sub (by omega) (by omega)]
    omega
  have hoptsLen : sz (((pdu.len + size : Nat) : Int) - ptr) = size + rest.length := by
    rw [sz_sub (by omega) (by omega)]
    omega
  have hmaxLen : sz (pdu.max - ptr) = pdu.max - ptr := sz_sub (by omega) (by omega)
  rw [if_neg (by omega), if_pos (by omega), hn, hmaxLen, hoptsLen,
    moveAt_eq hbehind (by omega) (by omega), Option.bind_some, hadj]
  cases adj with
  | none => rfl
  | some r =>
    obtain ⟨e, buf', L⟩ := r
    have hbuf' := hsame e buf' L rfl
    have hlen' : ((pdu.len + size : Nat) : Int) + ((L : Int) - (((pdu.len + size : Nat) : Int) - ptr))
        = (ptr : Int) + L := by omega
    simp only [Option.bind_some]
    rw [hput buf' (by omega), hlen']
    rfl

/-- The option is put in front of `tail`, the marker and the payload if there are any, or the
    packet stays as it is when the option does not fit. -/
theorem insertOption_eq {last num ptr : Nat} {value tail : List UInt8} (hlast : last ≤ num)
    (hnum : num ≤ 65535) (hvalue : value.length ≤ 65535) (hsize : pdu.buf.length = pdu.max)
    (hmax : pdu.max < 2 ^ 63) (hle : pdu.len ≤ pdu.max) (hlen : pdu.len = ptr + tail.length)
    (hbehind : slice pdu.buf ptr tail.length = tail) (htail : tail = [] ∨ ∃ bs, tail = 0xFF :: bs) :
    insertOption pdu num value (UInt16.ofNat value.length) ptr (UInt16.ofNat last)
      = let bytes := optHeader (num - last) value.length ++ value
        if pdu.max < pdu.len + bytes.length then some (.insufficientBuffer, pdu)
        else some (.none, { pdu with
          buf := splice pdu.buf ptr (bytes ++ tail), len := ptr + (bytes ++ tail).length }) := by
  simp only
  by_cases hroom : pdu.max < pdu.len + (optHeader (num - last) value.length ++ value).length
  · rw [if_pos hroom]
    exact insertOption_full hlast hnum hvalue (by omega) hroom
  rw [if_neg hroom]
  obtain rfl | ⟨bs, rfl⟩ := htail
  · -- nothing is behind the options
    have hend : pdu.len = ptr := hlen
    rw [insertOption_end hlast hnum hvalue hsize hmax hend (by omega), List.append_nil]
  · -- the marker and the payload make room, and the loop of the deltas stops at the marker
    have hfit : ptr + (optHeader (num - last) value.length ++ value).length + (0xFF :: bs).length
        ≤ pdu.buf.length := by omega
    have hcons : (0xFF :: bs).length = bs.length + 1 := List.length_cons
    rw [insertOption_behind hlast hnum hvalue hsize hmax hlen (List.cons_ne_nil _ _) hbehind
      (by omega) (coapAdjustOptionDeltas_marker (slice_splice_self hfit) (by omega) (by omega))
      fun e buf' L h => ?_]
    · have hnew : sz ((ptr : Int) + ((optHeader (num - last) value.length ++ value).length
          + (0xFF :: bs).length : Nat))
          = ptr + ((optHeader (num - last) value.length ++ value).length + (0xFF :: bs).length) :=
        sz_natCast (by omega)
      simp only [Option.bind_some, hnew]
      rw [splice_splice_before hfit, ← List.length_append]
    · obtain ⟨-, h⟩ := Prod.mk.inj (Option.some.inj h)
      obtain ⟨rfl, -⟩ := Prod.mk.inj h
      exact splice_length hfit

theorem insertOption_sets (h : Encodes pdu msg) {num : Nat} {value : List UInt8}
    (hnum : num ≤ 65535) (hvalue : value.length ≤ 65535)
    (hlast : ∀ o ∈ msg.opts, o.num ≤ num) :
    Sets (insertOption pdu num value (UInt16.ofNat value.length) (frontOf msg).length
      (UInt16.ofNat (lastNum 0 msg.opts))) pdu True (addOption msg num value hlast) := by
  have hle := h.len_le
  have hlen := h.len
  rw [encode_front, List.length_append] at hlen
  have hsize := h.size
  have hencode := addOption_encode msg num value hlast
  rw [insertOption_eq (lastNum_le (Nat.zero_le _) hlast) hnum hvalue hsize h.max_lt hle hlen
    h.slice_behind (payloadBytes_cases msg.payload)]
  rw [← List.append_assoc] at hencode
  -- the code and the message agree about the room
  by_cases hroom : pdu.max < pdu.len + (addedBytes msg num value).length
  · refine Sets.of_error (by decide) (if_pos hroom) fun _ => ?_
    rw [hencode]
    simp only [List.length_append]
    omega
  · rw [List.append_assoc] at hencode
    have hfit : (frontOf msg).length + (addedBytes msg num value ++ payloadBytes msg.payload).length
        ≤ pdu.max := by
      rw [List.length_append]
      omega
    exact Sets.of_encodes (h.putBehind hencode hfit h.ver
      (addOption_forall (fun o => o.num ≤ 65535) h.nums hnum)
      (addOption_forall (fun o => o.value.length ≤ 65535) h.lens hvalue)) rfl (if_neg hroom)

theorem coapAddOption_sets (h : Encodes pdu msg) {num : Nat} {value : List UInt8}
    (hnum : num ≤ 65535) (hvalue : value.length ≤ 65535)
    (hlast : ∀ o ∈ msg.opts, o.num ≤ num) :
    Sets (coapAddOption pdu num value (UInt16.ofNat value.length)) pdu True
      (addOption msg num value hlast) := by
  obtain ⟨tkl, htkl, htklNat⟩ := h.tkl
  have hopts := h.optionsAt
  have hfind := @findInsertion_eq _ _ _ _ _ (pdu.buf.length + 1) (num : Int) hopts
    hopts.length_lt_fuel (fun o ho => Int.ofNat_le.mpr (hlast o ho))
  -- the search ends at the payload or at the end of the packet, both no errors
  have hend : ¬ (endError (payloadBytes msg.payload) ≠ .foundPayloadMarker
      ∧ endError (payloadBytes msg.payload) ≠ .endOfPacket
      ∧ endError (payloadBytes msg.payload) ≠ .none) := by
    unfold endError
    split <;> decide
  have hinsert := insertOption_sets h hnum hvalue hlast
  rw [frontOf_length] at hinsert
  rw [coapAddOption, htkl]
  simp only [Option.bind_eq_bind, Option.bind_some, htklNat]
  rw [show (0 : UInt16) = UInt16.ofNat 0 from rfl, hfind]
  simp only [Option.bind_some]
  rw [if_neg hend]
  exact hinsert

/-- The message with another payload. -/
def setPayload (msg : Message) (payload : List UInt8) : Message :=
  { msg with payload := payload }

theorem coapSetPayload_sets (h : Encodes pdu msg) {payload : List UInt8} (hnone : msg.payload = [])
    (hne : payload ≠ []) (hlt : payload.length < 2 ^ 63) :
    Sets (coapSetPayload pdu payload payload.length) pdu True (setPayload msg payload) := by
  obtain ⟨tkl, htkl, htklNat⟩ := h.tkl
  have hopts := h.optionsAt
  have hle := h.len_le
  have hlen := h.len
  have hsize := h.size
  have hmax := h.max_lt
  have hfind := @findOptionsEnd_eq _ _ _ _ _ (pdu.buf.length + 1) hopts hopts.length_lt_fuel
  rw [encode_front, hnone, payloadBytes_nil, List.append_nil] at hlen
  rw [← frontOf_length, hnone, payloadBytes_nil, endError_nil] at hfind
  have hencode : (setPayload msg payload).encode = frontOf msg ++ ([0xFF] ++ payload) := by
    rw [encode_front, setPayload, payloadBytes_of_ne_nil hne]
    rfl
  rw [coapSetPayload, htkl]
  simp only [Option.bind_eq_bind, Option.bind_some, htklNat, hfind]
  generalize hptr : (frontOf msg).length = ptr at hlen ⊢
  have hnew : sz (pdu.len + payload.length + 1) = pdu.len + payload.length + 1 := by
    rw [sz_of_range (by omega) (by omega)]
    omega
  -- the length is computed twice, for the check and for the packet
  have hnew' : sz ((ptr + 1 : Nat) + payload.length) = ptr + ([0xFF] ++ payload).length := by
    rw [List.length_append, List.length_singleton, sz_of_range (by omega) (by omega)]
    omega
  rw [hnew, if_neg (by decide), if_pos trivial]
  by_cases hroom : pdu.max < pdu.len + payload.length + 1
  · refine Sets.of_error (by decide) (if_pos hroom) fun _ => ?_
    rw [hencode]
    simp only [List.length_append, List.length_singleton, hptr]
    omega
  rw [if_neg hroom]
  have hset := @Encodes.putBehind _ _ h (setPayload msg payload) ([0xFF] ++ payload) hencode
    (by rw [List.length_append, List.length_singleton]; omega) h.ver h.nums h.lens
  rw [hptr] at hset
  refine Sets.of_encodes hset rfl ?_
  -- the marker, and the payload behind it
  have hmark : (splice pdu.buf ptr [0xFF]).length = pdu.buf.length :=
    splice_length (by rw [List.length_singleton]; omega)
  have hjoin := @splice_splice_append _ pdu.buf [0xFF] payload ptr
    (by rw [List.length_singleton]; omega)
  rw [List.length_singleton] at hjoin
  have htakeAll : payload.take payload.length = payload := List.take_length
  rw [putAt_eq (by rw [List.length_singleton]; omega)]
  simp only [Option.bind_some]
  rw [putPayload, if_neg (Nat.lt_irrefl _), htakeAll, putAt_eq (by omega), hjoin, hnew']
  rfl

/-- Nothing as the payload: the marker is written all the same. -/
theorem coapSetPayload_nothing (h : Encodes pdu msg) (hnone : msg.payload = [])
    (hroom : pdu.len < pdu.max) (payload : List UInt8) :
    coapSetPayload pdu payload 0
      = some (.none, { pdu with buf := splice pdu.buf pdu.len [0xFF], len := pdu.len + 1 }) := by
  obtain ⟨tkl, htkl, htklNat⟩ := h.tkl
  have hopts := h.optionsAt
  have hlen := h.len
  have hsize := h.size
  have hmax := h.max_lt
  have hfind := @findOptionsEnd_eq _ _ _ _ _ (pdu.buf.length + 1) hopts hopts.length_lt_fuel
  rw [encode_front, hnone, payloadBytes_nil, List.append_nil] at hlen
  rw [← frontOf_length, hnone, payloadBytes_nil, endError_nil, ← hlen] at hfind
  have hnew : sz (pdu.len + (0 : Nat) + 1) = pdu.len + 1 := by
    rw [sz_of_range (by omega) (by omega)]
    omega
  have hnew' : sz ((pdu.len + 1 : Nat) + (0 : Nat)) = pdu.len + 1 := by
    rw [sz_of_range (by omega) (by omega)]
    omega
  have hmark : (splice pdu.buf pdu.len [0xFF]).length = pdu.buf.length :=
    splice_length (by rw [List.length_singleton]; omega)
  rw [coapSetPayload, htkl]
  simp only [Option.bind_eq_bind, Option.bind_some, htklNat, hfind]
  rw [if_neg (by decide), if_pos trivial, hnew, if_neg (by omega),
    putAt_eq (by rw [List.length_singleton]; omega)]
  simp only [Option.bind_some]
  -- no byte of the payload is copied
  rw [putPayload, if_neg (Nat.not_lt_zero _), List.take_zero, putAt_eq (by rw [List.length_nil]; omega),
    splice_nil, hnew']
  rfl

/-- The payload that `coap_get_payload` finds. -/
def payloadOf (pdu : CoapPdu) : List UInt8 :=
  match coapGetPayload pdu with
  | some { len := len, val := some val } => slice pdu.buf val len
  | _ => []

theorem Encodes.payloadOf (h : Encodes pdu msg) : payloadOf pdu = msg.payload := by
  have hget := h.coapGetPayload
  have hfront := frontOf_length msg
  obtain ⟨rest, hbuf⟩ := h.bytes
  rw [PduSpec.payloadOf, hget]
  by_cases hnone : msg.payload = []
  · simp only [hnone, if_true]
  · simp only [hnone, if_false]
    have hbuf' : pdu.buf = (frontOf msg ++ [0xFF]) ++ (msg.payload ++ rest) := by
      rw [hbuf, encode_front, payloadBytes_of_ne_nil hnone]
      simp only [List.append_assoc, List.cons_append, List.nil_append]
    have hoff : 4 + msg.token.length + (optsBytes (toWire 0 msg.opts)).length + 1
        = (frontOf msg ++ [0xFF]).length := by
      rw [List.length_append, List.length_singleton, hfront]
    rw [hbuf', hoff, slice_append_right, List.take_left]

/-- Behind a marker the payload is written over the marker. -/
theorem coapSetPayload_over (h : Encodes pdu msg) {payload : List UInt8}
    (hsome : msg.payload ≠ []) (hlt : payload.length < 2 ^ 63) :
    coapSetPayload pdu payload payload.length
      = if pdu.max < pdu.len + payload.length then some (.insufficientBuffer, pdu)
        else some (.none, { pdu with
          buf := splice pdu.buf (frontOf msg).length payload,
          len := (frontOf msg).length + payload.length }) := by
  obtain ⟨tkl, htkl, htklNat⟩ := h.tkl
  have hopts := h.optionsAt
  have hle := h.len_le
  have hlen := h.len
  have hsize := h.size
  have hmax := h.max_lt
  have hfind := @findOptionsEnd_eq _ _ _ _ _ (pdu.buf.length + 1) hopts hopts.length_lt_fuel
  rw [encode_front, List.length_append] at hlen
  rw [← frontOf_length, payloadBytes_of_ne_nil hsome, endError_cons] at hfind
  rw [coapSetPayload, htkl]
  simp only [Option.bind_eq_bind, Option.bind_some, htklNat, hfind]
  -- the source counts no byte for a marker here, and writes at the one that is there
  have hnew : sz (pdu.len + payload.length) = pdu.len + payload.length := sz_natCast (by omega)
  rw [hnew, if_neg (by decide), if_neg (by decide)]
  by_cases hroom : pdu.max < pdu.len + payload.length
  · rw [if_pos ⟨trivial, hroom⟩, if_pos hroom]
  have hend : sz ((frontOf msg).length + payload.length) = (frontOf msg).length + payload.length :=
    sz_natCast (by omega)
  rw [if_neg fun hc => hroom hc.2, if_neg hroom, putPayload, if_neg (Nat.lt_irrefl _),
    List.take_length, putAt_eq (by omega), hend]
  rfl

/-- A second call fails or overwrites the marker, but it returns. -/
theorem coapSetPayload_again (h : Encodes pdu msg) {payload : List UInt8}
    (hsome : msg.payload ≠ []) (hlt : payload.length < 2 ^ 63) :
    ∃ e pdu', coapSetPayload pdu payload payload.length = some (e, pdu')
      ∧ (e ≠ .none → pdu' = pdu) := by
  rw [coapSetPayload_over h hsome hlt]
  split
  · exact ⟨_, pdu, rfl, fun _ => rfl⟩
  · exact ⟨_, _, rfl, fun hc => absurd rfl hc⟩

/-! ## coap_init_pdu -/

/-- The message of a fresh packet. -/
def initMessage : Message where
  ver := 1
  type := 3
  code := ccEmpty
  idHi := 0
  idLo := 0
  token := []
  opts := []
  payload := []
  token_le := noToken_le
  sorted := noOpts_sorted

theorem four_bytes {l : List UInt8} (h : 4 ≤ l.length) :
    ∃ b0 b1 b2 b3 rest, l = b0 :: b1 :: b2 :: b3 :: rest := by
  match l, h with
  | b0 :: b1 :: b2 :: b3 :: rest, _ => exact ⟨b0, b1, b2, b3, rest, rfl⟩

/-- A buffer of at least four bytes gets the empty message. -/
theorem coapInitPdu_eq (hsize : pdu.buf.length = pdu.max) (h4 : 4 ≤ pdu.max) :
    coapInitPdu pdu = some (.none,
      { buf := initMessage.encode ++ pdu.buf.drop 4, len := 4, max := pdu.max }) := by
  obtain ⟨buf, len, max⟩ := pdu
  simp only at hsize h4 ⊢
  obtain ⟨b0, b1, b2, b3, rest, rfl⟩ := four_bytes (by omega : 4 ≤ buf.length)
  -- the writes of the setters, each of them into the four bytes
  have hzero : putAt (b0 :: b1 :: b2 :: b3 :: rest) 0 [0, 0, 0, 0]
      = some (0 :: 0 :: 0 :: 0 :: rest) := @putAt_append _ [] [b0, b1, b2, b3] rest [0, 0, 0, 0] rfl
  have hfirst : ∀ a b, putAt (a :: 0 :: 0 :: 0 :: rest) 0 [b] = some (b :: 0 :: 0 :: 0 :: rest) :=
    fun a b => @putAt_append _ [] [a] (0 :: 0 :: 0 :: rest) [b] rfl
  have htok : putAt (0x70 :: 0 :: 0 :: 0 :: rest) 4 [] = some (0x70 :: 0 :: 0 :: 0 :: rest) :=
    @putAt_append _ [0x70, 0, 0, 0] [] rest [] rfl
  have hput1 : putAt (0x70 :: 0 :: 0 :: 0 :: rest) 1 [0] = some (0x70 :: 0 :: 0 :: 0 :: rest) :=
    @putAt_append _ [0x70] [0] (0 :: 0 :: rest) [0] rfl
  have hput2 : putAt (0x70 :: 0 :: 0 :: 0 :: rest) 2 [0, 0]
      = some (0x70 :: 0 :: 0 :: 0 :: rest) := @putAt_append _ [0x70, 0] [0, 0] rest [0, 0] rfl
  have hzeros : [((0 : UInt16) >>> 8).toUInt8, ((0 : UInt16) &&& 0xFF).toUInt8] = [0, 0] := rfl
  -- each setter raises `len` to the end of what it wrote; the token leaves it alone
  have hver : coapSetVersion ⟨0 :: 0 :: 0 :: 0 :: rest, 0, max⟩ .v1
      = some (.none, ⟨0x40 :: 0 :: 0 :: 0 :: rest, 1, max⟩) := by
    rw [coapSetVersion, if_neg (by simp only; omega)]
    simp only [Option.bind_eq_bind, List.getElem?_cons_zero, Option.bind_some, hfirst]
    rfl
  have htype : coapSetType ⟨0x40 :: 0 :: 0 :: 0 :: rest, 1, max⟩ .rst
      = some (.none, ⟨0x70 :: 0 :: 0 :: 0 :: rest, 1, max⟩) := by
    rw [coapSetType, if_neg (by simp only; omega)]
    simp only [Option.bind_eq_bind, List.getElem?_cons_zero, Option.bind_some, hfirst]
    rfl
  have htoken : coapSetToken ⟨0x70 :: 0 :: 0 :: 0 :: rest, 1, max⟩ 0 0
      = some (.none, ⟨0x70 :: 0 :: 0 :: 0 :: rest, 1, max⟩) := by
    rw [coapSetToken, if_neg (by simp only [UInt8.toNat_zero]; omega), if_neg (by decide)]
    simp only [Option.bind_eq_bind, coapGetTkl, List.getElem?_cons_zero, Option.bind_some]
    rw [if_neg fun hc => absurd hc.1 (by decide), if_neg (by decide)]
    simp only [UInt8.toNat_zero, List.take_zero, htok, List.getElem?_cons_zero, Option.bind_some,
      hfirst]
    rfl
  have hcode : coapSetCode ⟨0x70 :: 0 :: 0 :: 0 :: rest, 1, max⟩ ccEmpty
      = some (.none, ⟨0x70 :: 0 :: 0 :: 0 :: rest, 2, max⟩) := by
    rw [coapSetCode, if_neg (by simp only; omega)]
    simp only [Option.bind_eq_bind, ccEmpty, hput1, Option.bind_some]
    rfl
  have hmid : coapSetMid ⟨0x70 :: 0 :: 0 :: 0 :: rest, 2, max⟩ 0
      = some (.none, ⟨0x70 :: 0 :: 0 :: 0 :: rest, 4, max⟩) := by
    rw [coapSetMid, if_neg (by simp only; omega)]
    simp only [Option.bind_eq_bind, hzeros, hput2, Option.bind_some]
    rfl
  rw [coapInitPdu, if_neg (by simp only; omega), hzero]
  simp only [Option.bind_eq_bind, Option.bind_some, hver, htype, htoken, hcode, hmid]
  rfl

theorem coapInitPdu_encodes (hsize : pdu.buf.length = pdu.max) (hmax : pdu.max < 2 ^ 63)
    (h4 : 4 ≤ pdu.max) :
    ∃ pdu', coapInitPdu pdu = some (.none, pdu') ∧ pdu'.max = pdu.max ∧
      Encodes pdu' initMessage := by
  refine ⟨_, coapInitPdu_eq hsize h4, rfl, ?_, hmax, ⟨_, rfl⟩, rfl, rfl,
    fun o ho => absurd ho List.not_mem_nil, fun o ho => absurd ho List.not_mem_nil⟩
  have hlen : initMessage.encode.length = 4 := rfl
  simp only [List.length_append, List.length_drop, hlen]
  omega

end Setters

end Gateway.CoapClient.PduSpec
