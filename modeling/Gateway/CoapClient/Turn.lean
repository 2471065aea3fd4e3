/-
  Gateway.CoapClient.Turn

  What a turn of the loop of `CoapClient` sends for every result of `read` on its
  FIFO: an error, the end of the file, or up to 512 bytes.

  The result of `read` is passed on as a `size_t` and not looked at.  For -1 the sum
  in the check of `coap_set_payload` wraps around and the copy leaves the array; for
  0 the marker is written with nothing behind it; what does not fit is left out and
  the request is sent without it.
-/

import Gateway.CoapClient.Request
import Gateway.CoapClient.Validate

namespace Gateway.CoapClient.Turn

open Gateway.Lib.ByteWindow Gateway.Lib.BlockMem Gateway.Lib.CString Gateway.Lib.CoapFormat
open Gateway.CoapClient.Picocoap Gateway.CoapClient.DecodeSpec Gateway.CoapClient.PduSpec
open Gateway.CoapClient.Request Gateway.CoapClient.Validate
open Gateway.CoapServer.Grammar

/-- A turn that read `n` into `msgBuf` sends a message of the format whose payload is the bytes
    that were read, and it looks at no other byte of the array. -/
def Represents (path msgBuf : List UInt8) (n : Int) (mid : UInt16) (token : UInt64) : Prop :=
  ∃ pdu, buildMessage (padded coapPathLen path) msgBuf n mid token = some pdu ∧
    pdu.len ≤ pdu.buf.length ∧
    CarriesPayload (pdu.buf.take pdu.len) (msgBuf.take n.toNat) ∧
    ∀ msgBuf' : List UInt8, msgBuf'.length = msgBuf.length →
      msgBuf'.take n.toNat = msgBuf.take n.toNat →
      buildMessage (padded coapPathLen path) msgBuf' n mid token = some pdu

/-! ## Messages with a payload -/

/-- The deltas of options with 16-bit numbers, and their lengths, can be carried. -/
theorem toWire_fits {prev : Nat} {os : List Opt} (hnums : ∀ o ∈ os, o.num ≤ 65535)
    (hlens : ∀ o ∈ os, o.value.length ≤ 65535) : ∀ w ∈ toWire prev os, w.Fits := by
  induction os generalizing prev with
  | nil => exact fun w hw => absurd hw List.not_mem_nil
  | cons o os ih =>
    have hnum := hnums o (List.mem_cons_self ..)
    have hlen := hlens o (List.mem_cons_self ..)
    intro w hw
    rw [toWire_cons] at hw
    rcases List.mem_cons.mp hw with rfl | hw
    · constructor <;> simp only <;> unfold extMax <;> omega
    · exact ih (fun o' ho' => hnums o' (List.mem_cons_of_mem _ ho'))
        (fun o' ho' => hlens o' (List.mem_cons_of_mem _ ho')) w hw

/-- The encoding of a message of version 1 is a message of the format. -/
theorem carriesPayload_encode {msg : Message} (hver : msg.ver = 1)
    (hnums : ∀ o ∈ msg.opts, o.num ≤ 65535) (hlens : ∀ o ∈ msg.opts, o.value.length ≤ 65535) :
    CarriesPayload msg.encode msg.payload := by
  have htok := msg.token_le
  have htype := msg.type.isLt
  have hhead : (headByte msg.ver msg.type msg.token.length).toNat
      = 64 + msg.type * 16 + msg.token.length := by
    rw [hver, headByte_toNat (by decide) htype (by omega)]
    rfl
  rw [encode_eq]
  refine ⟨_, _, _, _, _, _, ⟨rfl, ?_, ?_, htok⟩, toWire_fits hnums hlens⟩
  · omega
  · omega

theorem carriesPayload_of_encodes {pdu : CoapPdu} {msg : Message} (h : Encodes pdu msg) :
    CarriesPayload (pdu.buf.take pdu.len) msg.payload := by
  rw [h.take_eq]
  exact carriesPayload_encode h.ver h.nums h.lens

/-- Behind a message without a payload a marker makes no message. -/
theorem not_carriesPayload_marker {bs : List UInt8} {payload : List UInt8}
    (h : CarriesPayload bs []) : ¬ CarriesPayload (bs ++ [0xFF]) payload := by
  obtain ⟨b0, code, idHi, idLo, token, os, ⟨hbytes, hver, htkl, hle⟩, hfits⟩ := h
  rintro ⟨_, _, _, _, _, os', hhead', hfits'⟩
  have hhead : HeadToken (bs ++ [0xFF]) b0 code idHi idLo token (optsBytes os ++ [0xFF]) := by
    refine ⟨?_, hver, htkl, hle⟩
    rw [hbytes, payloadBytes_nil, List.append_nil]
    simp only [List.cons_append, List.append_assoc]
  obtain ⟨-, -, -, -, -, hbody⟩ := hhead.unique hhead'
  obtain ⟨-, htail⟩ := optsBytes_append_inj hfits hfits' (Or.inr ⟨[], rfl⟩) (payloadBytes_cases _)
    hbody
  -- one byte is no marker with a payload
  unfold payloadBytes at htail
  split at htail
  · cases htail
  · next hne => exact hne (List.cons_eq_cons.mp htail).2.symm

/-! ## One turn -/

section Turn

variable {path msgBuf : List UInt8} {n : Int} {mid : UInt16} {token : UInt64}

/-- Only the bytes that were read are looked at. -/
theorem buildMessage_take (h0 : 0 ≤ n) (hn : n ≤ msgBuf.length) (hlt : msgBuf.length < 2 ^ 63) :
    buildMessage path (msgBuf.take n.toNat) n mid token = buildMessage path msgBuf n mid token := by
  have hsz : sz n = n.toNat := sz_of_range h0 (by omega)
  have hset : ∀ pdu, coapSetPayload pdu (msgBuf.take n.toNat) n.toNat
      = coapSetPayload pdu msgBuf n.toNat := fun pdu => coapSetPayload_take (by omega)
  simp only [buildMessage, hsz, hset]

/-- A failed `read`: the length wraps around in the check, and the copy reads far behind the
    array. -/
theorem coapSetPayload_wraps {pdu : CoapPdu} {msg : Message} {payload : List UInt8}
    (h : Encodes pdu msg) (hnone : msg.payload = []) (hlen : payload.length < 2 ^ 63)
    (hroom : pdu.len < pdu.max) : coapSetPayload pdu payload (sz (-1)) = none := by
  obtain ⟨tkl, htkl, htklNat⟩ := h.tkl
  have hopts := h.optionsAt
  have hlen' := h.len
  have hsize := h.size
  have hmax := h.max_lt
  have hfind := @findOptionsEnd_eq _ _ _ _ _ (pdu.buf.length + 1) hopts hopts.length_lt_fuel
  rw [encode_front, hnone, payloadBytes_nil, List.append_nil] at hlen'
  rw [← frontOf_length, hnone, payloadBytes_nil, endError_nil, ← hlen'] at hfind
  have hminus : sz (-1) = 2 ^ 64 - 1 := rfl
  have hwrap : sz (pdu.len + (2 ^ 64 - 1 : Nat) + 1) = pdu.len := by
    unfold sz
    omega
  rw [coapSetPayload, htkl]
  simp only [Option.bind_eq_bind, Option.bind_some, htklNat, hfind, hminus, hwrap]
  rw [if_neg (by decide), if_pos trivial, if_neg (by omega),
    putAt_eq (by rw [List.length_singleton]; omega)]
  simp only [Option.bind_some]
  rw [putPayload, if_pos (by omega)]

theorem buildMessage_error (hpath : path.length ≤ 127) (hnul : 0 ∉ path)
    (hbuf : msgBuf.length = msgBufLen) :
    buildMessage (padded coapPathLen path) msgBuf (-1) mid token = none := by
  have hlen := @requestOf_encode_length path [] mid token (by omega)
  rw [payloadBytes_nil, List.length_nil] at hlen
  have hstrlen : strlen (padded coapPathLen path) = some path.length :=
    strlen_padded (by unfold coapPathLen; omega) hnul
  obtain ⟨p, hmax, henc, hrest⟩ := buildMessage_head mid token
  obtain ⟨p', hadd, hmax', henc'⟩ := addPath hmax henc hpath
  have hroom : p'.len < p'.max := by
    rw [henc'.len, hlen, hmax']
    unfold msgBufLen
    split <;> omega
  rw [hrest, hstrlen, Option.bind_some, hadd, Option.bind_some,
    coapSetPayload_wraps henc' rfl (by rw [hbuf]; decide) hroom]
  rfl

/-- A turn that read something builds a request, from the bytes that were read alone. -/
theorem buildMessage_read (hpath : path.length ≤ 127) (hnul : 0 ∉ path)
    (hbuf : msgBuf.length = msgBufLen) (h1 : 1 ≤ n) (hhigh : n ≤ msgBufLen) :
    ∃ pdu, Encodes pdu (requestOf path (requestPayload path (msgBuf.take n.toNat)) mid token) ∧
      ∀ msgBuf' : List UInt8, msgBuf'.length = msgBuf.length →
        msgBuf'.take n.toNat = msgBuf.take n.toNat →
        buildMessage (padded coapPathLen path) msgBuf' n mid token = some pdu := by
  have hlt : msgBuf.length < 2 ^ 63 := by rw [hbuf]; decide
  have hlen : (msgBuf.take n.toNat).length = n.toNat := by
    rw [List.length_take]
    omega
  have hne : msgBuf.take n.toNat ≠ [] := List.ne_nil_of_length_pos (by omega)
  have hnat : ((msgBuf.take n.toNat).length : Int) = n := by omega
  obtain ⟨pdu, hbuild, -, henc⟩ := @buildMessage_eq _ _ mid token (msgBuf.take n.toNat) hpath hnul
    hne (by omega) (by rw [hlen, List.take_take, Nat.min_self])
  rw [hnat] at hbuild
  refine ⟨pdu, henc, fun msgBuf' hlen' htake => ?_⟩
  rw [← buildMessage_take (by omega) (by omega) (by omega), htake]
  exact hbuild

/-- The request without a payload is a message of the format. -/
theorem requestOf_carries (hpath : path.length ≤ 127) (payload : List UInt8) :
    CarriesPayload (requestOf path payload mid token).encode payload := by
  have hopt : ∀ o ∈ (requestOf path payload mid token).opts, o = ⟨conUriPath, path⟩ :=
    fun o ho => List.mem_singleton.mp ho
  refine @carriesPayload_encode (requestOf path payload mid token) rfl ?_ ?_
  · intro o ho
    rw [hopt o ho]
    exact (by decide : conUriPath ≤ 65535)
  · intro o ho
    rw [hopt o ho]
    exact (by omega : path.length ≤ 65535)

/-- `read` failed, and the copy leaves the array. -/
theorem not_represents_error (hpath : path.length ≤ 127) (hnul : 0 ∉ path)
    (hbuf : msgBuf.length = msgBufLen) : ¬ Represents path msgBuf (-1) mid token := by
  rintro ⟨pdu, hbuild, -⟩
  rw [buildMessage_error hpath hnul hbuf] at hbuild
  cases hbuild

/-- At the end of the file the request ends with a marker. -/
theorem not_represents_nothing (hpath : path.length ≤ 127) (hnul : 0 ∉ path) :
    ¬ Represents path msgBuf 0 mid token := by
  rintro ⟨pdu, hbuild, -, hcarries, -⟩
  obtain ⟨pdu', hbuild', -, -, htake⟩ := buildMessage_nothing hpath hnul msgBuf mid token
  obtain rfl : pdu = pdu' := Option.some_inj.mp (hbuild.symm.trans hbuild')
  rw [htake] at hcarries
  exact not_carriesPayload_marker (requestOf_carries hpath []) hcarries

/-- A turn represents what it read exactly when it read something and that fits. -/
theorem represents_iff (hpath : path.length ≤ 127) (hnul : 0 ∉ path)
    (hbuf : msgBuf.length = msgBufLen) (hlow : -1 ≤ n) (hhigh : n ≤ msgBufLen) :
    Represents path msgBuf n mid token ↔
      1 ≤ n ∧ requestSize path (msgBuf.take n.toNat) ≤ msgBufLen := by
  by_cases hneg : n = -1
  · subst hneg
    exact ⟨fun h => absurd h (not_represents_error hpath hnul hbuf), fun h => by omega⟩
  by_cases hzero : n = 0
  · subst hzero
    exact ⟨fun h => absurd h (not_represents_nothing hpath hnul), fun h => by omega⟩
  have h1 : 1 ≤ n := by omega
  obtain ⟨pdu, henc, hsame⟩ := @buildMessage_read path msgBuf n mid token hpath hnul hbuf h1 hhigh
  have hbuild := hsame msgBuf rfl rfl
  have hcarries := carriesPayload_of_encodes henc
  have hle : pdu.len ≤ pdu.buf.length := henc.size ▸ henc.len_le
  rw [show (requestOf path (requestPayload path (msgBuf.take n.toNat)) mid token).payload
    = requestPayload path (msgBuf.take n.toNat) from rfl, requestPayload] at hcarries
  constructor
  · rintro ⟨pdu', hbuild', -, hcarries', -⟩
    obtain rfl : pdu = pdu' := Option.some_inj.mp (hbuild.symm.trans hbuild')
    refine ⟨h1, ?_⟩
    by_contra hbig
    -- the request carries nothing, and something was read
    rw [if_neg hbig] at hcarries
    have hlen := congrArg List.length (CarriesPayload.unique hcarries' hcarries)
    rw [List.length_take, List.length_nil] at hlen
    omega
  · rintro ⟨-, hfit⟩
    rw [if_pos hfit] at hcarries
    exact ⟨pdu, hbuild, hle, hcarries, hsame⟩

end Turn

/-- One byte that was read, for a path of one byte. -/
theorem represents_iff_one :
    Represents [0x61] (0x62 :: List.replicate 511 0) 1 0x1234 0xABCD :=
  (represents_iff (by decide) (by decide) (by rw [List.length_cons, List.length_replicate]; rfl)
    (by decide) (by decide)).mpr ⟨by decide, by decide⟩

/-- A failed `read` and the end of the file. -/
theorem not_represents_unread :
    ¬ Represents [0x61] (List.replicate 512 0) (-1) 0x1234 0xABCD ∧
      ¬ Represents [0x61] (List.replicate 512 0) 0 0x1234 0xABCD :=
  ⟨not_represents_error (by decide) (by decide) List.length_replicate,
    not_represents_nothing (by decide) (by decide)⟩

end Gateway.CoapClient.Turn
