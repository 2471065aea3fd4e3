/-
  Gateway.CoapClient.HeaderCodec

  The three functions of the client's library that know the form of an option header:
  `coap_compute_option_header_len` computes its length, `coap_build_option_header`
  writes it and `coap_decode_option` reads it.

  Each of them tells the three forms of a number apart for itself.  `PduSpec` and
  `DecodeSpec` compare each one with the header of the format (`optHeader`), so the
  three agree with one another (`coapBuildOptionHeader_writes`).
-/

import Gateway.CoapClient.PduSpec

namespace Gateway.CoapClient.HeaderCodec

open Gateway.Lib.ByteWindow Gateway.Lib.BlockMem Gateway.Lib.CoapFormat
open Gateway.CoapClient.Picocoap Gateway.CoapClient.DecodeSpec Gateway.CoapClient.PduSpec

/-- `buf'` is `buf` with a header for `delta` and `len` at `hdr`, in `n` bytes. -/
structure WritesHeader (buf buf' : List UInt8) (hdr n delta len : Nat) : Prop where
  length_eq : buf'.length = buf.length
  frame : ∀ i, i < hdr ∨ hdr + n ≤ i → buf'[i]? = buf[i]?
  /-- The first byte is not the payload marker. -/
  first : ∃ b, buf'[hdr]? = some b ∧ b ≠ 0xFF
  /-- Wherever these bytes stand, the delta and the length are read back. -/
  decode : ∀ (bytes : List UInt8) (ptr pktLen : Nat), slice bytes ptr n = slice buf' hdr n →
    n ≤ pktLen → ∃ d l, coapDecodeOption bytes ptr pktLen = .ok (d, l, ptr + n) ∧
      (∀ num : UInt16, (num + d).toNat = (num.toNat + delta) % 2 ^ 16) ∧ l.toNat = len

section Codec

variable {buf : List UInt8} {hdr delta len maxLen : Nat}

theorem firstByte_ne_marker (d l : Nat) : UInt8.ofNat (nibble d * 16 + nibble l) ≠ 0xFF := by
  intro h
  have hfirst := firstByte_toNat d l
  have hd15 := nibble_lt d
  have hl15 := nibble_lt l
  have h255 : (0xFF : UInt8).toNat = 255 := rfl
  rw [h, h255] at hfirst
  omega

/-- The header of the format is such a header. -/
theorem splice_optHeader_writes (hdelta : delta ≤ 65535) (hlen : len ≤ 65535)
    (hfit : hdr + (optHeader delta len).length ≤ buf.length) :
    WritesHeader buf (splice buf hdr (optHeader delta len)) hdr (optHeader delta len).length delta
      len where
  length_eq := splice_length hfit
  frame i hi := by
    rw [splice_getElem? hfit, if_neg (by omega)]
  first := by
    refine ⟨_, ?_, firstByte_ne_marker delta len⟩
    have hs := slice_splice_self hfit
    rw [optHeader] at hs
    exact getElem?_of_slice_eq_cons hs
  decode bytes ptr pktLen hs hle := by
    have hpos := optHeader_length_pos delta len
    have hd : (UInt16.ofNat delta).toNat = delta := by rw [UInt16.toNat_ofNat']; omega
    have hl : (UInt16.ofNat len).toNat = len := by rw [UInt16.toNat_ofNat']; omega
    rw [slice_splice_self hfit] at hs
    refine ⟨UInt16.ofNat delta, UInt16.ofNat len, ?_, fun num => ?_, hl⟩
    · exact coapDecodeOption_ok (hs.trans (List.append_nil _).symm) (by unfold extMax; omega)
        (by unfold extMax; omega) (by omega)
    · rw [UInt16.toNat_add, hd]

/-- For every delta and length of 16 bits and every buffer with room for as many bytes as
    `coap_compute_option_header_len` says, `coap_build_option_header` returns that number and
    writes a header of that many bytes. -/
theorem coapBuildOptionHeader_writes (hdelta : delta ≤ 65535) (hlen : len ≤ 65535)
    (hmax : coapComputeOptionHeaderLen delta len ≤ maxLen)
    (hfit : hdr + coapComputeOptionHeaderLen delta len ≤ buf.length) :
    ∃ buf', coapBuildOptionHeader buf hdr maxLen delta len
        = some (buf', coapComputeOptionHeaderLen delta len) ∧
      WritesHeader buf buf' hdr (coapComputeOptionHeaderLen delta len) delta len := by
  rw [coapComputeOptionHeaderLen_eq] at hmax hfit ⊢
  exact ⟨_, coapBuildOptionHeader_room (by unfold extMax; omega) (by unfold extMax; omega) hmax hfit,
    splice_optHeader_writes hdelta hlen hfit⟩

/-- Two extension bytes for the delta, one for the length. -/
theorem coapBuildOptionHeader_writes_269 : coapComputeOptionHeaderLen 269 13 = 4 ∧
    ∃ buf', coapBuildOptionHeader (List.replicate 8 0) 2 6 269 13 = some (buf', 4) ∧
      WritesHeader (List.replicate 8 0) buf' 2 4 269 13 :=
  ⟨by decide, @coapBuildOptionHeader_writes (List.replicate 8 0) 2 269 13 6 (by decide)
    (by decide) (by decide) (by decide)⟩

end Codec

end Gateway.CoapClient.HeaderCodec
