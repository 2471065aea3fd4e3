/-
  Gateway.CoapClient.DecodeSpec

  How the client's library finds its way through a packet: `coap_decode_option`
  reads the option header that stands at `ptr`, and the loops of `coap_add_option`,
  `coap_set_payload` and `coap_get_payload` pass over the options of the format up
  to the end of the packet or the payload marker.
-/

import Gateway.Lib.ByteBits
import Gateway.Lib.CoapFormat
import Gateway.CoapClient.Picocoap

namespace Gateway.CoapClient.DecodeSpec

open Gateway.Lib.ByteWindow Gateway.Lib.BlockMem Gateway.Lib.ByteBits Gateway.Lib.CoapFormat
open Gateway.CoapClient.Picocoap

/-! ## size_t -/

/-- Numbers in range keep their value. -/
theorem sz_of_range {i : Int} (h0 : 0 ≤ i) (h : i < 2 ^ 64) : sz i = i.toNat := by
  rw [sz, Int.emod_eq_of_lt h0 h]

theorem sz_natCast {n : Nat} (h : n < 2 ^ 64) : sz n = n := by
  rw [sz_of_range (by omega) (by omega)]
  rfl

theorem sz_sub {a b : Nat} (hle : b ≤ a) (h : a < 2 ^ 64) : sz (a - b) = a - b := by
  rw [sz_of_range (by omega) (by omega)]
  omega

/-! ## coap_decode_option -/

section Decode

variable {buf bs rest : List UInt8} {ptr k : Nat}

/-- An extension is read off the bytes behind `ptr`. -/
theorem decodeExt_ok {nib : UInt16} {n : Nat} (hs : slice buf ptr k = bs)
    (h : readExt nib.toNat bs = some (n, rest)) :
    decodeExt buf nib ptr = .ok (UInt16.ofNat n, ptr + (ext n).length) := by
  -- the pointer moves on by the bytes of the extension
  obtain ⟨-, happ, -⟩ := eq_ext_of_readExt h
  have hlen : (ext n).length + rest.length = bs.length := by rw [happ, List.length_append]
  simp only [decodeExt, UInt16.lt_iff_toNat_lt, ← UInt16.toNat_inj, UInt16.reduceToNat]
  unfold readExt at h
  split at h
  · next h13 =>
    obtain ⟨rfl, rfl⟩ : nib.toNat = n ∧ bs = rest := by simpa using h
    have hk : (ext nib.toNat).length = 0 := by omega
    rw [if_pos h13, hk, UInt16.ofNat_toNat]
    rfl
  next hge =>
  rw [if_neg hge]
  split at h
  · next h13 =>
    cases bs with
    | nil => cases h
    | cons b bs =>
      obtain ⟨rfl, rfl⟩ : b.toNat + 13 = n ∧ bs = rest := by simpa using h
      have hk : (ext (b.toNat + 13)).length = 1 := by
        rw [List.length_cons] at hlen
        omega
      have hb : buf[ptr]? = some b := getElem?_of_slice_eq_cons hs
      rw [if_pos h13, hb, hk, ← toUInt16_add]
      rfl
  next hne =>
  rw [if_neg hne]
  split at h
  · next h14 =>
    match bs, h with
    | b :: c :: bs, h =>
      obtain ⟨rfl, rfl⟩ : b.toNat * 256 + c.toNat + 269 = n ∧ bs = rest := by simpa using h
      have hk : (ext (b.toNat * 256 + c.toNat + 269)).length = 2 := by
        simp only [List.length_cons] at hlen
        omega
      have hb : buf[ptr]? = some b := getElem?_of_slice_eq_cons hs
      have hc : buf[ptr + 1]? = some c :=
        getElem?_of_slice_eq_cons (slice_succ_of_slice_eq_cons hs)
      rw [if_pos h14, hb, hc, hk, ← bigEndian_add_eq]
      rfl
  · cases h

/-- The option header at `ptr` is read, with the numbers cut down to 16 bits. -/
theorem coapDecodeOption_ok {d l pktLen : Nat} (hs : slice buf ptr k = optHeader d l ++ rest)
    (hd : d ≤ extMax) (hl : l ≤ extMax) (hlen : pktLen ≠ 0) :
    coapDecodeOption buf ptr pktLen
      = .ok (UInt16.ofNat d, UInt16.ofNat l, ptr + (optHeader d l).length) := by
  have hd15 := nibble_lt d
  have hl15 := nibble_lt l
  have hfirst := firstByte_toNat d l
  have hext := readExt_ext hd (ext l ++ rest)
  have hext' := readExt_ext hl rest
  rw [optHeader, List.cons_append, List.append_assoc] at hs
  -- the nibbles of the first byte, then the extension of the delta, then that of the length
  generalize hb : UInt8.ofNat (nibble d * 16 + nibble l) = b at hs hfirst
  have hb0 : buf[ptr]? = some b := getElem?_of_slice_eq_cons hs
  have hs1 := slice_succ_of_slice_eq_cons hs
  have hs2 := slice_add_of_slice_eq_append hs1
  have hhi : (b >>> 4).toUInt16.toNat = nibble d := by
    rw [UInt8.toNat_toUInt16, toNat_shiftRight4, hfirst]
    omega
  have hlo : (b &&& 0x0F).toUInt16.toNat = nibble l := by
    rw [UInt8.toNat_toUInt16, toNat_lowNibble, hfirst]
    omega
  -- neither nibble is 15
  have hne : b ≠ 0xFF := by
    intro h255
    rw [h255] at hfirst
    have h255' : (0xFF : UInt8).toNat = 255 := rfl
    omega
  rw [coapDecodeOption, if_neg hlen, hb0]
  simp only [Outcome.liftM_some, Outcome.ok_bind]
  rw [if_neg hne, decodeExt_ok hs1 (hhi.symm ▸ hext)]
  simp only [Outcome.ok_bind]
  rw [decodeExt_ok hs2 (hlo.symm ▸ hext')]
  simp only [Outcome.ok_bind, optHeader, List.length_cons, List.length_append]
  congr 3
  omega

/-- At the end of the packet. -/
theorem coapDecodeOption_end : coapDecodeOption buf ptr 0 = .err .endOfPacket := if_pos rfl

/-- At the payload marker. -/
theorem coapDecodeOption_marker {pktLen : Nat} (hs : slice buf ptr k = 0xFF :: bs)
    (hlen : pktLen ≠ 0) : coapDecodeOption buf ptr pktLen = .err .foundPayloadMarker := by
  have hb : buf[ptr]? = some 0xFF := getElem?_of_slice_eq_cons hs
  rw [coapDecodeOption, if_neg hlen, hb]
  rfl

/-- The number of bytes that are left only matters when it is 0. -/
theorem coapDecodeOption_pktLen {n m : Nat} (hn : n ≠ 0) (hm : m ≠ 0) :
    coapDecodeOption buf ptr n = coapDecodeOption buf ptr m := by
  rw [coapDecodeOption, coapDecodeOption, if_neg hn, if_neg hm]

theorem decodeExt_ptr_le {nib n : UInt16} {ptr' : Nat}
    (h : decodeExt buf nib ptr = .ok (n, ptr')) : ptr ≤ ptr' ∧ ptr' ≤ ptr + 2 := by
  unfold decodeExt at h
  split at h
  · obtain ⟨rfl, rfl⟩ := Prod.mk.inj (Outcome.ok.inj h)
    omega
  split at h
  · obtain ⟨b, -, h⟩ := Outcome.bind_eq_ok.mp h
    obtain ⟨rfl, rfl⟩ := Prod.mk.inj (Outcome.ok.inj h)
    omega
  split at h
  · obtain ⟨b, -, h⟩ := Outcome.bind_eq_ok.mp h
    obtain ⟨c, -, h⟩ := Outcome.bind_eq_ok.mp h
    obtain ⟨rfl, rfl⟩ := Prod.mk.inj (Outcome.ok.inj h)
    omega
  · cases h

/-- The value of an option starts behind its first byte. -/
theorem coapDecodeOption_ptr_lt {n val : Nat} {delta len : UInt16}
    (h : coapDecodeOption buf ptr n = .ok (delta, len, val)) : ptr < val ∧ val ≤ ptr + 5 := by
  unfold coapDecodeOption at h
  split at h
  · cases h
  obtain ⟨b, -, h⟩ := Outcome.bind_eq_ok.mp h
  split at h
  · cases h
  obtain ⟨⟨d, p⟩, hd, h⟩ := Outcome.bind_eq_ok.mp h
  obtain ⟨⟨l, q⟩, hl, h⟩ := Outcome.bind_eq_ok.mp h
  obtain ⟨hp, hp'⟩ := decodeExt_ptr_le hd
  obtain ⟨hq, hq'⟩ := decodeExt_ptr_le hl
  obtain ⟨-, h⟩ := Prod.mk.inj (Outcome.ok.inj h)
  obtain ⟨-, rfl⟩ := Prod.mk.inj h
  omega

/-- What is decoded starts inside of the buffer. -/
theorem lt_of_coapDecodeOption {n : Nat} (hn : n ≠ 0)
    (h : coapDecodeOption buf ptr n ≠ .fault) : ptr < buf.length := by
  by_contra hge
  have hnone : buf[ptr]? = none := List.getElem?_eq_none (Nat.not_lt.mp hge)
  apply h
  rw [coapDecodeOption, if_neg hn, hnone]
  rfl

end Decode

/-! ## The options of a packet -/

/-- From offset `ptr` to the end of the packet stand the options `os`, which follow option
    number `prev`, and then `tail`: nothing, or a marker and what is behind it. -/
structure OptionsAt (pdu : CoapPdu) (ptr prev : Nat) (os : List Opt) (tail : List UInt8) :
    Prop where
  bytes : slice pdu.buf ptr (pdu.len - ptr) = optsBytes (toWire prev os) ++ tail
  ptr_le : ptr ≤ pdu.len
  len_le : pdu.len ≤ pdu.buf.length
  len_lt : pdu.len < 2 ^ 64
  sorted : (prev :: os.map Opt.num).Pairwise (· ≤ ·)
  nums : ∀ o ∈ os, o.num ≤ 65535
  lens : ∀ o ∈ os, o.value.length ≤ 65535
  tail_cases : tail = [] ∨ ∃ t, tail = 0xFF :: t

/-- The same options, when the lengths of their values need not be 16-bit numbers. -/
structure ListedAt (pdu : CoapPdu) (ptr prev : Nat) (os : List Opt) (tail : List UInt8) :
    Prop where
  bytes : slice pdu.buf ptr (pdu.len - ptr) = optsBytes (toWire prev os) ++ tail
  ptr_le : ptr ≤ pdu.len
  len_le : pdu.len ≤ pdu.buf.length
  len_lt : pdu.len < 2 ^ 64
  sorted : (prev :: os.map Opt.num).Pairwise (· ≤ ·)
  nums : ∀ o ∈ os, o.num ≤ 65535
  lens : ∀ o ∈ os, o.value.length ≤ extMax
  tail_cases : tail = [] ∨ ∃ t, tail = 0xFF :: t

/-- What `coap_decode_option` returns behind the last option. -/
def endError (tail : List UInt8) : CoapError :=
  if tail = [] then .endOfPacket else .foundPayloadMarker

theorem endError_nil : endError [] = .endOfPacket := rfl

theorem endError_cons (b : UInt8) (bs : List UInt8) : endError (b :: bs) = .foundPayloadMarker := rfl

section Options

variable {pdu : CoapPdu} {ptr prev : Nat} {o : Opt} {os : List Opt} {tail : List UInt8}

/-- The options and the tail fill the packet. -/
theorem ListedAt.length_eq (h : ListedAt pdu ptr prev os tail) :
    ptr + (optsBytes (toWire prev os)).length + tail.length = pdu.len := by
  have hlen := congrArg List.length h.bytes
  have hle := h.ptr_le
  have hbuf := h.len_le
  rw [slice_length (by omega), List.length_append] at hlen
  omega

/-- At an option: it is decoded, with a length of 16 bits, and the other options stand behind
    it. -/
theorem ListedAt.cons (h : ListedAt pdu ptr prev (o :: os) tail) :
    ∃ hdr, hdr = (optHeader (o.num - prev) o.value.length).length ∧
      coapDecodeOption pdu.buf ptr (sz (pdu.len - ptr))
        = .ok (UInt16.ofNat (o.num - prev), UInt16.ofNat o.value.length, ptr + hdr) ∧
      ListedAt pdu (ptr + hdr + o.value.length) o.num os tail ∧
      ptr + hdr + o.value.length ≤ pdu.len ∧ 0 < hdr := by
  refine ⟨_, rfl, ?_⟩
  obtain ⟨-, hsorted⟩ := List.pairwise_cons.mp h.sorted
  have hnum := h.nums o (List.mem_cons_self ..)
  have hvalue := h.lens o (List.mem_cons_self ..)
  have hpos := optHeader_length_pos (o.num - prev) o.value.length
  have hfill := h.length_eq
  have hlt := h.len_lt
  have hle := h.ptr_le
  have hbytes := h.bytes
  rw [toWire_cons, optsBytes_cons, WireOpt.bytes, List.append_assoc, List.append_assoc] at hbytes
  rw [toWire_cons, optsBytes_cons, WireOpt.bytes, List.length_append, List.length_append] at hfill
  simp only at hbytes hfill
  -- header and value are passed over
  have hrest := slice_add_of_slice_eq_append (slice_add_of_slice_eq_append hbytes)
  refine ⟨?_, ?_, by omega, hpos⟩
  · rw [sz_sub hle hlt]
    exact coapDecodeOption_ok hbytes (by unfold extMax; omega) hvalue (by omega)
  · refine ⟨?_, by omega, h.len_le, hlt, hsorted, fun o' ho' => h.nums o' (List.mem_cons_of_mem _ ho'),
      fun o' ho' => h.lens o' (List.mem_cons_of_mem _ ho'), h.tail_cases⟩
    rw [← hrest]
    congr 1
    omega

/-- Behind the last option. -/
theorem ListedAt.nil (h : ListedAt pdu ptr prev [] tail) :
    coapDecodeOption pdu.buf ptr (sz (pdu.len - ptr)) = .err (endError tail) := by
  have hfill := h.length_eq
  have hlt := h.len_lt
  rw [toWire_nil, optsBytes_nil, List.length_nil] at hfill
  rw [sz_sub h.ptr_le hlt]
  rcases h.tail_cases with rfl | ⟨t, rfl⟩
  · have h0 : pdu.len - ptr = 0 := by
      rw [List.length_nil] at hfill
      omega
    rw [h0, coapDecodeOption_end]
    rfl
  · rw [List.length_cons] at hfill
    rw [coapDecodeOption_marker h.bytes (by omega)]
    rfl

theorem OptionsAt.listedAt (h : OptionsAt pdu ptr prev os tail) : ListedAt pdu ptr prev os tail :=
  ⟨h.bytes, h.ptr_le, h.len_le, h.len_lt, h.sorted, h.nums,
    fun o ho => Nat.le_trans (h.lens o ho) (by decide), h.tail_cases⟩

theorem ListedAt.optionsAt (h : ListedAt pdu ptr prev os tail)
    (hlens : ∀ o ∈ os, o.value.length ≤ 65535) : OptionsAt pdu ptr prev os tail :=
  ⟨h.bytes, h.ptr_le, h.len_le, h.len_lt, h.sorted, h.nums, hlens, h.tail_cases⟩

theorem OptionsAt.length_eq (h : OptionsAt pdu ptr prev os tail) :
    ptr + (optsBytes (toWire prev os)).length + tail.length = pdu.len :=
  h.listedAt.length_eq

theorem OptionsAt.cons (h : OptionsAt pdu ptr prev (o :: os) tail) :
    ∃ hdr, hdr = (optHeader (o.num - prev) o.value.length).length ∧
      coapDecodeOption pdu.buf ptr (sz (pdu.len - ptr))
        = .ok (UInt16.ofNat (o.num - prev), UInt16.ofNat o.value.length, ptr + hdr) ∧
      OptionsAt pdu (ptr + hdr + o.value.length) o.num os tail ∧
      ptr + hdr + o.value.length ≤ pdu.len ∧ 0 < hdr := by
  obtain ⟨hdr, hhdr, hdecode, hrest, hle, hpos⟩ := h.listedAt.cons
  exact ⟨hdr, hhdr, hdecode, hrest.optionsAt fun o' ho' => h.lens o' (List.mem_cons_of_mem _ ho'),
    hle, hpos⟩

theorem OptionsAt.nil (h : OptionsAt pdu ptr prev [] tail) :
    coapDecodeOption pdu.buf ptr (sz (pdu.len - ptr)) = .err (endError tail) :=
  h.listedAt.nil

/-- No more options than bytes. -/
theorem length_le_optsBytes (prev : Nat) (os : List Opt) :
    os.length ≤ (optsBytes (toWire prev os)).length := by
  induction os generalizing prev with
  | nil => exact Nat.zero_le _
  | cons o os ih =>
    have hpos := optHeader_length_pos (o.num - prev) o.value.length
    have hrest := ih o.num
    rw [toWire_cons, optsBytes_cons, WireOpt.bytes, List.length_append, List.length_append,
      List.length_cons]
    simp only at hpos ⊢
    omega

theorem OptionsAt.length_lt_fuel (h : OptionsAt pdu ptr prev os tail) :
    os.length < pdu.buf.length + 1 := by
  have hle := length_le_optsBytes prev os
  have hfill := h.length_eq
  have hbuf := h.len_le
  omega

/-! ## The loops -/

/-- The 16-bit running number. -/
theorem ofNat_add_delta {prev num : Nat} (h : prev ≤ num) :
    UInt16.ofNat prev + UInt16.ofNat (num - prev) = UInt16.ofNat num := by
  rw [ofNat_add_ofNat]
  congr 1
  omega

/-- The search passes over the options whose numbers are not larger than the new one. -/
theorem findInsertion_pass (fuel : Nat) {optNum : Int} {after : List Opt}
    (h : OptionsAt pdu ptr prev (os ++ after) tail) (hnum : ∀ o ∈ os, (o.num : Int) ≤ optNum) :
    findInsertion pdu optNum (fuel + os.length) ptr (UInt16.ofNat prev)
        = findInsertion pdu optNum fuel (ptr + (optsBytes (toWire prev os)).length)
            (UInt16.ofNat (lastNum prev os)) ∧
      OptionsAt pdu (ptr + (optsBytes (toWire prev os)).length) (lastNum prev os) after tail := by
  induction os generalizing ptr prev with
  | nil => exact ⟨rfl, h⟩
  | cons o os ih =>
    obtain ⟨hdr, hhdr, hdecode, hrest, hle, hpos⟩ := h.cons
    have hprev : prev ≤ o.num := (List.pairwise_cons.mp h.sorted).1 o.num (by simp)
    have ho := h.nums o (List.mem_append_left _ (List.mem_cons_self ..))
    have hv := h.lens o (List.mem_append_left _ (List.mem_cons_self ..))
    have hnat : (UInt16.ofNat o.num).toNat = o.num := by rw [UInt16.toNat_ofNat']; omega
    have hlen : (UInt16.ofNat o.value.length).toNat = o.value.length := by
      rw [UInt16.toNat_ofNat']; omega
    obtain ⟨hrun, hat⟩ := ih hrest fun o' ho' => hnum o' (List.mem_cons_of_mem _ ho')
    have hbehind : ptr + (optsBytes (toWire prev (o :: os))).length
        = ptr + hdr + o.value.length + (optsBytes (toWire o.num os)).length := by
      simp only [toWire_cons, optsBytes_cons, WireOpt.bytes, List.length_append, ← hhdr]
      omega
    rw [hbehind]
    refine ⟨?_, hat⟩
    rw [List.length_cons, ← Nat.add_assoc, findInsertion, hdecode]
    simp only [ofNat_add_delta hprev, hnat, hlen]
    -- a smaller or equal number: the loop goes on
    rw [if_pos ⟨hnum o (List.mem_cons_self ..), by omega⟩]
    exact hrun

/-- The place for an option whose number is not below any other is behind the last option. -/
theorem findInsertion_eq {fuel : Nat} {optNum : Int} (h : OptionsAt pdu ptr prev os tail)
    (hfuel : os.length < fuel) (hnum : ∀ o ∈ os, (o.num : Int) ≤ optNum) :
    findInsertion pdu optNum fuel ptr (UInt16.ofNat prev)
      = some (endError tail, ptr + (optsBytes (toWire prev os)).length,
          UInt16.ofNat (lastNum prev os)) := by
  obtain ⟨n, rfl⟩ : ∃ n, fuel = n + 1 + os.length := ⟨fuel - os.length - 1, by omega⟩
  obtain ⟨hrun, hat⟩ := findInsertion_pass (n + 1) (by rwa [List.append_nil]) hnum
  rw [hrun, findInsertion, hat.nil]

theorem findOptionsEnd_eq {fuel : Nat} (h : OptionsAt pdu ptr prev os tail)
    (hfuel : os.length < fuel) :
    findOptionsEnd pdu fuel ptr
      = some (endError tail, ptr + (optsBytes (toWire prev os)).length) := by
  induction os generalizing fuel ptr prev with
  | nil =>
    cases fuel with
    | zero => cases hfuel
    | succ fuel => rw [findOptionsEnd, h.nil]; rfl
  | cons o os ih =>
    cases fuel with
    | zero => cases hfuel
    | succ fuel =>
      obtain ⟨hdr, hhdr, hdecode, hrest, hle, hpos⟩ := h.cons
      have hv := h.lens o (List.mem_cons_self ..)
      have hlen : (UInt16.ofNat o.value.length).toNat = o.value.length := by
        rw [UInt16.toNat_ofNat']; omega
      rw [findOptionsEnd, hdecode]
      simp only [hlen]
      -- the value ends inside the packet
      rw [if_pos (by omega), ih hrest (by simpa using hfuel)]
      simp only [toWire_cons, optsBytes_cons, WireOpt.bytes, List.length_append, ← hhdr]
      congr 2
      omega

/-- `coap_get_payload` finds what stands behind the marker. -/
theorem getPayloadLoop_eq {fuel : Nat} {payload : List UInt8}
    (h : OptionsAt pdu ptr prev os (payloadBytes payload)) (hfuel : os.length < fuel) :
    getPayloadLoop pdu fuel ptr
      = some { len := payload.length,
               val := if payload = [] then none
                 else some (ptr + (optsBytes (toWire prev os)).length + 1) } := by
  induction os generalizing fuel ptr prev with
  | nil =>
    cases fuel with
    | zero => cases hfuel
    | succ fuel =>
      have hfill := h.length_eq
      have hlt := h.len_lt
      have hnil := h.nil
      rw [getPayloadLoop]
      -- without a payload there is no marker
      by_cases h0 : payload = []
      · subst h0
        rw [hnil]
        rfl
      · rw [payloadBytes_of_ne_nil h0] at hnil hfill
        rw [toWire_nil, optsBytes_nil, List.length_nil, List.length_cons] at hfill
        have hsz : sz (pdu.len - ptr - 1) = payload.length := by
          rw [sz_of_range (by omega) (by omega)]
          omega
        rw [hnil]
        simp only [endError, List.cons_ne_nil, if_false, h0, hsz, toWire_nil, optsBytes_nil,
          List.length_nil, Nat.add_zero]
  | cons o os ih =>
    cases fuel with
    | zero => cases hfuel
    | succ fuel =>
      obtain ⟨hdr, hhdr, hdecode, hrest, hle, hpos⟩ := h.cons
      have hv := h.lens o (List.mem_cons_self ..)
      have hlen : (UInt16.ofNat o.value.length).toNat = o.value.length := by
        rw [UInt16.toNat_ofNat']; omega
      rw [getPayloadLoop, hdecode]
      simp only [hlen]
      rw [ih hrest (by simpa using hfuel)]
      simp only [toWire_cons, optsBytes_cons, WireOpt.bytes, List.length_append, ← hhdr,
        Nat.add_assoc]

end Options

end Gateway.CoapClient.DecodeSpec
