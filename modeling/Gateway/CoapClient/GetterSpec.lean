/-
  Gateway.CoapClient.GetterSpec

  The getters of the client's library on a `coap_pdu` that holds a message of the
  format: the header fields, the token, and the options `coap_get_option` iterates
  over.

  `coap_get_option` finds its place from the option it is given.  It stands at an
  option list (`StandsAt`) when that place is where the list starts, and one call
  goes to the next option; the loop over the calls follows by induction on the
  options.
-/

import Gateway.CoapClient.PduSpec

namespace Gateway.CoapClient.GetterSpec

open Gateway.Lib.ByteWindow Gateway.Lib.BlockMem Gateway.Lib.ByteBits Gateway.Lib.CoapFormat
open Gateway.CoapClient.Picocoap Gateway.CoapClient.DecodeSpec Gateway.CoapClient.PduSpec

/-! ## The token as a number -/

/-- The bytes of a number that is given by its bytes, lowest first. -/
theorem ofDigits_byte (bs : List UInt8) (i : Nat) :
    Nat.ofDigits 256 (bs.map UInt8.toNat) / 256 ^ i % 256 = (bs[i]?.getD 0).toNat := by
  induction bs generalizing i with
  | nil => simp
  | cons b bs ih =>
    have hb := b.toNat_lt
    rw [List.map_cons, Nat.ofDigits_cons]
    cases i with
    | zero =>
      show (b.toNat + 256 * _) / 1 % 256 = b.toNat
      omega
    | succ i =>
      have hrest : (b.toNat + 256 * Nat.ofDigits 256 (bs.map UInt8.toNat)) / 256
          = Nat.ofDigits 256 (bs.map UInt8.toNat) := by
        omega
      rw [Nat.pow_succ', ← Nat.div_div_eq_div_mul, hrest, ih i]
      rfl

/-- In memory stand the bytes the `uint64_t` was made of, and zeros behind them. -/
theorem tokenBytes_tokenOf {bs : List UInt8} (h : bs.length ≤ 8) :
    tokenBytes (tokenOf bs) = bs ++ List.replicate (8 - bs.length) 0 := by
  have hlt : Nat.ofDigits 256 (bs.map UInt8.toNat) < 2 ^ 64 := by
    have hdigits : ∀ d ∈ bs.map UInt8.toNat, d < 256 := by
      intro d hd
      obtain ⟨b, -, rfl⟩ := List.mem_map.mp hd
      exact b.toNat_lt
    have hle := Nat.ofDigits_lt_base_pow_length (show 1 < 256 by decide) hdigits
    rw [List.length_map] at hle
    calc _ < 256 ^ bs.length := hle
      _ ≤ 256 ^ 8 := Nat.pow_le_pow_right (by decide) h
      _ = 2 ^ 64 := by decide
  apply List.ext_getElem?
  intro i
  by_cases hi : i < 8
  · have hbyte : ((tokenOf bs >>> UInt64.ofNat (8 * i)).toUInt8).toNat
        = (bs[i]?.getD 0).toNat := by
      have hpow : 2 ^ (8 * i) = 256 ^ i := by rw [Nat.pow_mul]
      rw [UInt64.toNat_toUInt8, UInt64.toNat_shiftRight, UInt64.toNat_ofNat', tokenOf,
        UInt64.toNat_ofNat', Nat.mod_eq_of_lt hlt, Nat.shiftRight_eq_div_pow,
        show 8 * i % 2 ^ 64 % 64 = 8 * i by omega, hpow]
      exact ofDigits_byte bs i
    rw [tokenBytes, List.getElem?_map, List.getElem?_range hi, Option.map_some,
      UInt8.toNat_inj.mp hbyte]
    rcases Nat.lt_or_ge i bs.length with hlt | hge
    · rw [List.getElem?_append_left hlt, List.getElem?_eq_getElem hlt]
      rfl
    · rw [List.getElem?_append_right hge, List.getElem?_replicate, if_pos (by omega),
        List.getElem?_eq_none hge]
      rfl
  · rw [List.getElem?_eq_none, List.getElem?_eq_none]
    · rw [List.length_append, List.length_replicate]
      omega
    · rw [tokenBytes, List.length_map, List.length_range]
      omega

/-! ## Header fields -/

section Header

variable {pdu : CoapPdu} {msg : Message}

theorem coapGetVersion_of_encodes (h : Encodes pdu msg) :
    ∃ ver, coapGetVersion pdu = some ver ∧ ver.toNat = msg.ver.val := by
  obtain ⟨rest, hbuf⟩ := h.bytes
  have hle := msg.token_le
  have htype := msg.type.isLt
  refine ⟨headByte msg.ver msg.type msg.token.length >>> 6, ?_, ?_⟩
  · rw [coapGetVersion, hbuf, encode_eq]
    rfl
  · rw [toNat_shiftRight6, headByte_toNat msg.ver.isLt htype (by omega)]
    omega

theorem coapGetType_of_encodes (h : Encodes pdu msg) :
    ∃ t, coapGetType pdu = some t ∧ t.toNat = msg.type.val := by
  obtain ⟨rest, hbuf⟩ := h.bytes
  have hle := msg.token_le
  have htype := msg.type.isLt
  refine ⟨(headByte msg.ver msg.type msg.token.length >>> 4) &&& 0x03, ?_, ?_⟩
  · rw [coapGetType, hbuf, encode_eq]
    rfl
  · rw [toNat_low2_shiftRight4, headByte_toNat msg.ver.isLt htype (by omega)]
    omega

theorem coapGetCode_of_encodes (h : Encodes pdu msg) : coapGetCode pdu = some msg.code := by
  obtain ⟨rest, hbuf⟩ := h.bytes
  rw [coapGetCode, hbuf, encode_eq]
  rfl

theorem coapGetMid_of_encodes (h : Encodes pdu msg) :
    coapGetMid pdu = some (msg.idHi.toUInt16 <<< 8 ||| msg.idLo.toUInt16) := by
  obtain ⟨rest, hbuf⟩ := h.bytes
  rw [coapGetMid, hbuf, encode_eq]
  rfl

theorem coapGetToken_of_encodes (h : Encodes pdu msg) :
    coapGetToken pdu = some (tokenOf msg.token) := by
  obtain ⟨tkl, htkl, hnat⟩ := h.tkl
  obtain ⟨rest, hbuf⟩ := h.bytes
  have hle := msg.token_le
  have hlen := h.len
  have hfit := h.len_le
  have hsize := h.size
  rw [encode_length] at hlen
  have h8 : ¬ 8 < tkl := by
    rw [UInt8.lt_iff_toNat_lt, hnat]
    exact Nat.not_lt_of_le hle
  rw [coapGetToken, htkl]
  simp only [Option.bind_eq_bind, Option.bind_some, hnat]
  rw [if_neg (by omega), if_neg (not_or.mpr ⟨h8, by omega⟩), slice, hbuf, encode_eq]
  congr 2
  simp only [List.cons_append, List.append_assoc, List.drop_succ_cons, List.drop_zero,
    List.take_left]

end Header

/-! ## coap_get_option -/

/-- The option that is decoded stands for option `o` of the message. -/
structure IsOption (addr : Nat) (pdu : CoapPdu) (opt : CoapOption) (o : Opt) : Prop where
  num : opt.num.toNat = o.num
  len : opt.len = o.value.length
  lower : addr ≤ opt.val
  upper : opt.val + opt.len ≤ addr + pdu.len
  value : slice pdu.buf (opt.val - addr) opt.len = o.value

theorem IsOption.num_ne_zero {addr : Nat} {pdu : CoapPdu} {opt : CoapOption} {o : Opt}
    (h : IsOption addr pdu opt o) (hnum : 1 ≤ o.num) : opt.num ≠ 0 := by
  intro h0
  have hnat := h.num
  rw [h0] at hnat
  exact absurd hnat (by show ¬ (0 = o.num); omega)

/-- `coap_get_option` goes on from `last` at offset `ptr`, behind option number `prev`. -/
def StandsAt (addr : Nat) (pdu : CoapPdu) (last : Option CoapOption) (ptr prev : Nat) : Prop :=
  optionStart addr pdu last = some (UInt16.ofNat prev, addr + ptr)

/-- The packet stands at address `addr`: not at NULL, and without wrapping around. -/
structure PlacedAt (addr : Nat) (pdu : CoapPdu) : Prop where
  pos : 0 < addr
  lt : addr + pdu.len < 2 ^ 64

/-- Option `o` of the message, when its header stands at offset `ptr`, behind option number
    `prev`. -/
def optionAt (addr ptr prev : Nat) (o : Opt) : CoapOption where
  num := UInt16.ofNat o.num
  len := o.value.length
  val := addr + (ptr + (optHeader (o.num - prev) o.value.length).length)

/-- The offset behind its value. -/
def behind (ptr prev : Nat) (o : Opt) : Nat :=
  ptr + (optHeader (o.num - prev) o.value.length).length + o.value.length

/-- The option that `coap_get_option` returns behind option number `prev` when only `tail` is left:
    nothing, or a marker and the payload. -/
def endOption (addr : Nat) (pdu : CoapPdu) (prev : Nat) : List UInt8 → CoapOption
  | [] => { num := 0, len := 0, val := 0 }
  | _ :: t =>
    -- only before the first option the payload is pointed to
    if prev = 0 then { num := 0, len := t.length, val := addr + (pdu.len - t.length) }
    else { num := 0, len := sz (pdu.len - (0 - addr)), val := 0 }

@[simp] theorem endOption_num (addr : Nat) (pdu : CoapPdu) (prev : Nat) (tail : List UInt8) :
    (endOption addr pdu prev tail).num = 0 := by
  cases tail with
  | nil => rfl
  | cons b t =>
    rw [endOption]
    split <;> rfl

section Options

variable {addr ptr prev : Nat} {pdu : CoapPdu} {last : Option CoapOption} {opt : CoapOption}
  {o : Opt} {os : List Opt} {tail : List UInt8}

/-- From an option with number 0 it starts at the first option. -/
theorem standsAt_first {tkl : UInt8} (htkl : coapGetTkl pdu = some tkl)
    (hle : 4 + tkl.toNat ≤ pdu.len) (hopt : opt.num = 0) :
    StandsAt addr pdu (some opt) (4 + tkl.toNat) 0 := by
  -- behind the header and the token
  have hfirst : firstOption addr pdu = some (addr + (4 + tkl.toNat)) := by
    rw [firstOption, htkl, ← Nat.add_assoc]
    rfl
  have hnone : (some opt).filter (fun last => last.num != 0) = none := by
    rw [Option.filter_some, hopt]
    rfl
  rw [StandsAt, optionStart, hnone, hfirst]
  show (if addr + pdu.len < addr + (4 + tkl.toNat) ∨ addr + (4 + tkl.toNat) ≤ addr
    then _ else some ((0 : UInt16), addr + (4 + tkl.toNat))) = _
  rw [if_neg (by omega)]
  rfl

theorem standsAt_first_of_encodes {msg : Message} (h : Encodes pdu msg) (hopt : opt.num = 0) :
    StandsAt addr pdu (some opt) (4 + msg.token.length) 0 := by
  obtain ⟨tkl, htkl, hnat⟩ := h.tkl
  have hlen := h.len
  rw [encode_length] at hlen
  rw [← hnat]
  exact standsAt_first htkl (by omega) hopt

/-- From an option it goes on behind the value, also when that is the end of the packet. -/
theorem standsAt_next (ha : PlacedAt addr pdu) (hnum : opt.num ≠ 0) (hptr : 0 < ptr)
    (hle : ptr ≤ pdu.len) (hval : opt.val + opt.len = addr + ptr) :
    StandsAt addr pdu (some opt) ptr opt.num.toNat := by
  have hpos := ha.pos
  have hlt := ha.lt
  have hsome : (some opt).filter (fun last => last.num != 0) = some opt := by
    rw [Option.filter_some, if_pos (by simpa using hnum)]
  have hsz : sz (opt.val + opt.len) = addr + ptr := by
    rw [sz_of_range (by omega) (by omega)]
    omega
  rw [StandsAt, optionStart, hsome]
  simp only [Option.bind_eq_bind, Option.bind_some, hsz, UInt16.ofNat_toNat]
  rw [if_neg (by omega)]

/-- At an option: its header is decoded, with a length of 16 bits. -/
theorem coapGetOption_decodes (hs : StandsAt addr pdu last ptr prev)
    (h : ListedAt pdu ptr prev (o :: os) tail) :
    coapGetOption addr pdu last
      = some { optionAt addr ptr prev o with len := o.value.length % 65536 } := by
  obtain ⟨hdr, rfl, hdecode, -, -, -⟩ := h.cons
  have hprev : prev ≤ o.num := (List.pairwise_cons.mp h.sorted).1 o.num (by simp)
  have hlen : (UInt16.ofNat o.value.length).toNat = o.value.length % 65536 := UInt16.toNat_ofNat'
  rw [coapGetOption, hs]
  simp only [Option.bind_eq_bind, Option.bind_some, Nat.add_sub_cancel_left, hdecode,
    ofNat_add_delta hprev, hlen, optionAt]

/-- The place of an option of the message. -/
theorem isOption_optionAt (h : ListedAt pdu ptr prev (o :: os) tail) :
    IsOption addr pdu (optionAt addr ptr prev o) o := by
  obtain ⟨hdr, rfl, -, -, hle, -⟩ := h.cons
  have ho := h.nums o (List.mem_cons_self ..)
  have hnat : (UInt16.ofNat o.num).toNat = o.num := by rw [UInt16.toNat_ofNat']; omega
  refine ⟨hnat, rfl, by simp only [optionAt]; omega, by simp only [optionAt]; omega, ?_⟩
  -- the value stands behind the header
  have hbytes := h.bytes
  rw [toWire_cons, optsBytes_cons, WireOpt.bytes, List.append_assoc, List.append_assoc] at hbytes
  have hvalue := slice_of_slice_eq_append (slice_add_of_slice_eq_append hbytes)
  simp only [optionAt, Nat.add_sub_cancel_left]
  exact hvalue

/-- At an option with a short value: it is returned, and the next call goes on behind it. -/
theorem coapGetOption_cons (ha : PlacedAt addr pdu) (hs : StandsAt addr pdu last ptr prev)
    (h : ListedAt pdu ptr prev (o :: os) tail) (hnum : 1 ≤ o.num) (hv : o.value.length ≤ 65535) :
    coapGetOption addr pdu last = some (optionAt addr ptr prev o) ∧
      StandsAt addr pdu (some (optionAt addr ptr prev o)) (behind ptr prev o) o.num ∧
      ListedAt pdu (behind ptr prev o) o.num os tail := by
  have hget := coapGetOption_decodes hs h
  have hopt := @isOption_optionAt addr _ _ _ _ _ _ h
  obtain ⟨hdr, rfl, -, hrest, hle, hpos⟩ := h.cons
  rw [Nat.mod_eq_of_lt (by omega)] at hget
  have hnext := @standsAt_next addr (behind ptr prev o) pdu (optionAt addr ptr prev o) ha
    (hopt.num_ne_zero hnum) (by unfold behind; omega) (by unfold behind; omega)
    (by simp only [optionAt, behind]; omega)
  rw [hopt.num] at hnext
  exact ⟨hget, hnext, hrest⟩

/-- Behind the last option number 0 is returned, with what `endOption` says. -/
theorem coapGetOption_nil (hs : StandsAt addr pdu last ptr prev)
    (h : ListedAt pdu ptr prev [] tail) (hprev : prev ≤ 65535) :
    coapGetOption addr pdu last = some (endOption addr pdu prev tail) := by
  have hend := h.nil
  have hfill := h.length_eq
  have hlt := h.len_lt
  rw [coapGetOption, hs]
  simp only [Option.bind_eq_bind, Option.bind_some, Nat.add_sub_cancel_left, hend]
  rcases h.tail_cases with rfl | ⟨t, rfl⟩
  · rfl
  · rw [toWire_nil, optsBytes_nil, List.length_nil, List.length_cons] at hfill
    rw [endError_cons, endOption]
    simp only
    -- the branches differ in the length and the pointer
    by_cases h0 : prev = 0
    · have hsz : sz (pdu.len - ptr - 1) = t.length := by
        rw [sz_of_range (by omega) (by omega)]
        omega
      have hval : addr + ptr + 1 = addr + (pdu.len - t.length) := by omega
      rw [if_pos h0, if_pos (by rw [h0]; rfl), hsz, hval]
    · have hne : UInt16.ofNat prev ≠ 0 := by
        rw [Ne, ← UInt16.toNat_inj, UInt16.toNat_ofNat']
        show ¬ prev % 2 ^ 16 = 0
        omega
      rw [if_neg h0, if_neg hne]

/-- The loop visits the options one behind the other and stops behind the last one. -/
theorem prettyPrintOptions_eq {fuel : Nat} (ha : PlacedAt addr pdu)
    (hs : StandsAt addr pdu (some opt) ptr prev) (h : OptionsAt pdu ptr prev os tail)
    (hprev : prev ≤ 65535) (hnums : ∀ o ∈ os, 1 ≤ o.num) (hfuel : os.length < fuel) :
    ∃ opts, prettyPrintOptions addr pdu fuel opt
        = some (opts, endOption addr pdu (lastNum prev os) tail) ∧
      List.Forall₂ (IsOption addr pdu) opts os := by
  induction os generalizing fuel opt ptr prev with
  | nil =>
    cases fuel with
    | zero => cases hfuel
    | succ fuel =>
      refine ⟨[], ?_, List.Forall₂.nil⟩
      rw [prettyPrintOptions, coapGetOption_nil hs h.listedAt hprev]
      exact if_pos (endOption_num addr pdu prev tail)
  | cons o os ih =>
    cases fuel with
    | zero => cases hfuel
    | succ fuel =>
      have ho := hnums o (List.mem_cons_self ..)
      have hopt := @isOption_optionAt addr _ _ _ _ _ _ h.listedAt
      obtain ⟨hget, hs', h'⟩ :=
        coapGetOption_cons ha hs h.listedAt ho (h.lens o (List.mem_cons_self ..))
      obtain ⟨opts, hrun, hall⟩ := ih hs'
        (h'.optionsAt fun o' ho' => h.lens o' (List.mem_cons_of_mem _ ho'))
        (h.nums o (List.mem_cons_self ..)) (fun o' ho' => hnums o' (List.mem_cons_of_mem _ ho'))
        (by simpa using hfuel)
      refine ⟨optionAt addr ptr prev o :: opts, ?_, List.Forall₂.cons hopt hall⟩
      rw [prettyPrintOptions, hget]
      simp only [Option.bind_eq_bind, Option.bind_some]
      rw [if_neg (hopt.num_ne_zero ho), hrun]
      rfl

end Options

end Gateway.CoapClient.GetterSpec
