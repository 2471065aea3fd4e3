/-
  Gateway.CoapServer.Rebuild

  `coap_parse` and then `coap_build` of the packet that it found.

  The numbers of the packet are the sums of the deltas modulo 256, so they need not be
  sorted; `coap_build` writes delta 0 for a number below the one before it
  (`coapBuildOption_any`), and never an error.  What comes out is not longer than what
  went in, and it is the same datagram exactly when that has at most 16 options with
  numbers up to 255 and values of fewer than 269 bytes, and ends there or with a payload
  (`rebuild_iff`).
-/

import Gateway.CoapServer.BuildBounds
import Gateway.CoapServer.Grammar

namespace Gateway.CoapServer.Rebuild

open Gateway.Lib.ByteBits Gateway.Lib.ByteWindow Gateway.Lib.BlockMem Gateway.Lib.CoapFormat
open Gateway.CoapServer.Microcoap Gateway.CoapServer.ParseSpec Gateway.CoapServer.BuildSpec
open Gateway.CoapServer.BuildBounds (coapOptionNibble_wrapped)
open Gateway.CoapServer.Roundtrip (walk_optsBytes seenOf buildHeadByte_eq)
open Gateway.CoapServer.Grammar

variable {O : Type} [DecidableEq O]

/-! ## coap_build in any order -/

/-- The loop body writes delta 0 for a number below the one before it. -/
theorem coapBuildOption_any {m : Mem O} {buf : Ptr O} {o : CoapOption O} {w v : List UInt8}
    {prev : UInt8} (hv : o.buf.read m = some v) (hapart : Apart o.buf buf.obj)
    (hlen : o.buf.len ≤ 65535)
    (hfit : buf.off + (w ++ buildOptBytes (o.num.toNat - prev.toNat) v).length
      ≤ (m buf.obj).length) :
    coapBuildOption (written m buf w) (buf.add w.length) prev.toUInt16 o
      = some (written m buf (w ++ buildOptBytes (o.num.toNat - prev.toNat) v),
          buf.add (w ++ buildOptBytes (o.num.toNat - prev.toNat) v).length) := by
  by_cases hle : prev ≤ o.num
  · exact coapBuildOption_eq hv hapart hlen hle hfit
  · have hvlen := CoapBuffer.read_length hv
    have hzero : o.num.toNat - prev.toNat = 0 := by
      rw [UInt8.le_iff_toNat_le] at hle
      omega
    have hnib : (0 : UInt8) <<< 4 ||| UInt8.ofNat (nibble o.buf.len)
        = UInt8.ofNat (nibble 0 * 16 + nibble o.buf.len) := nibbles_or 0 o.buf.len
    have hb : w ++ buildOptBytes 0 v
        = (w ++ (UInt8.ofNat (nibble 0 * 16 + nibble o.buf.len) :: extBuild o.buf.len)) ++ v := by
      simp only [buildOptBytes, hvlen, List.append_assoc, List.cons_append]
      rfl
    rw [hzero, hb] at hfit ⊢
    have hno : optDeltaBytes 0 (o.num.toUInt32 - prev.toUInt16.toUInt32) = [] := rfl
    simp only [coapBuildOption, coapOptionNibble_wrapped hle, coapOptionNibble_eq hlen,
      Option.getD_none, Option.bind_eq_bind, Option.bind_some, hno, List.nil_append,
      optLenBytes_eq, hnib]
    rw [putBytes_written (by rw [List.length_append] at hfit; omega)]
    simp only [Option.bind_some]
    rw [memcpy_written (read_written hapart hv) hfit]
    simp only [Option.bind_some, Ptr.add_add, List.length_append, hvlen]

/-- The loop, in any order of the numbers. -/
theorem coapBuildOptions_any {m : Mem O} {buf : Ptr O} {buflen : Nat} {os : List (CoapOption O)}
    {vs : List (List UInt8)} {w : List UInt8} {prev : UInt8}
    (hreads : os.map (fun o => o.buf.read m) = vs.map some)
    (hapart : ∀ o ∈ os, Apart o.buf buf.obj) (hlen : ∀ o ∈ os, o.buf.len ≤ 65535)
    (hroom : buf.off + buflen ≤ (m buf.obj).length)
    (hfit : (w ++ buildOptsBytes prev.toNat ((os.map CoapOption.num).zip vs)).length ≤ buflen) :
    coapBuildOptions buf buflen os (written m buf w) (buf.add w.length) prev.toUInt16
      = some (.none, written m buf (w ++ buildOptsBytes prev.toNat ((os.map CoapOption.num).zip vs)),
          buf.add (w ++ buildOptsBytes prev.toNat ((os.map CoapOption.num).zip vs)).length) := by
  induction os generalizing vs w prev with
  | nil =>
    rw [List.map_nil, List.zip_nil_left, buildOptsBytes, List.append_nil]
    rfl
  | cons o os ih =>
    cases vs with
    | nil => cases hreads
    | cons v vs =>
      rw [List.map_cons, List.map_cons, List.cons.injEq] at hreads
      rw [List.forall_mem_cons] at hapart hlen
      have happ : w ++ buildOptsBytes prev.toNat (((o :: os).map CoapOption.num).zip (v :: vs))
          = (w ++ buildOptBytes (o.num.toNat - prev.toNat) v)
            ++ buildOptsBytes o.num.toNat ((os.map CoapOption.num).zip vs) := by
        rw [List.append_assoc]
        rfl
      rw [happ] at hfit ⊢
      have hfit₁ := hfit
      rw [List.length_append, List.length_append] at hfit₁
      rw [coapBuildOptions, if_neg (by simp only [Ptr.add]; omega),
        coapBuildOption_any hreads.1 hapart.1 hlen.1 (by rw [List.length_append]; omega)]
      exact ih hreads.2 hapart.2 hlen.2 hfit

/-- `coap_build` of a packet that stands outside the buffer, whatever its numbers. -/
theorem coapBuild_any {m : Mem O} {buf : Ptr O} {buflen : Nat} {pkt : CoapPacket O}
    {token payload : List UInt8} {vs : List (List UInt8)} (hreads : Reads m pkt token vs payload)
    (htkl : pkt.hdr.tkl.toNat = pkt.tok.len) (htok : Apart pkt.tok buf.obj)
    (hopts : ∀ o ∈ pkt.opts, Apart o.buf buf.obj ∧ o.buf.len ≤ 65535)
    (hpayload : Apart pkt.payload buf.obj) (hroom : buf.off + buflen ≤ (m buf.obj).length)
    (hfit : (pktBytes pkt token vs payload).length ≤ buflen) :
    coapBuild m buf buflen pkt
      = some (.none, written m buf (pktBytes pkt token vs payload),
          (pktBytes pkt token vs payload).length) := by
  have htoklen : token.length = pkt.tok.len := CoapBuffer.read_length hreads.tok
  unfold pktBytes buildBytes at hfit ⊢
  generalize hhd : [buildHeadByte pkt.hdr, pkt.hdr.code, pkt.hdr.idHi, pkt.hdr.idLo] = hd
    at hfit ⊢
  have hdlen : hd.length = 4 := by
    rw [← hhd]
    rfl
  generalize hob : buildOptsBytes 0 ((pkt.opts.map CoapOption.num).zip vs) = ob at hfit ⊢
  have hfit₁ := hfit
  simp only [List.length_append] at hfit₁
  -- header, token, options, payload: each behind what was written before
  have hhead : storeBytes m buf hd = some (written m buf hd) := storeBytes_eq (by omega)
  have hcopy := memcpy_written (read_written htok hreads.tok)
    (show buf.off + (hd ++ token).length ≤ (m buf.obj).length by rw [List.length_append]; omega)
  have hloop := @coapBuildOptions_any _ _ m buf buflen pkt.opts vs (hd ++ token) 0 hreads.opts
    (fun o ho => (hopts o ho).1) (fun o ho => (hopts o ho).2) hroom
  simp only [UInt8.toNat_zero, hob] at hloop
  have hloop := hloop (by simp only [List.length_append]; omega)
  rw [hdlen, ← htkl] at hcopy
  rw [List.length_append, hdlen, htoklen, ← htkl] at hloop
  rw [← hhd] at hhead
  rw [coapBuild_parts (by omega) (by omega) hhead (hhd ▸ hcopy), hhd]
  have hloop' : coapBuildOptions buf buflen pkt.opts (written m buf (hd ++ token))
      (buf.add (4 + pkt.hdr.tkl.toNat)) 0
      = some (.none, written m buf (hd ++ token ++ ob), buf.add (hd ++ token ++ ob).length) := hloop
  rw [hloop', Option.bind_some, if_neg (by simp), Ptr.add_off, Nat.add_sub_cancel_left]
  exact buildPayload_written hreads.payload hpayload (by simp only [List.length_append]; omega)
    hroom hfit

/-! ## The options of a datagram, parsed and built -/

/-- The bytes of the options that were found behind number `prev`, with what is left of it. -/
def againOpts (prev : Nat) : List Seen → List UInt8
  | [] => []
  | s :: ss =>
    buildOptBytes ((prev + s.delta) % 256 - prev % 256) s.value ++ againOpts (prev + s.delta) ss

omit [DecidableEq O] in
theorem buildOptsBytes_layoutOpts (obj : O) (off prev : Nat) (ss : List Seen) :
    buildOptsBytes (prev % 256) (((layoutOpts obj off prev ss).map CoapOption.num).zip
      (ss.map Seen.value)) = againOpts prev ss := by
  induction ss generalizing off prev with
  | nil => rfl
  | cons s ss ih =>
    have hnum : (UInt8.ofNat (prev + s.delta)).toNat = (prev + s.delta) % 256 := UInt8.toNat_ofNat'
    simp only [layoutOpts, List.map_cons, List.zip_cons_cons, buildOptsBytes, hnum, ih, againOpts]

/-- No option becomes longer. -/
theorem againOpts_length_le {prev : Nat} {ss : List Seen} (hsound : ∀ s ∈ ss, s.Sound) :
    (againOpts prev ss).length ≤ (seenBytes ss).length := by
  induction ss generalizing prev with
  | nil => exact Nat.le_refl _
  | cons s ss ih =>
    rw [List.forall_mem_cons] at hsound
    obtain ⟨hlen, -, -⟩ := hsound.1
    have hrest := @ih (prev + s.delta) hsound.2
    have hdelta := @ext_length_mono ((prev + s.delta) % 256 - prev % 256) s.delta (by omega)
    have hvalue := @ext_length_mono s.value.length s.len (by omega)
    simp only [againOpts, seenBytes_cons, Seen.bytes, List.length_append, buildOptBytes_length,
      optHeader, List.length_cons]
    omega

/-- A header is the end of itself. -/
theorem optHeader_append_inj {d d' l l' : Nat} {rest rest' : List UInt8} (hd : d ≤ extMax)
    (hl : l ≤ extMax) (hd' : d' ≤ extMax) (hl' : l' ≤ extMax)
    (h : optHeader d l ++ rest = optHeader d' l' ++ rest') : d = d' ∧ l = l' ∧ rest = rest' := by
  have hread := readOptHeader_optHeader hd hl rest
  rw [h, readOptHeader_optHeader hd' hl' rest'] at hread
  simp only [Option.some.injEq, Prod.mk.injEq] at hread
  exact ⟨hread.1.symm, hread.2.1.symm, hread.2.2.symm⟩

/-- One option comes out as it went in exactly when its number did not wrap around and its length
    is below 269. -/
theorem buildOptBytes_eq_seen_iff {prev : Nat} {s : Seen} {rest rest' : List UInt8}
    (hprev : prev < 256) (hsound : s.Sound) :
    buildOptBytes ((prev + s.delta) % 256 - prev % 256) s.value ++ rest = s.bytes ++ rest' ↔
      (prev + s.delta < 256 ∧ s.len < 269) ∧ rest = rest' := by
  obtain ⟨hlen, hdelta, hmax⟩ := hsound
  have hvalue : s.value.length ≤ 65535 := by omega
  rw [buildOptBytes_eq_optHeader, Seen.bytes, List.append_assoc, List.append_assoc]
  constructor
  · intro h
    obtain ⟨hd, hl, hrest⟩ := optHeader_append_inj (by unfold extMax; omega)
      (builtLen_le_extMax hvalue) hdelta hmax h
    have hshort : s.value.length < 269 := by
      apply (builtLen_mod_eq_iff hvalue).mp
      rw [hl, hlen]
    rw [builtLen_of_lt hshort] at hl
    exact ⟨⟨by omega, by omega⟩, List.append_cancel_left hrest⟩
  · rintro ⟨⟨hnum, hshort⟩, rfl⟩
    have hcut : s.value.length = s.len := by omega
    rw [builtLen_of_lt (by omega), hcut, show (prev + s.delta) % 256 - prev % 256 = s.delta by omega]

/-- The options on the wire. -/
def wireOf (ss : List Seen) : List WireOpt := ss.map fun s => ⟨s.delta, s.value⟩

/-- The options and what stands behind them come out as they went in exactly when each of them
    does. -/
theorem againOpts_eq_iff {prev : Nat} {ss : List Seen} {tail tail' : List UInt8}
    (hprev : prev < 256) (hsound : ∀ s ∈ ss, s.Sound) :
    againOpts prev ss ++ tail = seenBytes ss ++ tail' ↔
      ((∀ num ∈ wireNums prev (wireOf ss), num < 256) ∧ ∀ s ∈ ss, s.len < 269) ∧ tail = tail' := by
  induction ss generalizing prev with
  | nil => simp [againOpts, wireOf, wireNums]
  | cons s ss ih =>
    rw [List.forall_mem_cons] at hsound
    have hnums : wireNums prev (wireOf (s :: ss))
        = (prev + s.delta) :: wireNums (prev + s.delta) (wireOf ss) := rfl
    rw [againOpts, seenBytes_cons, List.append_assoc, List.append_assoc,
      buildOptBytes_eq_seen_iff hprev hsound.1, List.forall_mem_cons, hnums, List.forall_mem_cons]
    constructor
    · rintro ⟨⟨hnum, hshort⟩, hrest⟩
      obtain ⟨⟨hall, hlens⟩, htail⟩ := (ih hnum hsound.2).mp hrest
      exact ⟨⟨⟨hnum, hall⟩, hshort, hlens⟩, htail⟩
    · rintro ⟨⟨⟨hnum, hall⟩, hshort, hlens⟩, htail⟩
      exact ⟨⟨hnum, hshort⟩, (ih hnum hsound.2).mpr ⟨⟨hall, hlens⟩, htail⟩⟩

/-! ## The datagram -/

/-- What `coap_build` makes of the parts of a datagram. -/
def again (r : Parsed) : List UInt8 :=
  [r.b0, r.code, r.idHi, r.idLo] ++ r.token ++ againOpts 0 r.seen ++ payloadBytes (payloadOf r.tail)

omit [DecidableEq O] in
theorem pktBytes_packetOf (buf : Ptr O) {r : Parsed} (hver : r.b0.toNat / 64 = 1)
    (htkl : r.b0.toNat % 16 ≤ 8) :
    pktBytes (packetOf buf r) r.token (r.seen.map Seen.value) (payloadOf r.tail) = again r := by
  have hhead : buildHeadByte (packetOf buf r).hdr = r.b0 := by
    rw [buildHeadByte_eq rfl]
    · exact headByte_fields hver
    · show ((r.b0 &&& 0x30) >>> 4).toNat ≤ 3
      rw [toNat_bits45]
      omega
    · show (r.b0 &&& 0x0F).toNat ≤ 8
      rw [toNat_lowNibble]
      exact htkl
  have hopts := buildOptsBytes_layoutOpts buf.obj (buf.off + 4 + r.token.length) 0 r.seen
  rw [pktBytes, buildBytes, hhead]
  show _ ++ _ ++ buildOptsBytes (0 % 256) _ ++ _ = _
  rw [show (packetOf buf r).opts = layoutOpts buf.obj (buf.off + 4 + r.token.length) 0 r.seen from
    rfl, hopts]
  rfl

/-- A datagram that `coap_parse` and `coap_build` leave as it is: the format, with at most 16
    options, numbers up to 255 and values of fewer than 269 bytes. -/
def Plain (bs : List UInt8) : Prop :=
  ∃ b0 code idHi idLo token os payload,
    HeadToken bs b0 code idHi idLo token (optsBytes os ++ payloadBytes payload) ∧
      os.length ≤ maxopt ∧ (∀ num ∈ wireNums 0 os, num < 256) ∧ ∀ o ∈ os, o.value.length < 269

/-- No delta is larger than a number. -/
theorem delta_le_of_nums {prev : Nat} {os : List WireOpt}
    (h : ∀ num ∈ wireNums prev os, num < 256) : ∀ o ∈ os, o.delta < 256 := by
  induction os generalizing prev with
  | nil => exact fun o ho => absurd ho List.not_mem_nil
  | cons o os ih =>
    rw [show wireNums prev (o :: os) = (prev + o.delta) :: wireNums (prev + o.delta) os from rfl,
      List.forall_mem_cons] at h
    rw [List.forall_mem_cons]
    exact ⟨Nat.lt_of_le_of_lt (Nat.le_add_left _ _) h.1, ih h.2⟩

/-- The parts of a datagram say whether it is plain. -/
theorem plain_iff {bs : List UInt8} {r : Parsed} (h : decodeMsg bs = some r) :
    Plain bs ↔ ((∀ num ∈ wireNums 0 (wireOf r.seen), num < 256) ∧ ∀ s ∈ r.seen, s.len < 269) ∧
      payloadBytes (payloadOf r.tail) = r.tail := by
  obtain ⟨hhead, hwalk⟩ := headToken_of_decodeMsg h
  obtain ⟨hcount, hsound, -⟩ := walk_sound hwalk
  constructor
  · rintro ⟨b0, code, idHi, idLo, token, os, payload, hhead', hcount', hnums, hlens⟩
    obtain ⟨-, -, -, -, -, hbody⟩ := hhead.unique hhead'
    have htail : payloadBytes payload = [] ∨ ∃ t, payloadBytes payload = 0xFF :: t :=
      payloadBytes_cases payload
    -- the walk finds the options of the format
    have hwalk' := @walk_optsBytes maxopt os (payloadBytes payload) hcount' (by
      intro o ho
      have hdelta := delta_le_of_nums hnums o ho
      have hlen := hlens o ho
      unfold extMax
      omega) htail
    rw [← hbody, hwalk, Option.some_inj, Prod.mk.injEq] at hwalk'
    obtain ⟨hseen, hrest⟩ := hwalk'
    have hwire : wireOf r.seen = os := by
      rw [hseen, wireOf, List.map_map]
      exact List.map_id os
    refine ⟨⟨hwire ▸ hnums, fun s hs => ?_⟩, ?_⟩
    · rw [hseen] at hs
      obtain ⟨o, ho, rfl⟩ := List.mem_map.mp hs
      exact hlens o ho
    · rw [hrest, Roundtrip.payloadOf_payloadBytes]
  · rintro ⟨⟨hnums, hlens⟩, htail⟩
    have hcut : ∀ s ∈ r.seen, s.value.length = s.len := by
      intro s hs
      obtain ⟨hlen, -, -⟩ := hsound s hs
      have hlt := hlens s hs
      omega
    refine ⟨r.b0, r.code, r.idHi, r.idLo, r.token, wireOf r.seen, payloadOf r.tail, ?_, ?_, hnums,
      fun o ho => ?_⟩
    · rw [wireOf, optsBytes_of_seen hcut, htail]
      exact hhead
    · rw [wireOf, List.length_map]
      exact hcount
    · obtain ⟨s, hs, rfl⟩ := List.mem_map.mp ho
      show s.value.length < 269
      rw [hcut s hs]
      exact hlens s hs

/-- What comes out is not longer, and is the same exactly for a plain datagram. -/
theorem again_eq_iff {bs : List UInt8} {r : Parsed} (h : decodeMsg bs = some r) :
    (again r).length ≤ bs.length ∧ (again r = bs ↔ Plain bs) := by
  obtain ⟨hbs, hver, htkl, hle, hwalk⟩ := decodeMsg_bytes h
  obtain ⟨-, hsound, -⟩ := walk_sound hwalk
  have htail : (payloadBytes (payloadOf r.tail)).length ≤ r.tail.length := by
    rcases payloadOf_cases r.tail with hnone | hsome
    · rw [hnone]
      exact Nat.zero_le _
    · by_cases hnil : payloadOf r.tail = []
      · rw [hnil]
        exact Nat.zero_le _
      · rw [payloadBytes_of_ne_nil hnil, ← hsome]
  have hopts := @againOpts_length_le 0 r.seen hsound
  constructor
  · conv_rhs => rw [hbs]
    simp only [again, List.length_append, List.length_cons, List.length_nil]
    omega
  · rw [plain_iff h, ← againOpts_eq_iff (by decide) hsound]
    conv_lhs => rw [hbs]
    simp only [again, List.append_assoc, List.cons_append, List.nil_append, List.cons.injEq,
      true_and, List.append_cancel_left_eq]

omit [DecidableEq O] in
/-- Every option points to its value. -/
theorem mem_layoutOpts {obj : O} {off num : Nat} {ss : List Seen} {o : CoapOption O}
    (h : o ∈ layoutOpts obj off num ss) :
    (∃ valueOff, o.buf.p = some ⟨obj, valueOff⟩) ∧ ∃ s ∈ ss, o.buf.len = s.value.length := by
  induction ss generalizing off num with
  | nil => exact absurd h List.not_mem_nil
  | cons s ss ih =>
    rcases List.mem_cons.mp h with rfl | h
    · exact ⟨⟨_, rfl⟩, s, List.mem_cons_self .., rfl⟩
    · obtain ⟨hp, s', hs', hlen⟩ := ih h
      exact ⟨hp, s', List.mem_cons_of_mem _ hs', hlen⟩

omit [DecidableEq O] in
/-- The packet points into the datagram only. -/
theorem packetOf_apart {buf : Ptr O} {out : O} (hobj : out ≠ buf.obj) {r : Parsed}
    (hsound : ∀ s ∈ r.seen, s.Sound) :
    Apart (packetOf buf r).tok out ∧ Apart (packetOf buf r).payload out ∧
      ∀ o ∈ (packetOf buf r).opts, Apart o.buf out ∧ o.buf.len ≤ 65535 := by
  have hpoint : ∀ (p : Ptr O) (b : CoapBuffer O), p.obj = buf.obj →
      b.p = none ∨ b.p = some p → Apart b out := by
    rintro p b hp (hnone | hsome) q hq
    · rw [hnone] at hq
      cases hq
    · rw [hsome] at hq
      obtain rfl := Option.some_inj.mp hq
      rw [hp]
      exact hobj.symm
  refine ⟨?_, ?_, fun o ho => ?_⟩
  · apply hpoint (buf.add 4) _ rfl
    simp only [packetOf]
    split
    · exact Or.inl rfl
    · exact Or.inr rfl
  · apply hpoint ⟨buf.obj, buf.off + 4 + r.token.length + (seenBytes r.seen).length + 1⟩ _ rfl
    simp only [packetOf, layoutPayload]
    split
    · exact Or.inl rfl
    · exact Or.inr rfl
  · obtain ⟨⟨valueOff, hp⟩, s, hs, hlen⟩ := mem_layoutOpts ho
    obtain ⟨hcut, -, -⟩ := hsound s hs
    exact ⟨hpoint ⟨buf.obj, valueOff⟩ _ rfl (Or.inr hp), by omega⟩

/-- For every datagram that `coap_parse` accepts, and every other buffer that is large enough for
    it: `coap_build` of the packet succeeds, what it writes is not longer than the datagram, and
    it is the datagram exactly when that is plain. -/
theorem rebuild_iff {m : Mem O} {buf out : Ptr O} {n buflen : Nat} {pkt : CoapPacket O}
    (hfit : buf.off + n ≤ (m buf.obj).length) (hparse : coapParse m buf n = .ok pkt)
    (hobj : out.obj ≠ buf.obj) (hroom : out.off + buflen ≤ (m out.obj).length)
    (hn : n ≤ buflen) :
    ∃ m' k, coapBuild m out buflen pkt = some (.none, m', k) ∧ k ≤ n ∧
      (loadBytes m' out k = some (slice (m buf.obj) buf.off n) ↔
        Plain (slice (m buf.obj) buf.off n)) := by
  obtain ⟨r, hdec, rfl⟩ := (coapParse_eq_ok_iff hfit).mp hparse
  obtain ⟨-, hver, htkl, hle, hwalk⟩ := decodeMsg_bytes hdec
  obtain ⟨-, hsound, -⟩ := walk_sound hwalk
  obtain ⟨htok, hpayload, hopts⟩ := packetOf_apart hobj hsound
  obtain ⟨hlen, hsame⟩ := again_eq_iff hdec
  rw [slice_length hfit] at hlen
  have hreads := packetOf_reads hfit hdec
  have hbytes := pktBytes_packetOf buf hver (htkl ▸ hle)
  have hbuild := @coapBuild_any _ _ m out buflen _ _ _ _ hreads (by
    rw [packetOf_tok_len, htkl]
    exact toNat_lowNibble r.b0) htok hopts hpayload hroom (by rw [hbytes]; omega)
  rw [hbytes] at hbuild
  have hload : loadBytes (written m out (again r)) out (again r).length = some (again r) := by
    have hobject : out.off + (again r).length ≤ (m out.obj).length := by omega
    rw [loadBytes_eq_some, written, setObj_self, splice_length hobject]
    exact ⟨hobject, slice_splice_self hobject⟩
  refine ⟨_, _, hbuild, hlen, ?_⟩
  rw [hload, Option.some_inj]
  exact hsame

/-- A GET for `/hello` in the first object, and room in the second. -/
def helloMem : Mem Bool
  | false => [0x41, 0x01, 0x12, 0x34, 0x07, 0xB5, 0x68, 0x65, 0x6C, 0x6C, 0x6F]
  | true => List.replicate 16 0

theorem helloMem_parts : decodeMsg (helloMem false)
    = some ⟨0x41, 0x01, 0x12, 0x34, [0x07], [⟨11, 5, [0x68, 0x65, 0x6C, 0x6C, 0x6F]⟩], []⟩ := rfl

/-- It is built again as it was. -/
theorem rebuild_iff_hello : ∃ pkt m' k, coapParse helloMem ⟨false, 0⟩ 11 = .ok pkt ∧
    coapBuild helloMem ⟨true, 0⟩ 16 pkt = some (.none, m', k) ∧
    loadBytes m' ⟨true, 0⟩ k = some (helloMem false) := by
  have hfit : 0 + 11 ≤ (helloMem false).length := Nat.le_refl _
  have hparse := @coapParse_ok _ helloMem ⟨false, 0⟩ 11 _ hfit helloMem_parts
  obtain ⟨m', k, hbuild, -, hsame⟩ := @rebuild_iff _ _ helloMem ⟨false, 0⟩ ⟨true, 0⟩ 11 16 _ hfit
    hparse (by decide) (Nat.le_refl _) (by decide)
  have hplain : Plain (helloMem false) := (plain_iff helloMem_parts).mpr (by decide)
  exact ⟨_, m', k, hparse, hbuild, hsame.mpr hplain⟩

/-- An option with number 300 becomes one with number 44. -/
example : (decodeMsg [0x40, 0x01, 0x12, 0x34, 0xE0, 0x00, 0x1F]).map again
    = some [0x40, 0x01, 0x12, 0x34, 0xD0, 0x1F] := by decide

end Gateway.CoapServer.Rebuild
