/-
  Gateway.CoapServer.Grammar

  Which datagrams `coap_parse` accepts, against the message format of RFC 7252,
  section 3 (`IsMessage`), and whether what it reports covers the datagram
  (`Tiles`).

  `coap_parse` is exact (`ParsesExactly`) outside of three kinds of datagrams
  (`Defect`): the options end at a marker that is the last byte; 16 options are
  followed by something that is no payload; an option has a length that does not
  fit `uint16_t`.
-/

import Gateway.CoapServer.Roundtrip

namespace Gateway.CoapServer.Grammar

open Gateway.Lib.ByteWindow Gateway.Lib.BlockMem Gateway.Lib.ByteBits Gateway.Lib.CoapFormat
open Gateway.CoapServer.Microcoap Gateway.CoapServer.ParseSpec Gateway.CoapServer.Roundtrip

variable {O : Type}

/-! ## The format -/

/-- `bs` starts with a header of version 1 and the token its TKL announces, of at most 8
    bytes; `body` stands behind. -/
structure HeadToken (bs : List UInt8) (b0 code idHi idLo : UInt8) (token body : List UInt8) :
    Prop where
  bytes : bs = b0 :: code :: idHi :: idLo :: (token ++ body)
  version : b0.toNat / 64 = 1
  tkl : b0.toNat % 16 = token.length
  tkl_le : token.length ≤ 8

/-- The format: header and token, at most 16 options with the lengths their headers give,
    then the end or a marker with at least one byte of payload. -/
def IsMessage (bs : List UInt8) : Prop :=
  ∃ b0 code idHi idLo token os payload,
    HeadToken bs b0 code idHi idLo token (optsBytes os ++ payloadBytes payload) ∧
      os.length ≤ maxopt ∧ ∀ o ∈ os, o.Fits

/-- From offset `off` up to offset `end_` stand the options, each one the header for its
    length and the value it points to. -/
def OptsTile (m : Mem O) (obj : O) : Nat → List (CoapOption O) → Nat → Prop
  | off, [], end_ => off = end_
  | off, o :: os, end_ => ∃ delta valueOff,
      delta ≤ extMax ∧ o.buf.p = some ⟨obj, valueOff⟩ ∧
      off + (optHeader delta o.buf.len).length = valueOff ∧
      slice (m obj) off (valueOff - off) = optHeader delta o.buf.len ∧
      OptsTile m obj (valueOff + o.buf.len) os end_

/-- The header, the token, the options and the payload with its marker cover the `n` bytes
    at `buf`, one behind the other. -/
structure Tiles (m : Mem O) (buf : Ptr O) (n : Nat) (pkt : CoapPacket O) : Prop where
  header : slice (m buf.obj) buf.off 4
    = [headByte pkt.hdr.ver.toNat pkt.hdr.t.toNat pkt.hdr.tkl.toNat, pkt.hdr.code, pkt.hdr.idHi,
        pkt.hdr.idLo]
  tkl : pkt.tok.len = pkt.hdr.tkl.toNat
  tok : 0 < pkt.tok.len → pkt.tok.p = some (buf.add 4)
  rest : ∃ optsEnd, OptsTile m buf.obj (buf.off + 4 + pkt.tok.len) pkt.opts optsEnd ∧
    ((pkt.payload.len = 0 ∧ optsEnd = buf.off + n) ∨
      (0 < pkt.payload.len ∧ (m buf.obj)[optsEnd]? = some 0xFF ∧
        pkt.payload.p = some ⟨buf.obj, optsEnd + 1⟩ ∧
        optsEnd + 1 + pkt.payload.len = buf.off + n))

/-- `coap_parse` accepts exactly the messages of the format, and drops no byte. -/
def ParsesExactly (m : Mem O) (buf : Ptr O) (n : Nat) : Prop :=
  ((∃ pkt, coapParse m buf n = .ok pkt) ↔ IsMessage (slice (m buf.obj) buf.off n)) ∧
    ∀ pkt, coapParse m buf n = .ok pkt → Tiles m buf n pkt

/-! ## The datagrams it is not exact on -/

/-- The body starts with the options `ss`, at most 16 of them, when the length of each one is
    cut down to 16 bits; `rest` stands behind. -/
def Starts (body : List UInt8) (ss : List Seen) (rest : List UInt8) : Prop :=
  body = seenBytes ss ++ rest ∧ ss.length ≤ maxopt ∧ ∀ s ∈ ss, s.Sound

/-- The options are followed by a marker without a payload. -/
def LoneMarker (body : List UInt8) : Prop := ∃ ss, Starts body ss [0xFF]

/-- 16 options are followed by something that is no marker with a payload. -/
def OverCap (body : List UInt8) : Prop :=
  ∃ ss rest, Starts body ss rest ∧ ss.length = maxopt ∧ rest ≠ [] ∧ payloadOf rest = []

/-- One of the options has a length of 65536 or more, and either the options still go on to
    the end, a marker or the 16th option, or the datagram is a message of the format. -/
def Wrapped (bs body : List UInt8) : Prop :=
  ∃ ss rest, Starts body ss rest ∧ (∃ s ∈ ss, 65536 ≤ s.len) ∧
    (rest = [] ∨ rest.head? = some 0xFF ∨ ss.length = maxopt ∨ IsMessage bs)

/-- The datagrams on which `coap_parse` is not exact. -/
def Defect (bs : List UInt8) : Prop :=
  ∃ b0 code idHi idLo token body, HeadToken bs b0 code idHi idLo token body ∧
    (LoneMarker body ∨ OverCap body ∨ Wrapped bs body)

/-! ## The walk over options that are there -/

/-- The walk passes over options that are there. -/
theorem walk_seenBytes {free : Nat} {ss : List Seen} {rest : List UInt8}
    (hcount : ss.length ≤ free) (hs : ∀ s ∈ ss, s.Sound) :
    walk free (seenBytes ss ++ rest)
      = (walk (free - ss.length) rest).map fun r => (ss ++ r.1, r.2) := by
  induction ss generalizing free with
  | nil => simp
  | cons s ss ih =>
    cases free with
    | zero => simp at hcount
    | succ free =>
      obtain ⟨hlen, hdelta, hlenMax⟩ := hs s (List.mem_cons_self ..)
      have ih' := @ih free (by simpa using hcount) fun s' hs' => hs s' (List.mem_cons_of_mem _ hs')
      rw [seenBytes_cons, Seen.bytes, List.append_assoc, List.append_assoc,
        walk_cons (optHeader_ne_marker ..) (readOptHeader_optHeader hdelta hlenMax _)
          (by rw [List.length_append]; omega),
        ← hlen, List.drop_left, List.take_left, ih', Option.map_map, List.length_cons,
        Nat.add_sub_add_right]
      rfl

/-- The walk stops where there is no further option to look for. -/
theorem walk_stops {free : Nat} {rest : List UInt8}
    (h : rest = [] ∨ rest.head? = some 0xFF ∨ free = 0) : walk free rest = some ([], rest) := by
  cases free with
  | zero => rfl
  | succ free =>
    cases rest with
    | nil => rfl
    | cons b bs =>
      have hb : b = 0xFF := by simpa using h
      rw [walk, if_pos hb]

theorem walk_of_starts {body rest : List UInt8} {ss : List Seen} (h : Starts body ss rest)
    (hstop : rest = [] ∨ rest.head? = some 0xFF ∨ ss.length = maxopt) :
    walk maxopt body = some (ss, rest) := by
  obtain ⟨rfl, hcount, hs⟩ := h
  have hfree : rest = [] ∨ rest.head? = some 0xFF ∨ maxopt - ss.length = 0 := by
    rcases hstop with h | h | h
    · exact Or.inl h
    · exact Or.inr (Or.inl h)
    · exact Or.inr (Or.inr (by omega))
  rw [walk_seenBytes hcount hs, walk_stops hfree]
  simp

theorem starts_of_walk {body tail : List UInt8} {ss : List Seen}
    (h : walk maxopt body = some (ss, tail)) :
    Starts body ss tail ∧ (tail = [] ∨ tail.head? = some 0xFF ∨ ss.length = maxopt) := by
  obtain ⟨hcount, hs, htail⟩ := walk_sound h
  refine ⟨⟨walk_bytes h, hcount, hs⟩, ?_⟩
  by_cases hlt : ss.length < maxopt
  · rcases htail hlt with rfl | ⟨t, rfl⟩
    · exact Or.inl rfl
    · exact Or.inr (Or.inl rfl)
  · exact Or.inr (Or.inr (by omega))

/-- Behind a header and a token, the parser on bytes is the walk. -/
theorem HeadToken.decodeMsg_eq {bs token body : List UInt8} {b0 code idHi idLo : UInt8}
    (h : HeadToken bs b0 code idHi idLo token body) :
    decodeMsg bs = (walk maxopt body).map fun r => ⟨b0, code, idHi, idLo, token, r.1, r.2⟩ := by
  obtain ⟨rfl, hver, htkl, hle⟩ := h
  rw [decodeMsg, if_neg (by omega), if_neg (by omega),
    if_neg (by rw [List.length_append]; omega), htkl, List.drop_left, List.take_left]
  cases walk maxopt body with
  | none => rfl
  | some r => rfl

theorem headToken_of_decodeMsg {bs : List UInt8} {r : Parsed} (h : decodeMsg bs = some r) :
    HeadToken bs r.b0 r.code r.idHi r.idLo r.token (seenBytes r.seen ++ r.tail) ∧
      walk maxopt (seenBytes r.seen ++ r.tail) = some (r.seen, r.tail) := by
  obtain ⟨hbs, hver, htkl, hle, hwalk⟩ := decodeMsg_bytes h
  exact ⟨⟨hbs, hver, htkl.symm, hle⟩, hwalk⟩

/-- Header, token and body of a datagram are determined. -/
theorem HeadToken.unique {bs token token' body body' : List UInt8}
    {b0 b0' code code' idHi idHi' idLo idLo' : UInt8}
    (h : HeadToken bs b0 code idHi idLo token body)
    (h' : HeadToken bs b0' code' idHi' idLo' token' body') :
    b0 = b0' ∧ code = code' ∧ idHi = idHi' ∧ idLo = idLo' ∧ token = token' ∧ body = body' := by
  have hbs := h.bytes.symm.trans h'.bytes
  simp only [List.cons.injEq] at hbs
  obtain ⟨rfl, rfl, rfl, rfl, happ⟩ := hbs
  have hlen : token.length = token'.length := h.tkl.symm.trans h'.tkl
  -- the TKL says where the token ends
  obtain ⟨rfl, rfl⟩ := List.append_inj happ hlen
  exact ⟨rfl, rfl, rfl, rfl, rfl, rfl⟩

/-! ## What the packet covers -/

theorem optHeader_inj {d d' l l' : Nat} (hd : d ≤ extMax) (hl : l ≤ extMax) (hd' : d' ≤ extMax)
    (hl' : l' ≤ extMax) (h : optHeader d l = optHeader d' l') : d = d' ∧ l = l' := by
  have hread := readOptHeader_optHeader hd hl []
  rw [h, readOptHeader_optHeader hd' hl' []] at hread
  simp only [Option.some.injEq, Prod.mk.injEq] at hread
  exact ⟨hread.1.symm, hread.2.1.symm⟩

/-- The options cover their bytes exactly when no length was cut down. -/
theorem optsTile_layoutOpts {m : Mem O} {obj : O} {off num k end_ : Nat} {ss : List Seen}
    {tail : List UInt8} (hs : slice (m obj) off k = seenBytes ss ++ tail)
    (hsound : ∀ s ∈ ss, s.Sound) :
    OptsTile m obj off (layoutOpts obj off num ss) end_ ↔
      (∀ s ∈ ss, s.len < 65536) ∧ end_ = off + (seenBytes ss).length := by
  induction ss generalizing off num k with
  | nil =>
    simp only [layoutOpts, OptsTile, seenBytes_nil, List.length_nil]
    simp [eq_comm]
  | cons s ss ih =>
    obtain ⟨hlen, hdelta, hlenMax⟩ := hsound s (List.mem_cons_self ..)
    have hvalueMax : s.value.length ≤ extMax := by unfold extMax; omega
    rw [seenBytes_cons, Seen.bytes, List.append_assoc, List.append_assoc] at hs
    have hhdr := slice_of_slice_eq_append hs
    have hrest := slice_add_of_slice_eq_append (slice_add_of_slice_eq_append hs)
    have ih' := @ih _ (num + s.delta) _ hrest fun s' hs' => hsound s' (List.mem_cons_of_mem _ hs')
    simp only [layoutOpts, OptsTile]
    have hsum : off + (optHeader s.delta s.len).length + s.value.length + (seenBytes ss).length
        = off + (seenBytes (s :: ss)).length := by
      simp only [seenBytes_cons, Seen.bytes, List.length_append]
      omega
    constructor
    · rintro ⟨delta, valueOff, hdelta', hp, -, hslice, htile⟩
      obtain rfl : off + (optHeader s.delta s.len).length = valueOff := by simpa using hp
      rw [Nat.add_sub_cancel_left, hhdr] at hslice
      -- the header in the datagram has the length of the value, not the one cut down
      obtain ⟨-, hl⟩ := optHeader_inj hdelta hlenMax hdelta' hvalueMax hslice
      obtain ⟨hall, rfl⟩ := ih'.mp htile
      refine ⟨?_, hsum⟩
      intro s' hs'
      rcases List.mem_cons.mp hs' with rfl | hs'
      · omega
      · exact hall s' hs'
    · rintro ⟨hall, rfl⟩
      have hcut : s.value.length = s.len := by
        have hlt := hall s (List.mem_cons_self ..)
        omega
      refine ⟨s.delta, _, hdelta, rfl, by rw [hcut], ?_, ?_⟩
      · rw [Nat.add_sub_cancel_left, hhdr, hcut]
      · exact ih'.mpr ⟨fun s' hs' => hall s' (List.mem_cons_of_mem _ hs'), hsum.symm⟩

/-- The header of version 1 is determined by its fields. -/
theorem headByte_fields {b0 : UInt8} (h : b0.toNat / 64 = 1) :
    headByte 1 ((b0 &&& 0x30) >>> 4).toNat (b0 &&& 0x0F).toNat = b0 := by
  rw [toNat_bits45, toNat_lowNibble, headByte]
  apply UInt8.toNat_inj.mp
  rw [UInt8.toNat_ofNat']
  omega

/-- The end of the options is the end of the datagram, or the payload with its marker goes on to
    there. -/
theorem payload_tiles {m : Mem O} {obj : O} {optsEnd k end_ : Nat} {tail : List UInt8}
    (hs : slice (m obj) optsEnd k = tail) (hend : optsEnd + tail.length = end_)
    (htail : tail = [] ∨ payloadOf tail ≠ []) :
    (payloadOf tail = [] ∧ optsEnd = end_) ∨
      (payloadOf tail ≠ [] ∧ (m obj)[optsEnd]? = some 0xFF ∧
        optsEnd + 1 + (payloadOf tail).length = end_) := by
  rcases htail with rfl | hne
  · exact Or.inl ⟨rfl, hend⟩
  · have htail := (payloadOf_cases tail).resolve_left hne
    rw [htail] at hs
    have htailLen := congrArg List.length htail
    rw [List.length_cons] at htailLen
    exact Or.inr ⟨hne, getElem?_of_slice_eq_cons hs, by omega⟩

/-- The packet covers the datagram exactly when no length was cut down and the options are
    followed by the end or by a payload. -/
theorem tiles_packetOf {m : Mem O} {buf : Ptr O} {n : Nat} {r : Parsed}
    (hfit : buf.off + n ≤ (m buf.obj).length)
    (h : decodeMsg (slice (m buf.obj) buf.off n) = some r) :
    Tiles m buf n (packetOf buf r) ↔
      (∀ s ∈ r.seen, s.len < 65536) ∧ (r.tail = [] ∨ payloadOf r.tail ≠ []) := by
  obtain ⟨hbs, hver, htok, -, hwalk⟩ := decodeMsg_bytes h
  obtain ⟨-, hsound, -⟩ := walk_sound hwalk
  have hlen := congrArg List.length hbs
  rw [slice_length hfit] at hlen
  simp only [List.length_cons, List.length_append] at hlen
  have hs5 := slice_add_of_slice_eq_append (behind_header hbs)
  have hs6 := slice_add_of_slice_eq_append hs5
  have htokLen := packetOf_tok_len buf r
  have hpayLen := packetOf_payload_len buf r
  have htile := fun end_ => @optsTile_layoutOpts _ m buf.obj
    (buf.off + 4 + r.token.length) 0 _ end_ _ _ hs5 hsound
  constructor
  · rintro ⟨-, -, -, optsEnd, hopts, hend⟩
    rw [htokLen] at hopts
    obtain ⟨hall, rfl⟩ := (htile optsEnd).mp hopts
    refine ⟨hall, ?_⟩
    rw [hpayLen] at hend
    rcases hend with ⟨-, hend⟩ | ⟨hpos, -⟩
    · exact Or.inl (List.length_eq_zero_iff.mp (by omega))
    · exact Or.inr (List.ne_nil_of_length_pos hpos)
  · rintro ⟨hall, htail⟩
    refine ⟨?_, ?_, ?_, buf.off + 4 + r.token.length + (seenBytes r.seen).length, ?_, ?_⟩
    · have hhead : slice (m buf.obj) buf.off 4 = [r.b0, r.code, r.idHi, r.idLo] :=
        @slice_of_slice_eq_append _ _ [r.b0, r.code, r.idHi, r.idLo] _ _ _ hbs
      rw [hhead]
      simp only [packetOf]
      rw [show ((1 : UInt8)).toNat = 1 from rfl, headByte_fields hver]
    · rw [htokLen, htok, ← toNat_lowNibble]
      rfl
    · intro hpos
      rw [htokLen] at hpos
      simp only [packetOf]
      rw [if_neg (List.ne_nil_of_length_pos hpos)]
    · rw [htokLen]
      exact (htile _).mpr ⟨hall, rfl⟩
    · rw [hpayLen]
      rcases payload_tiles hs6 (show _ = buf.off + n by omega) htail with
        ⟨h0, hend⟩ | ⟨hne, hmark, hend⟩
      · exact Or.inl ⟨by rw [h0]; rfl, hend⟩
      · refine Or.inr ⟨List.length_pos_of_ne_nil hne, hmark, ?_, hend⟩
        simp only [packetOf, layoutPayload, if_neg hne]

/-! ## Acceptance -/

theorem optsBytes_of_seen {ss : List Seen} (hs : ∀ s ∈ ss, s.value.length = s.len) :
    optsBytes (ss.map fun s => ⟨s.delta, s.value⟩) = seenBytes ss := by
  induction ss with
  | nil => rfl
  | cons s ss ih =>
    rw [List.map_cons, optsBytes_cons, seenBytes_cons,
      ih fun s' hs' => hs s' (List.mem_cons_of_mem _ hs'), WireOpt.bytes, Seen.bytes,
      hs s (List.mem_cons_self ..)]

/-- What is accepted without a length cut down, up to the end or a payload, is a message. -/
theorem isMessage_of_parsed {bs : List UInt8} {r : Parsed} (h : decodeMsg bs = some r)
    (hlens : ∀ s ∈ r.seen, s.len < 65536) (htail : r.tail = [] ∨ payloadOf r.tail ≠ []) :
    IsMessage bs := by
  obtain ⟨hhead, hwalk⟩ := headToken_of_decodeMsg h
  obtain ⟨hcount, hsound, -⟩ := walk_sound hwalk
  have hcut : ∀ s ∈ r.seen, s.value.length = s.len := by
    intro s hs
    obtain ⟨hlen, -⟩ := hsound s hs
    have hlt := hlens s hs
    omega
  have hpay : payloadBytes (payloadOf r.tail) = r.tail := by
    rcases htail with h0 | hne
    · rw [h0]
      rfl
    · rw [payloadBytes_of_ne_nil hne]
      exact ((payloadOf_cases r.tail).resolve_left hne).symm
  refine ⟨r.b0, r.code, r.idHi, r.idLo, r.token, r.seen.map fun s => ⟨s.delta, s.value⟩,
    payloadOf r.tail, ?_, by simpa using hcount, ?_⟩
  · rw [optsBytes_of_seen hcut, hpay]
    exact hhead
  · intro o ho
    obtain ⟨s, hs, rfl⟩ := List.mem_map.mp ho
    obtain ⟨-, hdelta, hlenMax⟩ := hsound s hs
    exact ⟨hdelta, by simpa only [hcut s hs] using hlenMax⟩

/-- A message with lengths of 16 bits is accepted. -/
theorem walk_of_lens {os : List WireOpt} {payload : List UInt8} (hcount : os.length ≤ maxopt)
    (hfits : ∀ o ∈ os, o.Fits) (hlens : ∀ o ∈ os, o.value.length < 65536) :
    walk maxopt (optsBytes os ++ payloadBytes payload)
      = some (os.map seenOf, payloadBytes payload) :=
  walk_optsBytes hcount (fun o ho => ⟨(hfits o ho).1, hlens o ho⟩) (payloadBytes_cases payload)

/-- The first option with a length beyond 16 bits, as the parser sees it. -/
theorem starts_of_long {os : List WireOpt} {tail : List UInt8} (hcount : os.length ≤ maxopt)
    (hfits : ∀ o ∈ os, o.Fits) (hlong : ¬ ∀ o ∈ os, o.value.length < 65536) :
    ∃ ss rest, Starts (optsBytes os ++ tail) ss rest ∧ ∃ s ∈ ss, 65536 ≤ s.len := by
  suffices hsuff : ∃ ss rest, optsBytes os ++ tail = seenBytes ss ++ rest ∧
      ss.length ≤ os.length ∧ (∀ s ∈ ss, s.Sound) ∧ ∃ s ∈ ss, 65536 ≤ s.len by
    obtain ⟨ss, rest, happ, hle, hsound, hex⟩ := hsuff
    exact ⟨ss, rest, ⟨happ, by omega, hsound⟩, hex⟩
  -- for the induction only the number of the options that are seen matters
  clear hcount
  induction os with
  | nil => exact absurd (by simp) hlong
  | cons o os ih =>
    obtain ⟨hdelta, hlen⟩ := hfits o (List.mem_cons_self ..)
    by_cases hlt : o.value.length < 65536
    · have hlong' : ¬ ∀ o' ∈ os, o'.value.length < 65536 := by
        intro hall
        refine hlong fun o' ho' => ?_
        rcases List.mem_cons.mp ho' with rfl | ho'
        · exact hlt
        · exact hall o' ho'
      obtain ⟨ss, rest, happ, hle, hsound, s, hs, hslen⟩ :=
        ih (fun o' ho' => hfits o' (List.mem_cons_of_mem _ ho')) hlong'
      refine ⟨seenOf o :: ss, rest, ?_, by simpa using hle, ?_, s, List.mem_cons_of_mem _ hs, hslen⟩
      · rw [optsBytes_cons, seenBytes_cons, List.append_assoc, happ, List.append_assoc]
        rfl
      · intro s' hs'
        rcases List.mem_cons.mp hs' with rfl | hs'
        · exact ⟨(Nat.mod_eq_of_lt hlt).symm, hdelta, hlen⟩
        · exact hsound s' hs'
    · refine ⟨[⟨o.delta, o.value.length, o.value.take (o.value.length % 65536)⟩],
        o.value.drop (o.value.length % 65536) ++ (optsBytes os ++ tail), ?_, by simp, ?_, ?_⟩
      · rw [optsBytes_cons, WireOpt.bytes, seenBytes_cons, seenBytes_nil, List.append_nil, Seen.bytes]
        simp only [List.append_assoc]
        rw [← List.append_assoc (o.value.take _), List.take_append_drop]
      · intro s hs
        obtain rfl := List.mem_singleton.mp hs
        refine ⟨?_, hdelta, hlen⟩
        simp only [List.length_take]
        omega
      · exact ⟨_, List.mem_singleton_self _, Nat.le_of_not_lt hlt⟩

/-- Without a defect, everything that is accepted is read to its end with its lengths. -/
theorem good_of_not_defect {bs : List UInt8} {r : Parsed} (h : ¬ Defect bs)
    (hr : decodeMsg bs = some r) :
    (∀ s ∈ r.seen, s.len < 65536) ∧ (r.tail = [] ∨ payloadOf r.tail ≠ []) := by
  obtain ⟨hhead, hwalk⟩ := headToken_of_decodeMsg hr
  obtain ⟨hstarts, hstop⟩ := starts_of_walk hwalk
  refine ⟨?_, ?_⟩
  · intro s hs
    by_contra hge
    refine h ⟨_, _, _, _, _, _, hhead, Or.inr (Or.inr ⟨r.seen, r.tail, hstarts,
      ⟨s, hs, Nat.le_of_not_lt hge⟩, ?_⟩)⟩
    rcases hstop with h0 | h0 | h0
    · exact Or.inl h0
    · exact Or.inr (Or.inl h0)
    · exact Or.inr (Or.inr (Or.inl h0))
  · by_contra hbad
    rw [not_or, not_not] at hbad
    obtain ⟨hne, hnil⟩ := hbad
    rcases hstop with h0 | h0 | h0
    · exact hne h0
    -- a marker: with anything behind it there would be a payload
    · have htail : r.tail = [0xFF] := by
        match htl : r.tail, h0, hnil with
        | [b], h0, _ => simpa using h0
        | b :: x :: xs, h0, hnil =>
          have hb : b = 0xFF := by simpa using h0
          rw [payloadOf, if_pos hb] at hnil
          cases hnil
      refine h ⟨_, _, _, _, _, _, hhead, Or.inl ⟨r.seen, ?_⟩⟩
      rw [htail] at hstarts ⊢
      exact hstarts
    · exact h ⟨_, _, _, _, _, _, hhead, Or.inr (Or.inl ⟨r.seen, r.tail, hstarts, h0, hne, hnil⟩)⟩

/-- Without a defect, every message is accepted. -/
theorem decodeMsg_of_isMessage {bs : List UInt8} (h : ¬ Defect bs) (hmsg : IsMessage bs) :
    ∃ r, decodeMsg bs = some r := by
  obtain ⟨b0, code, idHi, idLo, token, os, payload, hhead, hcount, hfits⟩ := hmsg
  by_cases hlens : ∀ o ∈ os, o.value.length < 65536
  · rw [hhead.decodeMsg_eq, walk_of_lens hcount hfits hlens]
    exact ⟨_, rfl⟩
  -- a message with a value of 65536 bytes is one of the defects
  · obtain ⟨ss, rest, hstarts, hwrap⟩ :=
      @starts_of_long os (payloadBytes payload) hcount hfits hlens
    exact absurd ⟨_, _, _, _, _, _, hhead, Or.inr (Or.inr ⟨ss, rest, hstarts, hwrap,
      Or.inr (Or.inr (Or.inr ⟨_, _, _, _, _, _, _, hhead, hcount, hfits⟩))⟩)⟩ h

theorem Starts.mem_of_walk {body rest tail : List UInt8} {ss ss' : List Seen}
    (h : Starts body ss rest) (hwalk : walk maxopt body = some (ss', tail)) {s : Seen}
    (hs : s ∈ ss) : s ∈ ss' := by
  obtain ⟨rfl, hcount, hsound⟩ := h
  rw [walk_seenBytes hcount hsound] at hwalk
  obtain ⟨r, -, hr⟩ := Option.map_eq_some_iff.mp hwalk
  simp only [Prod.mk.injEq] at hr
  rw [← hr.1]
  exact List.mem_append_left _ hs

/-- A datagram that is read to its end, with no length cut down, has none of the defects. -/
theorem not_defect_of_walk {bs token body tail : List UInt8} {b0 code idHi idLo : UInt8}
    {ss : List Seen} (hhead : HeadToken bs b0 code idHi idLo token body)
    (hwalk : walk maxopt body = some (ss, tail)) (hlens : ∀ s ∈ ss, s.len < 65536)
    (htail : tail = [] ∨ payloadOf tail ≠ []) : ¬ Defect bs := by
  rintro ⟨_, _, _, _, _, body', hhead', hdefect⟩
  obtain ⟨-, -, -, -, -, rfl⟩ := hhead.unique hhead'
  -- a lone marker, a 17th option, a length cut down: each would show in the walk
  rcases hdefect with ⟨ss', hstarts⟩ | ⟨ss', rest, hstarts, hcap, hne, hnil⟩ |
    ⟨ss', rest, hstarts, ⟨s, hs, hlong⟩, -⟩
  · have heq := (walk_of_starts hstarts (Or.inr (Or.inl rfl))).symm.trans hwalk
    simp only [Option.some.injEq, Prod.mk.injEq] at heq
    rw [← heq.2] at htail
    exact htail.elim (List.cons_ne_nil _ _) fun h0 => h0 rfl
  · have heq := (walk_of_starts hstarts (Or.inr (Or.inr hcap))).symm.trans hwalk
    simp only [Option.some.injEq, Prod.mk.injEq] at heq
    rw [← heq.2] at htail
    exact htail.elim hne fun h0 => h0 hnil
  · have hlt := hlens s (hstarts.mem_of_walk hwalk hs)
    omega

section Exact

variable {m : Mem O} {buf : Ptr O} {n : Nat}

/-- Outside of the defects the parser is exact. -/
theorem parsesExactly_of_not_defect (hfit : buf.off + n ≤ (m buf.obj).length)
    (h : ¬ Defect (slice (m buf.obj) buf.off n)) : ParsesExactly m buf n := by
  refine ⟨⟨?_, ?_⟩, ?_⟩
  · rintro ⟨pkt, hpkt⟩
    obtain ⟨r, hr, -⟩ := (coapParse_eq_ok_iff hfit).mp hpkt
    obtain ⟨hlens, htail⟩ := good_of_not_defect h hr
    exact isMessage_of_parsed hr hlens htail
  · intro hmsg
    obtain ⟨r, hr⟩ := decodeMsg_of_isMessage h hmsg
    exact ⟨_, coapParse_ok hfit hr⟩
  · intro pkt hpkt
    obtain ⟨r, hr, rfl⟩ := (coapParse_eq_ok_iff hfit).mp hpkt
    exact (tiles_packetOf hfit hr).mpr (good_of_not_defect h hr)

/-- An exact parser accepts nothing that stops before the end or cuts a length down. -/
theorem ParsesExactly.good (hfit : buf.off + n ≤ (m buf.obj).length) (h : ParsesExactly m buf n)
    {b0 code idHi idLo : UInt8} {token body tail : List UInt8} {ss : List Seen}
    (hhead : HeadToken (slice (m buf.obj) buf.off n) b0 code idHi idLo token body)
    (hwalk : walk maxopt body = some (ss, tail)) :
    (∀ s ∈ ss, s.len < 65536) ∧ (tail = [] ∨ payloadOf tail ≠ []) := by
  have hr := hhead.decodeMsg_eq
  rw [hwalk] at hr
  exact (tiles_packetOf hfit hr).mp (h.2 _ (coapParse_ok hfit hr))

theorem not_defect_of_parsesExactly (hfit : buf.off + n ≤ (m buf.obj).length)
    (h : ParsesExactly m buf n) : ¬ Defect (slice (m buf.obj) buf.off n) := by
  intro hdefect
  obtain ⟨b0, code, idHi, idLo, token, body, hhead, hcases⟩ := id hdefect
  cases hwalk : walk maxopt body with
  | some r =>
    obtain ⟨hlens, htail⟩ := h.good hfit hhead hwalk
    exact not_defect_of_walk hhead hwalk hlens htail hdefect
  | none =>
    -- the parser rejects, so the datagram must be a message
    have hmsg : IsMessage (slice (m buf.obj) buf.off n) := by
      rcases hcases with ⟨ss, hstarts⟩ | ⟨ss, rest, hstarts, hcap, -, -⟩ |
        ⟨ss, rest, hstarts, -, h0 | h0 | h0 | hmsg⟩
      · cases (walk_of_starts hstarts (Or.inr (Or.inl rfl))).symm.trans hwalk
      · cases (walk_of_starts hstarts (Or.inr (Or.inr hcap))).symm.trans hwalk
      · cases (walk_of_starts hstarts (Or.inl h0)).symm.trans hwalk
      · cases (walk_of_starts hstarts (Or.inr (Or.inl h0))).symm.trans hwalk
      · cases (walk_of_starts hstarts (Or.inr (Or.inr h0))).symm.trans hwalk
      · exact hmsg
    obtain ⟨pkt, hpkt⟩ := h.1.mpr hmsg
    obtain ⟨r, hr, -⟩ := (coapParse_eq_ok_iff hfit).mp hpkt
    rw [hhead.decodeMsg_eq, hwalk] at hr
    cases hr

/-- `coap_parse` is exact on a datagram exactly when it has none of the defects. -/
theorem coapParse_exact_iff (hfit : buf.off + n ≤ (m buf.obj).length) :
    ParsesExactly m buf n ↔ ¬ Defect (slice (m buf.obj) buf.off n) :=
  ⟨not_defect_of_parsesExactly hfit, parsesExactly_of_not_defect hfit⟩

end Exact

/-! ## Datagrams with and without a defect -/

/-- The datagram `bs` in a buffer of its size. -/
def datagram (bs : List UInt8) : Mem Unit := fun _ => bs

/-- A GET with a token, a Uri-Path and a payload is parsed exactly. -/
theorem coapParse_exact_iff_get :
    ParsesExactly (datagram [0x41, 0x01, 0x12, 0x34, 0x07, 0xB1, 0x61, 0xFF, 0x2A]) ⟨(), 0⟩ 9 := by
  refine (coapParse_exact_iff (by decide)).mpr ?_
  have hhead : HeadToken [0x41, 0x01, 0x12, 0x34, 0x07, 0xB1, 0x61, 0xFF, 0x2A]
      0x41 0x01 0x12 0x34 [0x07] [0xB1, 0x61, 0xFF, 0x2A] :=
    ⟨rfl, by decide, by decide, by decide⟩
  have hwalk : walk maxopt [0xB1, 0x61, 0xFF, 0x2A] = some ([⟨11, 1, [0x61]⟩], [0xFF, 0x2A]) := by
    decide
  exact not_defect_of_walk hhead hwalk (by decide) (Or.inr (by decide))

/-- A marker as the last byte, a 17th option, and a length of 65536 that is read as 0: all
    are accepted, and none of them is a message of the format. -/
theorem coapParse_not_exact :
    ¬ ParsesExactly (datagram [0x40, 0x01, 0x12, 0x34, 0xFF]) ⟨(), 0⟩ 5 ∧
      ¬ ParsesExactly (datagram ([0x40, 0x01, 0x12, 0x34] ++ List.replicate 17 0x00)) ⟨(), 0⟩ 21 ∧
      ¬ ParsesExactly (datagram [0x40, 0x01, 0x12, 0x34, 0x0E, 0xFE, 0xF3]) ⟨(), 0⟩ 7 := by
  have hhead : ∀ body, HeadToken (0x40 :: 0x01 :: 0x12 :: 0x34 :: body) 0x40 0x01 0x12 0x34 [] body :=
    fun body => ⟨rfl, by decide, by decide, by decide⟩
  refine ⟨fun h => ?_, fun h => ?_, fun h => ?_⟩
  · exact not_defect_of_parsesExactly (by decide) h ⟨_, _, _, _, _, _, hhead [0xFF],
      Or.inl ⟨[], by decide, by decide, by simp⟩⟩
  · exact not_defect_of_parsesExactly (by decide) h ⟨_, _, _, _, _, _, hhead (List.replicate 17 0x00),
      Or.inr (Or.inl ⟨List.replicate 16 ⟨0, 0, []⟩, [0x00], ⟨by decide, by decide, by decide⟩,
        by decide, by decide, by decide⟩)⟩
  · exact not_defect_of_parsesExactly (by decide) h ⟨_, _, _, _, _, _, hhead [0x0E, 0xFE, 0xF3],
      Or.inr (Or.inr ⟨[⟨0, 65536, []⟩], [], ⟨by decide, by decide, by decide⟩,
        ⟨_, List.mem_singleton_self _, Nat.le_refl _⟩, Or.inl rfl⟩)⟩

end Gateway.CoapServer.Grammar
