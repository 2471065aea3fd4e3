/-
  Gateway.CoapServer.Roundtrip

  The server's parser on messages in the format of RFC 7252, and the round trip
  through `coap_build` and `coap_parse`.

  `coapParse_encode` is the general fact: the encoding of any message with at most
  16 options, option numbers of 8 bits and values of 16-bit length is accepted, and
  the packet that is reported stands for that message (`Decodes`).

  The encoder writes the format except for the length of a value of 269 bytes or
  more (`readOptHeader_buildOptBytes`), so the round trip holds for exactly the
  packets without such a value.
-/

import Gateway.CoapServer.BuildSpec

namespace Gateway.CoapServer.Roundtrip

open Gateway.Lib.ByteWindow Gateway.Lib.BlockMem Gateway.Lib.ByteBits Gateway.Lib.CoapFormat
open Gateway.CoapServer.Microcoap Gateway.CoapServer.ParseSpec Gateway.CoapServer.BuildSpec

variable {O : Type}

/-! ## Parsing a message of the format -/

/-- What the parser sees of an option of the format. -/
def seenOf (o : WireOpt) : Seen := ⟨o.delta, o.value.length, o.value⟩

/-- The walk finds every option of the format, up to the end or the marker. -/
theorem walk_optsBytes {free : Nat} {os : List WireOpt} {tail : List UInt8}
    (hcount : os.length ≤ free)
    (hfits : ∀ o ∈ os, o.delta ≤ extMax ∧ o.value.length < 65536)
    (htail : tail = [] ∨ ∃ t, tail = 0xFF :: t) :
    walk free (optsBytes os ++ tail) = some (os.map seenOf, tail) := by
  induction os generalizing free with
  | nil =>
    rw [optsBytes_nil, List.nil_append, List.map_nil]
    cases free with
    | zero => rfl
    | succ free =>
      rcases htail with rfl | ⟨t, rfl⟩
      · rfl
      · rw [walk, if_pos rfl]
  | cons o os ih =>
    obtain ⟨hdelta, hlen⟩ := hfits o (List.mem_cons_self ..)
    cases free with
    | zero => simp at hcount
    | succ free =>
      -- the length in the descriptor is the whole length
      have hmod : o.value.length % 65536 = o.value.length := Nat.mod_eq_of_lt hlen
      have hread : readOptHeader (optsBytes (o :: os) ++ tail)
          = some (o.delta, o.value.length, o.value ++ (optsBytes os ++ tail)) := by
        rw [optsBytes_cons, WireOpt.bytes, List.append_assoc, List.append_assoc]
        exact readOptHeader_optHeader hdelta (by unfold extMax; omega) _
      have hne : ∃ b bs, optsBytes (o :: os) ++ tail = b :: bs ∧ b ≠ 0xFF := by
        rw [optsBytes_cons, WireOpt.bytes, List.append_assoc, List.append_assoc]
        exact optHeader_ne_marker _ _ _
      rw [walk_cons hne hread (by rw [hmod, List.length_append]; omega), hmod, List.drop_left,
        List.take_left, ih (by simpa using hcount) fun o' ho' => hfits o' (List.mem_cons_of_mem _ ho')]
      rfl

/-- The parser on bytes, at a datagram whose options are found by the walk. -/
theorem decodeMsg_of_walk {b0 code idHi idLo : UInt8} {token body tail : List UInt8}
    {ss : List Seen} (hver : b0.toNat / 64 = 1) (htkl : b0.toNat % 16 = token.length)
    (hle : token.length ≤ 8) (hwalk : walk maxopt body = some (ss, tail)) :
    decodeMsg (b0 :: code :: idHi :: idLo :: (token ++ body))
      = some ⟨b0, code, idHi, idLo, token, ss, tail⟩ := by
  rw [decodeMsg, if_neg (by omega), if_neg (by omega),
    if_neg (by rw [List.length_append]; omega), htkl, List.drop_left, hwalk, List.take_left]

/-- The packet stands for the message: the header fields, and the token, the options and
    the payload read through the pointers. -/
structure Decodes (m : Mem O) (pkt : CoapPacket O) (msg : Message) : Prop where
  ver : pkt.hdr.ver.toNat = msg.ver.val
  type : pkt.hdr.t.toNat = msg.type.val
  tkl : pkt.hdr.tkl.toNat = msg.token.length
  code : pkt.hdr.code = msg.code
  idHi : pkt.hdr.idHi = msg.idHi
  idLo : pkt.hdr.idLo = msg.idLo
  nums : pkt.opts.map (fun o => o.num.toNat) = msg.opts.map Opt.num
  reads : Reads m pkt msg.token (msg.opts.map Opt.value) msg.payload

/-- The conditions under which the server's parser can represent a message: version 1, at
    most 16 options, numbers of 8 bits, values of 16-bit length. -/
structure Parseable (msg : Message) : Prop where
  ver : msg.ver = 1
  count : msg.opts.length ≤ maxopt
  nums : ∀ o ∈ msg.opts, o.num < 256
  lens : ∀ o ∈ msg.opts, o.value.length < 65536

theorem toWire_mem {prev : Nat} {os : List Opt} {w : WireOpt} (h : w ∈ toWire prev os) :
    ∃ o ∈ os, w.delta ≤ o.num ∧ w.value = o.value := by
  induction os generalizing prev with
  | nil => cases h
  | cons o os ih =>
    rcases List.mem_cons.mp h with rfl | h
    · exact ⟨o, List.mem_cons_self .., Nat.sub_le _ _, rfl⟩
    · obtain ⟨o', ho', hle⟩ := ih h
      exact ⟨o', List.mem_cons_of_mem _ ho', hle⟩

theorem payloadOf_payloadBytes (payload : List UInt8) :
    payloadOf (payloadBytes payload) = payload := by
  cases payload with
  | nil => rfl
  | cons x xs => rw [payloadBytes_of_ne_nil (List.cons_ne_nil x xs), payloadOf, if_pos rfl]

/-- What the parser on bytes finds in the encoding of a message. -/
def partsOf (msg : Message) : Parsed :=
  ⟨headByte msg.ver msg.type msg.token.length, msg.code, msg.idHi, msg.idLo, msg.token,
    (toWire 0 msg.opts).map seenOf, payloadBytes msg.payload⟩

/-- The header, the token and the options of a message, with something else behind them. -/
theorem decodeMsg_tail {msg : Message} {tail : List UInt8} (h : Parseable msg)
    (htail : tail = [] ∨ ∃ bs, tail = 0xFF :: bs) :
    decodeMsg (headByte msg.ver msg.type msg.token.length :: msg.code :: msg.idHi :: msg.idLo
        :: (msg.token ++ (optsBytes (toWire 0 msg.opts) ++ tail)))
      = some { partsOf msg with tail := tail } := by
  have hle := msg.token_le
  have hb := headByte_toNat msg.ver.isLt msg.type.isLt (show msg.token.length < 16 by omega)
  have hv : msg.ver.val = 1 := by rw [h.ver]; rfl
  have ht := msg.type.isLt
  refine decodeMsg_of_walk (by omega) (by omega) hle (walk_optsBytes ?_ ?_ htail)
  · rw [toWire_length]
    exact h.count
  · intro w hw
    obtain ⟨o, ho, hdelta, hvalue⟩ := toWire_mem hw
    have hnum := h.nums o ho
    exact ⟨by unfold extMax; omega, hvalue ▸ h.lens o ho⟩

/-- A datagram with the header, the token and the options of a message is accepted and stands
    for the message when its end is read as the payload. -/
theorem decodes_of_decodeMsg {m : Mem O} {buf : Ptr O} {msg : Message} {n : Nat}
    {tail : List UInt8} (h : Parseable msg) (hfit : buf.off + n ≤ (m buf.obj).length)
    (hdec : decodeMsg (slice (m buf.obj) buf.off n) = some { partsOf msg with tail := tail })
    (hpay : payloadOf tail = msg.payload) :
    ∃ pkt, coapParse m buf n = .ok pkt ∧ Decodes m pkt msg := by
  have hle := msg.token_le
  have hb := headByte_toNat msg.ver.isLt msg.type.isLt (show msg.token.length < 16 by omega)
  have ht := msg.type.isLt
  refine ⟨_, coapParse_ok hfit hdec, ?_⟩
  have hreads := packetOf_reads hfit hdec
  have hvalues : (partsOf msg).seen.map Seen.value = msg.opts.map Opt.value := by
    simp only [partsOf, List.map_map]
    generalize 0 = prev
    induction msg.opts generalizing prev with
    | nil => rfl
    | cons o os ih => rw [toWire_cons, List.map_cons, List.map_cons, ih]; rfl
  -- what is left are the numbers in the header and the running option numbers
  simp only [hvalues, hpay] at hreads
  refine ⟨?_, ?_, ?_, rfl, rfl, rfl, ?_, hreads⟩
  · rw [h.ver]
    rfl
  · simp only [packetOf, partsOf, toNat_bits45, hb]
    omega
  · simp only [packetOf, partsOf, toNat_lowNibble, hb]
    omega
  -- `uint8_t` running numbers: the format's numbers, since all are below 256
  · have hsorted := List.pairwise_cons.mpr ⟨fun n _ => Nat.zero_le n, msg.sorted⟩
    have hnums := layoutOpts_nums buf.obj (buf.off + 4 + msg.token.length) 0 (partsOf msg).seen
    have hwire : (partsOf msg).seen.map (fun s => (⟨s.delta, s.value⟩ : WireOpt))
        = toWire 0 msg.opts := by
      simp only [partsOf, List.map_map]
      exact List.map_id _
    rw [hwire, wireNums_toWire 0 _ hsorted] at hnums
    have hn := congrArg (List.map UInt8.toNat) hnums
    rw [List.map_map, List.map_map, List.map_map] at hn
    refine hn.trans (List.map_congr_left fun o ho => ?_)
    have := h.nums o ho
    simp only [Function.comp, UInt8.toNat_ofNat']
    omega

/-- The server accepts the encoding of every message it can represent, and reports a packet
    that stands for it. -/
theorem coapParse_encode {m : Mem O} {buf : Ptr O} {msg : Message} (h : Parseable msg)
    (hfit : buf.off + msg.encode.length ≤ (m buf.obj).length)
    (hs : slice (m buf.obj) buf.off msg.encode.length = msg.encode) :
    ∃ pkt, coapParse m buf msg.encode.length = .ok pkt ∧ Decodes m pkt msg := by
  refine @decodes_of_decodeMsg _ m buf msg _ (payloadBytes msg.payload) h hfit ?_
    (payloadOf_payloadBytes msg.payload)
  rw [hs]
  exact decodeMsg_tail h (payloadBytes_cases msg.payload)

/-- A marker with nothing behind it is accepted as well. -/
theorem coapParse_encode_marker {m : Mem O} {buf : Ptr O} {msg : Message} (h : Parseable msg)
    (hnone : msg.payload = []) (hfit : buf.off + (msg.encode.length + 1) ≤ (m buf.obj).length)
    (hs : slice (m buf.obj) buf.off (msg.encode.length + 1) = msg.encode ++ [0xFF]) :
    ∃ pkt, coapParse m buf (msg.encode.length + 1) = .ok pkt ∧ Decodes m pkt msg := by
  refine @decodes_of_decodeMsg _ m buf msg _ [0xFF] h hfit ?_ hnone.symm
  have hbytes : msg.encode ++ [0xFF]
      = headByte msg.ver msg.type msg.token.length :: msg.code :: msg.idHi :: msg.idLo
        :: (msg.token ++ (optsBytes (toWire 0 msg.opts) ++ [0xFF])) := by
    simp only [Message.encode, wireMessage, hnone, payloadBytes_nil, List.append_nil,
      List.cons_append, List.append_assoc]
  rw [hs, hbytes]
  exact decodeMsg_tail h (Or.inr ⟨[], rfl⟩)

/-! ## Packets that can be encoded -/

/-- The number of bytes the format gives a packet with this token, these options and this
    payload. -/
def packetSize (token : List UInt8) (os : List (UInt8 × List UInt8)) (payload : List UInt8) : Nat :=
  4 + token.length + (optsBytes (toWire 0 (optsOf os))).length + (payloadBytes payload).length

theorem pktBytes_length (pkt : CoapPacket O) (token : List UInt8) (vs : List (List UInt8))
    (payload : List UInt8) :
    (pktBytes pkt token vs payload).length
      = packetSize token ((pkt.opts.map CoapOption.num).zip vs) payload := by
  simp only [pktBytes, buildBytes, packetSize, List.length_append, List.length_cons,
    List.length_nil, buildOptsBytes_length]

/-- The first byte `coap_build` writes is that of the format. -/
theorem buildHeadByte_eq {hdr : CoapHeader} (hver : hdr.ver = 1) (ht : hdr.t.toNat ≤ 3)
    (hk : hdr.tkl.toNat ≤ 8) : buildHeadByte hdr = headByte 1 hdr.t.toNat hdr.tkl.toNat := by
  -- 36 bytes
  have hall : ∀ t : Fin 4, ∀ k : Fin 9,
      ((1 : UInt8) &&& 0x03) <<< 6 ||| (UInt8.ofNat t &&& 0x03) <<< 4 ||| (UInt8.ofNat k &&& 0x0F)
        = headByte 1 t k := by
    decide +kernel
  have hb := hall ⟨hdr.t.toNat, by omega⟩ ⟨hdr.tkl.toNat, by omega⟩
  simp only [UInt8.ofNat_toNat] at hb
  rw [buildHeadByte, hver, hb]

/-- Each value has the length its descriptor gives. -/
theorem lengths_of_reads {m : Mem O} {os : List (CoapOption O)} {vs : List (List UInt8)}
    (h : os.map (fun o => o.buf.read m) = vs.map some) :
    vs.map List.length = os.map fun o => o.buf.len := by
  induction os generalizing vs with
  | nil =>
    cases vs with
    | nil => rfl
    | cons v vs => cases h
  | cons o os ih =>
    cases vs with
    | nil => cases h
    | cons v vs =>
      rw [List.map_cons, List.map_cons, List.cons.injEq] at h
      rw [List.map_cons, List.map_cons, ih h.2, CoapBuffer.read_length h.1]

/-- A packet that can be encoded into the `buflen` bytes at `buf`: its token, values and
    payload are `token`, `vs` and `payload`, and they stand outside the buffer (the token
    may also stand where it is going to be written). -/
structure Encodable (m : Mem O) (buf : Ptr O) (buflen : Nat) (pkt : CoapPacket O)
    (token : List UInt8) (vs : List (List UInt8)) (payload : List UInt8) : Prop where
  ver : pkt.hdr.ver = 1
  type : pkt.hdr.t.toNat ≤ 3
  tkl : pkt.hdr.tkl.toNat = pkt.tok.len
  tokLe : pkt.tok.len ≤ 8
  count : pkt.opts.length ≤ maxopt
  sorted : (pkt.opts.map CoapOption.num).Pairwise (· ≤ ·)
  lens : ∀ o ∈ pkt.opts, o.buf.len ≤ 65535
  reads : Reads m pkt token vs payload
  tokApart : Apart pkt.tok buf.obj ∨ pkt.tok.p = some (buf.add 4)
  optsApart : ∀ o ∈ pkt.opts, Apart o.buf buf.obj
  payloadApart : Apart pkt.payload buf.obj
  object : buf.off + buflen ≤ (m buf.obj).length
  room : packetSize token ((pkt.opts.map CoapOption.num).zip vs) payload ≤ buflen

section Encodable

variable {m : Mem O} {buf : Ptr O} {buflen : Nat} {pkt : CoapPacket O} {token payload : List UInt8}
  {vs : List (List UInt8)}

theorem Encodable.length_eq (h : Encodable m buf buflen pkt token vs payload) :
    pkt.opts.length = vs.length := by
  simpa using congrArg List.length h.reads.opts

theorem Encodable.tkl_eq (h : Encodable m buf buflen pkt token vs payload) :
    pkt.hdr.tkl.toNat = token.length := by
  rw [h.tkl, CoapBuffer.read_length h.reads.tok]

theorem Encodable.zip_nums (h : Encodable m buf buflen pkt token vs payload) :
    ((pkt.opts.map CoapOption.num).zip vs).map Prod.fst = pkt.opts.map CoapOption.num :=
  List.map_fst_zip (by rw [List.length_map]; exact Nat.le_of_eq h.length_eq)

theorem Encodable.zip_values (h : Encodable m buf buflen pkt token vs payload) :
    ((pkt.opts.map CoapOption.num).zip vs).map Prod.snd = vs :=
  List.map_snd_zip (by rw [List.length_map]; exact Nat.le_of_eq h.length_eq.symm)

/-- The bounds on the descriptors' lengths are bounds on the values' lengths. -/
theorem Encodable.lens_iff (h : Encodable m buf buflen pkt token vs payload) (P : Nat → Prop) :
    (∀ o ∈ pkt.opts, P o.buf.len) ↔
      ∀ o ∈ (pkt.opts.map CoapOption.num).zip vs, P o.2.length := by
  have hzip : ((pkt.opts.map CoapOption.num).zip vs).map (fun o => o.2.length)
      = pkt.opts.map fun o => o.buf.len := by
    rw [← lengths_of_reads h.reads.opts]
    conv_rhs => rw [← h.zip_values, List.map_map]
    rfl
  have hall := @List.forall_mem_map _ _ (fun o : CoapOption O => o.buf.len) pkt.opts P
  rw [← hall, ← hzip, List.forall_mem_map]

/-- The message a packet that can be encoded stands for. -/
def Encodable.message (h : Encodable m buf buflen pkt token vs payload) : Message where
  ver := 1
  type := ⟨pkt.hdr.t.toNat, Nat.lt_succ_of_le h.type⟩
  code := pkt.hdr.code
  idHi := pkt.hdr.idHi
  idLo := pkt.hdr.idLo
  token := token
  opts := optsOf ((pkt.opts.map CoapOption.num).zip vs)
  payload := payload
  token_le := by
    rw [CoapBuffer.read_length h.reads.tok]
    exact h.tokLe
  sorted := by
    rw [optsOf_nums, h.zip_nums]
    exact List.pairwise_map.mpr (h.sorted.imp fun hle => UInt8.le_iff_toNat_le.mp hle)

theorem Encodable.message_nums (h : Encodable m buf buflen pkt token vs payload) :
    h.message.opts.map Opt.num = (pkt.opts.map CoapOption.num).map UInt8.toNat :=
  (optsOf_nums _).trans (congrArg (List.map UInt8.toNat) h.zip_nums)

theorem Encodable.message_values (h : Encodable m buf buflen pkt token vs payload) :
    h.message.opts.map Opt.value = vs :=
  (optsOf_values _).trans h.zip_values

/-- Without a value of 269 bytes or more, the packet's bytes are those of the message. -/
theorem Encodable.pktBytes_eq (h : Encodable m buf buflen pkt token vs payload)
    (hlens : ∀ o ∈ pkt.opts, o.buf.len < 269) :
    pktBytes pkt token vs payload = h.message.encode := by
  have htkl : pkt.hdr.tkl.toNat ≤ 8 := h.tkl ▸ h.tokLe
  rw [pktBytes, buildBytes, buildHeadByte_eq h.ver h.type htkl, h.tkl_eq,
    buildOptsBytes_eq ((h.lens_iff (· < 269)).mp hlens)]
  simp only [Message.encode, wireMessage, Encodable.message, List.append_assoc, List.cons_append,
    List.nil_append]
  rfl

/-- The message is one the parser can represent. -/
theorem Encodable.parseable (h : Encodable m buf buflen pkt token vs payload) :
    Parseable h.message where
  ver := rfl
  count := by
    have hcount := congrArg List.length h.message_values
    rw [List.length_map] at hcount
    rw [hcount, ← h.length_eq]
    exact h.count
  nums o ho := by
    have hmem : o.num ∈ h.message.opts.map Opt.num := List.mem_map_of_mem ho
    rw [h.message_nums] at hmem
    obtain ⟨n, -, hn⟩ := List.mem_map.mp hmem
    rw [← hn]
    exact n.toNat_lt
  lens o ho := by
    have hmem : o.value ∈ h.message.opts.map Opt.value := List.mem_map_of_mem ho
    rw [h.message_values] at hmem
    have hlen : o.value.length ∈ vs.map List.length := List.mem_map_of_mem hmem
    rw [lengths_of_reads h.reads.opts] at hlen
    obtain ⟨o', ho', hlen⟩ := List.mem_map.mp hlen
    have hle := h.lens o' ho'
    omega

end Encodable

/-! ## The round trip -/

section RoundTrip

variable [DecidableEq O]

/-- What goes through `coap_build` and `coap_parse` and comes back: the header fields, the
    number and the numbers of the options, and all bytes the packet points to. -/
def RoundTrip (m : Mem O) (buf : Ptr O) (buflen : Nat) (pkt : CoapPacket O)
    (token : List UInt8) (vs : List (List UInt8)) (payload : List UInt8) : Prop :=
  ∃ m' n pkt', coapBuild m buf buflen pkt = some (.none, m', n) ∧
    coapParse m' buf n = .ok pkt' ∧
    pkt'.hdr = pkt.hdr ∧
    pkt'.tok.len = pkt.tok.len ∧
    pkt'.opts.map CoapOption.num = pkt.opts.map CoapOption.num ∧
    pkt'.payload.len = payload.length ∧
    Reads m' pkt' token vs payload

variable {m : Mem O} {buf : Ptr O} {buflen : Nat} {pkt : CoapPacket O} {token payload : List UInt8}
  {vs : List (List UInt8)}

theorem Encodable.buildable (h : Encodable m buf buflen pkt token vs payload) :
    Buildable m buf pkt token vs payload where
  tkl := h.tkl
  tok w hw := by
    have hroom := h.room
    have hobj := h.object
    unfold packetSize at hroom
    -- the token is read while the header before it is written
    rcases h.tokApart with hapart | hat
    · exact read_written hapart h.reads.tok
    · exact read_written_behind (hw ▸ hat) (by omega) h.reads.tok
  opts := h.reads.opts
  optsApart := h.optsApart
  optsLen := h.lens
  sorted := h.sorted
  payload := h.reads.payload
  payloadApart := h.payloadApart

/-- `coap_build` succeeds, whatever the lengths of the values, and the buffer then holds the
    packet's bytes. -/
theorem Encodable.coapBuild_eq (h : Encodable m buf buflen pkt token vs payload) :
    coapBuild m buf buflen pkt
        = some (.none, written m buf (pktBytes pkt token vs payload),
            (pktBytes pkt token vs payload).length) ∧
      buf.off + (pktBytes pkt token vs payload).length
        ≤ (written m buf (pktBytes pkt token vs payload) buf.obj).length ∧
      slice (written m buf (pktBytes pkt token vs payload) buf.obj) buf.off
        (pktBytes pkt token vs payload).length = pktBytes pkt token vs payload := by
  have hfit : (pktBytes pkt token vs payload).length ≤ buflen := by
    rw [pktBytes_length]
    exact h.room
  have hobj : buf.off + (pktBytes pkt token vs payload).length ≤ (m buf.obj).length := by
    have hobject := h.object
    omega
  refine ⟨BuildSpec.coapBuild_eq h.buildable h.object hfit, ?_, ?_⟩
  · rw [written, setObj_self, splice_length hobj]
    exact hobj
  · rw [written, setObj_self, slice_splice_self hobj]

/-- A header is determined by the numbers in it. -/
theorem CoapHeader.eq_of_toNat {h h' : CoapHeader} (hver : h.ver.toNat = h'.ver.toNat)
    (ht : h.t.toNat = h'.t.toNat) (htkl : h.tkl.toNat = h'.tkl.toNat) (hcode : h.code = h'.code)
    (hhi : h.idHi = h'.idHi) (hlo : h.idLo = h'.idLo) : h = h' := by
  obtain ⟨ver, t, tkl, code, idHi, idLo⟩ := h
  obtain ⟨ver', t', tkl', code', idHi', idLo'⟩ := h'
  simp only [UInt8.toNat_inj] at hver ht htkl hcode hhi hlo
  rw [hver, ht, htkl, hcode, hhi, hlo]

/-- Packets without a value of 269 bytes or more come back. -/
theorem Encodable.roundTrip (h : Encodable m buf buflen pkt token vs payload)
    (hlens : ∀ o ∈ pkt.opts, o.buf.len < 269) : RoundTrip m buf buflen pkt token vs payload := by
  obtain ⟨hbuild, hfit, hslice⟩ := h.coapBuild_eq
  rw [h.pktBytes_eq hlens] at hbuild hfit hslice
  -- the bytes are those of the format, and the parser reads the format
  obtain ⟨pkt', hok, hdec⟩ := coapParse_encode h.parseable hfit hslice
  have hreads := hdec.reads
  rw [h.message_values] at hreads
  have hver : pkt'.hdr.ver.toNat = pkt.hdr.ver.toNat := by
    rw [h.ver]
    exact hdec.ver
  refine ⟨_, _, pkt', hbuild, hok, ?_, ?_, ?_, ?_, hreads⟩
  · exact CoapHeader.eq_of_toNat hver hdec.type (hdec.tkl.trans h.tkl_eq.symm) hdec.code
      hdec.idHi hdec.idLo
  · rw [← CoapBuffer.read_length hreads.tok, ← CoapBuffer.read_length h.reads.tok]
    rfl
  · have hn := hdec.nums
    rw [h.message_nums] at hn
    have hinj : Function.Injective (List.map UInt8.toNat) :=
      List.map_injective_iff.mpr fun a b hab => UInt8.toNat_inj.mp hab
    apply hinj
    rw [List.map_map]
    exact hn
  · exact (CoapBuffer.read_length hreads.payload).symm

/-- The walk over an encoded option: the value it takes has the length of the header. -/
theorem walk_buildOptBytes {free delta : Nat} {value rest tail : List UInt8} {ss : List Seen}
    (hdelta : delta ≤ extMax) (hlen : value.length ≤ 65535)
    (h : walk (free + 1) (buildOptBytes delta value ++ rest) = some (ss, tail)) :
    ∃ s ss', ss = s :: ss' ∧ s.value.length = builtLen value.length % 65536 ∧
      (value.length < 269 → walk free rest = some (ss', tail)) := by
  rw [buildOptBytes_eq_optHeader, List.append_assoc] at h
  have hmarker := optHeader_ne_marker delta (builtLen value.length) (value ++ rest)
  have hread := readOptHeader_optHeader hdelta (builtLen_le_extMax hlen) (value ++ rest)
  -- a header that names too many bytes ends the walk with an error
  by_cases hfit : builtLen value.length % 65536 ≤ (value ++ rest).length
  · rw [walk_cons hmarker hread hfit] at h
    obtain ⟨r, hr, heq⟩ := Option.map_eq_some_iff.mp h
    simp only [Prod.mk.injEq] at heq
    refine ⟨_, r.1, heq.1.symm, ?_, fun hlt => ?_⟩
    · simp only [List.length_take]
      omega
    · rw [(builtLen_mod_eq_iff hlen).mpr hlt, List.drop_left] at hr
      rw [hr, ← heq.2]
  · obtain ⟨b, bs, hcons, hne⟩ := hmarker
    rw [hcons] at h hread
    rw [walk, if_neg hne, hread] at h
    simp only at h
    rw [if_pos (by omega)] at h
    cases h

/-- Where the values of all options come back, they are all shorter than 269 bytes. -/
theorem lens_of_walk {free prev : Nat} {os : List (UInt8 × List UInt8)} {rest tail : List UInt8}
    {ss : List Seen} (hlens : ∀ o ∈ os, o.2.length ≤ 65535)
    (h : walk free (buildOptsBytes prev os ++ rest) = some (ss, tail))
    (hvals : ss.map Seen.value = os.map Prod.snd) : ∀ o ∈ os, o.2.length < 269 := by
  induction os generalizing free prev ss with
  | nil => simp
  | cons o os ih =>
    cases free with
    | zero =>
      obtain ⟨rfl, -⟩ : [] = ss ∧ _ := by simpa [walk] using h
      cases hvals
    | succ free =>
      have hdelta : o.1.toNat - prev ≤ extMax := by
        have ho := o.1.toNat_lt
        unfold extMax
        omega
      have hlen := hlens o (List.mem_cons_self ..)
      rw [buildOptsBytes, List.append_assoc] at h
      obtain ⟨s, ss', rfl, hs, hrest⟩ := walk_buildOptBytes hdelta hlen h
      rw [List.map_cons, List.map_cons, List.cons.injEq] at hvals
      -- the value that came back has its own length, not the one the header names
      rw [hvals.1] at hs
      have hlt := (builtLen_mod_eq_iff hlen).mp hs.symm
      intro o' ho'
      rcases List.mem_cons.mp ho' with rfl | ho'
      · exact hlt
      · exact ih (fun o'' ho'' => hlens o'' (List.mem_cons_of_mem _ ho'')) (hrest hlt) hvals.2 o' ho'

/-- The options that are found behind a header and a token. -/
theorem walk_of_decodeMsg {b0 code idHi idLo : UInt8} {token body : List UInt8} {r : Parsed}
    (htkl : b0.toNat % 16 = token.length)
    (h : decodeMsg (b0 :: code :: idHi :: idLo :: (token ++ body)) = some r) :
    walk maxopt body = some (r.seen, r.tail) := by
  rw [decodeMsg, htkl, List.drop_left] at h
  split at h
  · cases h
  split at h
  · cases h
  split at h
  · cases h
  split at h
  · cases h
  next ss tail hwalk =>
  cases h
  exact hwalk

/-- A packet that comes back has no value of 269 bytes or more. -/
theorem Encodable.lens_of_roundTrip (h : Encodable m buf buflen pkt token vs payload)
    (hrt : RoundTrip m buf buflen pkt token vs payload) : ∀ o ∈ pkt.opts, o.buf.len < 269 := by
  obtain ⟨hbuild, hfit, hslice⟩ := h.coapBuild_eq
  obtain ⟨m', n, pkt', hbuild', hparse, -, -, -, -, hreads⟩ := hrt
  rw [hbuild] at hbuild'
  obtain ⟨rfl, rfl⟩ : written m buf (pktBytes pkt token vs payload) = m' ∧
      (pktBytes pkt token vs payload).length = n := by simpa using hbuild'
  -- the packet that came back is what the walk found in the bytes written
  obtain ⟨r, hr, rfl⟩ := (coapParse_eq_ok_iff hfit).mp hparse
  have hvalues := (packetOf_reads hfit hr).opts
  rw [hreads.opts] at hvalues
  have hvalues := (List.map_injective_iff.mpr (Option.some_injective _) hvalues).symm
  rw [hslice, pktBytes, buildBytes] at hr
  simp only [List.append_assoc, List.cons_append, List.nil_append] at hr
  have htkl8 : pkt.hdr.tkl.toNat ≤ 8 := h.tkl ▸ h.tokLe
  have ht := h.type
  have htkl : (buildHeadByte pkt.hdr).toNat % 16 = token.length := by
    rw [buildHeadByte_eq h.ver h.type htkl8, headByte_toNat (by omega) (by omega) (by omega),
      ← h.tkl_eq]
    omega
  refine (h.lens_iff (· < 269)).mpr (lens_of_walk ((h.lens_iff (· ≤ 65535)).mp h.lens)
    (walk_of_decodeMsg htkl hr) ?_)
  rw [hvalues, h.zip_values]

/-- A packet that can be encoded comes back through `coap_build` and `coap_parse` exactly
    when none of its values has 269 bytes or more. -/
theorem coapBuild_coapParse_iff (h : Encodable m buf buflen pkt token vs payload) :
    RoundTrip m buf buflen pkt token vs payload ↔ ∀ o ∈ pkt.opts, o.buf.len < 269 :=
  ⟨h.lens_of_roundTrip, h.roundTrip⟩

end RoundTrip

/-! ## A packet with one option -/

/-- A value of `n` bytes (object `true`) and a buffer of `n + 9` bytes (object `false`). -/
def oneOptionMem (n : Nat) : Mem Bool
  | true => List.replicate n 0x41
  | false => List.replicate (n + 9) 0

/-- A GET whose only option is a Uri-Path of `n` bytes. -/
def oneOptionPkt (n : Nat) : CoapPacket Bool where
  hdr := { ver := 1, t := 0, tkl := 0, code := coapMethodGet, idHi := 0x12, idLo := 0x34 }
  tok := { p := none, len := 0 }
  opts := [{ num := coapOptionUriPath, buf := { p := some ⟨true, 0⟩, len := n } }]
  payload := { p := none, len := 0 }

theorem oneOption_encodable {n : Nat} (h : n ≤ 65535) :
    Encodable (oneOptionMem n) ⟨false, 0⟩ (n + 9) (oneOptionPkt n) []
      [List.replicate n 0x41] [] where
  ver := rfl
  type := by simp [oneOptionPkt]
  tkl := rfl
  tokLe := by simp [oneOptionPkt]
  count := by simp [oneOptionPkt, maxopt]
  sorted := by simp [oneOptionPkt]
  lens := by simpa [oneOptionPkt] using h
  reads := by
    refine ⟨rfl, ?_, rfl⟩
    have hvalue : CoapBuffer.read (oneOptionMem n) { p := some ⟨true, 0⟩, len := n }
        = some (List.replicate n 0x41) := by
      rw [CoapBuffer.read]
      split
      · next h0 =>
        simp only at h0
        rw [h0]
        rfl
      · exact loadBytes_eq_some.mpr ⟨by simp [oneOptionMem], by simp [oneOptionMem, slice]⟩
    simp only [oneOptionPkt, List.map_cons, List.map_nil, hvalue]
  tokApart := Or.inl (by simp [Apart, oneOptionPkt])
  optsApart := by simp [Apart, oneOptionPkt]
  payloadApart := by simp [Apart, oneOptionPkt]
  object := by simp [oneOptionMem]
  room := by
    have hhead := optHeader_length_le (coapOptionUriPath.toNat - 0) n
    simp only [packetSize, oneOptionPkt, optsOf, List.map_cons, List.map_nil, List.zip_cons_cons,
      List.zip_nil_left, toWire_cons, toWire_nil, optsBytes_cons, optsBytes_nil, List.append_nil,
      WireOpt.bytes_length, List.length_replicate, payloadBytes_nil, List.length_nil]
    omega

/-- A value of 268 bytes comes back. -/
theorem coapBuild_coapParse_iff_268 :
    RoundTrip (oneOptionMem 268) ⟨false, 0⟩ 277 (oneOptionPkt 268) []
      [List.replicate 268 0x41] [] :=
  (coapBuild_coapParse_iff (oneOption_encodable (by decide))).mpr (by simp [oneOptionPkt])

/-- A value of 269 bytes does not: the header that is written names 525 bytes. -/
theorem not_roundTrip_269 :
    Encodable (oneOptionMem 269) ⟨false, 0⟩ 278 (oneOptionPkt 269) []
        [List.replicate 269 0x41] [] ∧
      ¬ RoundTrip (oneOptionMem 269) ⟨false, 0⟩ 278 (oneOptionPkt 269) []
        [List.replicate 269 0x41] [] := by
  have henc := @oneOption_encodable 269 (by decide)
  refine ⟨henc, fun hrt => ?_⟩
  have hlt := henc.lens_of_roundTrip hrt _ (List.mem_cons_self ..)
  exact absurd hlt (by decide)

end Gateway.CoapServer.Roundtrip
