/-
  Gateway.CoapServer.Microcoap

  The server's CoAP codec and dispatcher (`coapServer/microcoap.c`,
  `microcoap.h`): `coap_parse`, `coap_build`, `coap_make_response` and
  `coap_handle_req` with what they call.

  The functions run over a block memory (`Gateway.Lib.BlockMem`), because a parsed
  packet holds pointers into the datagram buffer it was parsed from and the reply
  is built into that same buffer.  Machine integers are those of the source:
  `delta` and `len` of an option are `uint16_t`, its number is `uint8_t`.  The
  array `opts` with its count `numopts` is the list of the entries in use.
-/

import Gateway.Lib.BlockMem

namespace Gateway.CoapServer.Microcoap

open Gateway.Lib.BlockMem

/-! ## Types -/

/-- `coap_error_t`. -/
inductive CoapError where
  | none
  | headerTooShort
  | versionNot1
  | tokenTooShort
  | optionTooShortForHeader
  | optionTooShort
  | optionOverrunsPacket
  | optionTooBig
  | optionLenInvalid
  | bufferTooSmall
  | unsupported
  | optionDeltaInvalid
  deriving DecidableEq, Repr

/-- `MAXOPT`: the size of the array `opts`. -/
def maxopt : Nat := 16

/-- `COAP_OPTION_URI_PATH`. -/
def coapOptionUriPath : UInt8 := 11

/-- `COAP_OPTION_CONTENT_FORMAT`. -/
def coapOptionContentFormat : UInt8 := 12

/-- `COAP_TYPE_ACK`. -/
def coapTypeAck : UInt8 := 2

/-- `COAP_METHOD_GET`. -/
def coapMethodGet : UInt8 := 1

/-- `COAP_METHOD_PUT`. -/
def coapMethodPut : UInt8 := 3

/-- `MAKE_RSPCODE(clas, det)`. -/
def makeRspcode (clas det : UInt8) : UInt8 := clas <<< 5 ||| det

/-- `coap_responsecode_t`. -/
inductive CoapResponsecode where
  | content
  | notFound
  | badRequest
  | changed
  deriving DecidableEq, Repr

/-- The byte of a response code. -/
def CoapResponsecode.code : CoapResponsecode → UInt8
  | content => makeRspcode 2 5
  | notFound => makeRspcode 4 4
  | badRequest => makeRspcode 4 0
  | changed => makeRspcode 2 4

/-- `coap_content_type_t`. -/
inductive CoapContentType where
  | none
  | textPlain
  | applicationLinkformat
  deriving DecidableEq, Repr

/-- `(uint16_t)content_type`; `COAP_CONTENTTYPE_NONE` is -1. -/
def CoapContentType.toUInt16 : CoapContentType → UInt16
  | none => 0xFFFF
  | textPlain => 0
  | applicationLinkformat => 40

/-- `coap_header_t`. -/
structure CoapHeader where
  ver : UInt8
  t : UInt8
  tkl : UInt8
  code : UInt8
  idHi : UInt8
  idLo : UInt8
  deriving DecidableEq, Repr

/-- `coap_buffer_t`; a NULL pointer is `none`. -/
structure CoapBuffer (O : Type) where
  p : Option (Ptr O)
  len : Nat
  deriving DecidableEq, Repr

/-- `coap_rw_buffer_t`. -/
structure CoapRwBuffer (O : Type) where
  p : Ptr O
  len : Nat
  deriving DecidableEq, Repr

/-- `coap_option_t`. -/
structure CoapOption (O : Type) where
  num : UInt8
  buf : CoapBuffer O
  deriving DecidableEq, Repr

/-- `coap_packet_t`; `opts` holds the first `numopts` entries of the array. -/
structure CoapPacket (O : Type) where
  hdr : CoapHeader
  tok : CoapBuffer O
  opts : List (CoapOption O)
  payload : CoapBuffer O
  deriving DecidableEq, Repr

variable {O : Type}

/-- The bytes a buffer descriptor stands for. -/
def CoapBuffer.read (m : Mem O) (b : CoapBuffer O) : Option (List UInt8) :=
  if b.len = 0 then some [] else do
  let p ← b.p
  loadBytes m p b.len

/-! ## coap_parse -/

/-- `coap_parseHeader`. -/
def coapParseHeader (m : Mem O) (buf : Ptr O) (buflen : Nat) : Outcome CoapError CoapHeader :=
  if buflen < 4 then .err .headerTooShort else do
  let b0 ← load m buf
  let ver := (b0 &&& 0xC0) >>> 6
  if ver ≠ 1 then .err .versionNot1 else do
  -- the length was checked, so the other three bytes are there
  let b1 ← load m (buf.add 1)
  let b2 ← load m (buf.add 2)
  let b3 ← load m (buf.add 3)
  .ok { ver := ver, t := (b0 &&& 0x30) >>> 4, tkl := b0 &&& 0x0F, code := b1,
        idHi := b2, idLo := b3 }

/-- `coap_parseToken`. -/
def coapParseToken (hdr : CoapHeader) (buf : Ptr O) (buflen : Nat) :
    Outcome CoapError (CoapBuffer O) :=
  if hdr.tkl = 0 then .ok { p := none, len := 0 }
  else if hdr.tkl ≤ 8 then
    -- the token must end inside the datagram
    if 4 + hdr.tkl.toNat > buflen then .err .tokenTooShort
    else .ok { p := some (buf.add 4), len := hdr.tkl.toNat }
  -- a TKL of 9 to 15 is an invalid size
  else .err .tokenTooShort

/-- The block of `coap_parseOption` that turns a nibble into a delta, and the same
    block for the length: the value, the new `headlen` and the advanced `p`. -/
def coapParseExt (m : Mem O) (buflen : Nat) (invalid : CoapError) (nib : UInt16)
    (headlen : Nat) (p : Ptr O) : Outcome CoapError (UInt16 × Nat × Ptr O) :=
  if nib = 13 then
    -- one byte follows, less 13
    if buflen < headlen + 1 then .err .optionTooShortForHeader else do
    let b ← load m (p.add 1)
    .ok (b.toUInt16 + 13, headlen + 1, p.add 1)
  else if nib = 14 then
    -- two bytes follow, less 269
    if buflen < headlen + 2 then .err .optionTooShortForHeader else do
    let b ← load m (p.add 1)
    let c ← load m (p.add 2)
    .ok ((b.toUInt16 <<< 8 ||| c.toUInt16) + 269, headlen + 2, p.add 2)
  else if nib = 15 then .err invalid
  else .ok (nib, headlen, p)

/-- `coap_parseOption`: the option, the new `running_delta` and the advanced cursor.
    The number is stored in a `uint8_t`. -/
def coapParseOption (m : Mem O) (runningDelta : UInt16) (buf : Ptr O) (buflen : Nat) :
    Outcome CoapError (CoapOption O × UInt16 × Ptr O) :=
  if buflen < 1 then .err .optionTooShortForHeader else do
  let b ← load m buf
  let (delta, headlen, p) ←
    coapParseExt m buflen .optionDeltaInvalid ((b &&& 0xF0) >>> 4).toUInt16 1 buf
  let (len, _, p) ← coapParseExt m buflen .optionLenInvalid (b &&& 0x0F).toUInt16 headlen p
  -- the value must end inside the packet; `headlen` is not looked at any more
  if p.off + 1 + len.toNat > buf.off + buflen then .err .optionTooBig else
  .ok ({ num := (delta + runningDelta).toUInt8,
         buf := { p := some (p.add 1), len := len.toNat } },
       runningDelta + delta, p.add (1 + len.toNat))

/-- The loop of `coap_parseOptionsAndPayload`; the first argument is the number of
    free entries of `options`.  It stops at a full array, at the end of the packet or
    at the payload marker. -/
def coapParseOptions (m : Mem O) (end_ : Nat) :
    Nat → UInt16 → Ptr O → Outcome CoapError (List (CoapOption O) × Ptr O)
  | 0, _, p => .ok ([], p)
  | free + 1, delta, p =>
    if p.off < end_ then do
      let b ← load m p
      -- the marker ends the options
      if b = 0xFF then .ok ([], p) else do
      let (o, delta', p') ← coapParseOption m delta p (end_ - p.off)
      let (os, q) ← coapParseOptions m end_ free delta' p'
      .ok (o :: os, q)
    else .ok ([], p)

/-- The test for the payload marker at the end of `coap_parseOptionsAndPayload`. -/
def coapParsePayload (m : Mem O) (end_ : Nat) (p : Ptr O) : Outcome CoapError (CoapBuffer O) :=
  if p.off + 1 < end_ then do
    let b ← load m p
    -- a marker with at least one byte behind it
    if b = 0xFF then .ok { p := some (p.add 1), len := end_ - (p.off + 1) }
    else .ok { p := none, len := 0 }
  else .ok { p := none, len := 0 }

/-- `coap_parseOptionsAndPayload`. -/
def coapParseOptionsAndPayload (m : Mem O) (numOptions : Nat) (hdr : CoapHeader) (buf : Ptr O)
    (buflen : Nat) : Outcome CoapError (List (CoapOption O) × CoapBuffer O) :=
  let p := buf.add (4 + hdr.tkl.toNat)
  let end_ := buf.off + buflen
  if p.off > end_ then .err .optionOverrunsPacket else do
  let (options, p) ← coapParseOptions m end_ numOptions 0 p
  let payload ← coapParsePayload m end_ p
  .ok (options, payload)

/-- `coap_parse`. -/
def coapParse (m : Mem O) (buf : Ptr O) (buflen : Nat) : Outcome CoapError (CoapPacket O) := do
  let hdr ← coapParseHeader m buf buflen
  let tok ← coapParseToken hdr buf buflen
  let (opts, payload) ← coapParseOptionsAndPayload m maxopt hdr buf buflen
  .ok { hdr := hdr, tok := tok, opts := opts, payload := payload }

/-! ## coap_findOptions -/

/-- The loop of `coap_findOptions` over the entries from index `i` on: the index of
    `first` and the count. -/
def findOptionsLoop (num : UInt8) :
    List (CoapOption O) → Nat → Option Nat → UInt8 → Option Nat × UInt8
  | [], _, first, count => (first, count)
  | o :: os, i, first, count =>
    if o.num = num then
      findOptionsLoop num os (i + 1) (if first = none then some i else first) (count + 1)
    -- options come in blocks of one number: the first other number behind a block ends the search
    else if first = none then findOptionsLoop num os (i + 1) first count
    else (first, count)

/-- `coap_findOptions`: the index in `opts` of the first option of the block (`none`
    for NULL) and the number of options in the block. -/
def coapFindOptions (pkt : CoapPacket O) (num : UInt8) : Option Nat × UInt8 :=
  findOptionsLoop num pkt.opts 0 none 0

/-! ## coap_build -/

/-- `coap_option_nibble`; `none` when the function leaves `*nibble` as it was. -/
def coapOptionNibble (value : UInt32) : Option UInt8 :=
  if value < 13 then some value.toUInt8
  else if value ≤ 0xFF + 13 then some 13
  else if value ≤ 0xFFFF + 269 then some 14
  else none

/-- The extension bytes `coap_build` writes for the delta. -/
def optDeltaBytes (delta : UInt8) (optDelta : UInt32) : List UInt8 :=
  if delta = 13 then [(optDelta - 13).toUInt8]
  else if delta = 14 then [((optDelta - 269) >>> 8).toUInt8, (optDelta - 269).toUInt8]
  else []

/-- The extension bytes `coap_build` writes for the length.  In the two-byte form the
    high byte is taken from the length itself, not from the length less 269. -/
def optLenBytes (len : UInt8) (bufLen : Nat) : List UInt8 :=
  if len = 13 then [UInt8.ofNat (bufLen - 13)]
  else if len = 14 then [UInt8.ofNat (bufLen >>> 8), UInt8.ofNat (bufLen - 269)]
  else []

section Build

variable [DecidableEq O]

/-- `*p++ = b` for every byte `b` of `w`. -/
def putBytes (m : Mem O) (p : Ptr O) (w : List UInt8) : Option (Mem O × Ptr O) := do
  let m ← storeBytes m p w
  some (m, p.add w.length)

/-- The loop body of `coap_build` behind the size check.  `len` is not initialized
    before `coap_option_nibble` is called, so a length it cannot express is a fault. -/
def coapBuildOption (m : Mem O) (p : Ptr O) (runningDelta : UInt16) (o : CoapOption O) :
    Option (Mem O × Ptr O) := do
  let optDelta : UInt32 := o.num.toUInt32 - runningDelta.toUInt32
  -- `delta` is set to 0 before the call
  let delta := (coapOptionNibble optDelta).getD 0
  let len ← coapOptionNibble (UInt32.ofNat o.buf.len)
  let (m, p) ← putBytes m p
    ((delta <<< 4 ||| len) :: (optDeltaBytes delta optDelta ++ optLenBytes len o.buf.len))
  let m ← memcpy m p o.buf.p o.buf.len
  some (m, p.add o.buf.len)

/-- The option loop of `coap_build`. -/
def coapBuildOptions (buf : Ptr O) (buflen : Nat) :
    List (CoapOption O) → Mem O → Ptr O → UInt16 → Option (CoapError × Mem O × Ptr O)
  | [], m, p, _ => some (.none, m, p)
  | o :: os, m, p, runningDelta =>
    -- only what was written so far is compared with the size, not the option that comes
    if p.off - buf.off > buflen then some (.bufferTooSmall, m, p) else do
    let (m, p) ← coapBuildOption m p runningDelta o
    coapBuildOptions buf buflen os m p o.num.toUInt16

/-- `coap_build`: the return code, the memory, and the new `*buflen`. -/
def coapBuild (m : Mem O) (buf : Ptr O) (buflen : Nat) (pkt : CoapPacket O) :
    Option (CoapError × Mem O × Nat) :=
  if buflen < 4 + pkt.hdr.tkl.toNat then some (.bufferTooSmall, m, buflen) else do
  let m ← storeBytes m buf
    [(pkt.hdr.ver &&& 0x03) <<< 6 ||| (pkt.hdr.t &&& 0x03) <<< 4 ||| (pkt.hdr.tkl &&& 0x0F),
     pkt.hdr.code, pkt.hdr.idHi, pkt.hdr.idLo]
  -- the header is written before the token length is checked
  if 0 < pkt.hdr.tkl ∧ pkt.hdr.tkl.toNat ≠ pkt.tok.len then
    some (.unsupported, m, buflen)
  else do
  let m ← memcpy m (buf.add 4) pkt.tok.p pkt.hdr.tkl.toNat
  let (rc, m, p) ←
    coapBuildOptions buf buflen pkt.opts m (buf.add (4 + pkt.hdr.tkl.toNat)) 0
  if rc ≠ .none then some (rc, m, buflen) else
  let optsLen := p.off - buf.off - 4
  if 0 < pkt.payload.len then
    -- header, marker, payload and options
    if buflen < 4 + 1 + pkt.payload.len + optsLen then some (.bufferTooSmall, m, buflen) else do
    let m ← store m (buf.add (4 + optsLen)) 0xFF
    let m ← memcpy m (buf.add (5 + optsLen)) pkt.payload.p pkt.payload.len
    some (.none, m, optsLen + 5 + pkt.payload.len)
  else some (.none, m, optsLen + 4)

/-! ## coap_make_response -/

/-- `coap_make_response`: the return code, the memory, and the response packet.  When
    `scratch` is too small the length of the one option is whatever it was before. -/
def coapMakeResponse (m : Mem O) (scratch : CoapRwBuffer O) (pkt : CoapPacket O)
    (content : CoapBuffer O) (msgidHi msgidLo : UInt8) (tok : Option (CoapBuffer O))
    (rspcode : CoapResponsecode) (contentType : CoapContentType) :
    Option (CoapError × Mem O × CoapPacket O) :=
  let tkl : UInt8 := match tok with
    | some tok => UInt8.ofNat tok.len
    | none => 0
  let hdr : CoapHeader := { ver := 0x01, t := coapTypeAck, tkl := tkl, code := rspcode.code,
                            idHi := msgidHi, idLo := msgidLo }
  let pkt := { pkt with hdr := hdr, tok := tok.getD pkt.tok }
  -- the option is set up before the check, the payload behind it
  if scratch.len < 2 then
    let oldLen := ((pkt.opts.head?).map fun o => o.buf.len).getD 0
    some (.bufferTooSmall, m,
      { pkt with opts := [{ num := coapOptionContentFormat,
                            buf := { p := some scratch.p, len := oldLen } }] })
  else do
  let m ← storeBytes m scratch.p
    [((contentType.toUInt16 &&& 0xFF00) >>> 8).toUInt8, (contentType.toUInt16 &&& 0x00FF).toUInt8]
  some (.none, m,
    { pkt with opts := [{ num := coapOptionContentFormat,
                          buf := { p := some scratch.p, len := 2 } }],
               payload := content })

/-! ## coap_handle_req -/

/-- `coap_endpoint_func`. -/
abbrev CoapEndpointFunc (O : Type) :=
  Mem O → CoapRwBuffer O → CoapPacket O → CoapPacket O → UInt8 → UInt8 →
    Option (CoapError × Mem O × CoapPacket O)

/-- `coap_endpoint_path_t`; a segment is a C string, without its NUL. -/
structure CoapEndpointPath where
  count : Nat
  elems : List (List UInt8)
  deriving DecidableEq, Repr

/-- `coap_endpoint_t`; the last entry of a table has no handler. -/
structure CoapEndpoint (O : Type) where
  method : UInt8
  handler : Option (CoapEndpointFunc O)
  path : CoapEndpointPath
  coreAttr : Option (List UInt8)

/-- The loop of `coap_handle_req` over the segments from index `i` on, `left` of them:
    whether it runs to the end without `goto next`. -/
def segmentsMatch (m : Mem O) (opts : List (CoapOption O)) (first : Nat)
    (elems : List (List UInt8)) : Nat → Nat → Option Bool
  | 0, _ => some true
  | left + 1, i => do
    let o ← opts[first + i]?
    let elem ← elems[i]?
    -- first the lengths, then the bytes
    if o.buf.len ≠ elem.length then some false else do
    let value ← o.buf.read m
    if elem ≠ value then some false else
    segmentsMatch m opts first elems left (i + 1)

/-- `coap_handle_req` over the table from some entry on; a table without a last entry
    is a fault. -/
def coapHandleReq (m : Mem O) (scratch : CoapRwBuffer O) (inpkt outpkt : CoapPacket O) :
    List (CoapEndpoint O) → Option (CoapError × Mem O × CoapPacket O)
  | [] => none
  | ep :: next =>
    match ep.handler with
    -- the last entry: its return code is not looked at
    | none => do
      let (_, m, outpkt) ← coapMakeResponse m scratch outpkt { p := none, len := 0 }
        inpkt.hdr.idHi inpkt.hdr.idLo (some inpkt.tok) .notFound .none
      some (.none, m, outpkt)
    | some handler =>
      -- each of the checks goes on with the next entry
      if ep.method ≠ inpkt.hdr.code then coapHandleReq m scratch inpkt outpkt next else
      match coapFindOptions inpkt coapOptionUriPath with
      | (none, _) => coapHandleReq m scratch inpkt outpkt next
      | (some opt, count) =>
        if count.toNat ≠ ep.path.count then coapHandleReq m scratch inpkt outpkt next else do
        let found ← segmentsMatch m inpkt.opts opt ep.path.elems count.toNat 0
        if found then handler m scratch inpkt outpkt inpkt.hdr.idHi inpkt.hdr.idLo
        else coapHandleReq m scratch inpkt outpkt next

end Build

end Gateway.CoapServer.Microcoap
