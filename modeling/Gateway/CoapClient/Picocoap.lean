/-
  Gateway.CoapClient.Picocoap

  The client's CoAP library (`coapClient/picocoap.c`, `picocoap.h`): the getters,
  the setters that build a message in place in one packed buffer, and the option
  decoder both find their way with.

  A `coap_pdu` is its buffer, as a byte list, with the fields `len` and `max`.
  Pointers into the buffer are offsets, but the ones `coap_get_option` compares are
  addresses; an access outside of the buffer is a fault.  A `size_t` is a `Nat` below
  2^64, and arithmetic on it goes through `sz`.  An `int32_t` is an `Int`.  Loops take
  fuel: every turn decodes an option of at least one byte that lies in the buffer, so
  the length of the buffer is enough.
-/

import Gateway.Lib.BlockMem
import Mathlib.Data.Nat.Digits.Defs

namespace Gateway.CoapClient.Picocoap

open Gateway.Lib.ByteWindow Gateway.Lib.BlockMem

/-! ## Types -/

/-- `coap_error`. -/
inductive CoapError where
  | none
  | invalidPacket
  | badVersion
  | tokenLengthOutOfRange
  | unknownCode
  | tooManyOptions
  | outOfOrderOptionsList
  | insufficientBuffer
  | foundPayloadMarker
  | endOfPacket
  deriving DecidableEq, Repr

/-- `coap_version`. -/
inductive CoapVersion where
  | v1
  deriving DecidableEq, Repr

/-- The number of a version. -/
def CoapVersion.toUInt8 : CoapVersion → UInt8
  | v1 => 1

/-- `coap_type`. -/
inductive CoapType where
  | con
  | non
  | ack
  | rst
  deriving DecidableEq, Repr

/-- The number of a type. -/
def CoapType.toUInt8 : CoapType → UInt8
  | con => 0
  | non => 1
  | ack => 2
  | rst => 3

/-- `CC_EMPTY`. -/
def ccEmpty : UInt8 := 0

/-- `CC_GET`. -/
def ccGet : UInt8 := 1

/-- `CON_URI_PATH`. -/
def conUriPath : Nat := 11

/-- `coap_pdu`. -/
structure CoapPdu where
  buf : List UInt8
  len : Nat
  max : Nat
  deriving DecidableEq, Repr

/-- `coap_payload`; the pointer is an offset into the buffer, NULL is `none`. -/
structure CoapPayload where
  len : Nat
  val : Option Nat
  deriving DecidableEq, Repr

/-- `coap_option`; the pointer is an address, NULL is 0. -/
structure CoapOption where
  num : UInt16
  len : Nat
  val : Nat
  deriving DecidableEq, Repr

/-- The value of an expression in `size_t`. -/
def sz (i : Int) : Nat := (i % 2 ^ 64).toNat

/-- `coap_get_tkl`. -/
def coapGetTkl (pdu : CoapPdu) : Option UInt8 := do
  let b ← pdu.buf[0]?
  some (b &&& 0x0F)

/-! ## Header and token getters -/

/-- `coap_get_version`. -/
def coapGetVersion (pdu : CoapPdu) : Option UInt8 := do
  let b ← pdu.buf[0]?
  some (b >>> 6)

/-- `coap_get_type`. -/
def coapGetType (pdu : CoapPdu) : Option UInt8 := do
  let b ← pdu.buf[0]?
  some ((b >>> 4) &&& 0x03)

/-- `coap_get_code`. -/
def coapGetCode (pdu : CoapPdu) : Option UInt8 := pdu.buf[1]?

/-- `coap_get_mid`. -/
def coapGetMid (pdu : CoapPdu) : Option UInt16 := do
  let hi ← pdu.buf[2]?
  let lo ← pdu.buf[3]?
  some (hi.toUInt16 <<< 8 ||| lo.toUInt16)

/-- The `uint64_t` that starts with these bytes in memory, lowest first, and 0 behind them. -/
def tokenOf (bs : List UInt8) : UInt64 := UInt64.ofNat (Nat.ofDigits 256 (bs.map UInt8.toNat))

/-- `coap_get_token`.  A TKL above 8 makes the `memcpy` leave the `uint64_t`. -/
def coapGetToken (pdu : CoapPdu) : Option UInt64 := do
  let tkl ← coapGetTkl pdu
  -- a packet too short for its token gives 0
  if pdu.len < 4 + tkl.toNat then some 0
  else if 8 < tkl ∨ pdu.buf.length < 4 + tkl.toNat then none
  else some (tokenOf (slice pdu.buf 4 tkl.toNat))

/-! ## coap_decode_option -/

/-- The blocks of `coap_decode_option` that extend a nibble: the value and the advanced
    `ptr`. -/
def decodeExt (buf : List UInt8) (nib : UInt16) (ptr : Nat) : Outcome CoapError (UInt16 × Nat) :=
  if nib < 13 then .ok (nib, ptr)
  else if nib = 13 then do
    let b ← buf[ptr]?
    .ok (b.toUInt16 + 13, ptr + 1)
  else if nib = 14 then do
    let b ← buf[ptr]?
    let c ← buf[ptr + 1]?
    .ok ((b.toUInt16 <<< 8) + c.toUInt16 + 269, ptr + 2)
  else .err .invalidPacket

/-- `coap_decode_option` at `ptr` with `pktLen` bytes left: the delta that is added to
    `*option_number`, `*option_length` and `*value`. -/
def coapDecodeOption (buf : List UInt8) (ptr pktLen : Nat) :
    Outcome CoapError (UInt16 × UInt16 × Nat) :=
  if pktLen = 0 then .err .endOfPacket else do
  let b ← buf[ptr]?
  if b = 0xFF then .err .foundPayloadMarker else do
  let (delta, ptr) ← decodeExt buf (b >>> 4).toUInt16 (ptr + 1)
  let (length, ptr) ← decodeExt buf (b &&& 0x0F).toUInt16 ptr
  .ok (delta, length, ptr)

/-! ## coap_get_option -/

/-- The address of the first option of the packet at address `addr`. -/
def firstOption (addr : Nat) (pdu : CoapPdu) : Option Nat := do
  let tkl ← coapGetTkl pdu
  some (addr + 4 + tkl.toNat)

/-- The start of `coap_get_option`: `option.num` and `opt_ptr`.  A pointer outside of the packet
    is set back to the first option. -/
def optionStart (addr : Nat) (pdu : CoapPdu) (last : Option CoapOption) :
    Option (UInt16 × Nat) := do
  let (num, ptr) ←
    match last.filter fun last => last.num != 0 with
    | some last => some (last.num, sz (last.val + last.len))
    | none => (firstOption addr pdu).map fun ptr => (0, ptr)
  -- the pointer is set back, the number is not
  if addr + pdu.len < ptr ∨ ptr ≤ addr then (firstOption addr pdu).map fun ptr => (num, ptr)
  else some (num, ptr)

/-- `coap_get_option` on the packet at address `addr`.  At the payload marker `option.val` and
    `option.len` are still NULL and 0, unless `option.num` is 0. -/
def coapGetOption (addr : Nat) (pdu : CoapPdu) (last : Option CoapOption) : Option CoapOption := do
  let (num, ptr) ← optionStart addr pdu last
  let off := ptr - addr
  match coapDecodeOption pdu.buf off (sz (pdu.len - off)) with
  | .fault => none
  | .ok (delta, len, val) => some { num := num + delta, len := len.toNat, val := addr + val }
  | .err .foundPayloadMarker =>
    -- behind an option `option.val` is still NULL, and `option.len` is computed from it
    if num = 0 then some { num := 0, len := sz (pdu.len - off - 1), val := ptr + 1 }
    else some { num := 0, len := sz (pdu.len - (0 - addr)), val := 0 }
  | .err _ => some { num := 0, len := 0, val := 0 }

/-- The loop of `coap_pretty_print` over the options: the options it prints, and the option with
    number 0 that ends it. -/
def prettyPrintOptions (addr : Nat) (pdu : CoapPdu) :
    Nat → CoapOption → Option (List CoapOption × CoapOption)
  | 0, _ => none
  | fuel + 1, opt => do
    let opt ← coapGetOption addr pdu (some opt)
    -- number 0 ends the loop
    if opt.num = 0 then some ([], opt) else do
    let (opts, last) ← prettyPrintOptions addr pdu fuel opt
    some (opt :: opts, last)

/-- The loop of `coap_get_option_by_num` behind `option`, with the counter `i`. -/
def getOptionByNumLoop (addr : Nat) (pdu : CoapPdu) (num : Nat) (occ : UInt8) :
    Nat → UInt8 → CoapOption → Option CoapOption
  | 0, _, _ => none
  | fuel + 1, i, option => do
    let option ← coapGetOption addr pdu (some option)
    if option.num.toNat = num then
      -- a match; `i` is a `uint8_t`
      if i + 1 ≤ occ then getOptionByNumLoop addr pdu num occ fuel (i + 1) option
      else some option
    -- a larger number ends the search with nothing
    else if num < option.num.toNat then some { num := 0, len := 0, val := 0 }
    -- the end of the options does too, with what `coap_get_option` returned
    else if option.num = 0 then some option
    else if i ≤ occ then getOptionByNumLoop addr pdu num occ fuel i option
    else some option

/-- `coap_get_option_by_num`.  Of the first `option` only the number is set, and only it is
    read. -/
def coapGetOptionByNum (addr : Nat) (pdu : CoapPdu) (num : Nat) (occ : UInt8) :
    Option CoapOption :=
  getOptionByNumLoop addr pdu num occ (pdu.buf.length + 1) 0 { num := 0, len := 0, val := 0 }

/-! ## coap_get_payload -/

/-- The loop of `coap_get_payload`. -/
def getPayloadLoop (pdu : CoapPdu) : Nat → Nat → Option CoapPayload
  | 0, _ => none
  | fuel + 1, offset =>
    match coapDecodeOption pdu.buf offset (sz (pdu.len - offset)) with
    | .fault => none
    | .err .foundPayloadMarker =>
      some { len := sz (pdu.len - offset - 1), val := some (offset + 1) }
    | .err _ => some { len := 0, val := none }
    -- an option: the search goes on behind its value
    | .ok (_, len, val) => getPayloadLoop pdu fuel (val + len.toNat)

/-- `coap_get_payload`. -/
def coapGetPayload (pdu : CoapPdu) : Option CoapPayload := do
  let tkl ← coapGetTkl pdu
  getPayloadLoop pdu (pdu.buf.length + 1) (4 + tkl.toNat)

/-! ## Header and token -/

/-- `coap_set_version`. -/
def coapSetVersion (pdu : CoapPdu) (ver : CoapVersion) : Option (CoapError × CoapPdu) :=
  if pdu.max < 1 then some (.insufficientBuffer, pdu) else do
  let b ← pdu.buf[0]?
  let buf ← putAt pdu.buf 0 [ver.toUInt8 <<< 6 ||| (b &&& 0x3F)]
  some (.none, { pdu with buf := buf, len := if pdu.len < 1 then 1 else pdu.len })

/-- `coap_set_type`. -/
def coapSetType (pdu : CoapPdu) (mtype : CoapType) : Option (CoapError × CoapPdu) :=
  if pdu.max < 1 then some (.insufficientBuffer, pdu) else do
  let b ← pdu.buf[0]?
  let buf ← putAt pdu.buf 0 [mtype.toUInt8 <<< 4 ||| (b &&& 0xCF)]
  some (.none, { pdu with buf := buf, len := if pdu.len < 1 then 1 else pdu.len })

/-- `coap_set_code`. -/
def coapSetCode (pdu : CoapPdu) (code : UInt8) : Option (CoapError × CoapPdu) :=
  if pdu.max < 2 then some (.insufficientBuffer, pdu) else do
  let buf ← putAt pdu.buf 1 [code]
  some (.none, { pdu with buf := buf, len := if pdu.len < 2 then 2 else pdu.len })

/-- `coap_set_mid`. -/
def coapSetMid (pdu : CoapPdu) (mid : UInt16) : Option (CoapError × CoapPdu) :=
  if pdu.max < 4 then some (.insufficientBuffer, pdu) else do
  let buf ← putAt pdu.buf 2 [(mid >>> 8).toUInt8, (mid &&& 0xFF).toUInt8]
  some (.none, { pdu with buf := buf, len := if pdu.len < 4 then 4 else pdu.len })

/-- The bytes of a `uint64_t` in memory, lowest first. -/
def tokenBytes (token : UInt64) : List UInt8 :=
  (List.range 8).map fun i => (token >>> UInt64.ofNat (8 * i)).toUInt8

/-- `coap_set_token`. -/
def coapSetToken (pdu : CoapPdu) (token : UInt64) (tkl : UInt8) : Option (CoapError × CoapPdu) :=
  if pdu.max < 4 + tkl.toNat then some (.insufficientBuffer, pdu)
  else if 8 < tkl then some (.invalidPacket, pdu)
  else do
  let old ← coapGetTkl pdu
  -- only a packet with something behind its header can become too long
  if 4 < pdu.len ∧ pdu.max < sz (pdu.len + (tkl.toNat - old.toNat)) then
    some (.insufficientBuffer, pdu)
  else do
  -- the rest of the packet makes room, or takes the space that becomes free
  let buf ←
    if 4 < pdu.len then
      moveAt pdu.buf (4 + tkl.toNat) (4 + old.toNat) (sz (pdu.len - 4 - old.toNat))
    else some pdu.buf
  let buf ← putAt buf 4 ((tokenBytes token).take tkl.toNat)
  let b ← buf[0]?
  let buf ← putAt buf 0 [(tkl &&& 0x0F) ||| (b &&& 0xF0)]
  some (.none, { pdu with buf := buf, len := sz (pdu.len + (tkl.toNat - old.toNat)) })

/-- `coap_init_pdu`. -/
def coapInitPdu (pdu : CoapPdu) : Option (CoapError × CoapPdu) :=
  if pdu.max < 4 then some (.insufficientBuffer, pdu) else do
  let buf ← putAt pdu.buf 0 [0, 0, 0, 0]
  -- the codes of the setters are not looked at
  let (_, pdu) ← coapSetVersion { pdu with buf := buf, len := 0 } .v1
  let (_, pdu) ← coapSetType pdu .rst
  let (_, pdu) ← coapSetToken pdu 0 0
  let (_, pdu) ← coapSetCode pdu ccEmpty
  let (_, pdu) ← coapSetMid pdu 0
  some (.none, pdu)

/-! ## Option headers -/

/-- One block of `coap_compute_option_header_len`. -/
def computeExtLen (n : Int) : Nat := if n < 13 then 0 else if n < 269 then 1 else 2

/-- `coap_compute_option_header_len`. -/
def coapComputeOptionHeaderLen (optDelta optLen : Int) : Nat :=
  1 + computeExtLen optDelta + computeExtLen optLen

/-- One block of `coap_build_option_header`, with the header at `hdr` and `ptr` behind what is
    written already: the nibble, the buffer and the advanced `ptr`, or the buffer alone when
    `maxLen` is too small. -/
def buildExt (buf : List UInt8) (hdr ptr maxLen : Nat) (n : Int) :
    Option (Option UInt8 × List UInt8 × Nat) :=
  if n < 13 then some (some (UInt8.ofInt n), buf, ptr)
  else if n < 269 then
    if maxLen < ptr - hdr + 1 then some (none, buf, ptr) else do
    let buf ← putAt buf ptr [UInt8.ofInt (n - 13)]
    some (some 13, buf, ptr + 1)
  else
    if maxLen < ptr - hdr + 2 then some (none, buf, ptr) else do
    -- the high byte first
    let buf ← putAt buf ptr [UInt8.ofInt ((n - 269) / 256), UInt8.ofInt (n - 269)]
    some (some 14, buf, ptr + 2)

/-- `CE_INSUFFICIENT_BUFFER` as an `int8_t`. -/
def insufficientBuffer : Nat := 7

/-- `coap_build_option_header`: the buffer and the returned `int8_t`. -/
def coapBuildOptionHeader (buf : List UInt8) (hdr maxLen : Nat) (optDelta optLen : Int) :
    Option (List UInt8 × Nat) :=
  if maxLen < 1 then some (buf, insufficientBuffer) else do
  let (baseNum, buf, ptr) ← buildExt buf hdr (hdr + 1) maxLen optDelta
  match baseNum with
  | none => some (buf, insufficientBuffer)
  | some baseNum => do
    let (baseLen, buf, ptr) ← buildExt buf hdr ptr maxLen optLen
    match baseLen with
    | none => some (buf, insufficientBuffer)
    | some baseLen => do
      let buf ← putAt buf hdr [baseNum <<< 4 ||| baseLen]
      some (buf, ptr - hdr)

/-! ## coap_adjust_option_deltas -/

/-- The loop of `coap_adjust_option_deltas` at `ptr`: the returned code, the buffer and
    `*opts_len`.  The next option is looked for behind the old place of the value, also when
    the value was moved. -/
def adjustLoop (optsStart maxLen : Nat) (offset : Int) :
    Nat → List UInt8 → Nat → UInt16 → Nat → Option (CoapError × List UInt8 × Nat)
  | 0, _, _, _, _ => none
  | fuel + 1, buf, optsLen, foptNum, ptr =>
    if optsLen < ptr - optsStart then some (.none, buf, optsLen) else
    match coapDecodeOption buf ptr (sz (optsLen - (ptr - optsStart))) with
    | .fault => none
    | .err e =>
      if e = .foundPayloadMarker ∨ e = .endOfPacket then some (.none, buf, optsLen)
      else some (e, buf, optsLen)
    | .ok (delta, foptLen, foptVal) =>
      let foptNum := foptNum + delta
      let noptNum := foptNum + UInt16.ofInt offset
      let fhdrLen : Int := foptVal - ptr
      let nhdrLen := coapComputeOptionHeaderLen noptNum.toNat foptLen.toNat
      -- by how much the header grows or shrinks
      let moved := nhdrLen - fhdrLen
      if fhdrLen ≠ nhdrLen ∧ maxLen < sz (optsLen + moved) then
        some (.insufficientBuffer, buf, optsLen)
      else do
      let buf ←
        if fhdrLen ≠ nhdrLen then moveAt buf (foptVal + moved).toNat foptVal foptLen.toNat
        else some buf
      let optsLen := if fhdrLen ≠ nhdrLen then sz (optsLen + moved) else optsLen
      let (buf, _) ← coapBuildOptionHeader buf ptr nhdrLen noptNum.toNat foptLen.toNat
      adjustLoop optsStart maxLen offset fuel buf optsLen foptNum (foptVal + foptLen.toNat)

/-- `coap_adjust_option_deltas`. -/
def coapAdjustOptionDeltas (buf : List UInt8) (optsStart optsLen maxLen : Nat) (offset : Int) :
    Option (CoapError × List UInt8 × Nat) :=
  adjustLoop optsStart maxLen offset (buf.length + 1) buf optsLen 0 optsStart

/-! ## coap_add_option -/

/-- The loop of `coap_add_option` that finds the place for option `optNum`: the last `err`,
    `pkt_ptr` and `lopt_num`. -/
def findInsertion (pdu : CoapPdu) (optNum : Int) :
    Nat → Nat → UInt16 → Option (CoapError × Nat × UInt16)
  | 0, _, _ => none
  | fuel + 1, pktPtr, loptNum =>
    match coapDecodeOption pdu.buf pktPtr (sz (pdu.len - pktPtr)) with
    | .fault => none
    | .err e => some (e, pktPtr, loptNum)
    | .ok (delta, foptLen, foptVal) =>
      let foptNum := loptNum + delta
      -- the second condition compares with the start of the option, not with its value
      if foptNum.toNat ≤ optNum ∧ pktPtr + foptLen.toNat < pdu.len then
        findInsertion pdu optNum fuel (foptVal + foptLen.toNat) foptNum
      else some (.none, pktPtr, loptNum)

/-- `coap_add_option`, from the place `pktPtr` that was found. -/
def insertOption (pdu : CoapPdu) (optNum : Int) (value : List UInt8) (optLen : UInt16)
    (pktPtr : Nat) (loptNum : UInt16) : Option (CoapError × CoapPdu) :=
  let noptHdrLen := coapComputeOptionHeaderLen (optNum - loptNum.toNat) optLen.toNat
  if pdu.max < sz (pdu.len + noptHdrLen + optLen.toNat) then some (.insufficientBuffer, pdu)
  else do
  let len := sz (pdu.len + noptHdrLen + optLen.toNat)
  let (buf, len) ←
    if pdu.len ≠ pktPtr then do
      -- the tail of the packet makes room, and its deltas change
      let buf ← moveAt pdu.buf (pktPtr + noptHdrLen + optLen.toNat) pktPtr (sz (pdu.len - pktPtr))
      let (_, buf, optsLen) ← coapAdjustOptionDeltas buf (pktPtr + noptHdrLen + optLen.toNat)
        (sz (len - pktPtr)) (sz (pdu.max - pktPtr)) (loptNum.toNat - optNum)
      some (buf, sz (len + (optsLen - (len - pktPtr))))
    else some (pdu.buf, len)
  let (buf, _) ←
    coapBuildOptionHeader buf pktPtr noptHdrLen (optNum - loptNum.toNat) optLen.toNat
  if value.length < optLen.toNat then none else do
  let buf ← putAt buf (pktPtr + noptHdrLen) (value.take optLen.toNat)
  some (.none, { pdu with buf := buf, len := len })

/-- `coap_add_option`. -/
def coapAddOption (pdu : CoapPdu) (optNum : Int) (value : List UInt8) (optLen : UInt16) :
    Option (CoapError × CoapPdu) := do
  let tkl ← coapGetTkl pdu
  let (err, pktPtr, loptNum) ←
    findInsertion pdu optNum (pdu.buf.length + 1) (4 + tkl.toNat) 0
  if err ≠ .foundPayloadMarker ∧ err ≠ .endOfPacket ∧ err ≠ .none then some (err, pdu)
  else insertOption pdu optNum value optLen pktPtr loptNum

/-! ## coap_set_payload -/

/-- The loop of `coap_set_payload` that finds the end of the options: the last `err` and
    `pkt_ptr`. -/
def findOptionsEnd (pdu : CoapPdu) : Nat → Nat → Option (CoapError × Nat)
  | 0, _ => none
  | fuel + 1, pktPtr =>
    match coapDecodeOption pdu.buf pktPtr (sz (pdu.len - pktPtr)) with
    | .fault => none
    | .err e => some (e, pktPtr)
    | .ok (_, foptLen, foptVal) =>
      if pktPtr + foptLen.toNat < pdu.len then findOptionsEnd pdu fuel (foptVal + foptLen.toNat)
      else some (.none, pktPtr)

/-- The end of `coap_set_payload`: the payload is copied to `pktPtr`. -/
def putPayload (pdu : CoapPdu) (buf payload : List UInt8) (payloadLen pktPtr : Nat) :
    Option (CoapError × CoapPdu) :=
  if payload.length < payloadLen then none else do
  let buf ← putAt buf pktPtr (payload.take payloadLen)
  some (.none, { pdu with buf := buf, len := sz (pktPtr + payloadLen) })

/-- `coap_set_payload`.  Behind a marker that is there already, the payload overwrites the
    marker. -/
def coapSetPayload (pdu : CoapPdu) (payload : List UInt8) (payloadLen : Nat) :
    Option (CoapError × CoapPdu) := do
  let tkl ← coapGetTkl pdu
  let (err, pktPtr) ← findOptionsEnd pdu (pdu.buf.length + 1) (4 + tkl.toNat)
  if err ≠ .foundPayloadMarker ∧ err ≠ .endOfPacket ∧ err ≠ .none then some (err, pdu)
  else if err = .endOfPacket then
    if pdu.max < sz (pdu.len + payloadLen + 1) then some (.insufficientBuffer, pdu) else do
    let buf ← putAt pdu.buf pktPtr [0xFF]
    putPayload pdu buf payload payloadLen (pktPtr + 1)
  else if err = .foundPayloadMarker ∧ pdu.max < sz (pdu.len + payloadLen) then
    some (.insufficientBuffer, pdu)
  else putPayload pdu pdu.buf payload payloadLen pktPtr

end Gateway.CoapClient.Picocoap
