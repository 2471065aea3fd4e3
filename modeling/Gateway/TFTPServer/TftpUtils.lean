/-
  Gateway.TFTPServer.TftpUtils

  The fields of a TFTP packet (`TFTPServer/tftputils.c`, `TFTPServer/tftpserver.h`)
  and the packets that the server builds with them.

  A packet is read and written in an array of bytes.  `unsigned short` fields are
  in network byte order, which `ntohs` and `htons` convert from and to.
-/

import Gateway.Lib.ByteBits
import Gateway.Lib.CString

namespace Gateway.TFTPServer.TftpUtils

open Gateway.Lib.ByteWindow Gateway.Lib.CString

/-! ## Constants -/

/-- `TFTP_DATA_LEN_MAX`. -/
def tftpDataLenMax : Nat := 512

/-- `TFTP_DATA_PKT_HDR_LEN`. -/
def tftpDataPktHdrLen : Nat := 4

/-- `TFTP_ACK_PKT_LEN`. -/
def tftpAckPktLen : Nat := 4

/-- `TFTP_DATA_PKT_LEN_MAX`. -/
def tftpDataPktLenMax : Nat := tftpDataPktHdrLen + tftpDataLenMax

/-- `tftp_opcode`. -/
inductive TftpOpcode where
  | rrq
  | wrq
  | data
  | ack
  | error
  deriving DecidableEq, Repr

def TftpOpcode.code : TftpOpcode → UInt8
  | .rrq => 1
  | .wrq => 2
  | .data => 3
  | .ack => 4
  | .error => 5

/-- `tftp_errorcode`. -/
inductive TftpErrorcode where
  | notDefined
  | fileNotFound
  | accessViolation
  | diskFull
  | illegalOp
  | unknownTransferId
  | fileAlreadyExists
  | noSuchUser
  deriving DecidableEq, Repr

def TftpErrorcode.code : TftpErrorcode → UInt8
  | .notDefined => 0
  | .fileNotFound => 1
  | .accessViolation => 2
  | .diskFull => 3
  | .illegalOp => 4
  | .unknownTransferId => 5
  | .fileAlreadyExists => 6
  | .noSuchUser => 7

/-- `tftp_errorcode_string`. -/
def tftpErrorcodeString : TftpErrorcode → List UInt8
  | .notDefined => cstr "not defined".toList
  | .fileNotFound => cstr "file not found".toList
  | .accessViolation => cstr "access violation".toList
  | .diskFull => cstr "disk full".toList
  | .illegalOp => cstr "illegal operation".toList
  | .unknownTransferId => cstr "unknown transfer id".toList
  | .fileAlreadyExists => cstr "file already exists".toList
  | .noSuchUser => cstr "no such user".toList

/-! ## Fields -/

/-- `tftp_decode_op`: the low byte of the opcode.  Callers pass an array that has it. -/
def tftpDecodeOp (buf : List UInt8) : UInt8 := buf.getD 1 0

/-- `tftp_extract_block`. -/
def tftpExtractBlock (buf : List UInt8) : UInt16 :=
  UInt16.ofNat ((buf.getD 2 0).toNat * 256 + (buf.getD 3 0).toNat)

/-- `tftp_extract_filename`: `strcpy` from behind the opcode.  A fault when there is no NUL up to
    the end of the array, or no room in `fname`. -/
def tftpExtractFilename (fname buf : List UInt8) : Option (List UInt8) := do
  let n ← strlen (buf.drop 2)
  putAt fname 0 ((buf.drop 2).take n ++ [0])

/-- `tftp_set_opcode`. -/
def tftpSetOpcode (buffer : List UInt8) (opcode : TftpOpcode) : List UInt8 :=
  splice buffer 0 [0, opcode.code]

/-- `tftp_set_errorcode`. -/
def tftpSetErrorcode (buffer : List UInt8) (errCode : TftpErrorcode) : List UInt8 :=
  splice buffer 2 [0, errCode.code]

/-- `tftp_set_errormsg`. -/
def tftpSetErrormsg (buffer errormsg : List UInt8) : List UInt8 :=
  splice buffer 4 (errormsg ++ [0])

/-- `tftp_set_block`. -/
def tftpSetBlock (packet : List UInt8) (block : UInt16) : List UInt8 :=
  splice packet 2 [UInt8.ofNat (block.toNat / 256), UInt8.ofNat block.toNat]

/-- `tftp_set_data_message`. -/
def tftpSetDataMessage (packet buf : List UInt8) : List UInt8 :=
  splice packet 4 buf

/-- `tftp_is_correct_ack`. -/
def tftpIsCorrectAck (buf : List UInt8) (block : Nat) : Bool :=
  if tftpDecodeOp buf ≠ TftpOpcode.ack.code then false
  else if block ≠ (tftpExtractBlock buf).toNat then false
  else true

/-! ## Packets -/

/-- The packet that `tftp_send_ack_packet` builds; all its bytes are set. -/
def ackPacket (block : UInt16) : List UInt8 :=
  tftpSetBlock (tftpSetOpcode (List.replicate tftpAckPktLen 0) .ack) block

/-- The packet that `tftp_send_data_packet` builds from at most `TFTP_DATA_LEN_MAX` bytes, with
    the length it is sent with. -/
def dataPacket (block : UInt16) (buf : List UInt8) : List UInt8 :=
  (tftpSetDataMessage
    (tftpSetBlock (tftpSetOpcode (List.replicate tftpDataPktLenMax 0) .data) block) buf).take
    (buf.length + 4)

/-- `tftp_construct_error_message`: the buffer and the message length. -/
def tftpConstructErrorMessage (buf : List UInt8) (err : TftpErrorcode) : List UInt8 × Nat :=
  let buf := tftpSetOpcode buf .error
  let buf := tftpSetErrorcode buf err
  let buf := tftpSetErrormsg buf (tftpErrorcodeString err)
  (buf, 4 + (tftpErrorcodeString err).length + 1)

/-- The packet that `tftp_send_error_message` sends. -/
def errorPacket (err : TftpErrorcode) : List UInt8 :=
  let (buf, errorLen) := tftpConstructErrorMessage (List.replicate 512 0) err
  buf.take errorLen

/-- A DATA packet: the header, and the data behind it. -/
theorem dataPacket_eq (block : UInt16) (buf : List UInt8) :
    dataPacket block buf
      = [0, 3, UInt8.ofNat (block.toNat / 256), UInt8.ofNat block.toNat] ++ buf := by
  have hhdr : (tftpSetBlock (tftpSetOpcode (List.replicate tftpDataPktLenMax 0) .data) block).take 4
      = [0, 3, UInt8.ofNat (block.toNat / 256), UInt8.ofNat block.toNat] := rfl
  rw [dataPacket, tftpSetDataMessage, splice, hhdr]
  exact List.take_left' (by rw [List.length_append]; exact Nat.add_comm _ _)

/-- The block number of a DATA packet is read back. -/
theorem tftpExtractBlock_dataPacket (block : UInt16) (buf : List UInt8) :
    tftpExtractBlock (dataPacket block buf) = block := by
  have hlt := block.toNat_lt
  rw [dataPacket_eq]
  show UInt16.ofNat ((UInt8.ofNat (block.toNat / 256)).toNat * 256
    + (UInt8.ofNat block.toNat).toNat) = block
  apply UInt16.toNat_inj.mp
  simp only [UInt8.toNat_ofNat', UInt16.toNat_ofNat']
  omega

/-- The text of an error fits in the buffer that its packet is built in. -/
theorem errorPacket_eq (err : TftpErrorcode) :
    errorPacket err = [0, 5, 0, err.code] ++ tftpErrorcodeString err ++ [0] := by
  cases err <;> rfl

end Gateway.TFTPServer.TftpUtils
