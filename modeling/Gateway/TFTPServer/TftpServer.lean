/-
  Gateway.TFTPServer.TftpServer

  The TFTP transfers (`tftp_process_read` and `tftp_process_write` of
  `TFTPServer/tftpserver.c`) with what they act on: the file and the stream it is
  read or written through, the connection arguments, the transfer socket, and the
  parent process.

  `World` is the state.  What the calls of the C library and of the system return
  is decided by `Env` and by the packets in `incoming`.  `trace` is a history, in
  the order of the calls, that the code does not look at.

  A call ends normally, or it ends in a `Stop`: the server waits in `recvfrom` for
  good, or the process dies on a NULL pointer.  A fault is a misuse: a stream, a block
  of memory or a socket is used after its release, or memory is overwritten.
-/

import Gateway.Lib.BlockMem
import Gateway.TFTPServer.TftpUtils

namespace Gateway.TFTPServer.TftpServer

open Gateway.Lib.ByteWindow Gateway.Lib.BlockMem
open Gateway.TFTPServer.TftpUtils

/-! ## State -/

/-- What `recvfrom` gives: a datagram, or an error such as a timeout. -/
inductive Recv where
  | packet (p : List UInt8)
  | error
  deriving DecidableEq, Repr

/-- `FILE *file`: NULL, a stream for writing with the bytes that are not yet flushed, a stream
    for reading with the bytes that are not yet read, or a pointer to a stream that was closed. -/
inductive FilePtr where
  | null
  | opened (pending : List UInt8)
  | reading (rest : List UInt8)
  | closed
  deriving DecidableEq, Repr

/-- `tftp_connection_args`, without the address.  Of the array `data` only the first `data_len`
    bytes are used, which are kept; a write transfer uses neither field. -/
structure TftpConnectionArgs where
  op : TftpOpcode
  block : Nat
  totBytes : Nat
  data : List UInt8 := []
  dataLen : Nat := 0
  deriving DecidableEq, Repr

/-- `tftp_connection_args *args`. -/
inductive ArgsPtr where
  | null
  | allocated (args : TftpConnectionArgs)
  | freed
  deriving DecidableEq, Repr

/-- What a transfer does with the outside, in order.  A signal goes to the parent, which reads
    the table from `disk`; `file` is the server's stream on it at that time. -/
inductive Event where
  | recv (r : Recv)
  | send (d : List UInt8)
  | signal (disk : Option (List UInt8)) (file : FilePtr)
  deriving DecidableEq, Repr

structure World where
  /-- the content of the target file; `none` when it does not exist -/
  disk : Option (List UInt8)
  file : FilePtr
  args : ArgsPtr
  /-- whether the transfer socket is open -/
  sock : Bool
  tftpRecvBuffer : List UInt8
  /-- what `recvfrom` will give -/
  incoming : List Recv
  trace : List Event
  deriving DecidableEq, Repr

/-- What the C library and the system have to offer. -/
structure Env where
  fopenOk : Bool
  mallocOk : Bool
  /-- how many bytes an `fwrite` takes -/
  fwriteRoom : Nat
  /-- how many bytes an `fclose` can flush -/
  flushRoom : Nat
  deriving DecidableEq, Repr

/-- How a transfer ends when it does not return. -/
inductive Stop where
  | waiting
  | crashed
  deriving DecidableEq, Repr

/-- The end of a transfer that does not return, with the world it leaves. -/
abbrev Halt := Stop × World

/-! ## Library and system calls -/

/-- `sizeof(tftpRecvBuffer)`. -/
def tftpRecvBufferLen : Nat := 1024

/-- `file = fopen(FileName, "w+b")`: the file is created or truncated. -/
def fopenWrite (env : Env) (w : World) : World :=
  if env.fopenOk then { w with disk := some [], file := .opened [] } else { w with file := .null }

/-- `file = fopen(FileName, "r")`: the file has to be there. -/
def fopenRead (env : Env) (w : World) : World :=
  match w.disk with
  | some content =>
    if env.fopenOk then { w with file := .reading content } else { w with file := .null }
  | none => { w with file := .null }

/-- `fread(buf, 1, len, file)`. -/
def fread (w : World) (len : Nat) : Outcome Halt (List UInt8 × World) :=
  match w.file with
  | .reading rest => .ok (rest.take len, { w with file := .reading (rest.drop len) })
  | .null => .err (.crashed, w)
  -- a stream that was written to is not read without a flush in between
  | .opened _ | .closed => .fault

/-- `fwrite(data, 1, len, file)`.  The stream is fully buffered, and a transfer writes less than
    a buffer, so nothing reaches the file yet. -/
def fwrite (env : Env) (w : World) (data : List UInt8) : Outcome Halt (Nat × World) :=
  match w.file with
  | .opened pending =>
    .ok (min data.length env.fwriteRoom,
      { w with file := .opened (pending ++ data.take env.fwriteRoom) })
  -- a stream for reading takes nothing
  | .reading _ => .ok (0, w)
  | .null => .err (.crashed, w)
  | .closed => .fault

/-- `fclose(file)`: what is pending is flushed. -/
def fclose (env : Env) (w : World) : Outcome Halt World :=
  match w.file with
  | .opened pending =>
    .ok { w with disk := w.disk.map (· ++ pending.take env.flushRoom), file := .closed }
  | .reading _ => .ok { w with file := .closed }
  | .null => .err (.crashed, w)
  | .closed => .fault

/-- `args = malloc(sizeof(tftp_connection_args))`, with the fields that are set next. -/
def mallocArgs (env : Env) (w : World) (init : TftpConnectionArgs) : World :=
  { w with args := if env.mallocOk then .allocated init else .null }

/-- `*args`. -/
def loadArgs (w : World) : Outcome Halt TftpConnectionArgs :=
  match w.args with
  | .allocated args => .ok args
  | .null => .err (.crashed, w)
  | .freed => .fault

/-- `*args = v`. -/
def storeArgs (w : World) (v : TftpConnectionArgs) : Outcome Halt World :=
  match w.args with
  | .allocated _ => .ok { w with args := .allocated v }
  | .null => .err (.crashed, w)
  | .freed => .fault

/-- `free(args)`. -/
def freeArgs (w : World) : Outcome Halt World :=
  match w.args with
  | .allocated _ => .ok { w with args := .freed }
  | .null => .ok w
  | .freed => .fault

/-- `close(sock)`. -/
def closeSock (w : World) : Outcome Halt World :=
  if w.sock then .ok { w with sock := false } else .fault

/-- `recvfrom(sock, tftpRecvBuffer, …)`: a datagram that is too long is cut.  With nothing to
    come, the call does not return. -/
def recvfrom (w : World) : Outcome Halt (Int × World) :=
  if w.sock = false then .fault else
  match w.incoming with
  | [] => .err (.waiting, w)
  | .packet p :: rest =>
    let d := p.take tftpRecvBufferLen
    .ok (d.length,
      { w with tftpRecvBuffer := splice w.tftpRecvBuffer 0 d, incoming := rest,
               trace := w.trace ++ [.recv (.packet p)] })
  | .error :: rest => .ok (-1, { w with incoming := rest, trace := w.trace ++ [.recv .error] })

/-- `kill(getppid(), TFTP_SIGNAL)`. -/
def killParent (w : World) : World :=
  { w with trace := w.trace ++ [.signal w.disk w.file] }

/-! ## The server -/

/-- `tftp_send_message`. -/
def tftpSendMessage (w : World) (d : List UInt8) : Outcome Halt World :=
  if w.sock then .ok { w with trace := w.trace ++ [.send d] } else .fault

/-- `tftp_send_error_message`. -/
def tftpSendErrorMessage (w : World) (err : TftpErrorcode) : Outcome Halt World :=
  tftpSendMessage w (errorPacket err)

/-- `tftp_send_data_packet`. -/
def tftpSendDataPacket (w : World) (block : UInt16) (buf : List UInt8) : Outcome Halt World :=
  tftpSendMessage w (dataPacket block buf)

/-- `tftp_send_ack_packet`. -/
def tftpSendAckPacket (w : World) (block : UInt16) : Outcome Halt World :=
  tftpSendMessage w (ackPacket block)

/-- The body that `tftp_cleanup_rd` and `tftp_cleanup_wr` have in common. -/
def tftpCleanup (env : Env) (w : World) : Outcome Halt World := do
  -- the stream, the arguments and the socket, in this order
  let w ← fclose env w
  let w ← freeArgs w
  closeSock w

/-- `tftp_cleanup_rd`. -/
def tftpCleanupRd (env : Env) (w : World) : Outcome Halt World := tftpCleanup env w

/-- `tftp_cleanup_wr`. -/
def tftpCleanupWr (env : Env) (w : World) : Outcome Halt World := tftpCleanup env w

/-- `tftp_send_next_block`. -/
def tftpSendNextBlock (w : World) : Outcome Halt World := do
  let args ← loadArgs w
  let (data, w) ← fread w tftpDataLenMax
  -- `args->data_len` is what `fread` returned, also at the end of the file
  let w ← storeArgs w { args with data := data, dataLen := data.length }
  tftpSendDataPacket w (UInt16.ofNat args.block) data

/-- `recvfrom` as `tftp_process_read` calls it: the address of the sender, 16 bytes, is stored at
    `&to`, which is a pointer variable.  `spare` says whether it hits only what is not used any
    more. -/
def recvfromTo (spare : Bool) (w : World) : Outcome Halt (Int × World) := do
  let (recvnNum, w) ← recvfrom w
  -- an error stores no address
  if 0 ≤ recvnNum ∧ spare = false then .fault else .ok (recvnNum, w)

/-- `tftp_process_read`, where it looks at the packet in `tftpRecvBuffer`.  The branch of a wrong
    packet does not return. -/
def tftpReadAck (env : Env) (w : World) : Outcome Halt (Int × World) := do
  let args ← loadArgs w
  let w ←
    (if tftpIsCorrectAck w.tftpRecvBuffer args.block then
      storeArgs w { args with block := args.block + 1 }
    -- no return here: what follows reads `args` after it was freed
    else tftpCleanupRd env w)
  let args ← loadArgs w
  let w ← (if args.dataLen < tftpDataLenMax then tftpCleanupRd env w else .ok w)
  .ok (1, w)

/-- `tftp_process_read`.  `args` starts as NULL. -/
def tftpProcessRead (env : Env) (spare : Bool) (w : World) : Outcome Halt (Int × World) := do
  let w := fopenRead env { w with args := .null }
  if w.file = .null then do
    let w ← tftpSendErrorMessage w .fileNotFound
    let w ← tftpCleanupRd env w
    .ok (0, w)
  else do
  let w := mallocArgs env w { op := .rrq, block := 1, totBytes := 0 }
  if w.args = .null then do
    let w ← tftpSendErrorMessage w .notDefined
    let w ← tftpCleanupRd env w
    .ok (0, w)
  else do
  -- the first block goes out before anything is received
  let w ← tftpSendNextBlock w
  let w := { w with tftpRecvBuffer := List.replicate tftpRecvBufferLen 0 }
  let (_, w) ← recvfromTo spare w
  tftpReadAck env w

/-- `tftp_process_write`, where it looks at the packet in `tftpRecvBuffer`. -/
def tftpWriteBlock (env : Env) (w : World) (recvnNum : Int) : Outcome Halt World := do
  let args ← loadArgs w
  if recvnNum > tftpDataPktHdrLen ∧
      (tftpExtractBlock w.tftpRecvBuffer).toNat = args.block + 1 then do
    let len := (recvnNum - tftpDataPktHdrLen).toNat
    let (n, w) ← fwrite env w (slice w.tftpRecvBuffer tftpDataPktHdrLen len)
    -- the branch sends an error and cleans up, and then goes on
    let w ←
      (if n ≤ 0 then tftpSendErrorMessage w .fileNotFound >>= tftpCleanupRd env
      else .ok w)
    let args ← loadArgs w
    storeArgs w { args with block := args.block + 1, totBytes := args.totBytes + len }
  else if (tftpExtractBlock w.tftpRecvBuffer).toNat = args.block + 1 then
    storeArgs w { args with block := args.block + 1 }
  else .ok w

/-- `tftp_process_write`, behind that.  The signal is sent whatever was received, and whether or
    not the file was closed. -/
def tftpFinishWrite (env : Env) (w : World) (recvnNum : Int) : Outcome Halt (Int × World) := do
  let args ← loadArgs w
  let w ← tftpSendAckPacket w (UInt16.ofNat args.block)
  -- a short packet is the last one; an error, -1, counts as short
  if recvnNum < tftpDataPktLenMax then do
    let w ← tftpCleanupWr env w
    .ok (0, killParent w)
  else .ok (0, killParent w)

/-- `tftp_process_write`.  `args` starts as NULL. -/
def tftpProcessWrite (env : Env) (w : World) : Outcome Halt (Int × World) := do
  let w := fopenWrite env { w with args := .null }
  if w.file = .null then do
    let w ← tftpSendErrorMessage w .fileNotFound
    let w ← tftpCleanupRd env w
    .ok (0, w)
  else do
  let w := mallocArgs env w { op := .rrq, block := 0, totBytes := 0 }
  if w.args = .null then do
    let w ← tftpSendErrorMessage w .notDefined
    let w ← tftpCleanupRd env w
    .ok (0, w)
  else do
  let args ← loadArgs w
  -- block 0 acknowledges the request
  let w ← tftpSendAckPacket w (UInt16.ofNat args.block)
  let w := { w with tftpRecvBuffer := List.replicate tftpRecvBufferLen 0 }
  let (recvnNum, w) ← recvfrom w
  let w ← tftpWriteBlock env w recvnNum
  tftpFinishWrite env w recvnNum

/-- The world when a request for the file arrives; `buffer` holds the request. -/
def start (buffer : List UInt8) (old : Option (List UInt8)) (incoming : List Recv) : World where
  disk := old
  file := .null
  args := .null
  sock := true
  tftpRecvBuffer := buffer
  incoming := incoming
  trace := []

end Gateway.TFTPServer.TftpServer
