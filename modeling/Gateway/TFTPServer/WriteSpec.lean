/-
  Gateway.TFTPServer.WriteSpec

  What a TFTP write transfer leaves in the file, compared with what was sent.

  `receive` is the specification: of the packets that arrive, the DATA packets with
  the next block number make up the file, and the first of them with fewer than 512
  bytes ends it.  `tftp_process_write` receives one packet, takes it without a look
  at its opcode, and returns.  `storesWhatWasSent_iff` says for which packets that is
  enough.
-/

import Mathlib.Data.List.TakeDrop
import Gateway.Lib.BlockTransfer
import Gateway.TFTPServer.TftpServer

namespace Gateway.TFTPServer.WriteSpec

open Gateway.Lib.ByteWindow Gateway.Lib.BlockMem Gateway.Lib.BlockTransfer
open Gateway.TFTPServer.TftpUtils Gateway.TFTPServer.TftpServer

/-! ## Received packets -/

/-- The first datagram in `tftpRecvBuffer`, which was cleared. -/
def recvBuffer (p : List UInt8) : List UInt8 :=
  splice (List.replicate tftpRecvBufferLen 0) 0 (p.take tftpRecvBufferLen)

theorem recvBuffer_getD (p : List UInt8) {i : Nat} (hi : i < tftpRecvBufferLen) :
    (recvBuffer p).getD i 0 = p.getD i 0 := by
  have hlen : (p.take tftpRecvBufferLen).length ≤ tftpRecvBufferLen := List.length_take_le _ _
  have hfit : 0 + (p.take tftpRecvBufferLen).length
      ≤ (List.replicate tftpRecvBufferLen (0 : UInt8)).length := by
    rw [List.length_replicate]
    omega
  rw [List.getD_eq_getElem?_getD, List.getD_eq_getElem?_getD, recvBuffer, splice_getElem? hfit]
  by_cases hp : i < p.length
  · rw [if_pos ⟨Nat.zero_le i, by rw [List.length_take]; omega⟩, Nat.sub_zero,
      List.getElem?_take_of_lt hi]
  · -- behind the datagram the buffer is zero
    rw [if_neg (by rw [List.length_take]; omega), List.getElem?_replicate, if_pos hi,
      List.getElem?_eq_none (by omega)]
    rfl

/-- The block number does not depend on what lies behind the datagram. -/
theorem tftpExtractBlock_recvBuffer (p : List UInt8) :
    tftpExtractBlock (recvBuffer p) = tftpExtractBlock p := by
  rw [tftpExtractBlock, recvBuffer_getD p (by decide), recvBuffer_getD p (by decide),
    tftpExtractBlock]

/-- What is received of the data of a datagram. -/
def recvData (p : List UInt8) : List UInt8 := (p.take tftpRecvBufferLen).drop tftpDataPktHdrLen

theorem recvData_length (p : List UInt8) : (recvData p).length = min 1024 p.length - 4 := by
  rw [recvData, List.length_drop, List.length_take]
  rfl

/-- The data is in the buffer, behind the header. -/
theorem slice_recvBuffer (p : List UInt8) :
    slice (recvBuffer p) tftpDataPktHdrLen (recvData p).length = recvData p := by
  have hfit : 0 + (p.take tftpRecvBufferLen).length
      ≤ (List.replicate tftpRecvBufferLen (0 : UInt8)).length := by
    rw [List.length_replicate, Nat.zero_add]
    exact List.length_take_le _ _
  have hdrop := slice_drop (recvBuffer p) 0 (p.take tftpRecvBufferLen).length tftpDataPktHdrLen
  rw [recvBuffer, slice_splice_self hfit, Nat.zero_add] at hdrop
  rw [recvData, List.length_drop, recvBuffer, ← hdrop]

/-- A packet whose block number is not zero has a whole header. -/
theorem length_of_tftpExtractBlock {p : List UInt8} (h : tftpExtractBlock p = 1) : 4 ≤ p.length := by
  by_contra hlt
  have hlo : p.getD 3 0 = 0 := by
    rw [List.getD_eq_getElem?_getD, List.getElem?_eq_none (by omega)]
    rfl
  rw [tftpExtractBlock, hlo] at h
  have hn := congrArg UInt16.toNat h
  have hhi := (p.getD 2 0).toNat_lt
  rw [UInt16.toNat_ofNat'] at hn
  have hone : (1 : UInt16).toNat = 1 := rfl
  have hzero : (0 : UInt8).toNat = 0 := rfl
  omega

/-! ## What tftp_process_write does -/

section Runs

variable {env : Env} {buffer : List UInt8} {old : Option (List UInt8)} {rest : List Recv}

/-- The target cannot be opened: the NULL stream is closed. -/
theorem tftpProcessWrite_fopen_fails {incoming : List Recv} (h : env.fopenOk = false) :
    tftpProcessWrite env (start buffer old incoming)
      = .err (.crashed,
          { start buffer old incoming with trace := [.send (errorPacket .fileNotFound)] }) := by
  simp [tftpProcessWrite, fopenWrite, h, start, tftpSendErrorMessage, tftpSendMessage,
    tftpCleanupRd, tftpCleanup, fclose]

/-- No memory: the file has been truncated. -/
theorem tftpProcessWrite_malloc_fails {incoming : List Recv} (hf : env.fopenOk = true)
    (hm : env.mallocOk = false) :
    tftpProcessWrite env (start buffer old incoming)
      = .ok (0,
          { start buffer old incoming with
            disk := some [], file := .closed, sock := false,
            trace := [.send (errorPacket .notDefined)] }) := by
  simp [tftpProcessWrite, fopenWrite, mallocArgs, hf, hm, start, tftpSendErrorMessage,
    tftpSendMessage, tftpCleanupRd, tftpCleanup, fclose, freeArgs, closeSock]

/-- The world in which the transfer waits for its packet. -/
def listening (old : Option (List UInt8)) (incoming : List Recv) : World :=
  { start (List.replicate tftpRecvBufferLen 0) old incoming with
    disk := some [], file := .opened [],
    args := .allocated { op := .rrq, block := 0, totBytes := 0 },
    trace := [.send (ackPacket 0)] }

/-- The transfer up to its packet. -/
theorem tftpProcessWrite_listens {incoming : List Recv} (hf : env.fopenOk = true)
    (hm : env.mallocOk = true) :
    tftpProcessWrite env (start buffer old incoming)
      = recvfrom (listening old incoming) >>= fun (recvnNum, w) =>
          tftpWriteBlock env w recvnNum >>= fun w => tftpFinishWrite env w recvnNum := by
  simp [tftpProcessWrite, fopenWrite, mallocArgs, hf, hm, start, loadArgs, tftpSendAckPacket,
    tftpSendMessage, listening]

/-- No packet comes. -/
theorem tftpProcessWrite_waits (hf : env.fopenOk = true) (hm : env.mallocOk = true) :
    tftpProcessWrite env (start buffer old []) = .err (.waiting, listening old []) := by
  rw [tftpProcessWrite_listens hf hm]
  rfl

/-! ## What it does with its packet -/

/-- The bytes that a receive call gives; a failed one leaves the buffer as an empty datagram
    does. -/
def recvBytes : Recv → List UInt8
  | .packet p => p
  | .error => []

/-- What the receive call returns. -/
def recvNum : Recv → Int
  | .packet p => (p.take tftpRecvBufferLen).length
  | .error => -1

/-- The world behind the receive call. -/
def received (old : Option (List UInt8)) (r : Recv) (rest : List Recv) : World :=
  { listening old rest with
    tftpRecvBuffer := recvBuffer (recvBytes r)
    trace := [.send (ackPacket 0), .recv r] }

theorem recvfrom_listening (r : Recv) :
    recvfrom (listening old (r :: rest)) = .ok (recvNum r, received old r rest) := by
  cases r with
  | packet p => rfl
  | error => simp [recvfrom, listening, received, recvNum, recvBytes, recvBuffer, start]

/-- A packet is short when what was received of it is. -/
theorem recvNum_lt (r : Recv) : recvNum r < 516 ↔ (recvBytes r).length < 516 := by
  cases r with
  | packet p =>
    have hlen : (p.take tftpRecvBufferLen).length = min 1024 p.length := List.length_take
    show ((p.take tftpRecvBufferLen).length : Int) < 516 ↔ p.length < 516
    omega
  | error => decide

/-- There is data behind the header. -/
theorem recvNum_gt (r : Recv) : recvNum r > tftpDataPktHdrLen ↔ 4 < (recvBytes r).length := by
  cases r with
  | packet p =>
    have hlen : (p.take tftpRecvBufferLen).length = min 1024 p.length := List.length_take
    show ((p.take tftpRecvBufferLen).length : Int) > (4 : Nat) ↔ 4 < p.length
    omega
  | error => decide

/-- The length of the data that was received. -/
theorem recvNum_data (r : Recv) :
    (recvNum r - tftpDataPktHdrLen).toNat = (recvData (recvBytes r)).length := by
  cases r with
  | packet p =>
    have hlen : (recvData p).length = (p.take tftpRecvBufferLen).length - 4 := List.length_drop
    show (((p.take tftpRecvBufferLen).length : Int) - (4 : Nat)).toNat = (recvData p).length
    omega
  | error => rfl

/-- What is written of a packet: its data, when it has block number 1, whatever its opcode. -/
def written (env : Env) (p : List UInt8) : List UInt8 :=
  if tftpExtractBlock p = 1 then (recvData p).take env.fwriteRoom else []

/-- The connection arguments behind the packet. -/
def argsAfter (p : List UInt8) : TftpConnectionArgs where
  op := .rrq
  block := if tftpExtractBlock p = 1 then 1 else 0
  totBytes := if tftpExtractBlock p = 1 then (recvData p).length else 0

/-- The comparison with `args->block + 1`. -/
theorem block_eq_one {p : List UInt8} :
    (tftpExtractBlock (recvBuffer p)).toNat = 0 + 1 ↔ tftpExtractBlock p = 1 := by
  rw [tftpExtractBlock_recvBuffer]
  exact ⟨fun h => UInt16.toNat_inj.mp h, fun h => by rw [h]; rfl⟩

/-- The data of a packet with block number 1 goes to `fwrite`. -/
theorem tftpWriteBlock_data {r : Recv} (hblock : tftpExtractBlock (recvBytes r) = 1)
    (hlen : 4 < (recvBytes r).length) :
    tftpWriteBlock env (received old r rest) (recvNum r)
      = (let w := { received old r rest with file := .opened (written env (recvBytes r)) }
        (if min (recvData (recvBytes r)).length env.fwriteRoom ≤ 0 then
            tftpSendErrorMessage w .fileNotFound >>= tftpCleanupRd env
          else .ok w) >>= fun w =>
            loadArgs w >>= fun args =>
              storeArgs w { args with
                block := args.block + 1
                totBytes := args.totBytes + (recvData (recvBytes r)).length }) := by
  have hargs : loadArgs (received old r rest) = .ok { op := .rrq, block := 0, totBytes := 0 } := rfl
  have hbuf : (received old r rest).tftpRecvBuffer = recvBuffer (recvBytes r) := rfl
  rw [tftpWriteBlock, hargs, Outcome.ok_bind, hbuf, recvNum_data,
    if_pos ⟨(recvNum_gt r).mpr hlen, block_eq_one.mpr hblock⟩]
  simp only [slice_recvBuffer, written, if_pos hblock]
  rfl

/-- Nothing could be written: the arguments are used after they were freed. -/
theorem tftpWriteBlock_fault {r : Recv} (hblock : tftpExtractBlock (recvBytes r) = 1)
    (hlen : 4 < (recvBytes r).length) (hroom : env.fwriteRoom = 0) :
    tftpWriteBlock env (received old r rest) (recvNum r) = .fault := by
  rw [tftpWriteBlock_data hblock hlen]
  simp only [hroom, Nat.min_zero, Nat.le_refl, if_true]
  rfl

/-- The packet is taken, or passed over. -/
theorem tftpWriteBlock_ok {r : Recv}
    (hok : tftpExtractBlock (recvBytes r) = 1 → (recvBytes r).length ≤ 4 ∨ 0 < env.fwriteRoom) :
    tftpWriteBlock env (received old r rest) (recvNum r)
      = .ok { received old r rest with
          file := .opened (written env (recvBytes r))
          args := .allocated (argsAfter (recvBytes r)) } := by
  have hargs : loadArgs (received old r rest) = .ok { op := .rrq, block := 0, totBytes := 0 } := rfl
  have hbuf : (received old r rest).tftpRecvBuffer = recvBuffer (recvBytes r) := rfl
  have hdata := recvData_length (recvBytes r)
  by_cases hblock : tftpExtractBlock (recvBytes r) = 1
  · by_cases hlen : 4 < (recvBytes r).length
    · have hroom : 0 < env.fwriteRoom := (hok hblock).resolve_left (by omega)
      -- something is written, so the error branch is not taken
      have hn : ¬ min (recvData (recvBytes r)).length env.fwriteRoom ≤ 0 := by omega
      rw [tftpWriteBlock_data hblock hlen]
      simp only [if_neg hn, Outcome.ok_bind]
      simp only [received, listening, start, loadArgs, storeArgs, Outcome.ok_bind, argsAfter,
        if_pos hblock, Nat.zero_add]
    · -- only a header: there is nothing to write
      have hempty : recvData (recvBytes r) = [] := List.eq_nil_of_length_eq_zero (by omega)
      rw [tftpWriteBlock, hargs, Outcome.ok_bind, hbuf,
        if_neg fun h => hlen ((recvNum_gt r).mp h.1), if_pos (block_eq_one.mpr hblock), written,
        argsAfter, if_pos hblock, if_pos hblock, if_pos hblock, hempty]
      simp only [List.take_nil]
      rfl
  · -- another block number
    rw [tftpWriteBlock, hargs, Outcome.ok_bind, hbuf,
      if_neg fun h => hblock (block_eq_one.mp h.2), if_neg fun h => hblock (block_eq_one.mp h),
      written, argsAfter, if_neg hblock, if_neg hblock, if_neg hblock]
    rfl

/-- The end of a transfer: what it wrote is flushed only when the packet was short. -/
def finished (env : Env) (w : World) (data : List UInt8) (args : TftpConnectionArgs)
    (short : Bool) : World :=
  let disk := if short then some (data.take env.flushRoom) else some []
  let file := if short then .closed else .opened data
  { w with
    disk := disk
    file := file
    args := if short then .freed else .allocated args
    sock := !short
    trace := w.trace ++ [.send (ackPacket (UInt16.ofNat args.block)), .signal disk file] }

theorem tftpFinishWrite_eq {w : World} {data : List UInt8} {args : TftpConnectionArgs}
    {recvnNum : Int} {short : Bool} (hshort : short = decide (recvnNum < 516))
    (hdisk : w.disk = some []) (hsock : w.sock = true) :
    tftpFinishWrite env { w with file := .opened data, args := .allocated args } recvnNum
      = .ok (0, finished env w data args short) := by
  subst hshort
  have hmax : (tftpDataPktLenMax : Int) = 516 := rfl
  by_cases hlt : recvnNum < 516 <;>
    simp [tftpFinishWrite, loadArgs, tftpSendAckPacket, tftpSendMessage, hsock, hmax, hlt,
      tftpCleanupWr, tftpCleanup, fclose, freeArgs, closeSock, killParent, hdisk, finished]

/-- The whole run, when nothing could be written. -/
theorem tftpProcessWrite_fault {r : Recv} (hf : env.fopenOk = true) (hm : env.mallocOk = true)
    (hblock : tftpExtractBlock (recvBytes r) = 1) (hlen : 4 < (recvBytes r).length)
    (hroom : env.fwriteRoom = 0) :
    tftpProcessWrite env (start buffer old (r :: rest)) = .fault := by
  rw [tftpProcessWrite_listens hf hm, recvfrom_listening, Outcome.ok_bind]
  show tftpWriteBlock env (received old r rest) (recvNum r) >>= _ = _
  rw [tftpWriteBlock_fault hblock hlen hroom, Outcome.fault_bind]

/-- The whole run otherwise: it returns after one receive call, whatever that gave. -/
theorem tftpProcessWrite_returns {r : Recv} (hf : env.fopenOk = true) (hm : env.mallocOk = true)
    (hok : tftpExtractBlock (recvBytes r) = 1 → (recvBytes r).length ≤ 4 ∨ 0 < env.fwriteRoom) :
    tftpProcessWrite env (start buffer old (r :: rest))
      = .ok (0, finished env (received old r rest) (written env (recvBytes r))
          (argsAfter (recvBytes r)) (decide ((recvBytes r).length < 516))) := by
  have hshort : decide ((recvBytes r).length < 516) = decide (recvNum r < 516) :=
    decide_eq_decide.mpr (recvNum_lt r).symm
  rw [tftpProcessWrite_listens hf hm, recvfrom_listening, Outcome.ok_bind]
  show tftpWriteBlock env (received old r rest) (recvNum r) >>= _ = _
  rw [tftpWriteBlock_ok hok, Outcome.ok_bind]
  exact tftpFinishWrite_eq hshort rfl rfl

end Runs

/-! ## What a transfer is for -/

/-- The block that a packet carries, if it is a DATA packet. -/
def blockOf (p : List UInt8) : Option (Block UInt8) :=
  if 4 ≤ p.length ∧ tftpDecodeOp p = TftpOpcode.data.code then
    some { num := (tftpExtractBlock p).toNat, data := p.drop tftpDataPktHdrLen }
  else none

/-- What a receiver has of the file after these packets. -/
def fileOf (packets : List (List UInt8)) : Receiver UInt8 :=
  receive tftpDataLenMax 65536 (packets.filterMap blockOf)

/-- The packets that were received in a run. -/
def packetsIn (trace : List Event) : List (List UInt8) :=
  trace.filterMap fun
    | .recv (.packet p) => some p
    | _ => none

/-- A run whose packets so far are `before` goes on as it should: it receives only while the
    file is not complete, and an ACK names the last block that was taken. -/
def Follows (before : List (List UInt8)) : List Event → Prop
  | [] => True
  | .recv (.packet p) :: trace => (fileOf before).done = false ∧ Follows (before ++ [p]) trace
  | .send d :: trace =>
    (tftpDecodeOp d = TftpOpcode.ack.code → d = ackPacket (UInt16.ofNat (fileOf before).last)) ∧
      Follows before trace
  | _ :: trace => Follows before trace

/-- A transfer with these packets stores the file that they carry, and does not return before. -/
def StoresWhatWasSent (env : Env) (buffer : List UInt8) (old : Option (List UInt8))
    (packets : List (List UInt8)) : Prop :=
  match tftpProcessWrite env (start buffer old (packets.map .packet)) with
  | .ok (_, w) =>
    (fileOf (packetsIn w.trace)).done = true ∧
      w.disk = some (fileOf (packetsIn w.trace)).data ∧ Follows [] w.trace
  | .err (.waiting, w) => (fileOf (packetsIn w.trace)).done = false ∧ Follows [] w.trace
  | .err (.crashed, _) => False
  | .fault => False

/-- A packet that is a whole file: a DATA packet with block number 1 and less than a block of
    data. -/
def OnlyBlock (p : List UInt8) : Prop :=
  tftpDecodeOp p = TftpOpcode.data.code ∧ tftpExtractBlock p = 1 ∧ p.length < 516

/-- The server gets what it asks for, and the first packet, if one comes, is a whole file that
    can be written and flushed. -/
def SingleBlock (env : Env) (packets : List (List UInt8)) : Prop :=
  env.fopenOk = true ∧ env.mallocOk = true ∧
    ∀ p ∈ packets.head?, OnlyBlock p ∧
      p.length - 4 ≤ env.fwriteRoom ∧ p.length - 4 ≤ env.flushRoom

theorem SingleBlock.onlyBlock {env : Env} {p : List UInt8} {rest : List (List UInt8)}
    (h : SingleBlock env (p :: rest)) : OnlyBlock p :=
  (h.2.2 p rfl).1

/-! ## The first packet -/

@[simp] theorem fileOf_nil : fileOf [] = Receiver.init := rfl

theorem fileOf_singleton (p : List UInt8) :
    fileOf [p] = if tftpDecodeOp p = TftpOpcode.data.code ∧ tftpExtractBlock p = 1 then
        { last := 1, data := p.drop 4, done := decide (p.length < 516) }
      else Receiver.init := by
  by_cases hdata : 4 ≤ p.length ∧ tftpDecodeOp p = TftpOpcode.data.code
  · have hblock : blockOf p = some { num := (tftpExtractBlock p).toNat, data := p.drop 4 } :=
      if_pos hdata
    have hfile : fileOf [p] = Receiver.init.accept tftpDataLenMax 65536
        { num := (tftpExtractBlock p).toNat, data := p.drop 4 } := by
      rw [fileOf, List.filterMap_cons, hblock]
      rfl
    rw [hfile]
    by_cases hone : tftpExtractBlock p = 1
    · have hdone : decide ((p.drop 4).length < tftpDataLenMax) = decide (p.length < 516) := by
        rw [List.length_drop, decide_eq_decide, tftpDataLenMax]
        omega
      rw [if_pos ⟨hdata.2, hone⟩, accept_next rfl (by rw [hone]; rfl), hone, hdone]
      rfl
    · rw [if_neg fun h => hone h.2, accept_stale fun h => hone (UInt16.toNat_inj.mp h)]
  · have hblock : blockOf p = none := if_neg hdata
    have hfile : fileOf [p] = Receiver.init := by
      rw [fileOf, List.filterMap_cons, hblock]
      rfl
    rw [hfile, if_neg fun h => hdata ⟨length_of_tftpExtractBlock h.2, h.1⟩]

/-- A whole file in one packet. -/
theorem fileOf_onlyBlock {p : List UInt8} (h : OnlyBlock p) :
    fileOf [p] = { last := 1, data := p.drop 4, done := true } := by
  obtain ⟨hop, hblock, hlen⟩ := h
  rw [fileOf_singleton, if_pos ⟨hop, hblock⟩, decide_eq_true hlen]

/-- Only such a packet ends the file. -/
theorem onlyBlock_of_done {p : List UInt8} (h : (fileOf [p]).done = true) : OnlyBlock p := by
  rw [fileOf_singleton] at h
  split at h
  · next hp => exact ⟨hp.1, hp.2, of_decide_eq_true h⟩
  · cases h

/-- Of such a packet all data is received. -/
theorem recvData_onlyBlock {p : List UInt8} (h : OnlyBlock p) : recvData p = p.drop 4 := by
  have hlen : p.length ≤ tftpRecvBufferLen := by
    have := h.2.2
    rw [tftpRecvBufferLen]
    omega
  rw [recvData, List.take_of_length_le hlen]
  rfl

/-- The run on such a packet: it is acknowledged, and what was written of it is flushed. -/
theorem tftpProcessWrite_onlyBlock {env : Env} {buffer : List UInt8} {old : Option (List UInt8)}
    {rest : List Recv} {p : List UInt8} (hf : env.fopenOk = true) (hm : env.mallocOk = true)
    (hp : OnlyBlock p) (hok : p.length ≤ 4 ∨ 0 < env.fwriteRoom) :
    let disk := some (((p.drop 4).take env.fwriteRoom).take env.flushRoom)
    tftpProcessWrite env (start buffer old (.packet p :: rest))
      = .ok (0, { listening old rest with
          disk := disk, file := .closed, args := .freed, sock := false
          tftpRecvBuffer := recvBuffer p
          trace := [.send (ackPacket 0), .recv (.packet p), .send (ackPacket 1),
            .signal disk .closed] }) := by
  have hshort : decide ((recvBytes (.packet p)).length < 516) = true := decide_eq_true hp.2.2
  have hwritten : written env (recvBytes (.packet p)) = (p.drop 4).take env.fwriteRoom := by
    rw [recvBytes, written, if_pos hp.2.1, recvData_onlyBlock hp]
  have hblock : (argsAfter (recvBytes (.packet p))).block = 1 := if_pos hp.2.1
  intro disk
  rw [@tftpProcessWrite_returns env buffer old rest (.packet p) hf hm fun _ => hok, hshort,
    hwritten, finished, hblock]
  rfl

/-- `fwrite` and `fclose` lose nothing of the data exactly when both have room for it. -/
theorem take_take_eq_iff {l : List UInt8} {a b : Nat} :
    (l.take a).take b = l ↔ l.length ≤ a ∧ l.length ≤ b := by
  rw [List.take_take, List.take_eq_self_iff]
  omega

/-! ## Which transfers store their file -/

section Stored

variable {env : Env} {buffer : List UInt8} {old : Option (List UInt8)} {packets : List (List UInt8)}

/-- While the transfer waits, it has acknowledged the request. -/
theorem stores_of_nil (hf : env.fopenOk = true) (hm : env.mallocOk = true) :
    StoresWhatWasSent env buffer old [] := by
  rw [StoresWhatWasSent, List.map_nil, tftpProcessWrite_waits hf hm]
  show (fileOf []).done = false ∧ (_ → ackPacket 0 = ackPacket (UInt16.ofNat 0)) ∧ True
  exact ⟨rfl, fun _ => rfl, trivial⟩

/-- A file in one packet is stored. -/
theorem stores_of_onlyBlock {p : List UInt8} {rest : List (List UInt8)} (hf : env.fopenOk = true)
    (hm : env.mallocOk = true) (hp : OnlyBlock p) (hwrite : p.length - 4 ≤ env.fwriteRoom)
    (hflush : p.length - 4 ≤ env.flushRoom) :
    StoresWhatWasSent env buffer old (p :: rest) := by
  have hlen : (p.drop 4).length = p.length - 4 := List.length_drop
  have hrun := @tftpProcessWrite_onlyBlock env buffer old (rest.map .packet) p hf hm hp (by omega)
  -- nothing of the data is lost on the way to the disk
  rw [take_take_eq_iff.mpr ⟨by omega, by omega⟩] at hrun
  rw [StoresWhatWasSent, List.map_cons, hrun]
  show (fileOf [p]).done = true ∧ some (p.drop 4) = some (fileOf [p]).data ∧
    (_ → ackPacket 0 = ackPacket (UInt16.ofNat 0)) ∧ (fileOf []).done = false ∧
      (_ → ackPacket 1 = ackPacket (UInt16.ofNat (fileOf [p]).last)) ∧ True
  rw [fileOf_onlyBlock hp]
  exact ⟨rfl, rfl, fun _ => rfl, rfl, fun _ => rfl, trivial⟩

/-- Nothing else is. -/
theorem singleBlock_of_stores (h : StoresWhatWasSent env buffer old packets) :
    SingleBlock env packets := by
  cases hf : env.fopenOk with
  | false =>
    rw [StoresWhatWasSent, tftpProcessWrite_fopen_fails hf] at h
    exact h.elim
  | true =>
  cases hm : env.mallocOk with
  | false =>
    -- the transfer returned without a packet
    rw [StoresWhatWasSent, tftpProcessWrite_malloc_fails hf hm] at h
    cases h.1
  | true =>
  refine ⟨hf, hm, fun p hp => ?_⟩
  obtain ⟨rest, rfl⟩ : ∃ rest, packets = p :: rest := by
    cases packets with
    | nil => cases hp
    | cons q rest => exact ⟨rest, by rw [Option.mem_some_iff.mp hp]⟩
  by_cases hok : tftpExtractBlock p = 1 → p.length ≤ 4 ∨ 0 < env.fwriteRoom
  · have hrun := @tftpProcessWrite_returns env buffer old (rest.map .packet) (.packet p) hf hm hok
    have hp : OnlyBlock p := by
      rw [StoresWhatWasSent, List.map_cons, hrun] at h
      exact onlyBlock_of_done h.1
    rw [StoresWhatWasSent, List.map_cons, tftpProcessWrite_onlyBlock hf hm hp (hok hp.2.1)] at h
    -- the file on disk went through `fwrite` and `fclose`
    have hdisk : some (((p.drop 4).take env.fwriteRoom).take env.flushRoom)
        = some (fileOf [p]).data := h.2.1
    rw [fileOf_onlyBlock hp, Option.some_inj, take_take_eq_iff, List.length_drop] at hdisk
    exact ⟨hp, hdisk⟩
  · -- the first write failed
    obtain ⟨hblock, hno⟩ := Classical.not_imp.mp hok
    rw [StoresWhatWasSent, List.map_cons,
      @tftpProcessWrite_fault env buffer old (rest.map .packet) (.packet p) hf hm hblock
        (Nat.lt_of_not_le fun hle => hno (Or.inl hle))
        (Nat.eq_zero_of_not_pos fun hpos => hno (Or.inr hpos))] at h
    exact h.elim

/-- A first packet with a whole block of data, or more, is the end of the transfer. -/
theorem not_stores_fullBlock {p : List UInt8} {rest : List (List UInt8)} (h : 516 ≤ p.length) :
    ¬ StoresWhatWasSent env buffer old (p :: rest) := by
  intro hstores
  have hlen := (singleBlock_of_stores hstores).onlyBlock.2.2
  omega

end Stored

/-- **The transfers that store what was sent**: those of a file in a single packet. -/
theorem storesWhatWasSent_iff (env : Env) (buffer : List UInt8) (old : Option (List UInt8))
    (packets : List (List UInt8)) :
    StoresWhatWasSent env buffer old packets ↔ SingleBlock env packets := by
  constructor
  · exact singleBlock_of_stores
  · rintro ⟨hf, hm, hfirst⟩
    cases packets with
    | nil => exact stores_of_nil hf hm
    | cons p rest =>
      obtain ⟨hp, hwrite, hflush⟩ := hfirst p rfl
      exact stores_of_onlyBlock hf hm hp hwrite hflush

/-- A file of 513 bytes is not stored: the server does not wait for its second block. -/
theorem not_stores_twoBlocks :
    ¬ StoresWhatWasSent { fopenOk := true, mallocOk := true, fwriteRoom := 4096, flushRoom := 4096 }
      [] none [dataPacket 1 (List.replicate 512 0x41), dataPacket 2 [0x42]] := by
  refine not_stores_fullBlock ?_
  rw [dataPacket_eq, List.length_append, List.length_replicate]
  exact Nat.le_refl 516

/-! ## Clients that send a file block by block -/

/-- The packets of a client that sends a file. -/
def filePackets (file : List UInt8) : List (List UInt8) :=
  (blocksOf tftpDataLenMax 65536 file).map fun b => dataPacket (UInt16.ofNat b.num) b.data

/-- A DATA packet carries its block. -/
theorem blockOf_dataPacket {b : Block UInt8} (h : b.num < 65536) :
    blockOf (dataPacket (UInt16.ofNat b.num) b.data) = some b := by
  have hlen : 4 ≤ (dataPacket (UInt16.ofNat b.num) b.data).length := by
    rw [dataPacket_eq, List.length_append]
    exact Nat.le_add_right 4 _
  have hop : tftpDecodeOp (dataPacket (UInt16.ofNat b.num) b.data) = TftpOpcode.data.code := by
    rw [dataPacket_eq]
    rfl
  have hdata : (dataPacket (UInt16.ofNat b.num) b.data).drop tftpDataPktHdrLen = b.data := by
    rw [dataPacket_eq]
    rfl
  rw [blockOf, if_pos ⟨hlen, hop⟩, tftpExtractBlock_dataPacket, hdata,
    UInt16.toNat_ofNat', Nat.mod_eq_of_lt h]

/-- The specification is met by sending any file block by block: the packets carry the file. -/
theorem fileOf_filePackets (file : List UInt8) :
    fileOf (filePackets file)
      = { last := (file.length / tftpDataLenMax + 1) % 65536, data := file, done := true } := by
  have hblocks : (filePackets file).filterMap blockOf = blocksOf tftpDataLenMax 65536 file := by
    rw [filePackets, List.filterMap_map, blocksOf]
    refine (List.filterMap_congr fun b hb => ?_).trans List.filterMap_some
    obtain ⟨k, -, rfl⟩ := List.mem_map.mp hb
    exact blockOf_dataPacket (Nat.mod_lt _ (by decide))
  rw [fileOf, hblocks, receive_blocksOf file (by decide)]

/-- **Which files are stored**: those that are shorter than a block. -/
theorem stores_filePackets_iff (env : Env) (buffer : List UInt8) (old : Option (List UInt8))
    (file : List UInt8) :
    StoresWhatWasSent env buffer old (filePackets file)
      ↔ env.fopenOk = true ∧ env.mallocOk = true ∧ file.length < 512 ∧
        file.length ≤ env.fwriteRoom ∧ file.length ≤ env.flushRoom := by
  have hfirst : (filePackets file).head? = some (dataPacket 1 (file.take 512)) := by
    rw [filePackets, blocksOf, List.range_succ_eq_map, List.map_cons, List.map_cons, List.head?_cons]
    rfl
  have hlen : (dataPacket 1 (file.take 512)).length = 4 + min 512 file.length := by
    rw [dataPacket_eq, List.length_append, List.length_take]
    rfl
  have honly : OnlyBlock (dataPacket 1 (file.take 512)) ↔ file.length < 512 := by
    rw [OnlyBlock, hlen, tftpExtractBlock_dataPacket, dataPacket_eq]
    constructor
    · rintro ⟨-, -, hlt⟩
      omega
    · intro hlt
      exact ⟨rfl, rfl, by omega⟩
  constructor
  · intro h
    obtain ⟨hf, hm, hp⟩ := singleBlock_of_stores h
    obtain ⟨hp, hwrite, hflush⟩ := hp _ hfirst
    rw [honly] at hp
    exact ⟨hf, hm, hp, by omega, by omega⟩
  · rintro ⟨hf, hm, hlt, hwrite, hflush⟩
    obtain ⟨rest, hrest⟩ : ∃ rest, filePackets file = dataPacket 1 (file.take 512) :: rest :=
      List.head?_eq_some_iff.mp hfirst
    rw [hrest]
    exact stores_of_onlyBlock hf hm (honly.mpr hlt) (by omega) (by omega)

end Gateway.TFTPServer.WriteSpec
