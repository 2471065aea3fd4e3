/-
  Gateway.TFTPServer.ReadSpec

  What a TFTP read transfer sends, compared with the file.

  `lockStep` is the specification: block after block, each sent again until its ACK
  comes, up to the first that is shorter than 512 bytes.  `tftp_process_read` sends
  one block, receives one packet and returns.  `deliversFile_iff` says for which
  files and packets that is enough.
-/

import Gateway.TFTPServer.WriteSpec

namespace Gateway.TFTPServer.ReadSpec

open Gateway.Lib.ByteWindow Gateway.Lib.BlockMem Gateway.Lib.BlockTransfer
open Gateway.TFTPServer.TftpUtils Gateway.TFTPServer.TftpServer Gateway.TFTPServer.WriteSpec

/-! ## The ACK -/

/-- An ACK packet with block number 1. -/
def AcksFirst (p : List UInt8) : Prop :=
  tftpDecodeOp p = TftpOpcode.ack.code ∧ tftpExtractBlock p = 1

instance (p : List UInt8) : Decidable (AcksFirst p) := inferInstanceAs (Decidable (_ ∧ _))

/-- `tftp_is_correct_ack` on the buffer, for the first block. -/
theorem tftpIsCorrectAck_recvBuffer (p : List UInt8) :
    tftpIsCorrectAck (recvBuffer p) 1 = decide (AcksFirst p) := by
  have hop : tftpDecodeOp (recvBuffer p) = tftpDecodeOp p := recvBuffer_getD p (by decide)
  have hblock : (tftpExtractBlock (recvBuffer p)).toNat = 0 + 1 ↔ tftpExtractBlock p = 1 :=
    block_eq_one
  rw [tftpIsCorrectAck, hop]
  by_cases hack : tftpDecodeOp p = TftpOpcode.ack.code
  · rw [if_neg (not_not_intro hack)]
    by_cases hone : tftpExtractBlock p = 1
    · rw [if_neg (not_not_intro (hblock.mpr hone).symm), decide_eq_true ⟨hack, hone⟩]
    · rw [if_pos fun h => hone (hblock.mp h.symm), decide_eq_false fun h => hone h.2]
  · rw [if_pos hack, decide_eq_false fun h => hack h.1]

/-- A failed receive call leaves no ACK in the buffer. -/
theorem not_acksFirst_nil : ¬ AcksFirst [] := by decide

/-! ## What tftp_process_read does -/

section Runs

variable {env : Env} {spare : Bool} {buffer file : List UInt8} {old : Option (List UInt8)}
  {incoming rest : List Recv}

/-- The file cannot be opened: the NULL stream is closed. -/
theorem tftpProcessRead_fopen_fails (h : env.fopenOk = false ∨ old = none) :
    tftpProcessRead env spare (start buffer old incoming)
      = .err (.crashed,
          { start buffer old incoming with trace := [.send (errorPacket .fileNotFound)] }) := by
  have hopen : fopenRead env { start buffer old incoming with args := .null }
      = start buffer old incoming := by
    rw [fopenRead]
    rcases h with h | rfl
    · cases old with
      | none => rfl
      | some content =>
        simp only [start, h]
        rfl
    · rfl
  rw [tftpProcessRead, hopen]
  rfl

/-- No memory. -/
theorem tftpProcessRead_malloc_fails (hf : env.fopenOk = true) (hm : env.mallocOk = false) :
    tftpProcessRead env spare (start buffer (some file) incoming)
      = .ok (0,
          { start buffer (some file) incoming with
            file := .closed, sock := false, trace := [.send (errorPacket .notDefined)] }) := by
  simp [tftpProcessRead, fopenRead, mallocArgs, hf, hm, start, tftpSendErrorMessage,
    tftpSendMessage, tftpCleanupRd, tftpCleanup, fclose, freeArgs, closeSock]

/-- The connection arguments behind the first block. -/
def argsFirst (file : List UInt8) (block : Nat) : TftpConnectionArgs where
  op := .rrq
  block := block
  totBytes := 0
  data := file.take 512
  dataLen := (file.take 512).length

/-- The world in which the transfer waits for its packet. -/
def asking (file : List UInt8) (incoming : List Recv) : World :=
  { start (List.replicate tftpRecvBufferLen 0) (some file) incoming with
    file := .reading (file.drop 512),
    args := .allocated (argsFirst file 1),
    trace := [.send (dataPacket 1 (file.take 512))] }

/-- The transfer up to its packet. -/
theorem tftpProcessRead_asks (hf : env.fopenOk = true) (hm : env.mallocOk = true) :
    tftpProcessRead env spare (start buffer (some file) incoming)
      = recvfromTo spare (asking file incoming) >>= fun (_, w) => tftpReadAck env w := by
  simp [tftpProcessRead, fopenRead, mallocArgs, hf, hm, start, loadArgs, storeArgs, fread,
    tftpSendNextBlock, tftpSendDataPacket, tftpSendMessage, asking, argsFirst, tftpDataLenMax]

/-- No packet comes. -/
theorem tftpProcessRead_waits (hf : env.fopenOk = true) (hm : env.mallocOk = true) :
    tftpProcessRead env spare (start buffer (some file) []) = .err (.waiting, asking file []) := by
  rw [tftpProcessRead_asks hf hm]
  rfl

/-- The world behind the receive call. -/
def answered (file : List UInt8) (r : Recv) (rest : List Recv) : World :=
  { asking file rest with
    tftpRecvBuffer := recvBuffer (recvBytes r)
    trace := [.send (dataPacket 1 (file.take 512)), .recv r] }

theorem recvfrom_asking (r : Recv) :
    recvfrom (asking file (r :: rest)) = .ok (recvNum r, answered file r rest) := by
  cases r with
  | packet p => rfl
  | error => simp [recvfrom, asking, answered, recvNum, recvBytes, recvBuffer, start]

/-- The sender's address of a packet is stored over memory that is in use. -/
theorem tftpProcessRead_overwrites {p : List UInt8} (hf : env.fopenOk = true)
    (hm : env.mallocOk = true) :
    tftpProcessRead env false (start buffer (some file) (.packet p :: rest)) = .fault := by
  have hnum : 0 ≤ recvNum (.packet p) := Int.natCast_nonneg _
  rw [tftpProcessRead_asks hf hm, recvfromTo, recvfrom_asking, Outcome.ok_bind]
  simp only [hnum, and_self, if_true, Outcome.fault_bind]

/-- Where the address does no harm, or none is stored, the packet is looked at. -/
theorem tftpProcessRead_answered {r : Recv} (hf : env.fopenOk = true) (hm : env.mallocOk = true)
    (hspare : spare = true ∨ r = .error) :
    tftpProcessRead env spare (start buffer (some file) (r :: rest))
      = tftpReadAck env (answered file r rest) := by
  have hcond : ¬ (0 ≤ recvNum r ∧ spare = false) := by
    rcases hspare with rfl | rfl
    · exact fun h => Bool.noConfusion h.2
    · exact fun h => absurd h.1 (by decide)
  rw [tftpProcessRead_asks hf hm, recvfromTo, recvfrom_asking, Outcome.ok_bind]
  simp only [if_neg hcond, Outcome.ok_bind]

/-- After another packet the arguments are used although they were freed. -/
theorem tftpReadAck_fault {r : Recv} (h : ¬ AcksFirst (recvBytes r)) :
    tftpReadAck env (answered file r rest) = .fault := by
  have hargs : loadArgs (answered file r rest) = .ok (argsFirst file 1) := rfl
  have hack : tftpIsCorrectAck (answered file r rest).tftpRecvBuffer (argsFirst file 1).block
      = false := (tftpIsCorrectAck_recvBuffer (recvBytes r)).trans (decide_eq_false h)
  rw [tftpReadAck, hargs, Outcome.ok_bind, hack]
  rfl

/-- The end of a transfer: everything is released when the block was short, and nothing
    otherwise. -/
def ended (w : World) (file : List UInt8) (short : Bool) : World :=
  { w with
    file := if short then .closed else .reading (file.drop 512)
    args := if short then .freed else .allocated (argsFirst file 2)
    sock := !short }

/-- After the ACK of the first block. -/
theorem tftpReadAck_ack {r : Recv} (h : AcksFirst (recvBytes r)) :
    tftpReadAck env (answered file r rest)
      = .ok (1, ended (answered file r rest) file (decide (file.length < 512))) := by
  have hargs : loadArgs (answered file r rest) = .ok (argsFirst file 1) := rfl
  have hack : tftpIsCorrectAck (answered file r rest).tftpRecvBuffer (argsFirst file 1).block
      = true := (tftpIsCorrectAck_recvBuffer (recvBytes r)).trans (decide_eq_true h)
  have hstore : storeArgs (answered file r rest) { argsFirst file 1 with block := 2 }
      = .ok { answered file r rest with args := .allocated (argsFirst file 2) } := rfl
  have hlen : (argsFirst file 2).dataLen = min 512 file.length := List.length_take
  have hload : loadArgs { answered file r rest with args := .allocated (argsFirst file 2) }
      = .ok (argsFirst file 2) := rfl
  rw [tftpReadAck, hargs, Outcome.ok_bind, hack, if_pos rfl]
  show storeArgs (answered file r rest) { argsFirst file 1 with block := 2 } >>= _ = _
  rw [hstore, Outcome.ok_bind, hload, Outcome.ok_bind, hlen]
  by_cases hshort : file.length < 512
  · rw [if_pos (by rw [tftpDataLenMax]; omega), decide_eq_true hshort]
    rfl
  · rw [if_neg (by rw [tftpDataLenMax]; omega), decide_eq_false hshort]
    rfl

end Runs

/-! ## What a transfer is for -/

/-- The packet acknowledges the block with index `k`. -/
def acksBlock (p : List UInt8) (k : Nat) : Bool :=
  decide (4 ≤ p.length ∧ tftpDecodeOp p = TftpOpcode.ack.code ∧
    (tftpExtractBlock p).toNat = (k + 1) % 65536)

/-- What a server that sends the file in lock-step does when it receives these packets, and
    whether the transfer ends. -/
def transfer (file : List UInt8) (packets : List (List UInt8)) :
    List (Move (List UInt8)) × Bool :=
  lockStep acksBlock (file.length / tftpDataLenMax) 0 packets

/-- The DATA packet of a block. -/
def blockPacket (file : List UInt8) (k : Nat) : List UInt8 :=
  let b := blockAt tftpDataLenMax 65536 file k
  dataPacket (UInt16.ofNat b.num) b.data

/-- A move in the trace. -/
def eventOf (file : List UInt8) : Move (List UInt8) → Event
  | .send k => .send (blockPacket file k)
  | .recv p => .recv (.packet p)

/-- The packets that were sent in a run. -/
def packetsOut (trace : List Event) : List (List UInt8) :=
  trace.filterMap fun
    | .send d => some d
    | _ => none

/-- A transfer with these packets does what a lock-step server does, and has delivered the file
    when it returns. -/
def DeliversFile (env : Env) (spare : Bool) (buffer file : List UInt8)
    (packets : List (List UInt8)) : Prop :=
  match tftpProcessRead env spare (start buffer (some file) (packets.map .packet)) with
  | .ok (_, w) =>
    (transfer file packets).2 = true ∧ w.trace = (transfer file packets).1.map (eventOf file) ∧
      (fileOf (packetsOut w.trace)).done = true ∧ (fileOf (packetsOut w.trace)).data = file
  | .err (.waiting, w) =>
    (transfer file packets).2 = false ∧ w.trace = (transfer file packets).1.map (eventOf file)
  | .err (.crashed, _) => False
  | .fault => False

/-- A lock-step server delivers the file: a client that takes the blocks in order has it. -/
theorem fileOf_transfer {file : List UInt8} {packets : List (List UInt8)}
    (hdone : (transfer file packets).2 = true) :
    fileOf (packetsOut ((transfer file packets).1.map (eventOf file)))
      = { last := (file.length / tftpDataLenMax + 1) % 65536, data := file, done := true } := by
  have hblock : ∀ k, blockOf (blockPacket file k) = some (blockAt tftpDataLenMax 65536 file k) :=
    fun k => blockOf_dataPacket (Nat.mod_lt _ (by decide))
  have hout : ∀ moves : List (Move (List UInt8)),
      (packetsOut (moves.map (eventOf file))).filterMap blockOf
        = (sends moves).map (blockAt tftpDataLenMax 65536 file) := by
    intro moves
    induction moves with
    | nil => rfl
    | cons move moves ih =>
      cases move with
      | send k =>
        show (blockPacket file k :: packetsOut (moves.map (eventOf file))).filterMap blockOf
          = blockAt tftpDataLenMax 65536 file k :: (sends moves).map _
        rw [List.filterMap_cons, hblock, ih]
      | recv p => exact ih
  rw [fileOf, hout]
  exact lockStep_delivers file (by decide) (by decide) hdone

theorem acksBlock_zero (p : List UInt8) : acksBlock p 0 = decide (AcksFirst p) := by
  rw [acksBlock, decide_eq_decide]
  constructor
  · rintro ⟨-, hop, hblock⟩
    exact ⟨hop, UInt16.toNat_inj.mp hblock⟩
  · rintro ⟨hop, hblock⟩
    exact ⟨length_of_tftpExtractBlock hblock, hop, by rw [hblock]; rfl⟩

/-! ## Which transfers deliver their file -/

section Delivered

variable {env : Env} {spare : Bool} {buffer file : List UInt8} {packets : List (List UInt8)}

/-- While the transfer waits, it has sent the first block. -/
theorem delivers_of_nil (hf : env.fopenOk = true) (hm : env.mallocOk = true) :
    DeliversFile env spare buffer file [] := by
  rw [DeliversFile, List.map_nil, tftpProcessRead_waits hf hm]
  exact ⟨rfl, rfl⟩

/-- A file of less than a block is delivered when its ACK comes. -/
theorem delivers_of_acksFirst {p : List UInt8} {rest : List (List UInt8)} (hf : env.fopenOk = true)
    (hm : env.mallocOk = true) (hspare : spare = true) (hp : AcksFirst p)
    (hlen : file.length < 512) : DeliversFile env spare buffer file (p :: rest) := by
  have hlast : 0 = file.length / tftpDataLenMax := by
    rw [tftpDataLenMax]
    omega
  have hmoves : transfer file (p :: rest) = ([.send 0, .recv p], true) := by
    rw [transfer, lockStep, acksBlock_zero, if_pos (decide_eq_true hp), if_pos hlast]
  have hdone := @fileOf_transfer file (p :: rest) (by rw [hmoves])
  have hrun := @tftpReadAck_ack env file (rest.map .packet) (.packet p) hp
  rw [hmoves] at hdone
  rw [DeliversFile, List.map_cons, tftpProcessRead_answered hf hm (Or.inl hspare), hrun, hmoves]
  exact ⟨rfl, rfl, congrArg Receiver.done hdone, congrArg Receiver.data hdone⟩

/-- Whatever the first packet is, the server sends nothing after it. -/
theorem acksFirst_of_delivers {p : List UInt8} {rest : List (List UInt8)} (hf : env.fopenOk = true)
    (hm : env.mallocOk = true) (h : DeliversFile env spare buffer file (p :: rest)) :
    spare = true ∧ AcksFirst p ∧ file.length < 512 := by
  rw [DeliversFile, List.map_cons] at h
  cases hspare : spare with
  | false =>
    rw [hspare, tftpProcessRead_overwrites hf hm] at h
    exact h.elim
  | true =>
  rw [tftpProcessRead_answered hf hm (Or.inl hspare)] at h
  by_cases hp : AcksFirst p
  · refine ⟨rfl, hp, ?_⟩
    rw [@tftpReadAck_ack env file _ (.packet p) hp] at h
    obtain ⟨-, htrace, -⟩ := h
    by_contra hlen
    -- of a file with more blocks, the second one would have to follow
    have hlast : ¬ 0 = file.length / tftpDataLenMax := by
      rw [tftpDataLenMax]
      omega
    rw [transfer, lockStep, acksBlock_zero, if_pos (decide_eq_true hp), if_neg hlast] at htrace
    have hcount := congrArg List.length htrace
    have hmore := lockStep_length_pos acksBlock (file.length / tftpDataLenMax) (0 + 1) rest
    simp only [ended, answered, List.length_map, List.length_cons, List.length_nil] at hcount
    omega
  · rw [@tftpReadAck_fault env file _ (.packet p) hp] at h
    exact h.elim

/-- Other first packets, and files of a block or more, are not delivered. -/
theorem not_delivers {p : List UInt8} {rest : List (List UInt8)} (hf : env.fopenOk = true)
    (hm : env.mallocOk = true) (hp : ¬ AcksFirst p ∨ 512 ≤ file.length) :
    ¬ DeliversFile env spare buffer file (p :: rest) := by
  intro h
  obtain ⟨-, hack, hlen⟩ := acksFirst_of_delivers hf hm h
  rcases hp with hp | hp
  · exact hp hack
  · omega

end Delivered

/-- **The transfers that deliver the file**: those of a file in a single block, whose first packet
    is its ACK. -/
theorem deliversFile_iff (env : Env) (spare : Bool) (buffer file : List UInt8)
    (packets : List (List UInt8)) :
    DeliversFile env spare buffer file packets ↔
      env.fopenOk = true ∧ env.mallocOk = true ∧
        ∀ p ∈ packets.head?, spare = true ∧ AcksFirst p ∧ file.length < 512 := by
  constructor
  · intro h
    cases hf : env.fopenOk with
    | false =>
      rw [DeliversFile, tftpProcessRead_fopen_fails (Or.inl hf)] at h
      exact h.elim
    | true =>
    cases hm : env.mallocOk with
    | false =>
      -- an error packet instead of the first block
      rw [DeliversFile, tftpProcessRead_malloc_fails hf hm] at h
      obtain ⟨hdone, htrace, -⟩ := h
      cases packets with
      | nil => cases hdone
      | cons p rest =>
        obtain ⟨moves, hmoves⟩ :=
          lockStep_cons_eq acksBlock (file.length / tftpDataLenMax) 0 p rest
        rw [transfer, hmoves] at htrace
        have hcount := congrArg List.length htrace
        simp only [List.length_map, List.length_cons, List.length_nil] at hcount
        omega
    | true =>
    refine ⟨rfl, rfl, fun p hp => ?_⟩
    obtain ⟨rest, rfl⟩ := List.head?_eq_some_iff.mp hp
    exact acksFirst_of_delivers hf hm h
  · rintro ⟨hf, hm, hfirst⟩
    cases packets with
    | nil => exact delivers_of_nil hf hm
    | cons p rest =>
      obtain ⟨hspare, hp, hlen⟩ := hfirst p rfl
      exact delivers_of_acksFirst hf hm hspare hp hlen

/-- A file of 512 bytes, whose first block is acknowledged, and a one-byte file whose client sends
    the ACK of another block first. -/
theorem not_delivers_examples :
    ¬ DeliversFile { fopenOk := true, mallocOk := true, fwriteRoom := 4096, flushRoom := 4096 }
        true [] (List.replicate 512 0x41) [ackPacket 1, ackPacket 2] ∧
      ¬ DeliversFile { fopenOk := true, mallocOk := true, fwriteRoom := 4096, flushRoom := 4096 }
        true [] [0x41] [ackPacket 0, ackPacket 1] := by
  refine ⟨not_delivers rfl rfl (Or.inr ?_), not_delivers rfl rfl (Or.inl (by decide))⟩
  rw [List.length_replicate]

end Gateway.TFTPServer.ReadSpec
