/-
  Gateway.TFTPServer.Tftpd

  The TFTP server as a process (`tftpd_init` and `process_tftp_request` of
  `TFTPServer/tftpserver.c`): what requests, one after the other, do to the files.

  A request is received over the buffer that the earlier ones left behind, and its
  transfer is run to its end before the next one is received.  While a transfer waits for
  its packet the file is in the state that `fopen` left it in; `Transfer.run` is the call
  with what it has received so far.  The stream of a full block is never closed, so what
  is pending in it stays there.

  Which file a name stands for is up to the file system, so that `a` and `./a` may be
  one file: `resolve` says it, and no step changes it, for the server neither removes nor
  renames files.

  Every run leaves each file as it was or with less than 512 bytes (`files_small`): a
  transfer of more than one block ends with an empty file.
-/

import Gateway.Lib.Transition
import Gateway.TFTPServer.ReadSpec
import Gateway.TFTPServer.RequestDecode
import Gateway.TFTPServer.TableUpdate

namespace Gateway.TFTPServer.Tftpd

open Gateway.Lib.ByteWindow Gateway.Lib.BlockMem Gateway.Lib.CString Gateway.Lib.Transition
open Gateway.TFTPServer.TftpUtils Gateway.TFTPServer.TftpServer
open Gateway.TFTPServer.WriteSpec Gateway.TFTPServer.ReadSpec Gateway.TFTPServer.TableUpdate
open Gateway.TFTPServer.RequestDecode

variable {F : Type} [DecidableEq F]

/-! ## State -/

/-- The two transfers. -/
inductive Call where
  | read
  | write
  deriving DecidableEq, Repr

/-- A transfer: the file that its name stands for, what the system has to offer, the buffer and the
    file's content when it was called. -/
structure Transfer (F : Type) where
  call : Call
  file : F
  env : Env
  spare : Bool
  buffer : List UInt8
  old : Option (List UInt8)

/-- What the server is doing. -/
inductive Phase (F : Type) where
  | listening
  /-- it waits for a packet of the transfer -/
  | transferring (t : Transfer F) (received : List Recv)
  | dead

structure State (F : Type) where
  files : F → Option (List UInt8)
  tftpRecvBuffer : List UInt8
  phase : Phase F
  /-- how many signals the parent was sent -/
  signals : Nat

/-! ## Steps -/

/-- The call of a transfer that receives these packets. -/
def Transfer.run (t : Transfer F) (received : List Recv) : Outcome Halt (Int × World) :=
  match t.call with
  | .read => tftpProcessRead t.env t.spare (start t.buffer t.old received)
  | .write => tftpProcessWrite t.env (start t.buffer t.old received)

/-- The world behind a transfer. -/
def State.leave (s : State F) (t : Transfer F) (w : World) (phase : Phase F) : State F :=
  { s with
    files := Function.update s.files t.file w.disk
    tftpRecvBuffer := w.tftpRecvBuffer
    phase := phase }

/-- The transfer goes on until it returns, waits or dies.  A signal is the last thing it does. -/
def resume (s : State F) (t : Transfer F) (received : List Recv) : Option (State F) :=
  match t.run received with
  | .ok (_, w) => some { s.leave t w .listening with
      signals := s.signals + (TableUpdate.signals w.trace).length }
  | .err (.waiting, w) => some (s.leave t w (.transferring t received))
  | .err (.crashed, w) => some (s.leave t w .dead)
  | .fault => none

/-- `recvfrom` on port 69, and `process_tftp_request`. -/
def requestStep (resolve : List UInt8 → F) (s : State F) (d : List UInt8) (sockets : Sockets)
    (fileName : List UInt8) (env : Env) (spare : Bool) : Option (State F) :=
  match s.phase with
  | .listening =>
    if d = [] then some s else do
    let buffer := recvRequest s.tftpRecvBuffer d
    let s := { s with tftpRecvBuffer := buffer }
    match ← processTftpRequest sockets fileName buffer with
    | .read fileName =>
      let file := resolve (fileName.takeWhile (· != 0))
      resume s ⟨.read, file, env, spare, buffer, s.files file⟩ []
    | .write fileName =>
      let file := resolve (fileName.takeWhile (· != 0))
      resume s ⟨.write, file, env, spare, buffer, s.files file⟩ []
    | .error _ => some s
    | .nothing => some s
  | _ => none

/-- `recvfrom` of a transfer. -/
def receiveStep (s : State F) (r : Recv) : Option (State F) :=
  match s.phase with
  | .transferring t received => resume s t (received ++ [r])
  | _ => none

/-- A datagram on port 69, with what the calls find, or one for the transfer. -/
inductive Act where
  | request (d : List UInt8) (sockets : Sockets) (fileName : List UInt8) (env : Env) (spare : Bool)
  | receive (r : Recv)

def step (resolve : List UInt8 → F) (s : State F) : Act → Option (State F)
  | .request d sockets fileName env spare => requestStep resolve s d sockets fileName env spare
  | .receive r => receiveStep s r

/-- The server behind `bind`. -/
def initState (files : F → Option (List UInt8)) : State F where
  files := files
  tftpRecvBuffer := List.replicate tftpRecvBufferLen 0
  phase := .listening
  signals := 0

/-! ## What a transfer does to its file -/

section Transfers

variable {env : Env} {spare : Bool} {buffer : List UInt8} {old : Option (List UInt8)}
  {received : List Recv} {w : World}

theorem recvBuffer_length (p : List UInt8) : (recvBuffer p).length = tftpRecvBufferLen := by
  have hlen : (p.take tftpRecvBufferLen).length ≤ tftpRecvBufferLen := List.length_take_le _ _
  rw [recvBuffer, splice_length]
  · exact List.length_replicate
  · rw [List.length_replicate]
    omega

/-- The buffer is as it was, or was filled anew. -/
def Refilled (buffer : List UInt8) (w : World) : Prop :=
  w.tftpRecvBuffer = buffer ∨ w.tftpRecvBuffer.length = tftpRecvBufferLen

/-- A read leaves the file alone, and sends no signal. -/
theorem read_end
    (h : endWorld (tftpProcessRead env spare (start buffer old received)) = some w) :
    w.disk = old ∧ signals w.trace = [] ∧ Refilled buffer w := by
  by_cases hopen : env.fopenOk = false ∨ old = none
  · rw [tftpProcessRead_fopen_fails hopen] at h
    obtain rfl := Option.some_inj.mp h
    exact ⟨rfl, rfl, Or.inl rfl⟩
  · rw [not_or] at hopen
    have hf : env.fopenOk = true := Bool.eq_true_of_not_eq_false hopen.1
    obtain ⟨file, rfl⟩ := Option.ne_none_iff_exists'.mp hopen.2
    cases hm : env.mallocOk with
    | false =>
      rw [tftpProcessRead_malloc_fails hf hm] at h
      obtain rfl := Option.some_inj.mp h
      exact ⟨rfl, rfl, Or.inl rfl⟩
    | true =>
      cases received with
      | nil =>
        rw [tftpProcessRead_waits hf hm] at h
        obtain rfl := Option.some_inj.mp h
        exact ⟨rfl, rfl, Or.inr List.length_replicate⟩
      | cons r rest =>
        by_cases hspare : spare = true ∨ r = .error
        · rw [tftpProcessRead_answered hf hm hspare] at h
          by_cases hack : AcksFirst (recvBytes r)
          · rw [tftpReadAck_ack hack] at h
            obtain rfl := Option.some_inj.mp h
            exact ⟨rfl, rfl, Or.inr (recvBuffer_length _)⟩
          · rw [tftpReadAck_fault hack] at h
            cases h
        · -- the address of the sender overwrites memory
          rw [not_or] at hspare
          cases r with
          | error => exact absurd rfl hspare.2
          | packet p =>
            rw [Bool.eq_false_of_not_eq_true hspare.1, tftpProcessRead_overwrites hf hm] at h
            cases h

/-- What a write leaves of its packet. -/
def storedOf (env : Env) (r : Recv) : List UInt8 :=
  if (recvBytes r).length < 516 then (written env (recvBytes r)).take env.flushRoom else []

theorem storedOf_length (env : Env) (r : Recv) : (storedOf env r).length < 512 := by
  rw [storedOf]
  split
  · next hshort =>
    have hdata := recvData_length (recvBytes r)
    rw [written]
    split
    · rw [List.length_take, List.length_take, hdata]
      omega
    · rw [List.take_nil]
      exact Nat.zero_lt_succ _
  · exact Nat.zero_lt_succ _

/-- What a write does when it can open the file and gets its memory: it waits for one packet, and
    then it returns with one signal. -/
theorem write_cases (hf : env.fopenOk = true) (hm : env.mallocOk = true) :
    (received = [] ∧ ∃ w, tftpProcessWrite env (start buffer old received) = .err (.waiting, w) ∧
      w.disk = some [] ∧ w.tftpRecvBuffer.length = tftpRecvBufferLen) ∨
    ∃ r rest, received = r :: rest ∧
      (tftpProcessWrite env (start buffer old received) = .fault ∨
        ∃ w, tftpProcessWrite env (start buffer old received) = .ok (0, w) ∧
          w.disk = some (storedOf env r) ∧ (signals w.trace).length = 1 ∧
          w.tftpRecvBuffer.length = tftpRecvBufferLen) := by
  cases received with
  | nil => exact Or.inl ⟨rfl, _, tftpProcessWrite_waits hf hm, rfl, List.length_replicate⟩
  | cons r rest =>
    refine Or.inr ⟨r, rest, rfl, ?_⟩
    by_cases hok : tftpExtractBlock (recvBytes r) = 1 →
        (recvBytes r).length ≤ 4 ∨ 0 < env.fwriteRoom
    · refine Or.inr ⟨_, tftpProcessWrite_returns hf hm hok, ?_, rfl, recvBuffer_length _⟩
      rw [storedOf]
      by_cases hshort : (recvBytes r).length < 516
      · rw [decide_eq_true hshort, if_pos hshort]
        rfl
      · rw [decide_eq_false hshort, if_neg hshort]
        rfl
    · left
      rw [Classical.not_imp, not_or] at hok
      obtain ⟨hblock, hlen, hroom⟩ := hok
      exact tftpProcessWrite_fault hf hm hblock (by omega) (by omega)

/-- A write leaves its file as it was, or with less than a block. -/
theorem write_end
    (h : endWorld (tftpProcessWrite env (start buffer old received)) = some w) :
    (w.disk = old ∨ ∃ content, w.disk = some content ∧ content.length < 512) ∧
      Refilled buffer w := by
  cases hf : env.fopenOk with
  | false =>
    rw [tftpProcessWrite_fopen_fails hf] at h
    obtain rfl := Option.some_inj.mp h
    exact ⟨Or.inl rfl, Or.inl rfl⟩
  | true =>
    cases hm : env.mallocOk with
    | false =>
      rw [tftpProcessWrite_malloc_fails hf hm] at h
      obtain rfl := Option.some_inj.mp h
      exact ⟨Or.inr ⟨[], rfl, Nat.zero_lt_succ _⟩, Or.inl rfl⟩
    | true =>
      rcases @write_cases env buffer old received hf hm with
        ⟨-, w', hrun, hdisk, hbuffer⟩ | ⟨r, rest, -, hrun | ⟨w', hrun, hdisk, -, hbuffer⟩⟩
      · rw [hrun] at h
        obtain rfl := Option.some_inj.mp h
        exact ⟨Or.inr ⟨[], hdisk, Nat.zero_lt_succ _⟩, Or.inr hbuffer⟩
      · rw [hrun] at h
        cases h
      · rw [hrun] at h
        obtain rfl := Option.some_inj.mp h
        exact ⟨Or.inr ⟨_, hdisk, storedOf_length env r⟩, Or.inr hbuffer⟩

end Transfers

/-! ## What a step does -/

section Steps

variable {resolve : List UInt8 → F} {s s' : State F} {t : Transfer F} {received : List Recv}

/-- A transfer that goes on ends in a world, where its file is what the world says. -/
theorem resume_cases (h : resume s t received = some s') :
    ∃ w, endWorld (t.run received) = some w ∧
      s'.files = Function.update s.files t.file w.disk ∧ s'.tftpRecvBuffer = w.tftpRecvBuffer := by
  rw [resume] at h
  split at h
  · next n w hrun =>
    obtain rfl := Option.some_inj.mp h
    exact ⟨w, by rw [hrun]; rfl, rfl, rfl⟩
  · next w hrun =>
    obtain rfl := Option.some_inj.mp h
    exact ⟨w, by rw [hrun]; rfl, rfl, rfl⟩
  · next w hrun =>
    obtain rfl := Option.some_inj.mp h
    exact ⟨w, by rw [hrun]; rfl, rfl, rfl⟩
  · cases h

/-- The only transfer that can wait behind it is this one. -/
theorem resume_waits (h : resume s t received = some s') {t' : Transfer F} {received' : List Recv}
    (hphase : s'.phase = .transferring t' received') : t' = t ∧ received' = received := by
  rw [resume] at h
  split at h
  · obtain rfl := Option.some_inj.mp h
    cases hphase
  · obtain rfl := Option.some_inj.mp h
    cases hphase
    exact ⟨rfl, rfl⟩
  · obtain rfl := Option.some_inj.mp h
    cases hphase
  · cases h

omit [DecidableEq F] in
/-- A transfer leaves its file as it was when it was called, or with less than a block. -/
theorem Transfer.run_end {w : World} (h : endWorld (t.run received) = some w) :
    (w.disk = t.old ∨ ∃ content, w.disk = some content ∧ content.length < 512) ∧
      Refilled t.buffer w := by
  rw [Transfer.run] at h
  cases hcall : t.call with
  | read =>
    rw [hcall] at h
    obtain ⟨hdisk, -, hbuffer⟩ := read_end h
    exact ⟨Or.inl hdisk, hbuffer⟩
  | write =>
    rw [hcall] at h
    exact write_end h

/-- A read changes no file and sends no signal. -/
theorem resume_read (hcall : t.call = .read) (hold : t.old = s.files t.file)
    (h : resume s t received = some s') :
    s'.files = s.files ∧ s'.signals = s.signals := by
  have hsame : ∀ w, endWorld (t.run received) = some w →
      Function.update s.files t.file w.disk = s.files ∧ signals w.trace = [] := by
    intro w hend
    rw [Transfer.run, hcall] at hend
    obtain ⟨hdisk, hsignals, -⟩ := read_end hend
    refine ⟨?_, hsignals⟩
    rw [hdisk, hold, Function.update_eq_self]
  rw [resume] at h
  split at h
  · next n w hrun =>
    obtain ⟨hfiles, hsignals⟩ := hsame w (by rw [hrun]; rfl)
    obtain rfl := Option.some_inj.mp h
    refine ⟨hfiles, ?_⟩
    show s.signals + (signals w.trace).length = s.signals
    rw [hsignals]
    rfl
  · next w hrun =>
    obtain ⟨hfiles, -⟩ := hsame w (by rw [hrun]; rfl)
    obtain rfl := Option.some_inj.mp h
    exact ⟨hfiles, rfl⟩
  · next w hrun =>
    obtain ⟨hfiles, -⟩ := hsame w (by rw [hrun]; rfl)
    obtain rfl := Option.some_inj.mp h
    exact ⟨hfiles, rfl⟩
  · cases h

/-- A write that gets its memory dies before it has touched the file, or it waits with the file
    empty, or it stores its packet and sends a signal. -/
theorem resume_write (hcall : t.call = .write) (hm : t.env.mallocOk = true)
    (h : resume s t received = some s') :
    (t.env.fopenOk = false ∧ s'.files = Function.update s.files t.file t.old ∧ s'.phase = .dead ∧
      s'.signals = s.signals) ∨
    (t.env.fopenOk = true ∧ received = [] ∧
      s'.files = Function.update s.files t.file (some []) ∧ s'.phase = .transferring t [] ∧
      s'.signals = s.signals) ∨
    (t.env.fopenOk = true ∧ ∃ r rest, received = r :: rest ∧
      s'.files = Function.update s.files t.file (some (storedOf t.env r)) ∧
      s'.phase = .listening ∧ s'.signals = s.signals + 1) := by
  rw [resume, Transfer.run, hcall] at h
  cases hf : t.env.fopenOk with
  | false =>
    left
    rw [tftpProcessWrite_fopen_fails hf] at h
    obtain rfl := Option.some_inj.mp h
    exact ⟨rfl, rfl, rfl, rfl⟩
  | true =>
    right
    rcases @write_cases t.env t.buffer t.old received hf hm with
      ⟨rfl, w, hrun, hdisk, -⟩ | ⟨r, rest, rfl, hrun | ⟨w, hrun, hdisk, hsignals, -⟩⟩
    · simp only [hrun] at h
      obtain rfl := Option.some_inj.mp h
      exact Or.inl ⟨rfl, rfl, by rw [← hdisk]; rfl, rfl, rfl⟩
    · simp only [hrun] at h
      cases h
    · simp only [hrun] at h
      obtain rfl := Option.some_inj.mp h
      refine Or.inr ⟨rfl, r, rest, rfl, by rw [← hdisk]; rfl, rfl, ?_⟩
      show s.signals + (signals w.trace).length = _
      rw [hsignals]

/-- A request is passed over, or a transfer starts. -/
theorem requestStep_cases {d : List UInt8} {sockets : Sockets} {fileName : List UInt8} {env : Env}
    {spare : Bool} (h : requestStep resolve s d sockets fileName env spare = some s') :
    s.phase = .listening ∧
      ((s'.files = s.files ∧ s'.phase = .listening ∧ s'.signals = s.signals) ∨
        ∃ call file, resume { s with tftpRecvBuffer := recvRequest s.tftpRecvBuffer d }
          ⟨call, file, env, spare, recvRequest s.tftpRecvBuffer d, s.files file⟩ [] = some s') := by
  rw [requestStep] at h
  split at h
  · next hphase =>
    refine ⟨hphase, ?_⟩
    split at h
    · obtain rfl := Option.some_inj.mp h
      exact Or.inl ⟨rfl, hphase, rfl⟩
    · obtain ⟨action, -, h⟩ := Option.bind_eq_some_iff.mp h
      cases action with
      | read fileName => exact Or.inr ⟨.read, _, h⟩
      | write fileName => exact Or.inr ⟨.write, _, h⟩
      | error err =>
        obtain rfl := Option.some_inj.mp h
        exact Or.inl ⟨rfl, hphase, rfl⟩
      | nothing =>
        obtain rfl := Option.some_inj.mp h
        exact Or.inl ⟨rfl, hphase, rfl⟩
  · cases h

theorem receiveStep_cases {r : Recv} (h : receiveStep s r = some s') :
    ∃ t received, s.phase = .transferring t received ∧ resume s t (received ++ [r]) = some s' := by
  rw [receiveStep] at h
  split at h
  · next t received hphase => exact ⟨t, received, hphase, h⟩
  · cases h

end Steps

/-! ## An upload -/

section Upload

variable {resolve : List UInt8 → F} {s : State F} {env : Env} {name : List UInt8}

/-- A write request that decodes: the server opens the file and waits. -/
theorem request_write {d fileName : List UInt8} (hphase : s.phase = .listening)
    (hbuffer : s.tftpRecvBuffer.length = tftpRecvBufferLen) (hd : d ≠ []) (hdec : Decodes d)
    (hreq : requestOf d = .write name) (hlen : fileName.length = fileNameLen)
    (hf : env.fopenOk = true) (hm : env.mallocOk = true) (spare : Bool) :
    ∃ s' t, requestStep resolve s d ⟨true, true⟩ fileName env spare = some s' ∧
      s'.files = Function.update s.files (resolve name) (some []) ∧ s'.phase = .transferring t [] ∧
      t.call = .write ∧ t.file = resolve name ∧ t.env = env ∧ s'.signals = s.signals := by
  have haction := hdec s.tftpRecvBuffer fileName hbuffer hlen
  rw [hreq] at haction
  obtain ⟨action, hprocess, hwrite⟩ := Option.map_eq_some_iff.mp haction
  cases action with
  | write array =>
    obtain rfl : array.takeWhile (· != 0) = name := Request.write.inj hwrite
    simp only [requestStep, hphase, if_neg hd, hprocess, Option.bind_eq_bind, Option.bind_some,
      resume, Transfer.run, tftpProcessWrite_waits hf hm]
    exact ⟨_, _, rfl, rfl, rfl, rfl, rfl, rfl, rfl⟩
  | _ => cases hwrite

/-- The packet of a write comes in: the file is stored, and the parent signalled. -/
theorem receive_write {t : Transfer F} {r : Recv} (hphase : s.phase = .transferring t [])
    (hcall : t.call = .write) (hf : t.env.fopenOk = true) (hm : t.env.mallocOk = true)
    (hroom : 0 < t.env.fwriteRoom) :
    ∃ s', receiveStep s r = some s' ∧
      s'.files = Function.update s.files t.file (some (storedOf t.env r)) ∧
      s'.phase = .listening ∧ s'.signals = s.signals + 1 := by
  have hrun := @tftpProcessWrite_returns t.env t.buffer t.old [] r hf hm fun _ => Or.inr hroom
  have hstep : ∃ s', receiveStep s r = some s' := by
    simp only [receiveStep, hphase, List.nil_append, resume, Transfer.run, hcall, hrun]
    exact ⟨_, rfl⟩
  obtain ⟨s', hs'⟩ := hstep
  refine ⟨s', hs', ?_⟩
  rw [receiveStep, hphase] at hs'
  rcases resume_write hcall hm hs' with ⟨hno, -⟩ | ⟨-, hnil, -⟩ | ⟨-, r', rest, hr, hstored⟩
  · rw [hf] at hno
    cases hno
  · cases hnil
  · cases hr
    exact hstored

/-- Of a packet with less than a block everything is stored, of a full block nothing. -/
theorem storedOf_data {text : List UInt8} (hwrite : 512 ≤ env.fwriteRoom)
    (hflush : 512 ≤ env.flushRoom) :
    storedOf env (.packet (dataPacket 1 (text.take 512)))
      = if text.length < 512 then text else [] := by
  have hlen : (dataPacket 1 (text.take 512)).length = 4 + min 512 text.length := by
    rw [dataPacket_eq, List.length_append, List.length_take]
    rfl
  have hcond : (dataPacket 1 (text.take 512)).length < 516 ↔ text.length < 512 := by
    rw [hlen]
    omega
  rw [storedOf]
  by_cases hshort : text.length < 512
  · have htext : text.take 512 = text := List.take_of_length_le (by omega)
    rw [htext] at hlen hcond
    have hone : tftpExtractBlock (dataPacket 1 text) = 1 := tftpExtractBlock_dataPacket 1 text
    have hfits : (dataPacket 1 text).length ≤ tftpRecvBufferLen := by
      have hmin := Nat.min_le_left 512 text.length
      rw [hlen]
      exact Nat.le_trans (Nat.add_le_add_left hmin 4) (by decide)
    have hdata : recvData (dataPacket 1 text) = text := by
      rw [recvData, List.take_of_length_le hfits, dataPacket_eq]
      rfl
    have hall : text.take env.fwriteRoom = text := List.take_of_length_le (by omega)
    rw [htext, recvBytes, if_pos (hcond.mpr hshort), if_pos hshort, written, if_pos hone, hdata,
      hall, List.take_of_length_le (by omega)]
  · rw [recvBytes, if_neg fun h => hshort (hcond.mp h), if_neg hshort]

end Upload

/-! ## The buffer -/

/-- The buffer has its size, and had it when the transfer was called. -/
structure Sized (s : State F) : Prop where
  buffer : s.tftpRecvBuffer.length = tftpRecvBufferLen
  called : ∀ t received, s.phase = .transferring t received →
    t.buffer.length = tftpRecvBufferLen

section Buffer

variable {resolve : List UInt8 → F} {s s' : State F}

theorem recvRequest_length {buffer : List UInt8} (h : buffer.length = tftpRecvBufferLen)
    (d : List UInt8) : (recvRequest buffer d).length = tftpRecvBufferLen := by
  have hlen : (d.take tftpRecvBufferLen).length ≤ tftpRecvBufferLen := List.length_take_le _ _
  rw [recvRequest, splice_length]
  · exact h
  · rw [h]
    omega

theorem resume_sized {t : Transfer F} {received : List Recv}
    (hbuffer : t.buffer.length = tftpRecvBufferLen) (hs : resume s t received = some s') :
    Sized s' := by
  obtain ⟨w, hend, -, hsame⟩ := resume_cases hs
  refine ⟨?_, fun t' received' hphase => ?_⟩
  · rw [hsame]
    rcases (t.run_end hend).2 with heq | hlen
    · rw [heq]
      exact hbuffer
    · exact hlen
  · rw [(resume_waits hs hphase).1]
    exact hbuffer

theorem requestStep_sized {d : List UInt8} {sockets : Sockets} {fileName : List UInt8} {env : Env}
    {spare : Bool} (h : Sized s) (hs : requestStep resolve s d sockets fileName env spare = some s') :
    Sized s' := by
  have hlen := recvRequest_length h.buffer d
  rw [requestStep] at hs
  split at hs
  · next hphase =>
    have hidle : ∀ buffer : List UInt8, buffer.length = tftpRecvBufferLen →
        Sized { s with tftpRecvBuffer := buffer } := fun buffer hbuffer =>
      ⟨hbuffer, fun t received ht => by rw [hphase] at ht; cases ht⟩
    split at hs
    · obtain rfl := Option.some_inj.mp hs
      exact h
    · obtain ⟨action, -, hs⟩ := Option.bind_eq_some_iff.mp hs
      cases action with
      | read fileName => exact resume_sized hlen hs
      | write fileName => exact resume_sized hlen hs
      | error err =>
        obtain rfl := Option.some_inj.mp hs
        exact hidle _ hlen
      | nothing =>
        obtain rfl := Option.some_inj.mp hs
        exact hidle _ hlen
  · cases hs

theorem step_sized {a : Act} (h : Sized s) (hs : step resolve s a = some s') : Sized s' := by
  cases a with
  | request d sockets fileName env spare => exact requestStep_sized h hs
  | receive r =>
    obtain ⟨t, received, hphase, hrun⟩ := receiveStep_cases hs
    exact resume_sized (h.called t received hphase) hrun

omit [DecidableEq F] in
theorem sized_init (files : F → Option (List UInt8)) : Sized (initState files) :=
  ⟨List.length_replicate, fun _ _ hphase => by cases hphase⟩

end Buffer

/-! ## Runs -/

/-- The file is as it was at the start, or has less than 512 bytes. -/
def Small (files : F → Option (List UInt8)) (file : F) (content : Option (List UInt8)) : Prop :=
  content = files file ∨ ∃ bytes, content = some bytes ∧ bytes.length < 512

/-- Every file is, and so is the one that a transfer found. -/
structure AllSmall (files : F → Option (List UInt8)) (s : State F) : Prop where
  file : ∀ file, Small files file (s.files file)
  old : ∀ t received, s.phase = .transferring t received → Small files t.file t.old

section Runs

variable {resolve : List UInt8 → F} {files : F → Option (List UInt8)} {s s' : State F}

theorem AllSmall.resume {t : Transfer F} {received : List Recv} (h : AllSmall files s)
    (hold : Small files t.file t.old) (hs : Tftpd.resume s t received = some s') :
    AllSmall files s' := by
  obtain ⟨w, hend, hfiles, -⟩ := resume_cases hs
  have hdisk : Small files t.file w.disk := by
    rcases (t.run_end hend).1 with heq | hsmall
    · rw [heq]
      exact hold
    · exact Or.inr hsmall
  refine ⟨fun file => ?_, fun t' received' hphase => ?_⟩
  · rw [hfiles]
    by_cases hfile : file = t.file
    · subst hfile
      rw [Function.update_self]
      exact hdisk
    · rw [Function.update_of_ne hfile]
      exact h.file file
  · rw [(resume_waits hs hphase).1]
    exact hold

theorem step_allSmall {a : Act} (h : AllSmall files s) (hs : step resolve s a = some s') :
    AllSmall files s' := by
  cases a with
  | request d sockets fileName env spare =>
    obtain ⟨hphase, ⟨hfiles, hphase', -⟩ | ⟨call, file, hrun⟩⟩ := requestStep_cases hs
    · refine ⟨fun file => ?_, fun t received ht => ?_⟩
      · rw [hfiles]
        exact h.file file
      · rw [hphase'] at ht
        cases ht
    · have hbuffer : AllSmall files { s with tftpRecvBuffer := recvRequest s.tftpRecvBuffer d } :=
        ⟨h.file, h.old⟩
      exact hbuffer.resume (h.file file) hrun
  | receive r =>
    obtain ⟨t, received, hphase, hrun⟩ := receiveStep_cases hs
    exact h.resume (h.old t received hphase) hrun

/-- In every state that the server reaches, whatever datagrams come in, whatever files the names
    stand for and whatever its calls return, each file is as it was at the start or has less than
    512 bytes. -/
theorem files_small (h : Reachable (step resolve) (fun _ _ => True) (initState files) s)
    (file : F) :
    s.files file = files file ∨ ∃ content, s.files file = some content ∧ content.length < 512 := by
  have hinv : AllSmall files s := by
    refine h.invariant ⟨fun file => Or.inl rfl, fun t received hphase => ?_⟩ ?_
    · cases hphase
    · intro s a s' hsmall _ hs
      exact step_allSmall hsmall hs
  exact hinv.file file

/-- A write request for the file `a`, and its packet. -/
def writeRun : List Act :=
  [.request [0x00, 0x02, 0x61, 0x00] ⟨true, true⟩ (List.replicate 30 0)
      ⟨true, true, 4096, 4096⟩ true,
    .receive (.packet [0x00, 0x03, 0x00, 0x01, 0x31])]

theorem files_small_writeRun :
    ∃ s : State (List UInt8), exec (step id) (initState fun _ => none) writeRun = some s ∧
      ∃ content, s.files [0x61] = some content ∧ content.length < 512 := by
  have hstored : (exec (step id) (initState fun _ => none) writeRun).bind
      (fun s : State (List UInt8) => s.files [0x61]) = some [0x31] := by
    decide +kernel
  obtain ⟨s, hrun, hfile⟩ := Option.bind_eq_some_iff.mp hstored
  refine ⟨s, hrun, ?_⟩
  rcases files_small (Reachable.init.exec (fun _ _ _ => trivial) hrun) [0x61] with heq | hsmall
  · rw [hfile] at heq
    cases heq
  · exact hsmall

end Runs

end Gateway.TFTPServer.Tftpd
