/-
  Gateway.TFTPServer.Store

  The TFTP server as a store: a download gives what the last upload to its file left.

  A file changes only while a request to write it is carried out (`step_keeps`), under
  whatever name, and which request that is can be seen where it comes in: its datagram,
  over what earlier ones left in the buffer.  So whatever else comes in between an upload
  and a download for which the calls of the server succeed, other transfers, their packets
  and datagrams that are no requests, the first block of the download is what was uploaded,
  and since an upload never leaves a full block, its ACK ends the transfer
  (`download_gives_upload`).  Other processes that write files are not modelled.
-/

import Gateway.TFTPServer.Tftpd

namespace Gateway.TFTPServer.Store

open Gateway.Lib.BlockMem Gateway.Lib.BlockTransfer Gateway.Lib.CString Gateway.Lib.Transition
open Gateway.TFTPServer.TftpUtils Gateway.TFTPServer.TftpServer
open Gateway.TFTPServer.WriteSpec Gateway.TFTPServer.ReadSpec Gateway.TFTPServer.TableUpdate
open Gateway.TFTPServer.RequestDecode Gateway.TFTPServer.Tftpd

variable {F : Type} [DecidableEq F] {resolve : List UInt8 → F}

/-! ## Which steps write a file -/

/-- What a transfer was asked for. -/
def requestFor : Call → List UInt8 → Request
  | .read, name => .read name
  | .write, name => .write name

/-- The action is a request that is carried out as a write of the file, under one of its names. -/
def Rewrites (resolve : List UInt8 → F) (file : F) (s : State F) : Act → Prop
  | .request d sockets fileName _ _ => d ≠ [] ∧ ∃ name, resolve name = file ∧
    (processTftpRequest sockets fileName (recvRequest s.tftpRecvBuffer d)).map Action.request
      = some (.write name)
  | .receive _ => False

/-- The file has this content, and no transfer that runs writes it. -/
structure Keeps (file : F) (content : Option (List UInt8)) (s : State F) : Prop where
  holds : s.files file = content
  reads : ∀ t received, s.phase = .transferring t received → t.file = file →
    t.call = .read ∧ t.old = content

section Steps

variable {file : F} {content : Option (List UInt8)} {s s' : State F}

/-- A request that starts a transfer says which one. -/
theorem requestStep_call {d : List UInt8} {sockets : Sockets} {fileName : List UInt8} {env : Env}
    {spare : Bool} (h : requestStep resolve s d sockets fileName env spare = some s') :
    (s'.files = s.files ∧ s'.phase = .listening) ∨
      ∃ call name, d ≠ [] ∧
        (processTftpRequest sockets fileName (recvRequest s.tftpRecvBuffer d)).map Action.request
          = some (requestFor call name) ∧
        resume { s with tftpRecvBuffer := recvRequest s.tftpRecvBuffer d }
          ⟨call, resolve name, env, spare, recvRequest s.tftpRecvBuffer d, s.files (resolve name)⟩ []
            = some s' := by
  rw [requestStep] at h
  split at h
  · next hphase =>
    split at h
    · obtain rfl := Option.some_inj.mp h
      exact Or.inl ⟨rfl, hphase⟩
    · next hd =>
      obtain ⟨action, hprocess, h⟩ := Option.bind_eq_some_iff.mp h
      rw [hprocess]
      cases action with
      | read fileName => exact Or.inr ⟨.read, _, hd, rfl, h⟩
      | write fileName => exact Or.inr ⟨.write, _, hd, rfl, h⟩
      | error err =>
        obtain rfl := Option.some_inj.mp h
        exact Or.inl ⟨rfl, hphase⟩
      | nothing =>
        obtain rfl := Option.some_inj.mp h
        exact Or.inl ⟨rfl, hphase⟩
  · cases h

/-- A transfer that does not write the file leaves it alone. -/
theorem resume_keeps {t : Transfer F} {received : List Recv} (hfile : s.files file = content)
    (hcall : t.file = file → t.call = .read ∧ t.old = content)
    (hs : resume s t received = some s') : Keeps file content s' := by
  obtain ⟨w, hend, hfiles, -⟩ := resume_cases hs
  refine ⟨?_, fun t' received' hphase => ?_⟩
  · rw [hfiles]
    by_cases hsame : t.file = file
    · obtain ⟨hread, hold⟩ := hcall hsame
      rw [Transfer.run, hread] at hend
      obtain ⟨hdisk, -, -⟩ := read_end hend
      rw [hsame, Function.update_self, hdisk, hold]
    · rw [Function.update_of_ne (Ne.symm hsame)]
      exact hfile
  · rw [(resume_waits hs hphase).1]
    exact hcall

/-- Only a request to write the file changes it. -/
theorem step_keeps {a : Act} (h : Keeps file content s) (ha : ¬ Rewrites resolve file s a)
    (hs : step resolve s a = some s') : Keeps file content s' := by
  cases a with
  | request d sockets fileName env spare =>
    rcases requestStep_call hs with ⟨hfiles, hphase⟩ | ⟨call, name, hd, hrequest, hrun⟩
    · refine ⟨?_, fun t received ht => ?_⟩
      · rw [hfiles]
        exact h.holds
      · rw [hphase] at ht
        cases ht
    · refine resume_keeps h.holds (fun hname => ?_) hrun
      obtain rfl : resolve name = file := hname
      cases call with
      | read => exact ⟨rfl, h.holds⟩
      | write => exact absurd ⟨hd, name, rfl, hrequest⟩ ha
  | receive r =>
    obtain ⟨t, received, hphase, hrun⟩ := receiveStep_cases hs
    exact resume_keeps h.holds (h.reads t received hphase) hrun

end Steps

/-! ## A download -/

/-- What a transfer has sent. -/
def sent (t : Transfer F) (received : List Recv) : List (List UInt8) :=
  ((endWorld (t.run received)).map fun w => packetsOut w.trace).getD []

section Download

variable {s : State F} {env : Env} {name file : List UInt8}

/-- A read request that decodes: the server sends the first block and waits. -/
theorem request_read {d fileName : List UInt8} (hphase : s.phase = .listening)
    (hbuffer : s.tftpRecvBuffer.length = tftpRecvBufferLen) (hd : d ≠ []) (hdec : Decodes d)
    (hreq : requestOf d = .read name) (hlen : fileName.length = fileNameLen)
    (hfile : s.files (resolve name) = some file) (hf : env.fopenOk = true) (hm : env.mallocOk = true)
    (spare : Bool) :
    ∃ s' t, requestStep resolve s d ⟨true, true⟩ fileName env spare = some s' ∧
      s'.phase = .transferring t [] ∧ s'.files = s.files ∧
      t.call = .read ∧ t.file = resolve name ∧ t.env = env ∧ t.spare = spare ∧ t.old = some file := by
  have haction := hdec s.tftpRecvBuffer fileName hbuffer hlen
  rw [hreq] at haction
  obtain ⟨action, hprocess, hread⟩ := Option.map_eq_some_iff.mp haction
  cases action with
  | read array =>
    obtain rfl : array.takeWhile (· != 0) = name := Request.read.inj hread
    simp only [requestStep, hphase, if_neg hd, hprocess, Option.bind_eq_bind, Option.bind_some,
      resume, Transfer.run, hfile, tftpProcessRead_waits hf hm]
    refine ⟨_, _, rfl, rfl, ?_, rfl, rfl, rfl, rfl, rfl⟩
    show Function.update s.files _ (some file) = s.files
    rw [← hfile, Function.update_eq_self]
  | _ => cases hread

omit [DecidableEq F] in
/-- While a download waits, it has sent the first block. -/
theorem sent_waiting {t : Transfer F} (hcall : t.call = .read) (hold : t.old = some file)
    (hf : t.env.fopenOk = true) (hm : t.env.mallocOk = true) :
    sent t [] = [dataPacket 1 (file.take 512)] := by
  rw [sent, Transfer.run, hcall, hold]
  simp only [tftpProcessRead_waits hf hm]
  rfl

/-- The ACK of the first block ends the transfer, and nothing more is sent. -/
theorem receive_ack {t : Transfer F} {ack : List UInt8} (hphase : s.phase = .transferring t [])
    (hcall : t.call = .read) (hold : t.old = some file) (hf : t.env.fopenOk = true)
    (hm : t.env.mallocOk = true) (hspare : t.spare = true) (hack : AcksFirst ack) :
    (∃ s', receiveStep s (.packet ack) = some s' ∧ s'.phase = .listening ∧
      s'.files = Function.update s.files t.file (some file) ∧ s'.signals = s.signals) ∧
    sent t [.packet ack] = [dataPacket 1 (file.take 512)] := by
  have hrun : t.run [.packet ack]
      = .ok (1, ended (answered file (.packet ack) []) file (decide (file.length < 512))) := by
    rw [Transfer.run, hcall, hold]
    exact (tftpProcessRead_answered hf hm (Or.inl hspare)).trans
      (@tftpReadAck_ack _ _ _ (.packet ack) hack)
  constructor
  · simp only [receiveStep, hphase, List.nil_append, resume, hrun]
    exact ⟨_, rfl, rfl, rfl, rfl⟩
  · rw [sent, hrun]
    rfl

/-- A client that takes the block has the file, when it is shorter than a block. -/
theorem fileOf_block (hlen : file.length < 512) :
    fileOf [dataPacket 1 (file.take 512)] = { last := 1, data := file, done := true } := by
  have hblock : blockOf (dataPacket 1 file) = some { num := 1, data := file } :=
    @blockOf_dataPacket { num := 1, data := file } (show 1 < 65536 by decide)
  have hdone : decide (file.length < tftpDataLenMax) = true := decide_eq_true hlen
  rw [List.take_of_length_le (Nat.le_of_lt hlen), fileOf, List.filterMap_cons_some hblock]
  show Receiver.accept tftpDataLenMax 65536 Receiver.init { num := 1, data := file } = _
  rw [Receiver.accept, if_pos ⟨rfl, rfl⟩, hdone]
  rfl

end Download

/-! ## Runs -/

section Runs

variable {files : F → Option (List UInt8)} {s : State F} {name : List UInt8}

theorem reachable_sized (h : Reachable (step resolve) (fun _ _ => True) (initState files) s) :
    Sized s :=
  h.invariant (sized_init files) fun _ _ _ hsized _ hs => step_sized hsized hs

theorem reachable_keeps {file : F} {content : Option (List UInt8)} {s s' : State F}
    (hs : Keeps file content s) (hsized : Sized s)
    (h : Reachable (step resolve) (fun s a => ¬ Rewrites resolve file s a) s s') :
    Keeps file content s' ∧ Sized s' := by
  refine @Reachable.invariant _ _ _ _ _ _ (fun s => Keeps file content s ∧ Sized s) h
    ⟨hs, hsized⟩ ?_
  rintro s a s' ⟨hkeeps, hsized⟩ ha hs
  exact ⟨step_keeps hkeeps ha hs, step_sized hsized hs⟩

/-- What an upload leaves under its name. -/
def stored (text : List UInt8) : List UInt8 := if text.length < 512 then text else []

theorem stored_length (text : List UInt8) : (stored text).length < 512 := by
  rw [stored]
  split
  · next hlen => exact hlen
  · exact Nat.zero_lt_succ _

/-- A request that is complete and asks for something. -/
structure Asks (d : List UInt8) (request : Request) : Prop where
  length_le : d.length ≤ tftpRecvBufferLen
  complete : Complete d
  request : requestOf d = request

theorem Asks.ne_nil {d : List UInt8} {request : Request} (h : Asks d request) : d ≠ [] := by
  rintro rfl
  obtain ⟨hlen, -⟩ := h.complete
  cases hlen

/-- An upload: the request to write and the first block. -/
def upload (d fileName text : List UInt8) (env : Env) (spare : Bool) : List Act :=
  [.request d ⟨true, true⟩ fileName env spare,
    .receive (.packet (dataPacket 1 (text.take 512)))]

/-- An upload from a state in which the server listens. -/
theorem upload_stores (hsized : Sized s) (hlisten : s.phase = .listening)
    {d fileName : List UInt8} {env : Env} (spare : Bool) (hd : Asks d (.write name))
    (hlen : fileName.length = fileNameLen) (hf : env.fopenOk = true) (hm : env.mallocOk = true)
    (hwrite : 512 ≤ env.fwriteRoom) (hflush : 512 ≤ env.flushRoom) (text : List UInt8) :
    ∃ s', exec (step resolve) s (upload d fileName text env spare) = some s' ∧
      Keeps (resolve name) (some (stored text)) s' ∧ Sized s' ∧ s'.phase = .listening := by
  obtain ⟨s₁, t, hs₁, hfiles₁, hphase₁, hcall, hname, henv, -⟩ :=
    @request_write _ _ resolve _ _ _ _ _ hlisten hsized.buffer hd.ne_nil
      (decodes_of_complete hd.length_le hd.complete) hd.request hlen hf hm spare
  obtain ⟨s₂, hs₂, hfiles₂, hphase₂, -⟩ :=
    @receive_write _ _ s₁ t (.packet (dataPacket 1 (text.take 512))) hphase₁ hcall (by rw [henv, hf])
      (by rw [henv, hm]) (by rw [henv]; omega)
  rw [hname, henv, storedOf_data hwrite hflush] at hfiles₂
  have hsized₁ : Sized s₁ := requestStep_sized hsized hs₁
  have hsized₂ : Sized s₂ := @step_sized _ _ resolve s₁ s₂ (.receive _) hsized₁ hs₂
  refine ⟨s₂, ?_, ⟨?_, fun t received ht => ?_⟩, hsized₂, hphase₂⟩
  · simp only [upload, exec, step, hs₁, hs₂]
  · rw [hfiles₂, Function.update_self]
    rfl
  · rw [hphase₂] at ht
    cases ht

/-- From every state in which the server listens: a complete request to upload `text`, for which
    `socket`, `bind`, `fopen`, `malloc`, `fwrite` and the flush of up to 512 bytes succeed, then any
    run without another write of the file that the name stands for, then a complete request to
    download it under one of its names, for which `socket`, `bind`, `fopen` and `malloc` succeed and
    `recvfrom` may write the sender's address behind `to`.  The server sends one block, which is the
    text if it has less than 512 bytes and empty otherwise, and its ACK ends the transfer; the
    client then has what was stored, and every file is as it was. -/
theorem download_gives_upload
    (h : Reachable (step resolve) (fun _ _ => True) (initState files) s)
    (hlisten : s.phase = .listening)
    {d fileName text : List UInt8} {env : Env} {spare : Bool} (hd : Asks d (.write name))
    (hlen : fileName.length = fileNameLen) (hf : env.fopenOk = true) (hm : env.mallocOk = true)
    (hwrite : 512 ≤ env.fwriteRoom) (hflush : 512 ≤ env.flushRoom) :
    ∃ s₁, exec (step resolve) s (upload d fileName text env spare) = some s₁ ∧
      s₁.phase = .listening ∧
      ∀ s₂, Reachable (step resolve) (fun s a => ¬ Rewrites resolve (resolve name) s a) s₁ s₂ →
        s₂.phase = .listening →
      ∀ name' d' fileName' env' ack, resolve name' = resolve name → Asks d' (.read name') →
        fileName'.length = fileNameLen → env'.fopenOk = true → env'.mallocOk = true →
        AcksFirst ack →
      ∃ s₃ t s₄, step resolve s₂ (.request d' ⟨true, true⟩ fileName' env' true) = some s₃ ∧
        s₃.phase = .transferring t [] ∧ sent t [] = [dataPacket 1 (stored text)] ∧
        step resolve s₃ (.receive (.packet ack)) = some s₄ ∧
        sent t [.packet ack] = sent t [] ∧
        fileOf (sent t [.packet ack]) = { last := 1, data := stored text, done := true } ∧
        s₄.phase = .listening ∧ s₄.files = s₂.files := by
  obtain ⟨s₁, hrun, hkeeps₁, hsized₁, hlisten₁⟩ :=
    upload_stores (reachable_sized h) hlisten spare hd hlen hf hm hwrite hflush text
  refine ⟨s₁, hrun, hlisten₁, fun s₂ h₂ hlisten₂ name' d' fileName' env' ack hsame hd' hlen' hf' hm'
    hack => ?_⟩
  obtain ⟨hkeeps₂, hsized₂⟩ := reachable_keeps hkeeps₁ hsized₁ h₂
  rw [← hsame] at hkeeps₂
  obtain ⟨s₃, t, hs₃, hphase₃, hfiles₃, hcall, hname, henv, hspare, hold⟩ :=
    request_read hlisten₂ hsized₂.buffer hd'.ne_nil
      (decodes_of_complete hd'.length_le hd'.complete) hd'.request hlen' hkeeps₂.holds hf' hm' true
  rw [← henv] at hf' hm'
  obtain ⟨⟨s₄, hs₄, hphase₄, hfiles₄, -⟩, hsent⟩ :=
    receive_ack hphase₃ hcall hold hf' hm' hspare hack
  have hwaiting := sent_waiting hcall hold hf' hm'
  have hblock := fileOf_block (stored_length text)
  have htake : (stored text).take 512 = stored text :=
    List.take_of_length_le (Nat.le_of_lt (stored_length text))
  refine ⟨s₃, t, s₄, hs₃, hphase₃, ?_, hs₄, ?_, ?_, hphase₄, ?_⟩
  · rw [hwaiting, htake]
  · rw [hsent, hwaiting]
  · rw [hsent, hblock]
  · rw [hfiles₄, hfiles₃, hname, ← hkeeps₂.holds, Function.update_eq_self]

/-- A datagram with another opcode is answered with an error. -/
theorem unknown_refused (buffer : List UInt8) :
    processTftpRequest ⟨true, true⟩ (List.replicate fileNameLen 0) (recvRequest buffer [0, 9])
      = some (.error .accessViolation) := by
  have hop : tftpDecodeOp (recvRequest buffer [0, 9]) = 9 :=
    Option.some_inj.mp (tftpDecodeOp_recv (by decide) (Nat.le_refl 2))
  rw [processTftpRequest, hop]
  rfl

/-- `./` in front of a name changes nothing. -/
def resolveDot : List UInt8 → List UInt8
  | 0x2E :: 0x2F :: name => name
  | name => name

/-- The file `a` is uploaded, and downloaded as `./a` behind a datagram that is no request. -/
theorem download_gives_upload_one : ∃ s₁ s₂ s₃ t,
    exec (step resolveDot) (initState fun _ => none)
      (upload [0, 2, 0x61, 0] (List.replicate fileNameLen 0) [0x31] ⟨true, true, 4096, 4096⟩ true)
        = some s₁ ∧
      step resolveDot s₁ (.request [0, 9] ⟨true, true⟩ (List.replicate fileNameLen 0)
        ⟨true, true, 0, 0⟩ true) = some s₂ ∧
      step resolveDot s₂ (.request [0, 1, 0x2E, 0x2F, 0x61, 0] ⟨true, true⟩
        (List.replicate fileNameLen 0) ⟨true, true, 0, 0⟩ true) = some s₃ ∧
      s₃.phase = .transferring t [] ∧ sent t [] = [[0, 3, 0, 1, 0x31]] := by
  have hname : ∃ n, strlen ([0x61, 0] : List UInt8) = some n ∧ n + 1 ≤ fileNameLen :=
    ⟨1, rfl, by decide⟩
  have hname' : ∃ n, strlen ([0x2E, 0x2F, 0x61, 0] : List UInt8) = some n ∧ n + 1 ≤ fileNameLen :=
    ⟨3, rfl, by decide⟩
  obtain ⟨s₁, hrun, hlisten₁, hdownload⟩ := @download_gives_upload _ _ resolveDot (fun _ => none) _
    [0x61] .init rfl [0, 2, 0x61, 0] (List.replicate fileNameLen 0) [0x31] ⟨true, true, 4096, 4096⟩
    true ⟨by decide, ⟨by decide, Or.inr hname⟩, rfl⟩ List.length_replicate rfl rfl (by decide)
    (by decide)
  have hs₂ : step resolveDot s₁ (.request [0, 9] ⟨true, true⟩ (List.replicate fileNameLen 0)
      ⟨true, true, 0, 0⟩ true)
        = some { s₁ with tftpRecvBuffer := recvRequest s₁.tftpRecvBuffer [0, 9] } := by
    simp only [step, requestStep, hlisten₁, unknown_refused, reduceCtorEq, if_false,
      Option.bind_eq_bind, Option.bind_some]
  have hother : ¬ Rewrites resolveDot [0x61] s₁ (.request [0, 9] ⟨true, true⟩
      (List.replicate fileNameLen 0) ⟨true, true, 0, 0⟩ true) := by
    rintro ⟨-, name, -, hwrite⟩
    rw [unknown_refused] at hwrite
    cases hwrite
  obtain ⟨s₃, t, s₄, hs₃, hphase, hsent, -⟩ := hdownload _ (Reachable.init.step hother hs₂) hlisten₁
    [0x2E, 0x2F, 0x61] [0, 1, 0x2E, 0x2F, 0x61, 0] (List.replicate fileNameLen 0)
    ⟨true, true, 0, 0⟩ [0, 4, 0, 1] rfl ⟨by decide, ⟨by decide, Or.inr hname'⟩, rfl⟩
    List.length_replicate rfl rfl (by decide)
  exact ⟨s₁, _, s₃, t, hrun, hs₂, hs₃, hphase, hsent⟩

end Runs

end Gateway.TFTPServer.Store
