/-
  Gateway.TFTPServer.RequestDecode

  How the server decodes a request on port 69 (`tftpd_init` and
  `process_tftp_request` of `TFTPServer/tftpserver.c`).

  The datagram is received over whatever `tftpRecvBuffer` held before, and its length
  is not passed on.  A datagram that is too short, or whose name has no NUL, is
  completed with what is left of the earlier one; a name that is too long leaves
  the array `FileName`.  `requestOf` is what the datagram alone says.
-/

import Gateway.TFTPServer.TftpServer

namespace Gateway.TFTPServer.RequestDecode

open Gateway.Lib.ByteWindow Gateway.Lib.CString
open Gateway.TFTPServer.TftpUtils Gateway.TFTPServer.TftpServer

/-! ## The model -/

/-- The size of `FileName`. -/
def fileNameLen : Nat := 30

/-- Whether `socket` and `bind` succeed. -/
structure Sockets where
  socketOk : Bool
  bindOk : Bool
  deriving DecidableEq, Repr

/-- What `process_tftp_request` goes on with: a transfer of the file that is named in the array,
    an error packet, or nothing. -/
inductive Action where
  | read (fileName : List UInt8)
  | write (fileName : List UInt8)
  | error (err : TftpErrorcode)
  | nothing
  deriving DecidableEq, Repr

/-- `process_tftp_request`, up to the call of the transfer.  `fileName` is what the array of that
    name holds when it is entered. -/
def processTftpRequest (env : Sockets) (fileName pktBuf : List UInt8) : Option Action :=
  let op := tftpDecodeOp pktBuf
  if env.socketOk = false then some (.error .notDefined)
  else if env.bindOk = false then some .nothing
  else if op = TftpOpcode.rrq.code then
    (tftpExtractFilename fileName pktBuf).map .read
  else if op = TftpOpcode.wrq.code then
    (tftpExtractFilename fileName pktBuf).map .write
  else some (.error .accessViolation)

/-- The `recvfrom` of `tftpd_init`: the datagram overwrites the start of the buffer. -/
def recvRequest (tftpRecvBuffer d : List UInt8) : List UInt8 :=
  splice tftpRecvBuffer 0 (d.take tftpRecvBufferLen)

/-! ## What a datagram asks for -/

/-- A decoded request. -/
inductive Request where
  | read (name : List UInt8)
  | write (name : List UInt8)
  | refused
  deriving DecidableEq, Repr

/-- The string at the front, if its NUL is there and both fit into `FileName`. -/
def nameOf (l : List UInt8) : Option (List UInt8) :=
  match strlen l with
  | some n => if n + 1 ≤ fileNameLen then some (l.take n) else none
  | none => none

/-- What the bytes of the datagram ask for. -/
def requestOf (d : List UInt8) : Request :=
  if d[1]? = some TftpOpcode.rrq.code then
    match nameOf (d.drop 2) with
    | some name => .read name
    | none => .refused
  else if d[1]? = some TftpOpcode.wrq.code then
    match nameOf (d.drop 2) with
    | some name => .write name
    | none => .refused
  else .refused

/-- The request that an action carries out. -/
def Action.request : Action → Request
  | .read fileName => .read (fileName.takeWhile (· != 0))
  | .write fileName => .write (fileName.takeWhile (· != 0))
  | .error _ => .refused
  | .nothing => .refused

/-- The server does what the datagram asks for, whatever its buffers held before. -/
def Decodes (d : List UInt8) : Prop :=
  ∀ tftpRecvBuffer fileName : List UInt8, tftpRecvBuffer.length = tftpRecvBufferLen →
    fileName.length = fileNameLen →
    (processTftpRequest ⟨true, true⟩ fileName (recvRequest tftpRecvBuffer d)).map Action.request
      = some (requestOf d)

/-- Without a socket of its own the server starts no transfer. -/
theorem processTftpRequest_noSocket {env : Sockets} (h : env.socketOk = false ∨ env.bindOk = false)
    (fileName pktBuf : List UInt8) :
    (processTftpRequest env fileName pktBuf).map Action.request = some .refused := by
  rw [processTftpRequest]
  by_cases hsocket : env.socketOk = false
  · rw [if_pos hsocket]
    rfl
  · rw [if_neg hsocket, if_pos (h.resolve_left hsocket)]
    rfl

/-! ## The buffer behind the datagram -/

section Buffer

variable {buffer d fileName : List UInt8}

theorem recvRequest_eq (hd : d.length ≤ tftpRecvBufferLen) :
    recvRequest buffer d = d ++ buffer.drop d.length := by
  rw [recvRequest, List.take_of_length_le hd, splice, List.take_zero, List.nil_append, Nat.zero_add]

/-- The opcode is that of the datagram, or what was there before. -/
theorem tftpDecodeOp_recv (hd : d.length ≤ tftpRecvBufferLen) (h2 : 2 ≤ d.length) :
    some (tftpDecodeOp (recvRequest buffer d)) = d[1]? := by
  rw [recvRequest_eq hd, tftpDecodeOp, List.getD_eq_getElem?_getD,
    List.getElem?_append_left (by omega), List.getElem?_eq_getElem (by omega)]
  rfl

/-- The text behind the opcode starts with that of the datagram. -/
theorem drop_recvRequest (hd : d.length ≤ tftpRecvBufferLen) (h2 : 2 ≤ d.length) :
    (recvRequest buffer d).drop 2 = d.drop 2 ++ buffer.drop d.length := by
  rw [recvRequest_eq hd, List.drop_append_of_le_length h2]

theorem strlen_append {l rest : List UInt8} {n : Nat} (h : strlen l = some n) :
    strlen (l ++ rest) = some n := by
  rw [strlen] at h ⊢
  rw [List.findIdx?_append, h]
  rfl

theorem strlen_lt {l : List UInt8} {n : Nat} (h : strlen l = some n) : n < l.length :=
  (List.findIdx?_eq_some_iff_findIdx_eq.mp h).1

/-- In front of the NUL there is none. -/
theorem not_mem_take_strlen {l : List UInt8} {n : Nat} (h : strlen l = some n) : 0 ∉ l.take n := by
  intro hmem
  obtain ⟨i, hi, hb⟩ := List.mem_iff_getElem.mp hmem
  rw [List.length_take] at hi
  obtain ⟨hlt, -, hbefore⟩ := List.findIdx?_eq_some_iff_getElem.mp h
  have hno := hbefore i (by omega)
  rw [List.getElem_take] at hb
  rw [hb] at hno
  exact hno rfl

/-- A name that was found in the datagram is the same in the buffer. -/
theorem nameOf_append {l rest name : List UInt8} (h : nameOf l = some name) :
    nameOf (l ++ rest) = some name := by
  unfold nameOf at h
  split at h
  · next n hn =>
    have hlt := strlen_lt hn
    rw [nameOf, strlen_append hn]
    simp only [List.take_append_of_le_length (Nat.le_of_lt hlt)]
    exact h
  · cases h

end Buffer

/-! ## The transfer that is started -/

/-- The string that is copied to `FileName` is the name in the buffer; a name without a NUL or
    with no room is a fault. -/
theorem tftpExtractFilename_eq {fileName buf : List UInt8} (hlen : fileName.length = fileNameLen) :
    (tftpExtractFilename fileName buf).map (fun f => f.takeWhile (· != 0)) = nameOf (buf.drop 2) := by
  rw [tftpExtractFilename, nameOf]
  cases hn : strlen (buf.drop 2) with
  | none => rfl
  | some n =>
    have hlt := strlen_lt hn
    have hname := not_mem_take_strlen hn
    have hcopy : ((buf.drop 2).take n ++ [0]).length = n + 1 := by
      rw [List.length_append, List.length_take, List.length_singleton]
      omega
    simp only [Option.bind_eq_bind, Option.bind_some]
    by_cases hfit : n + 1 ≤ fileNameLen
    · have hnonnul : ∀ b ∈ (buf.drop 2).take n, (b != 0) = true := by
        intro b hb
        rw [bne_iff_ne]
        rintro rfl
        exact hname hb
      rw [if_pos hfit, putAt_eq (by omega), splice, List.take_zero, List.nil_append,
        List.append_assoc, Option.map_some, List.takeWhile_append_of_pos hnonnul,
        List.singleton_append, List.takeWhile_cons_of_neg (by decide), List.append_nil]
    · rw [if_neg hfit, putAt, if_neg (by omega)]
      rfl

/-- The request that is carried out, from the buffer. -/
def bufferRequest (pktBuf : List UInt8) : Option Request :=
  if tftpDecodeOp pktBuf = TftpOpcode.rrq.code then (nameOf (pktBuf.drop 2)).map .read
  else if tftpDecodeOp pktBuf = TftpOpcode.wrq.code then (nameOf (pktBuf.drop 2)).map .write
  else some .refused

theorem processTftpRequest_eq {fileName : List UInt8} (pktBuf : List UInt8)
    (hlen : fileName.length = fileNameLen) :
    (processTftpRequest ⟨true, true⟩ fileName pktBuf).map Action.request = bufferRequest pktBuf := by
  have hname := @tftpExtractFilename_eq fileName pktBuf hlen
  rw [processTftpRequest, if_neg (by decide), if_neg (by decide), bufferRequest, ← hname]
  split
  · rw [Option.map_map, Option.map_map]
    rfl
  split
  · rw [Option.map_map, Option.map_map]
    rfl
  · rfl

/-! ## The datagrams that are decoded -/

section Decode

variable {d : List UInt8}

/-- The datagram has an opcode, and it asks for no file or has a whole name that fits. -/
def Complete (d : List UInt8) : Prop :=
  2 ≤ d.length ∧
    ((d[1]? ≠ some TftpOpcode.rrq.code ∧ d[1]? ≠ some TftpOpcode.wrq.code) ∨
      ∃ n, strlen (d.drop 2) = some n ∧ n + 1 ≤ fileNameLen)

/-- A complete datagram decides alone. -/
theorem decodes_of_complete (hd : d.length ≤ tftpRecvBufferLen) (h : Complete d) : Decodes d := by
  obtain ⟨h2, hop⟩ := h
  intro buffer fileName hbuffer hfile
  have hcode := @tftpDecodeOp_recv buffer d hd h2
  rw [processTftpRequest_eq _ hfile, bufferRequest, drop_recvRequest hd h2]
  simp only [requestOf, ← hcode, Option.some_inj]
  rcases hop with ⟨hread, hwrite⟩ | ⟨n, hn, hfit⟩
  · rw [← hcode, ne_eq, Option.some_inj] at hread hwrite
    rw [if_neg hread, if_neg hwrite, if_neg hread, if_neg hwrite]
  · have hname : nameOf (d.drop 2) = some ((d.drop 2).take n) := by
      rw [nameOf, hn]
      exact if_pos hfit
    rw [nameOf_append hname, hname]
    split
    · rfl
    split
    · rfl
    · rfl

/-- A datagram of one byte takes its opcode from an earlier one. -/
theorem not_decodes_short (h1 : d.length = 1) : ¬ Decodes d := by
  intro h
  obtain ⟨b, rfl⟩ := List.length_eq_one_iff.mp h1
  have hbuffer : (0 :: 1 :: List.replicate 1022 (0 : UInt8)).length = tftpRecvBufferLen := by
    rw [List.length_cons, List.length_cons, List.length_replicate]
    rfl
  have hdecode := h _ (List.replicate fileNameLen 0) hbuffer List.length_replicate
  rw [processTftpRequest_eq _ List.length_replicate] at hdecode
  -- the rest of a read request with an empty name is there already
  have hread : bufferRequest (recvRequest (0 :: 1 :: List.replicate 1022 0) [b])
      = some (.read []) := rfl
  have hrefused : requestOf [b] = .refused := rfl
  rw [hread, hrefused] at hdecode
  cases hdecode

/-- A name that is cut or too long is not refused. -/
theorem complete_of_decodes (h1 : 1 ≤ d.length) (hd : d.length ≤ tftpRecvBufferLen)
    (h : Decodes d) : Complete d := by
  have h2 : 2 ≤ d.length := by
    by_contra hlt
    exact not_decodes_short (by omega) h
  refine ⟨h2, ?_⟩
  by_contra hno
  rw [not_or] at hno
  obtain ⟨hop, hname⟩ := hno
  -- the datagram asks for nothing that could be done
  have hnone : nameOf (d.drop 2) = none := by
    unfold nameOf
    split
    · next n hn => exact if_neg fun hfit => hname ⟨n, hn, hfit⟩
    · rfl
  have hdecode := h (List.replicate tftpRecvBufferLen 0) (List.replicate fileNameLen 0)
    List.length_replicate List.length_replicate
  have hcode := @tftpDecodeOp_recv (List.replicate tftpRecvBufferLen 0) d hd h2
  rw [processTftpRequest_eq _ List.length_replicate, bufferRequest] at hdecode
  simp only [requestOf, hnone, ← hcode, Option.some_inj, ite_self] at hdecode
  rw [← hcode, ne_eq, Option.some_inj, ne_eq, Option.some_inj] at hop
  have hop' := fun hread => not_not.mp fun hwrite => hop ⟨hread, hwrite⟩
  -- but the server starts a transfer or faults
  by_cases hread : tftpDecodeOp (recvRequest (List.replicate tftpRecvBufferLen 0) d)
      = TftpOpcode.rrq.code
  · rw [if_pos hread] at hdecode
    obtain ⟨name, -, hname⟩ := Option.map_eq_some_iff.mp hdecode
    cases hname
  · rw [if_neg hread, if_pos (hop' hread)] at hdecode
    obtain ⟨name, -, hname⟩ := Option.map_eq_some_iff.mp hdecode
    cases hname

/-- Decoding depends on the datagram alone exactly when it is complete. -/
theorem decodes_iff (h1 : 1 ≤ d.length) (hd : d.length ≤ tftpRecvBufferLen) :
    Decodes d ↔ Complete d :=
  ⟨complete_of_decodes h1 hd, decodes_of_complete hd⟩

end Decode

/-- A read request for the file `a`. -/
theorem decodes_iff_read : Decodes [0, 1, 0x61, 0] :=
  (decodes_iff (by decide) (by decide)).mpr ⟨by decide, Or.inr ⟨1, rfl, by decide⟩⟩

/-- Without a NUL the name goes on in what was received before; a name of 30 bytes leaves
    `FileName`. -/
theorem not_decodes_unterminated :
    ¬ Decodes [0, 1, 0x61] ∧ ¬ Decodes (0 :: 2 :: (List.replicate 30 0x61 ++ [0])) := by
  constructor
  · intro h
    obtain ⟨-, hop | ⟨n, hn, -⟩⟩ := complete_of_decodes (by decide) (by decide) h
    · exact hop.1 rfl
    · have hnone : strlen ([0, 1, 0x61].drop 2) = none := rfl
      rw [hnone] at hn
      cases hn
  · intro h
    obtain ⟨-, hop | ⟨n, hn, hfit⟩⟩ := complete_of_decodes (by decide) (by decide) h
    · exact hop.2 rfl
    · have h30 : strlen ((0 :: 2 :: (List.replicate 30 (0x61 : UInt8) ++ [0])).drop 2) = some 30 := by
        decide
      rw [h30] at hn
      obtain rfl : 30 = n := Option.some_inj.mp hn
      exact absurd hfit (by decide)

end Gateway.TFTPServer.RequestDecode
