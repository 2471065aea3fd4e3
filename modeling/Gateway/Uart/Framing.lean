/-
  Gateway.Uart.Framing

  What `Uart_ReadThread` hands on of a stream of bytes.

  `texts` and `frames` are the specification: the segments of the stream up to each end
  flag, of these the ones that begin with the start flag, each in an array with zeros
  behind.  `Reads` ties the state of the reader to the bytes received so far: the buffer
  holds the unfinished segment, and what was handed on are the frames of the stream.  One
  byte keeps it, or it stops the thread (`reads_or_stopped`): a segment that does not fit
  into the buffer, a frame whose statement does not fit into the array of `Insert_db`, no
  memory.  The polls that deliver no byte do not matter.

  With the `Insert_db` of the gateway (`gatewayEnv`) the frames are handed on exactly when
  each is a string of at most 429 bytes (`uartReadThread_frames`).
-/

import Gateway.Lib.Framing
import Gateway.Sqlite.InsertDb

namespace Gateway.Uart.Framing

open Gateway.Lib.CString Gateway.Lib.Framing Gateway.Uart.ReadThread
open Gateway.Sqlite.InsertDb (Tm frameBuf newYear insertDb_eq_none_iff)

/-! ## The specification -/

/-- The frames of a stream, as the arrays that are handed on. -/
def frames (stream : List UInt8) : List (List UInt8) :=
  ((segments uartEndFlag stream).filter fun seg => seg.head? = some uartStartFlag).map
    (padded uartRdBufSize)

/-- The frames of a stream, without the zeros behind them. -/
def texts (stream : List UInt8) : List (List UInt8) :=
  (segments uartEndFlag stream).filter fun seg => seg.head? = some uartStartFlag

theorem frames_eq (stream : List UInt8) : frames stream = (texts stream).map frameBuf := rfl

theorem frames_concat (stream : List UInt8) (ch : UInt8) :
    frames (stream ++ [ch]) =
      if ch = uartEndFlag ∧ (unfinished uartEndFlag stream ++ [ch]).head? = some uartStartFlag then
        frames stream ++ [padded uartRdBufSize (unfinished uartEndFlag stream ++ [ch])]
      else frames stream := by
  rw [frames, frames, segments_concat]
  by_cases hch : ch = uartEndFlag
  · rw [if_pos hch, List.filter_append, List.map_append]
    by_cases hstart : (unfinished uartEndFlag stream ++ [ch]).head? = some uartStartFlag
    · rw [if_pos ⟨hch, hstart⟩, List.filter_singleton, decide_eq_true hstart]
      rfl
    · rw [if_neg fun h => hstart h.2, List.filter_singleton, decide_eq_false hstart]
      exact List.append_nil _
  · rw [if_neg hch, if_neg fun h => hch h.1]

theorem frames_isPrefix (stream : List UInt8) (ch : UInt8) :
    frames stream <+: frames (stream ++ [ch]) := by
  rw [frames_concat]
  split
  · exact List.prefix_append _ _
  · exact List.prefix_refl _

/-! ## One byte -/

/-- The byte behind the text in its array. -/
theorem set_padded {k : Nat} {text : List UInt8} (ch : UInt8) (h : text.length < k) :
    (padded k text).set text.length ch = padded k (text ++ [ch]) := by
  obtain ⟨j, hj⟩ : ∃ j, k - text.length = j + 1 := ⟨k - text.length - 1, by omega⟩
  have hj' : k - (text ++ [ch]).length = j := by
    rw [List.length_append, List.length_singleton]
    omega
  rw [padded, padded, hj, hj', List.set_append_right _ _ (Nat.le_refl _), Nat.sub_self,
    List.replicate_succ, List.set_cons_zero, List.append_assoc]
  rfl

/-- The state with the segment `text` in the buffer. -/
def holding (s : Reader) (text : List UInt8) : Reader :=
  { s with uartRdBuf := padded uartRdBufSize text, count := text.length }

theorem clearBuf_eq (s : Reader) : clearBuf s = holding s [] := by
  rw [clearBuf, holding, padded, List.nil_append]
  rfl

/-- A byte is stored behind the segment, and looked at. -/
theorem readByte_holding {env : Env} {s : Reader} {text : List UInt8} {ch : UInt8}
    (h : text.length < uartRdBufSize) :
    readByte env (holding s text) ch =
      if ch = uartEndFlag then
        if (text ++ [ch]).head? = some uartStartFlag then handOn env (holding s (text ++ [ch]))
        else holding s []
      else holding s (text ++ [ch]) := by
  have hstored : (padded uartRdBufSize text).set text.length ch
      = padded uartRdBufSize (text ++ [ch]) := set_padded ch h
  have hlast : (padded uartRdBufSize (text ++ [ch]))[text.length]? = some ch := by
    rw [padded, List.append_assoc, List.getElem?_append_right (Nat.le_refl _), Nat.sub_self]
    rfl
  have hfirst : (padded uartRdBufSize (text ++ [ch]))[0]? = (text ++ [ch]).head? := by
    rw [padded, List.getElem?_append_left (by simp), List.head?_eq_getElem?]
  rw [readByte, if_pos (show (holding s text).count < uartRdBufSize from h)]
  simp only [holding, hstored, Nat.add_sub_cancel, hlast, hfirst, Option.some.injEq]
  by_cases hch : ch = uartEndFlag
  · simp only [if_pos hch]
    by_cases hstart : (text ++ [ch]).head? = some uartStartFlag
    · simp only [if_pos hstart, List.length_append, List.length_singleton]
    · simp only [if_neg hstart, clearBuf_eq]
      rfl
  · simp only [if_neg hch, List.length_append, List.length_singleton]

/-- What becomes of a frame: it leaves the array of `Insert_db`, or is handed on, or there is no
    memory for its copy. -/
theorem handOn_holding (env : Env) (s : Reader) (text : List UInt8) :
    handOn env (holding s text) =
      if env.insertDb s.insertDb.length (padded uartRdBufSize text) = none then
        { holding s text with
          insertDb := s.insertDb ++ [padded uartRdBufSize text], stop := some .sqlOverrun }
      else if env.tmpMsgOk s.insertDb.length then
        holding { s with
          insertDb := s.insertDb ++ [padded uartRdBufSize text],
          coapMsgQ := if env.newElementOk s.insertDb.length then
            s.coapMsgQ ++ [padded uartRdBufSize text] else s.coapMsgQ,
          msgQSem := s.msgQSem + 1 } []
      else { holding s text with
        insertDb := s.insertDb ++ [padded uartRdBufSize text], stop := some .exit } := by
  rw [handOn]
  simp only [clearBuf_eq, holding]
  cases env.insertDb s.insertDb.length (padded uartRdBufSize text) <;> rfl

/-! ## The stream -/

/-- What was handed on of the stream: a first part of its frames, the posted ones of them to the
    queue as well, if there was memory for their nodes, and only behind a return of
    `Insert_db`. -/
structure HandedOn (env : Env) (stream : List UInt8) (s : Reader) : Prop where
  logged : s.insertDb <+: frames stream
  queued : s.coapMsgQ.Sublist (s.insertDb.take s.msgQSem)
  allQueued : (∀ k, env.newElementOk k = true) → s.coapMsgQ = s.insertDb.take s.msgQSem
  returned : ∀ k buf, k < s.msgQSem → s.insertDb[k]? = some buf → env.insertDb k buf ≠ none

/-- The reader has read the stream, and has not stopped. -/
structure Reads (env : Env) (stream : List UInt8) (s : Reader) : Prop
    extends HandedOn env stream s where
  running : s.stop = none
  segs : ∀ seg ∈ segments uartEndFlag stream, seg.length ≤ uartRdBufSize
  fits : (unfinished uartEndFlag stream).length ≤ uartRdBufSize
  holds : s = holding s (unfinished uartEndFlag stream)
  all : s.insertDb = frames stream
  posted : s.msgQSem = s.insertDb.length

/-- Why the thread has stopped. -/
inductive Cause (env : Env) (stream : List UInt8) (s : Reader) : Prop where
  /-- The statement for the last frame leaves `sql`. -/
  | sqlOverrun (buf : List UInt8) (hstop : s.stop = some .sqlOverrun)
      (hposted : s.insertDb.length = s.msgQSem + 1) (hlast : s.insertDb[s.msgQSem]? = some buf)
      (hsql : env.insertDb s.msgQSem buf = none)
  /-- There is no memory for the copy of the last frame. -/
  | exit (hstop : s.stop = some .exit) (hposted : s.insertDb.length = s.msgQSem + 1)
      (htmp : env.tmpMsgOk s.msgQSem = false)
  /-- A segment goes on when it fills the buffer. -/
  | overrun (hstop : s.stop = some .overrun) (hposted : s.insertDb.length = s.msgQSem)
      (hlong : (∃ seg ∈ segments uartEndFlag stream, uartRdBufSize < seg.length) ∨
        uartRdBufSize < (unfinished uartEndFlag stream).length ∧ s.insertDb = frames stream)

/-- The thread has stopped somewhere in the stream. -/
structure Stopped (env : Env) (stream : List UInt8) (s : Reader) : Prop
    extends HandedOn env stream s where
  cause : Cause env stream s

theorem Stopped.stop_ne {env : Env} {stream : List UInt8} {s : Reader}
    (hstopped : Stopped env stream s) : s.stop ≠ none := by
  cases hstopped.cause with
  | sqlOverrun buf hstop => rw [hstop]; exact Option.some_ne_none _
  | exit hstop => rw [hstop]; exact Option.some_ne_none _
  | overrun hstop => rw [hstop]; exact Option.some_ne_none _

theorem reads_initReader (env : Env) : Reads env [] initReader where
  logged := List.nil_prefix
  queued := List.Sublist.refl _
  allQueued := fun _ => rfl
  returned := fun k _ hk => absurd hk (Nat.not_lt_zero k)
  running := rfl
  segs := fun _ hseg => absurd hseg List.not_mem_nil
  fits := Nat.zero_le _
  holds := (clearBuf_eq initReader).symm ▸ rfl
  all := rfl
  posted := rfl

section Byte

variable {env : Env} {stream : List UInt8} {s : Reader} {ch : UInt8}

/-- A stream that goes on without a further frame: only the buffer changes. -/
theorem Reads.goesOn {stream' : List UInt8} (hreads : Reads env stream s)
    (hframes : frames stream' = frames stream)
    (hsegs : ∀ seg ∈ segments uartEndFlag stream', seg.length ≤ uartRdBufSize)
    (hfits : (unfinished uartEndFlag stream').length ≤ uartRdBufSize) :
    Reads env stream' (holding s (unfinished uartEndFlag stream')) where
  logged := hframes ▸ hreads.logged
  queued := hreads.queued
  allQueued := hreads.allQueued
  returned := hreads.returned
  running := hreads.running
  segs := hsegs
  fits := hfits
  holds := rfl
  all := hreads.all.trans hframes.symm
  posted := hreads.posted

/-- The segments behind an end flag for which there was room. -/
theorem Reads.segs_concat (hreads : Reads env stream s)
    (hroom : (unfinished uartEndFlag stream).length < uartRdBufSize) :
    ∀ seg ∈ segments uartEndFlag (stream ++ [uartEndFlag]), seg.length ≤ uartRdBufSize := by
  intro seg hseg
  rw [segments_concat, if_pos rfl, List.mem_append, List.mem_singleton] at hseg
  rcases hseg with hseg | rfl
  · exact hreads.segs seg hseg
  · rw [List.length_append, List.length_singleton]
    exact hroom

/-- A byte that does not end the segment. -/
theorem Reads.readByte_inside (hreads : Reads env stream s) (hch : ch ≠ uartEndFlag)
    (hroom : (unfinished uartEndFlag stream).length < uartRdBufSize) :
    Reads env (stream ++ [ch]) (readByte env s ch) := by
  have hframes : frames (stream ++ [ch]) = frames stream := by
    rw [frames_concat, if_neg fun h => hch h.1]
  have hrest : unfinished uartEndFlag (stream ++ [ch]) = unfinished uartEndFlag stream ++ [ch] := by
    rw [unfinished_concat, if_neg hch]
  have hstep : readByte env s ch = holding s (unfinished uartEndFlag (stream ++ [ch])) := by
    rw [hreads.holds, readByte_holding hroom, if_neg hch, hrest]
    rfl
  rw [hstep]
  apply hreads.goesOn hframes
  · rw [segments_concat, if_neg hch]
    exact hreads.segs
  · rw [hrest, List.length_append, List.length_singleton]
    exact hroom

/-- The end flag of a segment that is no frame. -/
theorem Reads.readByte_discard (hreads : Reads env stream s)
    (hroom : (unfinished uartEndFlag stream).length < uartRdBufSize)
    (hstart : (unfinished uartEndFlag stream ++ [uartEndFlag]).head? ≠ some uartStartFlag) :
    Reads env (stream ++ [uartEndFlag]) (readByte env s uartEndFlag) := by
  have hframes : frames (stream ++ [uartEndFlag]) = frames stream := by
    rw [frames_concat, if_neg fun h => hstart h.2]
  have hrest : unfinished uartEndFlag (stream ++ [uartEndFlag]) = [] := by
    rw [unfinished_concat, if_pos rfl]
  have hstep : readByte env s uartEndFlag
      = holding s (unfinished uartEndFlag (stream ++ [uartEndFlag])) := by
    rw [hreads.holds, readByte_holding hroom, if_pos rfl, if_neg hstart, hrest]
    rfl
  rw [hstep]
  apply hreads.goesOn hframes (hreads.segs_concat hroom)
  rw [hrest]
  exact Nat.zero_le _

/-- A frame that `Insert_db` was called with, and that went no further. -/
theorem Reads.handedOn_logged {s' : Reader} {stream' buf : List UInt8} (hreads : Reads env stream s)
    (hlogged : s'.insertDb = s.insertDb ++ [buf]) (hframes : frames stream' = frames stream ++ [buf])
    (hposted : s'.msgQSem = s.msgQSem) (hqueue : s'.coapMsgQ = s.coapMsgQ) :
    HandedOn env stream' s' := by
  have htake := take_msgQSem_logged hreads.posted ⟨[buf], hlogged.symm⟩ hposted
  refine ⟨?_, ?_, fun hnew => ?_, fun k msg hk hmsg => ?_⟩
  · exact ⟨[], by rw [hlogged, hframes, hreads.all, List.append_nil]⟩
  · rw [htake, hqueue]
    exact hreads.queued
  · rw [htake, hqueue]
    exact hreads.allQueued hnew
  · rw [hposted] at hk
    rw [hlogged, List.getElem?_append_left (hreads.posted ▸ hk)] at hmsg
    exact hreads.returned k msg hk hmsg

/-- A frame that went all the way. -/
theorem Reads.handedOn_posted {s' : Reader} {stream' buf : List UInt8} (hreads : Reads env stream s)
    (hlogged : s'.insertDb = s.insertDb ++ [buf]) (hframes : frames stream' = frames stream ++ [buf])
    (hposted : s'.msgQSem = s.msgQSem + 1)
    (hqueue : s'.coapMsgQ
      = if env.newElementOk s.msgQSem = true then s.coapMsgQ ++ [buf] else s.coapMsgQ)
    (hsql : env.insertDb s.msgQSem buf ≠ none) : HandedOn env stream' s' := by
  have htake := take_msgQSem_posted hreads.posted hlogged hposted
  refine ⟨?_, ?_, fun hnew => ?_, fun k msg hk hmsg => ?_⟩
  · exact ⟨[], by rw [hlogged, hframes, hreads.all, List.append_nil]⟩
  · -- the queue has the message, or its node could not be had
    rw [htake, hqueue]
    split
    · exact hreads.queued.append (List.Sublist.refl _)
    · exact hreads.queued.trans (List.sublist_append_left _ _)
  · rw [htake, hqueue, if_pos (hnew _), hreads.allQueued hnew]
  · rw [hposted] at hk
    rw [hlogged] at hmsg
    rcases Nat.lt_succ_iff_lt_or_eq.mp hk with hk | rfl
    · rw [List.getElem?_append_left (hreads.posted ▸ hk)] at hmsg
      exact hreads.returned k msg hk hmsg
    · rw [hreads.posted, List.getElem?_concat_length] at hmsg
      rwa [← Option.some_inj.mp hmsg]

/-- The end flag of a frame: it is handed on, or the thread stops in `Insert_db` or for want of
    memory. -/
theorem Reads.readByte_frame (hreads : Reads env stream s)
    (hroom : (unfinished uartEndFlag stream).length < uartRdBufSize)
    (hstart : (unfinished uartEndFlag stream ++ [uartEndFlag]).head? = some uartStartFlag) :
    Reads env (stream ++ [uartEndFlag]) (readByte env s uartEndFlag) ∨
      Stopped env (stream ++ [uartEndFlag]) (readByte env s uartEndFlag) := by
  have hsegs := hreads.segs_concat hroom
  set buf := padded uartRdBufSize (unfinished uartEndFlag stream ++ [uartEndFlag]) with hbuf
  have hframes : frames (stream ++ [uartEndFlag]) = frames stream ++ [buf] := by
    rw [frames_concat, if_pos ⟨rfl, hstart⟩]
  have hrest : unfinished uartEndFlag (stream ++ [uartEndFlag]) = [] := by
    rw [unfinished_concat, if_pos rfl]
  have hlength : (s.insertDb ++ [buf]).length = s.msgQSem + 1 := by
    rw [List.length_append, List.length_singleton, hreads.posted]
  rw [hreads.holds, readByte_holding hroom, if_pos rfl, if_pos hstart, handOn_holding, ← hbuf,
    ← hreads.posted]
  by_cases hsql : env.insertDb s.msgQSem buf = none
  · right
    have hlast : (s.insertDb ++ [buf])[s.msgQSem]? = some buf := by
      rw [hreads.posted]
      exact List.getElem?_concat_length
    rw [if_pos hsql]
    exact ⟨hreads.handedOn_logged rfl hframes rfl rfl, .sqlOverrun buf rfl hlength hlast hsql⟩
  · rw [if_neg hsql]
    by_cases htmp : env.tmpMsgOk s.msgQSem = true
    · left
      rw [if_pos htmp]
      refine ⟨hreads.handedOn_posted rfl hframes rfl rfl hsql, hreads.running, hsegs, ?_, ?_, ?_,
        hlength.symm⟩
      · rw [hrest]
        exact Nat.zero_le _
      · rw [hrest]
        rfl
      · show s.insertDb ++ [buf] = _
        rw [hframes, hreads.all]
    · right
      rw [if_neg htmp]
      exact ⟨hreads.handedOn_logged rfl hframes rfl rfl,
        .exit rfl hlength (Bool.eq_false_iff.mpr htmp)⟩

/-- A byte behind a full buffer: the segment ends there, or goes on. -/
theorem overrun_concat {handed : List (List UInt8)}
    (hfull : uartRdBufSize ≤ (unfinished uartEndFlag stream).length)
    (hall : handed = frames stream) (ch : UInt8) :
    (∃ seg ∈ segments uartEndFlag (stream ++ [ch]), uartRdBufSize < seg.length) ∨
      uartRdBufSize < (unfinished uartEndFlag (stream ++ [ch])).length ∧
        handed = frames (stream ++ [ch]) := by
  have hlong : uartRdBufSize < (unfinished uartEndFlag stream ++ [ch]).length := by
    rw [List.length_append, List.length_singleton]
    omega
  by_cases hch : ch = uartEndFlag
  · refine Or.inl ⟨unfinished uartEndFlag stream ++ [ch], ?_, hlong⟩
    rw [segments_concat, if_pos hch]
    exact List.mem_append_right _ (List.mem_cons_self ..)
  · right
    rw [unfinished_concat, if_neg hch, frames_concat, if_neg fun h => hch h.1]
    exact ⟨hlong, hall⟩

/-- A byte that finds the buffer full. -/
theorem Reads.readByte_full (hreads : Reads env stream s)
    (hfull : uartRdBufSize ≤ (unfinished uartEndFlag stream).length) :
    Stopped env (stream ++ [ch]) (readByte env s ch) := by
  have hcount : s.count = (unfinished uartEndFlag stream).length := by
    rw [hreads.holds]
    rfl
  rw [readByte, if_neg (by omega)]
  exact ⟨⟨hreads.logged.trans (frames_isPrefix stream ch), hreads.queued, hreads.allQueued,
    hreads.returned⟩, .overrun rfl hreads.posted.symm (overrun_concat hfull hreads.all ch)⟩

/-- A thread that reads takes one more byte, or stops at it. -/
theorem Reads.readByte_next (hreads : Reads env stream s) :
    Reads env (stream ++ [ch]) (readByte env s ch) ∨
      Stopped env (stream ++ [ch]) (readByte env s ch) := by
  by_cases hroom : (unfinished uartEndFlag stream).length < uartRdBufSize
  · by_cases hch : ch = uartEndFlag
    · subst hch
      by_cases hstart : (unfinished uartEndFlag stream ++ [uartEndFlag]).head?
          = some uartStartFlag
      · exact hreads.readByte_frame hroom hstart
      · exact .inl (hreads.readByte_discard hroom hstart)
    · exact .inl (hreads.readByte_inside hch hroom)
  · exact .inr (hreads.readByte_full (Nat.le_of_not_lt hroom))

/-- A thread that has stopped stays as it is. -/
theorem Stopped.next (hstopped : Stopped env stream s) (ch : UInt8) :
    Stopped env (stream ++ [ch]) s := by
  refine ⟨⟨hstopped.logged.trans (frames_isPrefix stream ch), hstopped.queued, hstopped.allQueued,
    hstopped.returned⟩, ?_⟩
  cases hstopped.cause with
  | sqlOverrun buf hstop hposted hlast hsql => exact .sqlOverrun buf hstop hposted hlast hsql
  | exit hstop hposted htmp => exact .exit hstop hposted htmp
  | overrun hstop hposted hlong =>
    refine .overrun hstop hposted ?_
    rcases hlong with ⟨seg, hseg, hlong⟩ | ⟨hlong, hall⟩
    · obtain ⟨later, hlater⟩ := @segments_mono _ _ uartEndFlag stream [ch]
      exact Or.inl ⟨seg, hlater ▸ List.mem_append_left _ hseg, hlong⟩
    · exact overrun_concat (Nat.le_of_lt hlong) hall ch

end Byte

/-! ## Whole runs -/

section Runs

variable {env : Env} {polls : List Poll}

/-- After every sequence of polls the reader has read the stream, or it has stopped. -/
theorem reads_or_stopped (env : Env) (polls : List Poll) :
    Reads env (received polls) (uartReadThread env polls) ∨
      Stopped env (received polls) (uartReadThread env polls) := by
  induction polls using List.reverseRecOn with
  | nil => exact .inl (reads_initReader env)
  | append_singleton polls p ih =>
    rw [uartReadThread_concat]
    cases p with
    | timeout =>
      -- the cut into bursts leaves no trace
      rw [received_timeout]
      exact ih
    | data ch =>
      rw [received_data]
      rcases ih with hreads | hstopped
      · rw [poll, if_pos hreads.running]
        exact hreads.readByte_next
      · rw [poll, if_neg hstopped.stop_ne]
        exact .inr (hstopped.next ch)

theorem uartReadThread_handedOn (env : Env) (polls : List Poll) :
    HandedOn env (received polls) (uartReadThread env polls) := by
  rcases reads_or_stopped env polls with hreads | hstopped
  · exact hreads.toHandedOn
  · exact hstopped.toHandedOn

/-- A thread that has not stopped has read the stream. -/
theorem reads_of_running (hrun : (uartReadThread env polls).stop = none) :
    Reads env (received polls) (uartReadThread env polls) := by
  rcases reads_or_stopped env polls with hreads | hstopped
  · exact hreads
  · exact absurd hrun hstopped.stop_ne

/-- With memory, and as long as `Insert_db` comes back, all frames of a stream are posted whose
    segments fit into the buffer; the thread then stops at the unfinished segment only. -/
theorem all_posted (htmp : ∀ k, env.tmpMsgOk k = true)
    (hsegs : ∀ seg ∈ segments uartEndFlag (received polls), seg.length ≤ uartRdBufSize)
    (hsql : ∀ k, ∀ buf ∈ frames (received polls), env.insertDb k buf ≠ none) :
    (uartReadThread env polls).insertDb = frames (received polls) ∧
      (uartReadThread env polls).msgQSem = (uartReadThread env polls).insertDb.length ∧
      ((uartReadThread env polls).stop = none ↔
        (unfinished uartEndFlag (received polls)).length ≤ uartRdBufSize) := by
  rcases reads_or_stopped env polls with hreads | hstopped
  · exact ⟨hreads.all, hreads.posted, fun _ => hreads.fits, fun _ => hreads.running⟩
  · cases hstopped.cause with
    | sqlOverrun buf hstop hposted hlast hnone =>
      exact absurd hnone (hsql _ buf (hstopped.logged.subset (List.mem_of_getElem? hlast)))
    | exit hstop hposted hno =>
      rw [htmp] at hno
      cases hno
    | overrun hstop hposted hlong =>
      rcases hlong with ⟨seg, hseg, hlong⟩ | ⟨hlong, hall⟩
      · exact absurd (hsegs seg hseg) (by omega)
      · refine ⟨hall, hposted.symm, ?_⟩
        rw [hstop]
        exact ⟨fun h => absurd h (Option.some_ne_none _), fun h => absurd h (by omega)⟩

end Runs

/-! ## The frames that are handed on -/

/-- The reader in the gateway: `Insert_db` makes its statement at these times. -/
def gatewayEnv (times : Nat → Tm) (tmpMsgOk newElementOk : Nat → Bool) : Env where
  insertDb := fun k msg => Gateway.Sqlite.InsertDb.insertDb (times k) msg
  tmpMsgOk := tmpMsgOk
  newElementOk := newElementOk

/-- At one moment, with memory for all messages. -/
def newYearEnv : Env := gatewayEnv (fun _ => newYear) (fun _ => true) fun _ => true

/-- Every frame is a string that leaves room for the rest of its statement. -/
def StatementsFit (stream : List UInt8) : Prop :=
  ∀ frame ∈ texts stream, (stringOf frame).length ≤ 429

instance (stream : List UInt8) : Decidable (StatementsFit stream) :=
  inferInstanceAs (Decidable (∀ _ ∈ _, _))

/-- The messages of the reader are the frames of the stream, in order, each once and alone in
    its array; what does not end with the end flag is in none of them.  Only the want of memory
    makes it lose one, and then it hands on nothing else in its place. -/
def HandsOnFrames (times : Nat → Tm) (polls : List Poll) : Prop :=
  ∀ tmpMsgOk newElementOk : Nat → Bool,
    let s := uartReadThread (gatewayEnv times tmpMsgOk newElementOk) polls
    s.coapMsgQ.Sublist s.insertDb ∧ s.insertDb <+: frames (received polls) ∧
    ((∀ k, tmpMsgOk k = true) →
      s.insertDb = frames (received polls) ∧
      ((∀ k, newElementOk k = true) → s.coapMsgQ = frames (received polls)))

section Gateway

variable {times : Nat → Tm} {tmpMsgOk newElementOk : Nat → Bool} {polls : List Poll}

/-- `Insert_db` comes back from the calls with these frames. -/
theorem insertDb_ne_none {stream : List UInt8}
    (hfit : ∀ seg ∈ segments uartEndFlag stream, seg.length ≤ uartRdBufSize)
    (hsql : StatementsFit stream) :
    ∀ k, ∀ buf ∈ frames stream,
      (gatewayEnv times tmpMsgOk newElementOk).insertDb k buf ≠ none := by
  intro k buf hbuf
  rw [frames_eq] at hbuf
  obtain ⟨frame, hframe, rfl⟩ := List.mem_map.mp hbuf
  have hlen := hfit frame (List.mem_of_mem_filter hframe)
  have hle := hsql frame hframe
  intro hnone
  have hlong := (insertDb_eq_none_iff (times k) hlen).mp hnone
  omega

/-- The gateway's reader posts all frames when their statements fit. -/
theorem gateway_all_posted (htmp : ∀ k, tmpMsgOk k = true)
    (hfit : ∀ seg ∈ segments uartEndFlag (received polls), seg.length ≤ uartRdBufSize)
    (hsql : StatementsFit (received polls)) :
    (uartReadThread (gatewayEnv times tmpMsgOk newElementOk) polls).insertDb
        = frames (received polls) ∧
      (uartReadThread (gatewayEnv times tmpMsgOk newElementOk) polls).msgQSem
        = (uartReadThread (gatewayEnv times tmpMsgOk newElementOk) polls).insertDb.length ∧
      ((uartReadThread (gatewayEnv times tmpMsgOk newElementOk) polls).stop = none ↔
        (unfinished uartEndFlag (received polls)).length ≤ uartRdBufSize) :=
  all_posted htmp hfit (insertDb_ne_none hfit hsql)

theorem handsOnFrames_of_fit
    (hfit : ∀ seg ∈ segments uartEndFlag (received polls), seg.length ≤ uartRdBufSize)
    (hsql : StatementsFit (received polls)) : HandsOnFrames times polls := by
  intro tmpMsgOk newElementOk
  have hhanded := uartReadThread_handedOn (gatewayEnv times tmpMsgOk newElementOk) polls
  refine ⟨hhanded.queued.trans (List.take_sublist _ _), hhanded.logged, fun htmp => ?_⟩
  obtain ⟨hall, hposted, -⟩ := @gateway_all_posted times _ newElementOk _ htmp hfit hsql
  refine ⟨hall, fun hnew => ?_⟩
  rw [hhanded.allQueued hnew, hposted, List.take_length, hall]

/-- The frames of a stream that were all posted made statements that fit. -/
theorem statementsFit_of_posted {tmpMsgOk newElementOk : Nat → Bool}
    (hfit : ∀ seg ∈ segments uartEndFlag (received polls), seg.length ≤ uartRdBufSize)
    (hposted : (frames (received polls)).length
      ≤ (uartReadThread (gatewayEnv times tmpMsgOk newElementOk) polls).msgQSem)
    (hall : (uartReadThread (gatewayEnv times tmpMsgOk newElementOk) polls).insertDb
      = frames (received polls)) : StatementsFit (received polls) := by
  intro frame hframe
  have hmem : frameBuf frame ∈ frames (received polls) := by
    rw [frames_eq]
    exact List.mem_map_of_mem hframe
  obtain ⟨k, hlt, hk⟩ := List.mem_iff_getElem.mp hmem
  have hreturned :=
    (uartReadThread_handedOn (gatewayEnv times tmpMsgOk newElementOk) polls).returned k
      (frameBuf frame) (by omega) (by rw [hall, ← hk]; exact List.getElem?_eq_getElem hlt)
  have hlen := hfit frame (List.mem_of_mem_filter hframe)
  by_contra hlong
  exact hreturned ((insertDb_eq_none_iff (times k) hlen).mpr (Nat.lt_of_not_le hlong))

/-- With memory, a frame that is too long is passed to `Insert_db`, where the thread stops. -/
theorem sqlOverrun_of_long (htmp : ∀ k, tmpMsgOk k = true)
    (hfit : ∀ seg ∈ segments uartEndFlag (received polls), seg.length ≤ uartRdBufSize)
    (hlong : ¬ StatementsFit (received polls)) :
    ∃ k buf,
      (uartReadThread (gatewayEnv times tmpMsgOk newElementOk) polls).insertDb[k]? = some buf ∧
      Gateway.Sqlite.InsertDb.insertDb (times k) buf = none := by
  rcases reads_or_stopped (gatewayEnv times tmpMsgOk newElementOk) polls with hreads | hstopped
  · have hposted := hreads.posted
    rw [hreads.all] at hposted
    exact absurd (statementsFit_of_posted hfit (Nat.le_of_eq hposted.symm) hreads.all) hlong
  · cases hstopped.cause with
    | sqlOverrun buf hstop hposted hlast hsql => exact ⟨_, buf, hlast, hsql⟩
    | exit hstop hposted hno =>
      have hyes := htmp (uartReadThread (gatewayEnv times tmpMsgOk newElementOk) polls).msgQSem
      exact Bool.noConfusion (hyes.symm.trans hno)
    | overrun hstop hposted hcause =>
      rcases hcause with ⟨seg, hseg, hseglen⟩ | ⟨-, hall⟩
      · exact absurd (hfit seg hseg) (by omega)
      · rw [hall] at hposted
        exact absurd (statementsFit_of_posted hfit (Nat.le_of_eq hposted) hall) hlong

theorem statementsFit_of_handsOn
    (hfit : ∀ seg ∈ segments uartEndFlag (received polls), seg.length ≤ uartRdBufSize)
    (h : HandsOnFrames times polls) : StatementsFit (received polls) := by
  obtain ⟨-, -, hmemory⟩ := h (fun _ => true) fun _ => true
  obtain ⟨hall, hqueue⟩ := hmemory fun _ => rfl
  -- a frame in the queue was posted
  have hposted :=
    (uartReadThread_handedOn (gatewayEnv times (fun _ => true) fun _ => true) polls).queued.length_le
  rw [hqueue fun _ => rfl, List.length_take] at hposted
  exact statementsFit_of_posted hfit (hposted.trans (Nat.min_le_left _ _)) hall

/-- The reader hands on exactly the frames of a stream whose segments fit into its buffer, if and
    only if each of them is a string of at most 429 bytes. -/
theorem uartReadThread_frames (times : Nat → Tm) (polls : List Poll)
    (hfit : ∀ seg ∈ segments uartEndFlag (received polls), seg.length ≤ uartRdBufSize) :
    HandsOnFrames times polls ↔ StatementsFit (received polls) :=
  ⟨statementsFit_of_handsOn hfit, handsOnFrames_of_fit hfit⟩

end Gateway

/-- Two frames with noise between them, in three bursts. -/
theorem uartReadThread_frames_twoFrames :
    (uartReadThread newYearEnv
      [.data 0x24, .data 0x31, .timeout, .data 0x26, .data 0x0a, .data 0x26, .timeout,
        .data 0x24, .data 0x26, .data 0x24]).coapMsgQ
      = [padded 512 [0x24, 0x31, 0x26], padded 512 [0x24, 0x26]] := by
  have hframes := (uartReadThread_frames (fun _ => newYear)
    [.data 0x24, .data 0x31, .timeout, .data 0x26, .data 0x0a, .data 0x26, .timeout,
      .data 0x24, .data 0x26, .data 0x24] (by decide)).mpr (by decide)
  obtain ⟨-, hqueue⟩ := (hframes (fun _ => true) fun _ => true).2.2 fun _ => rfl
  exact hqueue fun _ => rfl

/-- A stream without gaps. -/
theorem received_map_data (bytes : List UInt8) : received (bytes.map .data) = bytes := by
  induction bytes with
  | nil => rfl
  | cons b bs ih => exact congrArg (b :: ·) ih

/-- A frame that is the whole stream. -/
theorem segments_frame {body : List UInt8} (h : uartEndFlag ∉ body) :
    segments uartEndFlag (body ++ [uartEndFlag]) = [body ++ [uartEndFlag]] := by
  have hseg := segments_segment [] h []
  rwa [List.nil_append, List.append_nil, segments_nil, unfinished_nil] at hseg

/-- The reader does not come to queue a frame of 430 bytes. -/
theorem not_handsOnFrames_long :
    (∀ seg ∈ segments uartEndFlag (received
        (((uartStartFlag :: List.replicate 428 0x61) ++ [uartEndFlag]).map .data)),
      seg.length ≤ 511) ∧
    ¬ HandsOnFrames (fun _ => newYear)
        (((uartStartFlag :: List.replicate 428 0x61) ++ [uartEndFlag]).map .data) := by
  have hbody : uartEndFlag ∉ uartStartFlag :: List.replicate 428 (0x61 : UInt8) := by
    intro hc
    rcases List.mem_cons.mp hc with hc | hc
    · exact absurd hc (by decide)
    · exact absurd (List.eq_of_mem_replicate hc) (by decide)
  have hnul : 0 ∉ (uartStartFlag :: List.replicate 428 (0x61 : UInt8)) ++ [uartEndFlag] := by
    simp only [List.mem_append, List.mem_cons, List.mem_replicate, List.not_mem_nil, or_false]
    decide
  have hlen : ((uartStartFlag :: List.replicate 428 (0x61 : UInt8)) ++ [uartEndFlag]).length = 430 := by
    rw [List.length_append, List.length_cons, List.length_replicate, List.length_singleton]
  have hsegs := segments_frame hbody
  have hfit : ∀ seg ∈ segments uartEndFlag (received
      (((uartStartFlag :: List.replicate 428 0x61) ++ [uartEndFlag]).map .data)),
      seg.length ≤ 511 := by
    rw [received_map_data, hsegs]
    intro seg hseg
    rw [List.mem_singleton.mp hseg, hlen]
    decide
  refine ⟨hfit, fun h => ?_⟩
  have hsql := statementsFit_of_handsOn (fun seg hseg => Nat.le_succ_of_le (hfit seg hseg)) h
  rw [received_map_data] at hsql
  have hle := hsql ((uartStartFlag :: List.replicate 428 0x61) ++ [uartEndFlag]) (by
    rw [texts, hsegs]
    exact List.mem_singleton.mpr rfl)
  rw [stringOf_eq_self hnul, hlen] at hle
  exact absurd hle (by decide)

end Gateway.Uart.Framing
