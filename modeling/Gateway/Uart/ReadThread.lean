/-
  Gateway.Uart.ReadThread

  The reader of the UART (`uart/uart.c`).

  `Uart_ReadThread` polls the device; a poll either times out or delivers a byte,
  and the thread is a fold over the polls.  Its state is the static buffer with the
  index `count`, and what it handed on: the texts `Insert_db` was called with, the
  messages in `coapMsgQ`, both as the whole array, and the posts of `msgQSem`.

  The `malloc`s of message and list node may fail, and `Insert_db` may write behind its
  own array (`Env`).  That stops the run, as a store behind the end of the buffer does,
  and `exit`.
-/

import Mathlib.Data.List.Induction
import Gateway.Lib.CString

namespace Gateway.Uart.ReadThread

/-! ## Data -/

/-- `UART_RD_BUF_SIZE`. -/
def uartRdBufSize : Nat := 512

/-- `UART_START_FLAG`, a dollar sign. -/
def uartStartFlag : UInt8 := 0x24

/-- `UART_END_FLAG`, an ampersand. -/
def uartEndFlag : UInt8 := 0x26

/-- What `mraa_uart_data_available` finds: nothing until the time-out, or a byte, which
    `mraa_uart_read` then returns. -/
inductive Poll where
  | timeout
  | data (ch : UInt8)
  deriving DecidableEq, Repr

/-- What the reader calls for the message with this number: `Insert_db`, with `none` when it
    leaves its array `sql`, and the allocations of `tmpMsg` and of the node in `list_ins_next`,
    which succeed or not. -/
structure Env where
  insertDb : Nat → List UInt8 → Option (List UInt8)
  tmpMsgOk : Nat → Bool
  newElementOk : Nat → Bool

/-- Why the thread does not go on: a store behind `uartRdBuf`, one behind `sql`, or `exit`. -/
inductive Stop where
  | overrun
  | sqlOverrun
  | exit
  deriving DecidableEq, Repr

structure Reader where
  uartRdBuf : List UInt8
  count : Nat
  insertDb : List (List UInt8)
  coapMsgQ : List (List UInt8)
  msgQSem : Nat
  stop : Option Stop
  deriving DecidableEq, Repr

/-- The state at the start of the thread; the static buffer holds zeros. -/
def initReader : Reader where
  uartRdBuf := List.replicate uartRdBufSize 0
  count := 0
  insertDb := []
  coapMsgQ := []
  msgQSem := 0
  stop := none

/-! ## The thread -/

/-- `memset` of the buffer and `count = 0`. -/
def clearBuf (s : Reader) : Reader :=
  { s with uartRdBuf := List.replicate uartRdBufSize 0, count := 0 }

/-- A complete frame is in the buffer. -/
def handOn (env : Env) (s : Reader) : Reader :=
  let k := s.insertDb.length
  let s := { s with insertDb := s.insertDb ++ [s.uartRdBuf] }
  match env.insertDb k s.uartRdBuf with
  | none => { s with stop := some .sqlOverrun }
  | some _ =>
    -- the message number `k`: out of memory for its copy ends the process
    if env.tmpMsgOk k then
      -- the return value of `queue_enqueue` is not looked at
      let coapMsgQ := if env.newElementOk k then s.coapMsgQ ++ [s.uartRdBuf] else s.coapMsgQ
      clearBuf { s with coapMsgQ := coapMsgQ, msgQSem := s.msgQSem + 1 }
    else { s with stop := some .exit }

/-- The body of the inner loop, with the byte that was read. -/
def readByte (env : Env) (s : Reader) (ch : UInt8) : Reader :=
  if s.count < uartRdBufSize then
    let s := { s with uartRdBuf := s.uartRdBuf.set s.count ch, count := s.count + 1 }
    if s.uartRdBuf[s.count - 1]? = some uartEndFlag then
      if s.uartRdBuf[0]? = some uartStartFlag then handOn env s else clearBuf s
    else s
  else { s with stop := some .overrun }

/-- One evaluation of the loop conditions.  After a time-out the outer loop comes back to the
    same poll. -/
def poll (env : Env) (s : Reader) : Poll → Reader
  | .timeout => s
  | .data ch => if s.stop = none then readByte env s ch else s

/-- `Uart_ReadThread`, for as long as these polls last. -/
def uartReadThread (env : Env) (polls : List Poll) : Reader := polls.foldl (poll env) initReader

/-- The bytes that arrived. -/
def received (polls : List Poll) : List UInt8 :=
  polls.filterMap fun
    | .timeout => none
    | .data ch => some ch

theorem uartReadThread_concat (env : Env) (polls : List Poll) (p : Poll) :
    uartReadThread env (polls ++ [p]) = poll env (uartReadThread env polls) p := by
  rw [uartReadThread, List.foldl_append]
  rfl

theorem received_timeout (polls : List Poll) :
    received (polls ++ [.timeout]) = received polls := by
  rw [received, List.filterMap_append]
  exact List.append_nil _

theorem received_data (polls : List Poll) (ch : UInt8) :
    received (polls ++ [.data ch]) = received polls ++ [ch] := by
  rw [received, List.filterMap_append]
  rfl

/-! ## What a poll does -/

/-- `Insert_db` is called with the frame, and then the thread stops, or it posts the frame and goes
    on. -/
theorem handOn_cases (env : Env) (s : Reader) :
    (handOn env s).insertDb = s.insertDb ++ [s.uartRdBuf] ∧
      ((handOn env s).msgQSem = s.msgQSem ∧ (handOn env s).stop ≠ none ∨
        (handOn env s).msgQSem = s.msgQSem + 1 ∧ (handOn env s).stop = s.stop ∧
          env.insertDb s.insertDb.length s.uartRdBuf ≠ none) := by
  rw [handOn]
  cases env.insertDb s.insertDb.length s.uartRdBuf with
  | none =>
    dsimp only
    exact ⟨rfl, Or.inl ⟨rfl, Option.some_ne_none _⟩⟩
  | some sql =>
    dsimp only
    split
    · exact ⟨rfl, Or.inr ⟨rfl, rfl, Option.some_ne_none _⟩⟩
    · exact ⟨rfl, Or.inl ⟨rfl, Option.some_ne_none _⟩⟩

/-- Nothing is handed on, or the frame that is complete: then `Insert_db` is called with it, and
    the thread stops there, or it posts the frame and goes on. -/
theorem poll_cases (env : Env) (s : Reader) (p : Poll) :
    ((poll env s p).insertDb = s.insertDb ∧ (poll env s p).msgQSem = s.msgQSem) ∨
      ∃ buf, (poll env s p).insertDb = s.insertDb ++ [buf] ∧
        ((poll env s p).msgQSem = s.msgQSem ∧ (poll env s p).stop ≠ none ∨
          (poll env s p).msgQSem = s.msgQSem + 1 ∧ (poll env s p).stop = s.stop ∧
            env.insertDb s.insertDb.length buf ≠ none) := by
  cases p with
  | timeout => exact Or.inl ⟨rfl, rfl⟩
  | data ch =>
    rw [poll]
    split
    · rw [readByte]
      split
      · simp only
        split
        · split
          · exact Or.inr ⟨_, handOn_cases env _⟩
          · exact Or.inl ⟨rfl, rfl⟩
        · exact Or.inl ⟨rfl, rfl⟩
      · exact Or.inl ⟨rfl, rfl⟩
    · exact Or.inl ⟨rfl, rfl⟩

/-- The frames that were posted, when a further one is only logged. -/
theorem take_msgQSem_logged {s s' : Reader} (hposted : s.msgQSem = s.insertDb.length)
    (hlogged : s.insertDb <+: s'.insertDb) (hsame : s'.msgQSem = s.msgQSem) :
    s'.insertDb.take s'.msgQSem = s.insertDb.take s.msgQSem := by
  obtain ⟨later, hlater⟩ := hlogged
  rw [hsame, ← hlater, List.take_append_of_le_length (Nat.le_of_eq hposted)]

/-- And when it is posted too. -/
theorem take_msgQSem_posted {s s' : Reader} {buf : List UInt8}
    (hposted : s.msgQSem = s.insertDb.length) (hlogged : s'.insertDb = s.insertDb ++ [buf])
    (hmore : s'.msgQSem = s.msgQSem + 1) :
    s'.insertDb.take s'.msgQSem = s.insertDb.take s.msgQSem ++ [buf] := by
  have hall : s'.insertDb.length ≤ s'.msgQSem := by
    rw [hlogged, hmore, hposted, List.length_append, List.length_singleton]
  rw [List.take_of_length_le hall, hlogged, hposted, List.take_length]

/-- A poll takes no post back. -/
theorem msgQSem_le_poll (env : Env) (s : Reader) (p : Poll) :
    s.msgQSem ≤ (poll env s p).msgQSem := by
  rcases poll_cases env s p with ⟨-, hsame⟩ | ⟨buf, -, ⟨hsame, -⟩ | ⟨hmore, -⟩⟩
  · exact Nat.le_of_eq hsame.symm
  · exact Nat.le_of_eq hsame.symm
  · rw [hmore]
    exact Nat.le_succ _

theorem msgQSem_mono (env : Env) (polls more : List Poll) :
    (uartReadThread env polls).msgQSem ≤ (uartReadThread env (polls ++ more)).msgQSem := by
  induction more using List.reverseRecOn with
  | nil => rw [List.append_nil]
  | append_singleton more p ih =>
    rw [← List.append_assoc, uartReadThread_concat]
    exact ih.trans (msgQSem_le_poll _ _ _)

end Gateway.Uart.ReadThread
