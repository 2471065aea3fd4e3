/-
  Gateway.Uart.Resync

  What becomes of a complete frame that stands anywhere in the stream.

  The reader looks at the first byte behind the last end flag and at no other start
  flag.  So a frame that starts the stream or follows an end flag is queued as
  itself; one with anything between is the end of a longer run, which is queued as a
  whole when it begins with a start flag, and thrown away otherwise.
-/

import Gateway.Uart.Bounds

namespace Gateway.Uart.Resync

open Gateway.Lib.CString Gateway.Lib.Framing
open Gateway.Uart.ReadThread Gateway.Uart.Framing Gateway.Uart.Bounds
open Gateway.Sqlite.InsertDb (Tm newYear)

/-- A start flag, bytes that are no flags, and an end flag, 511 bytes at most. -/
def CompleteFrame (frame : List UInt8) : Prop :=
  ∃ body, uartStartFlag ∉ body ∧ uartEndFlag ∉ body ∧
    frame = uartStartFlag :: (body ++ [uartEndFlag]) ∧ frame.length ≤ 511

/-- What is queued for a frame behind `run`, the bytes since the last end flag. -/
def queuedFor (run frame : List UInt8) : List (List UInt8) :=
  if (run ++ frame).head? = some uartStartFlag then [padded uartRdBufSize (run ++ frame)] else []

/-- With memory, the queue holds the frames of a stream that fits. -/
theorem queue_eq_frames {times : Nat → Tm} {tmpMsgOk newElementOk : Nat → Bool} {polls : List Poll}
    (htmp : ∀ k, tmpMsgOk k = true) (hnew : ∀ k, newElementOk k = true)
    (hsegs : ∀ seg ∈ segments uartEndFlag (received polls), seg.length ≤ uartRdBufSize)
    (hsql : StatementsFit (received polls)) :
    (uartReadThread (gatewayEnv times tmpMsgOk newElementOk) polls).coapMsgQ
      = frames (received polls) := by
  obtain ⟨-, -, hmemory⟩ := @handsOnFrames_of_fit times polls hsegs hsql tmpMsgOk newElementOk
  obtain ⟨-, hqueue⟩ := hmemory htmp
  exact hqueue hnew

/-- A frame ends a segment: what came before it, what comes from its segment, what comes after. -/
theorem frames_around {pre frame post : List UInt8} (h : CompleteFrame frame) :
    frames (pre ++ frame ++ post)
      = frames pre ++ queuedFor (unfinished uartEndFlag pre) frame ++ frames post := by
  obtain ⟨body, -, hend, rfl, -⟩ := h
  have hno : uartEndFlag ∉ uartStartFlag :: body := by
    rw [List.mem_cons, not_or]
    exact ⟨by decide, hend⟩
  have hsegs := segments_segment pre hno post
  rw [List.cons_append] at hsegs
  rw [frames, hsegs, List.filter_append, List.filter_append, List.map_append, List.map_append,
    ← frames, ← frames, queuedFor, List.filter_singleton]
  by_cases hstart : (unfinished uartEndFlag pre ++ uartStartFlag :: (body ++ [uartEndFlag])).head?
      = some uartStartFlag
  · rw [decide_eq_true hstart, if_pos hstart]
    rfl
  · rw [decide_eq_false hstart, if_neg hstart]
    rfl

/-- A longer run is another message. -/
theorem padded_run_ne {run frame : List UInt8} (hrun : run ≠ []) (hframe : CompleteFrame frame)
    (hlen : (run ++ frame).length ≤ uartRdBufSize) :
    padded uartRdBufSize (run ++ frame) ≠ padded uartRdBufSize frame := by
  obtain ⟨body, -, -, rfl, -⟩ := hframe
  intro heq
  have hsplit : run ++ uartStartFlag :: (body ++ [uartEndFlag])
      = (run ++ uartStartFlag :: body) ++ [uartEndFlag] := by
    rw [List.append_assoc]
    rfl
  rw [hsplit] at heq hlen
  have hle := @length_le_of_padded uartRdBufSize (run ++ uartStartFlag :: body)
    (uartStartFlag :: body) uartEndFlag (by decide) hlen heq
  have hpos := List.length_pos_of_ne_nil hrun
  rw [List.length_append] at hle
  omega

/-- Let there be memory, and let the segments of the stream fit into the reader's buffer and its
    frames into their statements.  Then a complete frame that starts the stream or follows an end
    flag is queued once, as itself, behind what came before it and in front of what comes after it.
    Behind other bytes it is not queued as itself: the run since the last end flag is queued as one
    message when it begins with a start flag, and nothing of it otherwise. -/
theorem uartReadThread_resync {times : Nat → Tm} {tmpMsgOk newElementOk : Nat → Bool}
    {polls : List Poll} {pre frame post : List UInt8}
    (htmp : ∀ k, tmpMsgOk k = true) (hnew : ∀ k, newElementOk k = true)
    (hstream : received polls = pre ++ frame ++ post) (hframe : CompleteFrame frame)
    (hsegs : ∀ seg ∈ segments uartEndFlag (received polls), seg.length ≤ uartRdBufSize)
    (hsql : StatementsFit (received polls)) :
    ((pre = [] ∨ pre.getLast? = some uartEndFlag) →
      (uartReadThread (gatewayEnv times tmpMsgOk newElementOk) polls).coapMsgQ
        = frames pre ++ [padded uartRdBufSize frame] ++ frames post) ∧
    (¬ (pre = [] ∨ pre.getLast? = some uartEndFlag) →
      (uartReadThread (gatewayEnv times tmpMsgOk newElementOk) polls).coapMsgQ
        = frames pre ++ queuedFor (unfinished uartEndFlag pre) frame ++ frames post ∧
      padded uartRdBufSize frame ∉ queuedFor (unfinished uartEndFlag pre) frame) := by
  have hqueue := @queue_eq_frames times _ _ _ htmp hnew hsegs hsql
  rw [hstream, frames_around hframe] at hqueue
  rw [hqueue, ← unfinished_eq_nil_iff]
  constructor
  · intro hnil
    obtain ⟨body, -, -, rfl, -⟩ := hframe
    rw [hnil, queuedFor, List.nil_append, if_pos List.head?_cons]
  · intro hrun
    refine ⟨rfl, fun hmem => ?_⟩
    unfold queuedFor at hmem
    split at hmem
    · -- the run and the frame are one segment of the stream
      have hfit : (unfinished uartEndFlag pre ++ frame).length ≤ uartRdBufSize := by
        apply hsegs
        obtain ⟨body, -, hend, rfl, -⟩ := hframe
        have hno : uartEndFlag ∉ uartStartFlag :: body := by
          rw [List.mem_cons, not_or]
          exact ⟨by decide, hend⟩
        have hseg := segments_segment pre hno post
        rw [List.cons_append] at hseg
        rw [hstream, hseg]
        simp
      exact padded_run_ne hrun hframe hfit (List.mem_singleton.mp hmem).symm
    · cases hmem

/-- A frame behind an end flag, with noise in front of that. -/
theorem uartReadThread_resync_noise :
    (uartReadThread newYearEnv ([0x0A, 0x26, 0x24, 0x61, 0x26].map .data)).coapMsgQ
      = [padded uartRdBufSize [0x24, 0x61, 0x26]] :=
  (@uartReadThread_resync (fun _ => newYear) (fun _ => true) (fun _ => true)
    ([0x0A, 0x26, 0x24, 0x61, 0x26].map .data) [0x0A, 0x26] [0x24, 0x61, 0x26] [] (fun _ => rfl)
    (fun _ => rfl) rfl ⟨[0x61], by decide, by decide, rfl, by decide⟩ (by decide)
    (by decide)).1 (Or.inr rfl)

/-- A line feed in front of a frame makes the reader throw it away. -/
theorem not_queued_lineFeed :
    CompleteFrame [0x24, 0x61, 0x26] ∧
      received ([0x0A, 0x24, 0x61, 0x26].map .data) = [0x0A] ++ [0x24, 0x61, 0x26] ∧
      (uartReadThread newYearEnv ([0x0A, 0x24, 0x61, 0x26].map .data)).coapMsgQ = [] :=
  ⟨⟨[0x61], by decide, by decide, rfl, by decide⟩, rfl,
    queue_eq_frames (fun _ => rfl) (fun _ => rfl) (by decide) (by decide)⟩

end Gateway.Uart.Resync
