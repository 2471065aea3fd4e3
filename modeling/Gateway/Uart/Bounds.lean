/-
  Gateway.Uart.Bounds

  When the index of `Uart_ReadThread` stays inside of its buffer, and when the
  messages it queues are strings.

  The index goes back to 0 at an end flag only, and nothing compares it with the size
  of the buffer.  A frame that fills the buffer is queued without a NUL behind it,
  and one with a NUL inside is cut there by `strlen`.
-/

import Gateway.Uart.Framing

namespace Gateway.Uart.Bounds

open Gateway.Lib.CString Gateway.Lib.Framing
open Gateway.Uart.ReadThread Gateway.Uart.Framing

/-- Whatever memory there is, and whatever `Insert_db` does: every byte is stored inside of the
    buffer, and every queued message is one segment of the stream, whose bytes `strlen` counts. -/
def Bounded (polls : List Poll) : Prop :=
  ∀ env, (uartReadThread env polls).stop ≠ some .overrun ∧
    ∀ msg ∈ (uartReadThread env polls).coapMsgQ,
      ∃ seg ∈ segments uartEndFlag (received polls),
        seg.head? = some uartStartFlag ∧ msg = padded uartRdBufSize seg ∧
          strlen msg = some seg.length

/-- The stream has no run without an end flag that is longer than the buffer, and its frames leave
    room for a NUL and have none inside. -/
structure Fits (stream : List UInt8) : Prop where
  segs : ∀ seg ∈ segments uartEndFlag stream, seg.length ≤ uartRdBufSize
  rest : (unfinished uartEndFlag stream).length ≤ uartRdBufSize
  frames : ∀ seg ∈ segments uartEndFlag stream, seg.head? = some uartStartFlag →
    seg.length < uartRdBufSize ∧ 0 ∉ seg

/-- Memory never runs out, and `Insert_db` always comes back. -/
def plenty : Env := ⟨fun _ _ => some [], fun _ => true, fun _ => true⟩

/-! ## Streams that fit -/

theorem mem_frames {stream msg : List UInt8} :
    msg ∈ frames stream ↔ ∃ seg ∈ segments uartEndFlag stream,
      seg.head? = some uartStartFlag ∧ padded uartRdBufSize seg = msg := by
  simp only [frames, List.mem_map, List.mem_filter, decide_eq_true_eq, and_assoc]

/-- What was queued is among the frames of the stream. -/
theorem mem_frames_of_queued {env : Env} {polls : List Poll} {msg : List UInt8}
    (h : msg ∈ (uartReadThread env polls).coapMsgQ) : msg ∈ frames (received polls) := by
  have hhanded := uartReadThread_handedOn env polls
  exact hhanded.logged.subset (List.mem_of_mem_take (hhanded.queued.subset h))

/-- With a stream that fits the buffer is not left. -/
theorem stop_ne_overrun {polls : List Poll}
    (hsegs : ∀ seg ∈ segments uartEndFlag (received polls), seg.length ≤ uartRdBufSize)
    (hrest : (unfinished uartEndFlag (received polls)).length ≤ uartRdBufSize) (env : Env) :
    (uartReadThread env polls).stop ≠ some .overrun := by
  rcases reads_or_stopped env polls with hreads | hstopped
  · rw [hreads.running]
    exact (Option.some_ne_none _).symm
  · cases hstopped.cause with
    | sqlOverrun buf hstop =>
      rw [hstop]
      decide
    | exit hstop =>
      rw [hstop]
      decide
    | overrun hstop hposted hlong =>
      rcases hlong with ⟨seg, hseg, hlong⟩ | ⟨hlong, -⟩
      · exact absurd (hsegs seg hseg) (by omega)
      · omega

theorem bounded_of_fits {polls : List Poll} (h : Fits (received polls)) : Bounded polls := by
  intro env
  refine ⟨stop_ne_overrun h.segs h.rest env, fun msg hmsg => ?_⟩
  obtain ⟨seg, hseg, hstart, rfl⟩ := mem_frames.mp (mem_frames_of_queued hmsg)
  obtain ⟨hlen, hnul⟩ := h.frames seg hseg hstart
  exact ⟨seg, hseg, hstart, rfl, strlen_padded hlen hnul⟩

/-! ## Streams that do not fit -/

/-- A reader that stays inside of the buffer, with memory, has read the stream. -/
theorem reads_of_inside {polls : List Poll}
    (h : (uartReadThread plenty polls).stop ≠ some .overrun) :
    Reads plenty (received polls) (uartReadThread plenty polls) := by
  rcases reads_or_stopped plenty polls with hreads | hstopped
  · exact hreads
  · cases hstopped.cause with
    | sqlOverrun buf hstop hposted hlast hsql => cases hsql
    | exit hstop hposted htmp => cases htmp
    | overrun hstop => exact absurd hstop h

/-- `strlen` counts the bytes of a text in its array exactly when there is room for a NUL and
    none inside. -/
theorem strlen_padded_iff {k : Nat} {text : List UInt8} (h : text.length ≤ k) :
    strlen (padded k text) = some text.length ↔ text.length < k ∧ 0 ∉ text := by
  constructor
  · intro hlen
    obtain ⟨hlt, hnul, hbefore⟩ := List.findIdx?_eq_some_iff_getElem.mp hlen
    rw [padded_length h] at hlt
    refine ⟨hlt, fun hmem => ?_⟩
    obtain ⟨i, hi, hb⟩ := List.mem_iff_getElem.mp hmem
    -- the byte stands before the end of the string, so it is no NUL
    refine hbefore i hi (beq_iff_eq.mpr ?_)
    rw [← hb]
    exact List.getElem_append_left hi
  · rintro ⟨hlt, hnul⟩
    exact strlen_padded hlt hnul

/-- The last byte of a text that does not end with a NUL is found in its array. -/
theorem length_le_of_padded {k : Nat} {a b : List UInt8} {d : UInt8} (hd : d ≠ 0)
    (ha : (a ++ [d]).length ≤ k) (h : padded k (a ++ [d]) = padded k (b ++ [d])) :
    a.length ≤ b.length := by
  by_contra hlt
  rw [List.length_append, List.length_singleton] at ha
  have hleft : (padded k (a ++ [d]))[a.length]? = some d := by
    rw [padded, List.append_assoc, List.getElem?_append_right (Nat.le_refl _), Nat.sub_self]
    rfl
  have hright : (padded k (b ++ [d]))[a.length]? = some 0 := by
    rw [padded, List.getElem?_append_right (by rw [List.length_append, List.length_singleton]; omega),
      List.getElem?_replicate, if_pos (by rw [List.length_append, List.length_singleton]; omega)]
  rw [h, hright] at hleft
  exact hd (Option.some_inj.mp hleft).symm

/-- A segment is determined by its array. -/
theorem segment_of_padded {stream seg seg' : List UInt8} (hseg : seg ∈ segments uartEndFlag stream)
    (hseg' : seg' ∈ segments uartEndFlag stream)
    (hfit : ∀ s ∈ segments uartEndFlag stream, s.length ≤ uartRdBufSize)
    (h : padded uartRdBufSize seg = padded uartRdBufSize seg') : seg = seg' := by
  have hle := hfit seg hseg
  have hle' := hfit seg' hseg'
  obtain ⟨a, -, rfl⟩ := mem_segments hseg
  obtain ⟨b, -, rfl⟩ := mem_segments hseg'
  have hend : uartEndFlag ≠ 0 := by decide
  have hab := length_le_of_padded hend hle h
  have hba := length_le_of_padded hend hle' h.symm
  have hlen : (a ++ [uartEndFlag]).length = (b ++ [uartEndFlag]).length := by
    rw [List.length_append, List.length_append]
    omega
  exact (List.append_inj h hlen).1

theorem fits_of_bounded {polls : List Poll} (h : Bounded polls) : Fits (received polls) := by
  obtain ⟨hstop, hqueue⟩ := h plenty
  have hreads := reads_of_inside hstop
  refine ⟨hreads.segs, hreads.fits, fun seg hseg hstart => ?_⟩
  have hmem : padded uartRdBufSize seg ∈ (uartReadThread plenty polls).coapMsgQ := by
    rw [hreads.allQueued fun _ => rfl, hreads.posted, List.take_length, hreads.all]
    exact mem_frames.mpr ⟨seg, hseg, hstart, rfl⟩
  obtain ⟨seg', hseg', -, heq, hlen⟩ := hqueue _ hmem
  obtain rfl := segment_of_padded hseg hseg' hreads.segs heq
  exact (strlen_padded_iff (hreads.segs seg hseg)).mp hlen

/-- The reader stays in its bounds exactly on the streams that fit. -/
theorem bounded_iff (polls : List Poll) : Bounded polls ↔ Fits (received polls) :=
  ⟨fits_of_bounded, bounded_of_fits⟩

/-- A frame that is the whole stream has to be a string in its array. -/
theorem not_bounded_frame {body : List UInt8} (hend : uartEndFlag ∉ body)
    (hstart : (body ++ [uartEndFlag]).head? = some uartStartFlag)
    (hbad : ¬ ((body ++ [uartEndFlag]).length < uartRdBufSize ∧ 0 ∉ body ++ [uartEndFlag])) :
    ¬ Bounded ((body ++ [uartEndFlag]).map .data) := by
  intro h
  have hfits := fits_of_bounded h
  rw [received_map_data] at hfits
  refine hbad (hfits.frames _ ?_ hstart)
  rw [segments_frame hend]
  exact List.mem_singleton.mpr rfl

/-- 513 bytes without an end flag leave the buffer, a frame of 512 bytes has no NUL behind it, and
    one with a NUL is cut. -/
theorem not_bounded_examples :
    ¬ Bounded ((List.replicate 513 0x61).map .data) ∧
      ¬ Bounded (((uartStartFlag :: List.replicate 510 0x61) ++ [uartEndFlag]).map .data) ∧
      ¬ Bounded (([uartStartFlag, 0x00] ++ [uartEndFlag]).map .data) := by
  refine ⟨fun h => ?_, not_bounded_frame ?_ rfl ?_, not_bounded_frame (by decide) rfl ?_⟩
  · have hrest := (fits_of_bounded h).rest
    have hno : uartEndFlag ∉ List.replicate 513 (0x61 : UInt8) :=
      fun hc => absurd (List.eq_of_mem_replicate hc) (by decide)
    have hall := (segments_append_body [] hno).2
    rw [List.nil_append, unfinished_nil, List.nil_append] at hall
    rw [received_map_data, hall, List.length_replicate] at hrest
    exact absurd hrest (by decide)
  · intro hc
    rcases List.mem_cons.mp hc with hc | hc
    · exact absurd hc (by decide)
    · exact absurd (List.eq_of_mem_replicate hc) (by decide)
  · rintro ⟨hlen, -⟩
    rw [List.length_append, List.length_cons, List.length_replicate] at hlen
    exact absurd hlen (by decide)
  · rintro ⟨-, hnul⟩
    exact hnul (by decide)

end Gateway.Uart.Bounds
