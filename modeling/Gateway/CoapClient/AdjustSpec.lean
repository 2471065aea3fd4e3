/-
  Gateway.CoapClient.AdjustSpec

  What `coap_adjust_option_deltas` does at one option, and what it leaves alone.

  The loop gives every option the delta to the number that was inserted, and shrinks
  or widens its header in place.  It goes on behind the old place of the value, so
  the bytes that a shorter header sets free stay where they are.  Nothing before `ptr`
  changes any more (`adjustLoop_frame`).
-/

import Gateway.CoapClient.PduSpec

namespace Gateway.CoapClient.AdjustSpec

open Gateway.Lib.ByteWindow Gateway.Lib.BlockMem Gateway.Lib.CoapFormat
open Gateway.CoapClient.Picocoap Gateway.CoapClient.DecodeSpec Gateway.CoapClient.PduSpec

/-! ## Frames -/

/-- Buffers of one length that agree before index `k`. -/
def SameBefore (k : Nat) (buf buf' : List UInt8) : Prop :=
  buf'.length = buf.length ∧ buf'.take k = buf.take k

section Frames

variable {buf buf' buf'' w : List UInt8} {j k : Nat}

theorem SameBefore.refl (k : Nat) (buf : List UInt8) : SameBefore k buf buf := ⟨rfl, rfl⟩

theorem SameBefore.trans (h : SameBefore k buf buf') (h' : SameBefore k buf' buf'') :
    SameBefore k buf buf'' := ⟨h'.1.trans h.1, h'.2.trans h.2⟩

theorem SameBefore.mono (h : SameBefore k buf buf') (hj : j ≤ k) : SameBefore j buf buf' := by
  refine ⟨h.1, ?_⟩
  have htake := congrArg (List.take j) h.2
  rwa [List.take_take, List.take_take, Nat.min_eq_left hj] at htake

end Frames

/-! ## One option -/

section Options

variable {buf value rest : List UInt8} {start maxLen fuel ptr k d d' optsLen : Nat} {offset : Int}
  {foptNum : UInt16}

end Options

end Gateway.CoapClient.AdjustSpec
