/-
  Gateway.CoapClient.IteratorEnd

  What the option iterator of the client returns at the end of a message.

  `coap_pretty_print` takes the last value of `coap_get_option`, the one with number
  0, for the payload.  The iterator points to the payload only when it meets the
  marker before any option: behind an option `option.val` is still NULL, and the
  length is computed from that (`endOption`).  So the last value is that of
  `coap_get_payload` exactly when there are no options or no payload
  (`endsWithPayload_iff`).
-/

import Gateway.CoapClient.DecodersAgree

namespace Gateway.CoapClient.IteratorEnd

open Gateway.Lib.ByteWindow Gateway.Lib.CoapFormat
open Gateway.CoapClient.Picocoap Gateway.CoapClient.DecodeSpec Gateway.CoapClient.PduSpec
open Gateway.CoapClient.GetterSpec Gateway.CoapClient.DecodersAgree

variable {addr : Nat} {pdu : CoapPdu} {msg : Message}

/-! ## Messages -/

/-- A message of the format with option numbers of 16 bits. -/
structure WellFormed (msg : Message) : Prop where
  ver : msg.ver = 1
  nums : ∀ o ∈ msg.opts, 1 ≤ o.num ∧ o.num ≤ 65535
  lens : ∀ o ∈ msg.opts, o.value.length ≤ extMax

/-- The lengths of the values are numbers of 16 bits, as `coap_decode_option` keeps them. -/
def ShortValues (os : List Opt) : Prop := ∀ o ∈ os, o.value.length ≤ 65535

instance (os : List Opt) : Decidable (ShortValues os) :=
  inferInstanceAs (Decidable (∀ o ∈ os, o.value.length ≤ 65535))

theorem Holds.encodes_of_short (h : Holds addr pdu msg) (hmsg : WellFormed msg)
    (hshort : ShortValues msg.opts) : Encodes pdu msg where
  size := h.size
  max_lt := h.max_lt
  bytes := h.bytes
  len := h.len
  ver := hmsg.ver
  nums o ho := (hmsg.nums o ho).2
  lens := hshort

theorem Holds.placedAt_of_encodes (h : Holds addr pdu msg) (henc : Encodes pdu msg) :
    PlacedAt addr pdu where
  pos := h.pos
  lt := by
    have hle := henc.len_le
    have hlt := h.lt
    omega

/-- With options the iterator ends behind a number that is not 0. -/
theorem lastNum_pos {os : List Opt} (hnums : ∀ o ∈ os, 1 ≤ o.num) {prev : Nat}
    (hne : os ≠ [] ∨ 1 ≤ prev) : 1 ≤ lastNum prev os := by
  induction os generalizing prev with
  | nil => exact hne.resolve_left fun hnil => hnil rfl
  | cons o os ih =>
    exact ih (fun o' ho' => hnums o' (List.mem_cons_of_mem _ ho'))
      (Or.inr (hnums o (List.mem_cons_self ..)))

/-! ## The end of the iteration -/

/-- What `coap_pretty_print` relies on: iterated from the first option, `coap_get_option` ends with
    the pointer and the length of `coap_get_payload` when there is a payload, and with NULL and 0
    when there is none. -/
def EndsWithPayload (addr : Nat) (pdu : CoapPdu) (msg : Message) : Prop :=
  ∀ start : CoapOption, start.num = 0 → ∃ opts last payload,
    prettyPrintOptions addr pdu (pdu.buf.length + 1) start = some (opts, last) ∧
    coapGetPayload pdu = some payload ∧ last.num = 0 ∧
    (msg.payload ≠ [] → payload.val.map (addr + ·) = some last.val ∧ last.len = payload.len) ∧
    (msg.payload = [] → last.val = 0 ∧ last.len = 0)

/-- The iteration over a message with short values. -/
theorem prettyPrintOptions_of_encodes (hpdu : Holds addr pdu msg) (henc : Encodes pdu msg)
    (hnums : ∀ o ∈ msg.opts, 1 ≤ o.num) {start : CoapOption} (hstart : start.num = 0) :
    ∃ opts, prettyPrintOptions addr pdu (pdu.buf.length + 1) start
      = some (opts, endOption addr pdu (lastNum 0 msg.opts) (payloadBytes msg.payload)) := by
  have hopts := henc.optionsAt
  obtain ⟨opts, hrun, -⟩ := prettyPrintOptions_eq (Holds.placedAt_of_encodes hpdu henc)
    (standsAt_first_of_encodes henc hstart) hopts (Nat.zero_le _) hnums hopts.length_lt_fuel
  exact ⟨opts, hrun⟩

/-- The payload stands at the end of the packet. -/
theorem coapGetPayload_at_end (henc : Encodes pdu msg) (hsome : msg.payload ≠ []) :
    coapGetPayload pdu = some
      { len := msg.payload.length, val := some (pdu.len - msg.payload.length) } := by
  have hlen := henc.len
  rw [encode_length, bodyOf, payloadBytes_of_ne_nil hsome, List.length_append,
    List.length_cons] at hlen
  have hval : 4 + msg.token.length + (optsBytes (toWire 0 msg.opts)).length + 1
      = pdu.len - msg.payload.length := by
    omega
  rw [henc.coapGetPayload, if_neg hsome, hval]

/-- With a payload, the iteration ends as it should exactly when there are no options; without one
    it always does. -/
theorem endsWithPayload_of_short (hmsg : WellFormed msg) (hpdu : Holds addr pdu msg)
    (hshort : ShortValues msg.opts) :
    EndsWithPayload addr pdu msg ↔ msg.opts = [] ∨ msg.payload = [] := by
  have henc := Holds.encodes_of_short hpdu hmsg hshort
  have hnums : ∀ o ∈ msg.opts, 1 ≤ o.num := fun o ho => (hmsg.nums o ho).1
  have hpos := hpdu.pos
  constructor
  · intro h
    by_contra hcond
    obtain ⟨hopts, hsome⟩ := not_or.mp hcond
    -- behind an option the pointer is NULL, and the payload is not at NULL
    obtain ⟨opts, hrun⟩ := @prettyPrintOptions_of_encodes _ _ _ hpdu henc hnums ⟨0, 0, 0⟩ rfl
    obtain ⟨opts', last, payload, hrun', hget, -, hend, -⟩ := h ⟨0, 0, 0⟩ rfl
    rw [hrun] at hrun'
    rw [coapGetPayload_at_end henc hsome] at hget
    obtain ⟨-, rfl⟩ := Prod.mk.inj (Option.some_inj.mp hrun')
    obtain rfl := Option.some_inj.mp hget
    have hval := (hend hsome).1
    have hlast := lastNum_pos hnums (Or.inl hopts : msg.opts ≠ [] ∨ 1 ≤ 0)
    rw [payloadBytes_of_ne_nil hsome, endOption, if_neg (by omega), Option.map_some,
      Option.some_inj] at hval
    have hnull : addr + (pdu.len - msg.payload.length) = 0 := hval
    omega
  · intro hcond start hstart
    obtain ⟨opts, hrun⟩ := prettyPrintOptions_of_encodes hpdu henc hnums hstart
    refine ⟨opts, _, _, hrun, henc.coapGetPayload, endOption_num .., ?_, ?_⟩
    · intro hsome
      have hnil := hcond.resolve_right hsome
      have hget := henc.coapGetPayload
      rw [coapGetPayload_at_end henc hsome] at hget
      obtain ⟨hlen, hval⟩ := CoapPayload.mk.inj (Option.some_inj.mp hget)
      rw [hnil, payloadBytes_of_ne_nil hsome, endOption, lastNum, if_pos rfl, ← hnil, ← hval,
        Option.map_some]
      exact ⟨rfl, rfl⟩
    · intro hnone
      rw [hnone]
      exact ⟨rfl, rfl⟩

/-- The iteration ends as it should when there are no options, and when there is no payload and
    every value is short; in all other cases it does not, or a value is too long for the decoder. -/
theorem endsWithPayload_iff (hmsg : WellFormed msg) (hpdu : Holds addr pdu msg) :
    (msg.opts = [] ∨ msg.payload = [] ∧ ShortValues msg.opts → EndsWithPayload addr pdu msg) ∧
    (EndsWithPayload addr pdu msg →
      (msg.opts = [] ∨ msg.payload = [] ∧ ShortValues msg.opts) ∨ ¬ ShortValues msg.opts) := by
  refine ⟨?_, ?_⟩
  · rintro (hnil | ⟨hnone, hshort⟩)
    · have hshort : ShortValues msg.opts := by
        rw [hnil]
        exact fun o ho => absurd ho List.not_mem_nil
      exact (endsWithPayload_of_short hmsg hpdu hshort).mpr (Or.inl hnil)
    · exact (endsWithPayload_of_short hmsg hpdu hshort).mpr (Or.inr hnone)
  · intro h
    by_cases hshort : ShortValues msg.opts
    · rcases (endsWithPayload_of_short hmsg hpdu hshort).mp h with hnil | hnone
      · exact Or.inl (Or.inl hnil)
      · exact Or.inl (Or.inr ⟨hnone, hshort⟩)
    · exact Or.inr hshort

/-! ## A message with and without an option -/

/-- A response with the payload `b`, and in front of it the options `os`. -/
def contentMessage (os : List Opt) (hsorted : (os.map Opt.num).Pairwise (· ≤ ·)) : Message where
  ver := 1
  type := 0
  code := 0x45
  idHi := 0
  idLo := 1
  token := []
  opts := os
  payload := [0x62]
  token_le := noToken_le
  sorted := hsorted

/-- The packet that holds exactly the message. -/
def packed (msg : Message) : CoapPdu :=
  { buf := msg.encode, len := msg.encode.length, max := msg.encode.length }

theorem holds_packed (hlt : msg.encode.length < 2 ^ 32) : Holds 4096 (packed msg) msg :=
  ⟨rfl, by simp only [packed]; omega, by decide, by simp only [packed]; omega,
    ⟨[], (List.append_nil _).symm⟩, rfl⟩

/-- Without options the payload is found. -/
theorem endsWithPayload_iff_noOption :
    EndsWithPayload 4096 (packed (contentMessage [] List.Pairwise.nil))
      (contentMessage [] List.Pairwise.nil) :=
  (endsWithPayload_iff ⟨rfl, by decide, by decide⟩ (holds_packed (by decide))).1 (Or.inl rfl)

/-- Behind a Uri-Path it is not. -/
theorem not_endsWithPayload_uriPath :
    ∃ msg, WellFormed msg ∧ Holds 4096 (packed msg) msg ∧
      msg.encode = [0x40, 0x45, 0x00, 0x01, 0xB1, 0x61, 0xFF, 0x62] ∧
      ¬ EndsWithPayload 4096 (packed msg) msg := by
  have hmsg : WellFormed (contentMessage [⟨11, [0x61]⟩] (List.pairwise_singleton _ _)) :=
    ⟨rfl, by decide, by decide⟩
  refine ⟨_, hmsg, holds_packed (by decide), by decide, fun h => ?_⟩
  have hcond := (endsWithPayload_of_short hmsg (holds_packed (by decide)) (by
    intro o ho
    rw [List.mem_singleton.mp ho]
    decide)).mp h
  exact absurd hcond (by decide)

end Gateway.CoapClient.IteratorEnd
