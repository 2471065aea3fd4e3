/-
  Gateway.CoapServer.ParseSpec

  What `coap_parse` computes, as a function of the bytes of the datagram.

  `walk` reads options off a byte list the way the loop of
  `coap_parseOptionsAndPayload` does: the header of an option is that of the
  format, but its length is cut down to 16 bits, and at most `free` options are
  read.  `decodeMsg` is the whole parser on bytes, `packetOf` the packet whose
  pointers say where in the buffer the parts were found.  The main results are
  `coapParse_ok` and `coapParse_err`: `coap_parse` returns `packetOf` of what
  `decodeMsg` finds, an error code where it finds nothing, and never reads outside
  the first `buflen` bytes.
-/

import Gateway.Lib.ByteBits
import Gateway.Lib.CoapFormat
import Gateway.CoapServer.Microcoap

namespace Gateway.CoapServer.ParseSpec

open Gateway.Lib.ByteWindow Gateway.Lib.BlockMem Gateway.Lib.ByteBits Gateway.Lib.CoapFormat
open Gateway.CoapServer.Microcoap

variable {O : Type}

/-! ## Parsing byte lists -/

/-- An option the parser found: the delta and the length that stand on the wire, and
    the bytes it took for the value. -/
structure Seen where
  delta : Nat
  len : Nat
  value : List UInt8
  deriving DecidableEq, Repr

/-- The bytes of the option, its header and its value. -/
def Seen.bytes (s : Seen) : List UInt8 := optHeader s.delta s.len ++ s.value

/-- The bytes of a list of options. -/
def seenBytes (ss : List Seen) : List UInt8 := ss.flatMap Seen.bytes

@[simp] theorem seenBytes_nil : seenBytes [] = [] := rfl

@[simp] theorem seenBytes_cons (s : Seen) (ss : List Seen) :
    seenBytes (s :: ss) = s.bytes ++ seenBytes ss := rfl

/-- At most `free` options, and the bytes behind them. -/
def walk : Nat → List UInt8 → Option (List Seen × List UInt8)
  | 0, bs => some ([], bs)
  | _ + 1, [] => some ([], [])
  | free + 1, b :: bs =>
    if b = 0xFF then some ([], b :: bs) else
    match readOptHeader (b :: bs) with
    | none => none
    | some (delta, len, rest) =>
      if rest.length < len % 65536 then none else
      match walk free (rest.drop (len % 65536)) with
      | none => none
      | some (ss, tail) => some (⟨delta, len, rest.take (len % 65536)⟩ :: ss, tail)

/-- The parts of a datagram. -/
structure Parsed where
  b0 : UInt8
  code : UInt8
  idHi : UInt8
  idLo : UInt8
  token : List UInt8
  seen : List Seen
  tail : List UInt8
  deriving DecidableEq, Repr

/-- The parser on bytes. -/
def decodeMsg : List UInt8 → Option Parsed
  | b0 :: code :: idHi :: idLo :: bs =>
    if b0.toNat / 64 ≠ 1 then none
    else if 8 < b0.toNat % 16 then none
    else if bs.length < b0.toNat % 16 then none
    else
      match walk maxopt (bs.drop (b0.toNat % 16)) with
      | none => none
      | some (seen, tail) => some ⟨b0, code, idHi, idLo, bs.take (b0.toNat % 16), seen, tail⟩
  | _ => none

/-- The payload of a datagram whose options end before `tail`. -/
def payloadOf : List UInt8 → List UInt8
  | b :: x :: xs => if b = 0xFF then x :: xs else []
  | _ => []

/-! ## The packet that is found -/

/-- The entries of `opts` for options that start at offset `off` of object `obj`. -/
def layoutOpts (obj : O) : Nat → Nat → List Seen → List (CoapOption O)
  | _, _, [] => []
  | off, num, s :: ss =>
    let valueOff := off + (optHeader s.delta s.len).length
    { num := UInt8.ofNat (num + s.delta),
      buf := { p := some ⟨obj, valueOff⟩, len := s.value.length } }
      :: layoutOpts obj (valueOff + s.value.length) (num + s.delta) ss

/-- The payload descriptor for a payload whose marker is at offset `off`. -/
def layoutPayload (obj : O) (off : Nat) (payload : List UInt8) : CoapBuffer O :=
  if payload = [] then { p := none, len := 0 }
  else { p := some ⟨obj, off + 1⟩, len := payload.length }

/-- The packet `coap_parse` builds for a datagram in `buf` with these parts. -/
def packetOf (buf : Ptr O) (r : Parsed) : CoapPacket O where
  hdr := { ver := 1, t := (r.b0 &&& 0x30) >>> 4, tkl := r.b0 &&& 0x0F, code := r.code,
           idHi := r.idHi, idLo := r.idLo }
  tok := if r.token = [] then { p := none, len := 0 }
    else { p := some (buf.add 4), len := r.token.length }
  opts := layoutOpts buf.obj (buf.off + 4 + r.token.length) 0 r.seen
  payload := layoutPayload buf.obj (buf.off + 4 + r.token.length + (seenBytes r.seen).length)
    (payloadOf r.tail)

/-! ## What walk finds -/

theorem Seen.bytes_length (s : Seen) :
    s.bytes.length = (optHeader s.delta s.len).length + s.value.length := by
  rw [Seen.bytes, List.length_append]

/-- One step of the walk, at an option. -/
theorem walk_cons {free : Nat} {bs rest : List UInt8} {delta len : Nat}
    (hb : ∃ b bs', bs = b :: bs' ∧ b ≠ 0xFF) (h : readOptHeader bs = some (delta, len, rest))
    (hlen : len % 65536 ≤ rest.length) :
    walk (free + 1) bs = (walk free (rest.drop (len % 65536))).map
      fun r => (⟨delta, len, rest.take (len % 65536)⟩ :: r.1, r.2) := by
  obtain ⟨b, bs', rfl, hne⟩ := hb
  rw [walk, if_neg hne, h]
  simp only
  rw [if_neg (by omega)]
  cases walk free (rest.drop (len % 65536)) with
  | none => rfl
  | some r => rfl

/-- A walk that succeeds: it stops, or it takes an option and goes on behind it. -/
inductive Walks : Nat → List UInt8 → List Seen → List UInt8 → Prop
  | stop {free : Nat} {bs : List UInt8} (h : free = 0 ∨ bs = [] ∨ ∃ t, bs = 0xFF :: t) :
      Walks free bs [] bs
  | option {free : Nat} {b : UInt8} {bs rest tail : List UInt8} {delta len : Nat}
      {ss : List Seen} (hb : b ≠ 0xFF) (hread : readOptHeader (b :: bs) = some (delta, len, rest))
      (hfit : len % 65536 ≤ rest.length) (hrest : Walks free (rest.drop (len % 65536)) ss tail) :
      Walks (free + 1) (b :: bs) (⟨delta, len, rest.take (len % 65536)⟩ :: ss) tail

theorem walks_of_walk {free : Nat} {bs tail : List UInt8} {ss : List Seen}
    (h : walk free bs = some (ss, tail)) : Walks free bs ss tail := by
  induction free generalizing bs ss with
  | zero =>
    obtain ⟨rfl, rfl⟩ : [] = ss ∧ bs = tail := by simpa [walk] using h
    exact Walks.stop (Or.inl rfl)
  | succ free ih =>
    cases bs with
    | nil =>
      obtain ⟨rfl, rfl⟩ : [] = ss ∧ [] = tail := by simpa [walk] using h
      exact Walks.stop (Or.inr (Or.inl rfl))
    | cons b bs =>
      rw [walk] at h
      split at h
      · next hb =>
        obtain ⟨rfl, rfl⟩ : [] = ss ∧ b :: bs = tail := by simpa using h
        exact Walks.stop (Or.inr (Or.inr ⟨bs, by rw [hb]⟩))
      next hb =>
      split at h
      · cases h
      next delta len rest hread =>
      split at h
      · cases h
      next hfit =>
      split at h
      · cases h
      next ss' tail' hwalk =>
      obtain ⟨rfl, rfl⟩ :
          (⟨delta, len, rest.take (len % 65536)⟩ : Seen) :: ss' = ss ∧ tail' = tail := by
        simpa using h
      exact Walks.option hb hread (Nat.le_of_not_lt hfit) (ih hwalk)

/-- The walk splits its input into the options it found and the rest. -/
theorem walk_bytes {free : Nat} {bs tail : List UInt8} {ss : List Seen}
    (h : walk free bs = some (ss, tail)) : bs = seenBytes ss ++ tail := by
  replace h := walks_of_walk h
  induction h with
  | stop => rfl
  | option _ hread _ _ ih =>
    rw [(eq_optHeader_of_readOptHeader hread).1, seenBytes_cons, Seen.bytes, List.append_assoc,
      List.append_assoc, ← ih, List.take_append_drop]

/-- The options the walk found: each one's value has its length cut down to 16 bits, and
    its delta and length are numbers the format can carry. -/
def Seen.Sound (s : Seen) : Prop :=
  s.value.length = s.len % 65536 ∧ s.delta ≤ extMax ∧ s.len ≤ extMax

instance (s : Seen) : Decidable s.Sound :=
  inferInstanceAs (Decidable (s.value.length = s.len % 65536 ∧ s.delta ≤ extMax ∧ s.len ≤ extMax))

theorem walk_sound {free : Nat} {bs tail : List UInt8} {ss : List Seen}
    (h : walk free bs = some (ss, tail)) :
    ss.length ≤ free ∧ (∀ s ∈ ss, s.Sound) ∧
      (ss.length < free → tail = [] ∨ ∃ t, tail = 0xFF :: t) := by
  replace h := walks_of_walk h
  induction h with
  | stop hstop =>
    refine ⟨Nat.zero_le _, fun s hs => absurd hs List.not_mem_nil, fun hlt => ?_⟩
    exact hstop.resolve_left (Nat.ne_of_gt hlt)
  | option _ hread hfit _ ih =>
    obtain ⟨hcount, hsound, htail⟩ := ih
    obtain ⟨-, hdelta, hlen⟩ := eq_optHeader_of_readOptHeader hread
    refine ⟨Nat.succ_le_succ hcount, ?_, fun hlt => htail (Nat.lt_of_succ_lt_succ hlt)⟩
    intro s hs
    rcases List.mem_cons.mp hs with rfl | hs
    · refine ⟨?_, hdelta, hlen⟩
      rw [List.length_take, Nat.min_eq_left hfit]
    · exact hsound s hs

/-! ## coap_parseOption -/

section Ext

variable {m : Mem O} {buflen headlen : Nat} {invalid : CoapError} {nib : UInt16} {obj : O}
  {off k : Nat} {bs : List UInt8}

/-- An extension is read off the bytes `bs` behind the cursor. -/
theorem coapParseExt_ok {n : Nat} {rest : List UInt8} (hs : slice (m obj) (off + 1) k = bs)
    (hbs : headlen + bs.length = buflen) (h : readExt nib.toNat bs = some (n, rest)) :
    coapParseExt m buflen invalid nib headlen ⟨obj, off⟩
      = .ok (UInt16.ofNat n, headlen + (ext n).length, ⟨obj, off + (ext n).length⟩) := by
  -- both read the same three cases of the nibble
  obtain ⟨-, happ, -⟩ := eq_ext_of_readExt h
  have hlen : (ext n).length + rest.length = bs.length := by rw [happ, List.length_append]
  simp only [coapParseExt, ← UInt16.toNat_inj, UInt16.reduceToNat]
  unfold readExt at h
  split at h
  · next h13 =>
    obtain ⟨rfl, rfl⟩ : nib.toNat = n ∧ bs = rest := by simpa using h
    have hk : (ext nib.toNat).length = 0 := by omega
    rw [if_neg (by omega), if_neg (by omega), if_neg (by omega), hk, UInt16.ofNat_toNat]
    rfl
  split at h
  · next hnib =>
    cases bs with
    | nil => cases h
    | cons b bs =>
      obtain ⟨rfl, rfl⟩ : b.toNat + 13 = n ∧ bs = rest := by simpa using h
      have hk : (ext (b.toNat + 13)).length = 1 := by
        rw [List.length_cons] at hlen
        omega
      have hl : load m ((⟨obj, off⟩ : Ptr O).add 1) = some b := load_of_slice hs
      rw [List.length_cons] at hbs
      rw [if_pos hnib, if_neg (by omega), hl, hk, ← toUInt16_add]
      rfl
  split at h
  · next hne hnib =>
    match bs, h with
    | b :: c :: bs, h =>
      obtain ⟨rfl, rfl⟩ : b.toNat * 256 + c.toNat + 269 = n ∧ bs = rest := by simpa using h
      have hk : (ext (b.toNat * 256 + c.toNat + 269)).length = 2 := by
        simp only [List.length_cons] at hlen
        omega
      have hl : load m ((⟨obj, off⟩ : Ptr O).add 1) = some b := load_of_slice hs
      have hl2 : load m ((⟨obj, off⟩ : Ptr O).add 2) = some c :=
        load_of_slice (slice_succ_of_slice_eq_cons hs)
      simp only [List.length_cons] at hbs
      rw [if_neg hne, if_pos hnib, if_neg (by omega), hl, hl2, hk, ← bigEndian_add]
      rfl
  · cases h

/-- Where the bytes behind the cursor hold no extension, an error code is returned. -/
theorem coapParseExt_err (hs : slice (m obj) (off + 1) k = bs)
    (hbs : headlen + bs.length = buflen) (hnib : nib.toNat < 16)
    (h : readExt nib.toNat bs = none) :
    ∃ e, coapParseExt m buflen invalid nib headlen ⟨obj, off⟩ = .err e := by
  simp only [coapParseExt, ← UInt16.toNat_inj, UInt16.reduceToNat]
  unfold readExt at h
  split at h
  · cases h
  split at h
  · next hne hnib =>
    cases bs with
    | nil => exact ⟨_, by rw [if_pos hnib, if_pos (by rw [List.length_nil] at hbs; omega)]⟩
    | cons b bs => cases h
  split at h
  · next hne hnib =>
    have hlt : bs.length < 2 := by
      match bs, h with
      | [], _ => simp
      | [_], _ => simp
    exact ⟨_, by rw [if_neg hne, if_pos hnib, if_pos (by omega)]⟩
  · next hlt hne hne' =>
    exact ⟨invalid, by rw [if_neg hne, if_neg hne', if_pos (by omega)]⟩

end Ext

section Option

variable {m : Mem O} {obj : O} {off n : Nat} {bs : List UInt8}

/-- The first byte of an option header and what stands behind it. -/
theorem readOptHeader_cons {b : UInt8} {bs rest : List UInt8} {delta len : Nat}
    (h : readOptHeader (b :: bs) = some (delta, len, rest)) :
    ∃ bs', readExt (b.toNat / 16) bs = some (delta, bs') ∧
      readExt (b.toNat % 16) bs' = some (len, rest) := by
  simp only [readOptHeader] at h
  split at h
  · cases h
  next d bs' hd =>
  split at h
  · cases h
  next l r hl =>
  obtain ⟨rfl, rfl, rfl⟩ : d = delta ∧ l = len ∧ r = rest := by simpa using h
  exact ⟨bs', hd, hl⟩

/-- The delta nibble as the parser computes it. -/
theorem deltaNibble (b : UInt8) : ((b &&& 0xF0) >>> 4).toUInt16.toNat = b.toNat / 16 := by
  rw [UInt8.toNat_toUInt16, toNat_highNibble]

/-- The length nibble as the parser computes it. -/
theorem lenNibble (b : UInt8) : (b &&& 0x0F).toUInt16.toNat = b.toNat % 16 := by
  rw [UInt8.toNat_toUInt16, toNat_lowNibble]

/-- What stands behind an extension, in the buffer and in its length. -/
theorem behind_ext {nib d k : Nat} {rest : List UInt8} (hs : slice (m obj) (off + 1) k = bs)
    (h : readExt nib bs = some (d, rest)) :
    slice (m obj) (off + (ext d).length + 1) (k - (ext d).length) = rest ∧
      (ext d).length + rest.length = bs.length := by
  obtain ⟨-, happ, -⟩ := eq_ext_of_readExt h
  constructor
  · have hrest := slice_add_of_slice_eq_append (hs.trans happ)
    rwa [Nat.add_right_comm] at hrest
  · rw [happ, List.length_append]

/-- An option that is there is read: its number is the sum of the deltas cut down to 8
    bits, its length is cut down to 16 bits. -/
theorem coapParseOption_ok {num delta len : Nat} {rest : List UInt8}
    (hs : slice (m obj) off n = bs) (hn : bs.length = n)
    (h : readOptHeader bs = some (delta, len, rest)) (hfit : len % 65536 ≤ rest.length) :
    coapParseOption m (UInt16.ofNat num) ⟨obj, off⟩ n
      = .ok ({ num := UInt8.ofNat (num + delta),
               buf := { p := some ⟨obj, off + (optHeader delta len).length⟩,
                        len := len % 65536 } },
             UInt16.ofNat (num + delta),
             ⟨obj, off + (optHeader delta len).length + len % 65536⟩) := by
  cases bs with
  | nil => cases h
  | cons b bs =>
    obtain ⟨bs', hd, hl⟩ := readOptHeader_cons h
    rw [List.length_cons] at hn
    have hload : load m ⟨obj, off⟩ = some b := load_of_slice hs
    have hs1 := slice_succ_of_slice_eq_cons hs
    obtain ⟨hs2, hlen⟩ := behind_ext hs1 hd
    obtain ⟨-, hlen'⟩ := behind_ext hs2 hl
    have hhdr : (optHeader delta len).length = 1 + (ext delta).length + (ext len).length := by
      simp only [optHeader, List.length_cons, List.length_append]
      omega
    rw [coapParseOption, if_neg (by omega), hload]
    simp only [Outcome.liftM_some, Outcome.ok_bind]
    -- first the extension of the delta, then that of the length behind it
    rw [coapParseExt_ok hs1 (by omega) (deltaNibble b ▸ hd)]
    simp only [Outcome.ok_bind]
    rw [coapParseExt_ok hs2 (by omega) (lenNibble b ▸ hl)]
    simp only [Outcome.ok_bind, UInt16.toNat_ofNat']
    have hval : off + (ext delta).length + (ext len).length + 1
        = off + (optHeader delta len).length := by omega
    have hnext : off + (ext delta).length + (ext len).length + (1 + len % 65536)
        = off + (optHeader delta len).length + len % 65536 := by omega
    -- the number is added in 16 bits and stored in 8
    rw [if_neg (by omega), ofNat_add_toUInt8, ofNat_add_ofNat, Nat.add_comm delta num]
    simp only [Ptr.add, hval, hnext]

/-- Where there is no option header, or the value runs past the end, an error code is
    returned. -/
theorem coapParseOption_err {num : Nat} (hs : slice (m obj) off n = bs) (hn : bs.length = n)
    (h : ∀ delta len rest, readOptHeader bs = some (delta, len, rest) →
      rest.length < len % 65536) :
    ∃ e, coapParseOption m (UInt16.ofNat num) ⟨obj, off⟩ n = .err e := by
  cases bs with
  | nil =>
    rw [List.length_nil] at hn
    exact ⟨_, by rw [coapParseOption, if_pos (by omega)]⟩
  | cons b bs =>
    rw [List.length_cons] at hn
    have hload : load m ⟨obj, off⟩ = some b := load_of_slice hs
    have hs1 := slice_succ_of_slice_eq_cons hs
    have hnib := deltaNibble b
    have hnib' := lenNibble b
    have hb := b.toNat_lt
    rw [coapParseOption, if_neg (by omega), hload]
    simp only [Outcome.liftM_some, Outcome.ok_bind]
    -- the delta, the length and the value fail in this order
    cases hd : readExt (b.toNat / 16) bs with
    | none =>
      obtain ⟨e, he⟩ := @coapParseExt_err _ m n 1 .optionDeltaInvalid _ obj off _ _ hs1
        (by omega) (by omega) (hnib ▸ hd)
      exact ⟨e, by rw [he, Outcome.err_bind]⟩
    | some r =>
      obtain ⟨delta, bs'⟩ := r
      obtain ⟨hs2, hlen⟩ := behind_ext hs1 hd
      rw [coapParseExt_ok hs1 (by omega) (hnib ▸ hd)]
      simp only [Outcome.ok_bind]
      cases hl : readExt (b.toNat % 16) bs' with
      | none =>
        obtain ⟨e, he⟩ := @coapParseExt_err _ m n (1 + (ext delta).length) .optionLenInvalid _
          obj (off + (ext delta).length) _ _ hs2 (by omega) (by omega) (hnib' ▸ hl)
        exact ⟨e, by rw [he, Outcome.err_bind]⟩
      | some r =>
        obtain ⟨len, rest⟩ := r
        obtain ⟨-, hlen'⟩ := behind_ext hs2 hl
        have hover := h delta len rest (by simp only [readOptHeader, hd, hl])
        rw [coapParseExt_ok hs2 (by omega) (hnib' ▸ hl)]
        simp only [Outcome.ok_bind, UInt16.toNat_ofNat']
        exact ⟨.optionTooBig, by rw [if_pos (by omega)]⟩

/-- What stands behind an option, in the buffer and in its length. -/
theorem behind_option {end_ delta len : Nat} {rest : List UInt8}
    (hs : slice (m obj) off (end_ - off) = bs) (hn : off + bs.length = end_)
    (hread : readOptHeader bs = some (delta, len, rest)) (hfit : len % 65536 ≤ rest.length) :
    let next := off + (optHeader delta len).length + len % 65536
    slice (m obj) next (end_ - next) = rest.drop (len % 65536) ∧
      next + (rest.drop (len % 65536)).length = end_ := by
  intro next
  have happ := (eq_optHeader_of_readOptHeader hread).1
  have htake : (rest.take (len % 65536)).length = len % 65536 := by
    rw [List.length_take, Nat.min_eq_left hfit]
  have hsplit : bs = (optHeader delta len ++ rest.take (len % 65536))
      ++ rest.drop (len % 65536) := by
    rw [List.append_assoc, List.take_append_drop, happ]
  have hlen := congrArg List.length hsplit
  rw [List.length_append, List.length_append, htake] at hlen
  have hs' := slice_add_of_slice_eq_append (hs.trans hsplit)
  rw [List.length_append, htake] at hs'
  constructor
  · rw [← hs']
    congr 1 <;> omega
  · omega

end Option

/-! ## The option loop -/

/-- The loop finds what the walk finds and stops where the walk stops. -/
theorem coapParseOptions_ok {m : Mem O} {obj : O} {end_ free off num : Nat} {bs tail : List UInt8}
    {ss : List Seen} (hs : slice (m obj) off (end_ - off) = bs) (hn : off + bs.length = end_)
    (h : walk free bs = some (ss, tail)) :
    coapParseOptions m end_ free (UInt16.ofNat num) ⟨obj, off⟩
      = .ok (layoutOpts obj off num ss, ⟨obj, off + (seenBytes ss).length⟩) := by
  replace h := walks_of_walk h
  induction h generalizing off num with
  | @stop free bs hstop =>
    cases free with
    | zero => rfl
    | succ free =>
      rcases hstop with h0 | rfl | ⟨t, rfl⟩
      · cases h0
      · -- the end of the packet
        rw [List.length_nil] at hn
        rw [coapParseOptions, if_neg (by simp only; omega)]
        rfl
      · -- the payload marker
        rw [List.length_cons] at hn
        have hload : load m ⟨obj, off⟩ = some 0xFF := load_of_slice hs
        rw [coapParseOptions, if_pos (by simp only; omega), hload]
        rfl
  | @option free b bs rest tail delta len ss hb hread hfit _ ih =>
    have hload : load m ⟨obj, off⟩ = some b := load_of_slice hs
    obtain ⟨hs', hn'⟩ := behind_option hs hn hread hfit
    have hlt : off < end_ := by
      rw [List.length_cons] at hn
      omega
    have htake : (rest.take (len % 65536)).length = len % 65536 := by
      rw [List.length_take, Nat.min_eq_left hfit]
    rw [coapParseOptions, if_pos hlt, hload]
    simp only [Outcome.liftM_some, Outcome.ok_bind]
    rw [if_neg hb, coapParseOption_ok hs (by omega) hread hfit]
    simp only [Outcome.ok_bind]
    rw [ih hs' hn']
    simp only [Outcome.ok_bind, layoutOpts, seenBytes_cons, Seen.bytes, List.length_append,
      htake, ← Nat.add_assoc]

/-- A walk that fails at an option: the option is not there, or the walk fails behind it. -/
theorem walk_none_cases {free : Nat} {b : UInt8} {bs : List UInt8}
    (h : walk (free + 1) (b :: bs) = none) :
    b ≠ 0xFF ∧ ((∀ delta len rest, readOptHeader (b :: bs) = some (delta, len, rest) →
        rest.length < len % 65536) ∨
      ∃ delta len rest, readOptHeader (b :: bs) = some (delta, len, rest) ∧
        len % 65536 ≤ rest.length ∧ walk free (rest.drop (len % 65536)) = none) := by
  have hb : b ≠ 0xFF := by
    rintro rfl
    rw [walk, if_pos rfl] at h
    cases h
  refine ⟨hb, ?_⟩
  -- an option that is there is passed over
  by_cases hopt : ∃ delta len rest, readOptHeader (b :: bs) = some (delta, len, rest) ∧
      len % 65536 ≤ rest.length
  · obtain ⟨delta, len, rest, hread, hfit⟩ := hopt
    rw [walk_cons ⟨b, bs, rfl, hb⟩ hread hfit] at h
    exact Or.inr ⟨delta, len, rest, hread, hfit, Option.map_eq_none_iff.mp h⟩
  · refine Or.inl fun delta len rest hread => Nat.lt_of_not_le fun hfit => ?_
    exact hopt ⟨delta, len, rest, hread, hfit⟩

/-- Where the walk meets no option, the loop returns an error code. -/
theorem coapParseOptions_err {m : Mem O} {obj : O} {end_ free off num : Nat} {bs : List UInt8}
    (hs : slice (m obj) off (end_ - off) = bs) (hn : off + bs.length = end_)
    (h : walk free bs = none) :
    ∃ e, coapParseOptions m end_ free (UInt16.ofNat num) ⟨obj, off⟩ = .err e := by
  induction free generalizing off num bs with
  | zero => simp [walk] at h
  | succ free ih =>
    cases bs with
    | nil => simp [walk] at h
    | cons b bs =>
      have hload : load m ⟨obj, off⟩ = some b := load_of_slice hs
      have hlt : off < end_ := by
        rw [List.length_cons] at hn
        omega
      obtain ⟨hb, hcases⟩ := walk_none_cases h
      rw [coapParseOptions, if_pos hlt, hload]
      simp only [Outcome.liftM_some, Outcome.ok_bind]
      rw [if_neg hb]
      rcases hcases with hover | ⟨delta, len, rest, hread, hfit, hwalk⟩
      · obtain ⟨e, he⟩ := @coapParseOption_err _ m obj off (end_ - off) _ num hs (by omega) hover
        exact ⟨e, by rw [he, Outcome.err_bind]⟩
      · obtain ⟨hs', hn'⟩ := behind_option hs hn hread hfit
        obtain ⟨e, he⟩ := @ih _ (num + delta) _ hs' hn' hwalk
        rw [coapParseOption_ok hs (by omega) hread hfit]
        simp only [Outcome.ok_bind]
        exact ⟨e, by rw [he, Outcome.err_bind]⟩

/-! ## coap_parse -/

/-- What `decodeMsg` found: the buffer is the header, the token, the options and the rest. -/
theorem decodeMsg_bytes {bs : List UInt8} {r : Parsed} (h : decodeMsg bs = some r) :
    bs = r.b0 :: r.code :: r.idHi :: r.idLo :: (r.token ++ (seenBytes r.seen ++ r.tail)) ∧
      r.b0.toNat / 64 = 1 ∧ r.token.length = r.b0.toNat % 16 ∧ r.token.length ≤ 8 ∧
      walk maxopt (seenBytes r.seen ++ r.tail) = some (r.seen, r.tail) := by
  unfold decodeMsg at h
  split at h
  · next b0 code idHi idLo bs =>
    split at h
    · cases h
    next hver =>
    split at h
    · cases h
    next htkl =>
    split at h
    · cases h
    next hlen =>
    split at h
    · cases h
    next seen tail hwalk =>
    cases h
    have hw := walk_bytes hwalk
    have htok : (bs.take (b0.toNat % 16)).length = b0.toNat % 16 := by
      rw [List.length_take]; omega
    refine ⟨?_, by simpa using hver, htok, by simp only [htok]; omega, ?_⟩
    · rw [← hw, List.take_append_drop]
    · rw [← hw, hwalk]
  · cases h

section Header

variable {m : Mem O} {obj : O} {off n : Nat} {b0 code idHi idLo : UInt8} {bs : List UInt8}

/-- The header that the parser reports for these four bytes. -/
def headerOf (b0 code idHi idLo : UInt8) : CoapHeader where
  ver := 1
  t := (b0 &&& 0x30) >>> 4
  tkl := b0 &&& 0x0F
  code := code
  idHi := idHi
  idLo := idLo

theorem headerOf_tkl : (headerOf b0 code idHi idLo).tkl.toNat = b0.toNat % 16 := toNat_lowNibble b0

/-- What stands behind the header. -/
theorem behind_header (hs : slice (m obj) off n = b0 :: code :: idHi :: idLo :: bs) :
    slice (m obj) (off + 4) (n - 4) = bs :=
  slice_succ_of_slice_eq_cons (slice_succ_of_slice_eq_cons
    (slice_succ_of_slice_eq_cons (slice_succ_of_slice_eq_cons hs)))

theorem coapParseHeader_ok (hs : slice (m obj) off n = b0 :: code :: idHi :: idLo :: bs)
    (hn : 4 ≤ n) (hver : b0.toNat / 64 = 1) :
    coapParseHeader m ⟨obj, off⟩ n = .ok (headerOf b0 code idHi idLo) := by
  have hs1 := slice_succ_of_slice_eq_cons hs
  have hs2 := slice_succ_of_slice_eq_cons hs1
  have hs3 := slice_succ_of_slice_eq_cons hs2
  have hload0 : load m ⟨obj, off⟩ = some b0 := load_of_slice hs
  have hload1 : load m ((⟨obj, off⟩ : Ptr O).add 1) = some code := load_of_slice hs1
  have hload2 : load m ((⟨obj, off⟩ : Ptr O).add 2) = some idHi := load_of_slice hs2
  have hload3 : load m ((⟨obj, off⟩ : Ptr O).add 3) = some idLo := load_of_slice hs3
  have hv : (b0 &&& 0xC0) >>> 6 = 1 := by
    apply UInt8.toNat_inj.mp
    rw [toNat_top2, hver]
    rfl
  rw [coapParseHeader, if_neg (by omega), hload0, hload1, hload2, hload3]
  simp only [Outcome.liftM_some, Outcome.ok_bind, hv]
  rfl

theorem coapParseHeader_err (hs : slice (m obj) off n = b0 :: bs) (hn : 4 ≤ n)
    (hver : b0.toNat / 64 ≠ 1) : coapParseHeader m ⟨obj, off⟩ n = .err .versionNot1 := by
  have hload : load m ⟨obj, off⟩ = some b0 := load_of_slice hs
  have hv : (b0 &&& 0xC0) >>> 6 ≠ 1 := by
    intro hv
    apply hver
    rw [← toNat_top2, hv]
    rfl
  rw [coapParseHeader, if_neg (by omega), hload]
  simp only [Outcome.liftM_some, Outcome.ok_bind, if_pos hv]

theorem coapParseToken_ok {buf : Ptr O} (hle : b0.toNat % 16 ≤ 8) (hn : 4 + b0.toNat % 16 ≤ n) :
    ∃ tok, coapParseToken (headerOf b0 code idHi idLo) buf n = .ok tok := by
  simp only [coapParseToken, ← UInt8.toNat_inj, UInt8.le_iff_toNat_le, headerOf_tkl,
    UInt8.reduceToNat]
  split
  · exact ⟨_, rfl⟩
  · exact ⟨_, if_neg (by omega)⟩

/-- A token length beyond 8, or a token beyond the end of the datagram. -/
theorem coapParseToken_err {buf : Ptr O} (hn : 4 ≤ n)
    (hbad : 8 < b0.toNat % 16 ∨ n < 4 + b0.toNat % 16) :
    coapParseToken (headerOf b0 code idHi idLo) buf n = .err .tokenTooShort := by
  simp only [coapParseToken, ← UInt8.toNat_inj, UInt8.le_iff_toNat_le, headerOf_tkl,
    UInt8.reduceToNat]
  rw [if_neg (by omega)]
  split
  · rw [if_pos (by omega)]
  · rfl

end Header

/-- The token of a parsed datagram. -/
theorem coapParseToken_packetOf {buf : Ptr O} {r : Parsed} {n : Nat}
    (htok : r.token.length = r.b0.toNat % 16) (hle : r.token.length ≤ 8)
    (hn : 4 + r.token.length ≤ n) :
    coapParseToken (packetOf buf r).hdr buf n = .ok (packetOf buf r).tok := by
  have htkl : (r.b0 &&& 0x0F).toNat = r.token.length := by rw [toNat_lowNibble, htok]
  simp only [coapParseToken, packetOf, ← UInt8.toNat_inj, UInt8.le_iff_toNat_le, htkl,
    UInt8.reduceToNat]
  by_cases h0 : r.token = []
  · rw [if_pos (by rw [h0]; rfl), if_pos h0]
  · have hpos := List.length_pos_of_ne_nil h0
    rw [if_neg (by omega), if_pos hle, if_neg (by omega), if_neg h0]

/-- The test for the payload marker finds the payload of what stands behind the options. -/
theorem coapParsePayload_eq {m : Mem O} {obj : O} {off end_ : Nat} {tail : List UInt8}
    (hs : slice (m obj) off (end_ - off) = tail) (hn : off + tail.length = end_) :
    coapParsePayload m end_ ⟨obj, off⟩ = .ok (layoutPayload obj off (payloadOf tail)) := by
  match tail, hs, hn with
  | [], _, hn =>
    rw [List.length_nil] at hn
    rw [coapParsePayload, if_neg (by simp only; omega)]
    rfl
  | [b], _, hn =>
    rw [List.length_singleton] at hn
    rw [coapParsePayload, if_neg (by simp only; omega)]
    rfl
  | b :: x :: xs, hs, hn =>
    simp only [List.length_cons] at hn
    have hload : load m ⟨obj, off⟩ = some b := load_of_slice hs
    have hlen : end_ - (off + 1) = xs.length + 1 := by omega
    rw [coapParsePayload, if_pos (by simp only; omega), hload]
    simp only [Outcome.liftM_some, Outcome.ok_bind, payloadOf]
    split
    · simp only [layoutPayload, List.cons_ne_nil, if_false, List.length_cons, Ptr.add, hlen]
    · rfl

/-- `coap_parse` returns the packet of what the parser on bytes finds. -/
theorem coapParse_ok {m : Mem O} {buf : Ptr O} {n : Nat} {r : Parsed}
    (hfit : buf.off + n ≤ (m buf.obj).length)
    (h : decodeMsg (slice (m buf.obj) buf.off n) = some r) :
    coapParse m buf n = .ok (packetOf buf r) := by
  obtain ⟨obj, off⟩ := buf
  simp only at hfit h
  obtain ⟨hbs, hver, htok, htok8, hwalk⟩ := decodeMsg_bytes h
  have hlen := congrArg List.length hbs
  rw [slice_length hfit] at hlen
  simp only [List.length_cons, List.length_append] at hlen
  have hs5 := slice_add_of_slice_eq_append (behind_header hbs)
  have hs6 := slice_add_of_slice_eq_append hs5
  have hhdr : coapParseHeader m ⟨obj, off⟩ n = .ok (packetOf ⟨obj, off⟩ r).hdr :=
    coapParseHeader_ok hbs (by omega) hver
  have htkl : (packetOf ⟨obj, off⟩ r).hdr.tkl.toNat = r.token.length := headerOf_tkl.trans htok.symm
  rw [coapParse, hhdr]
  simp only [Outcome.ok_bind]
  rw [coapParseToken_packetOf htok htok8 (by omega)]
  simp only [Outcome.ok_bind, coapParseOptionsAndPayload, htkl, Ptr.add]
  have hopts := @coapParseOptions_ok _ m obj (off + n) maxopt (off + (4 + r.token.length)) 0 _ _ _
    (by rw [← hs5]; congr 1 <;> omega) (by rw [List.length_append]; omega) hwalk
  rw [if_neg (by omega), show (0 : UInt16) = UInt16.ofNat 0 from rfl, hopts]
  simp only [Outcome.ok_bind]
  rw [@coapParsePayload_eq _ m obj _ (off + n) r.tail (by rw [← hs6]; congr 1 <;> omega)
    (by omega)]
  simp only [Outcome.ok_bind, packetOf, Nat.add_assoc]

/-- A datagram whose options cannot be read. -/
theorem coapParseOptionsAndPayload_err {m : Mem O} {obj : O} {off n : Nat}
    {b0 code idHi idLo : UInt8} {bs : List UInt8} (hs : slice (m obj) (off + 4) (n - 4) = bs)
    (hn : 4 + bs.length = n) (htok : b0.toNat % 16 ≤ bs.length)
    (h : walk maxopt (bs.drop (b0.toNat % 16)) = none) :
    ∃ e, coapParseOptionsAndPayload m maxopt (headerOf b0 code idHi idLo) ⟨obj, off⟩ n = .err e := by
  have hs' : slice (m obj) (off + (4 + b0.toNat % 16)) (off + n - (off + (4 + b0.toNat % 16)))
      = bs.drop (b0.toNat % 16) := by
    rw [← hs, slice_drop]
    congr 1 <;> omega
  obtain ⟨e, he⟩ := @coapParseOptions_err _ m obj (off + n) maxopt _ 0 _ hs'
    (by rw [List.length_drop]; omega) h
  refine ⟨e, ?_⟩
  simp only [coapParseOptionsAndPayload, headerOf_tkl, Ptr.add]
  rw [if_neg (by omega), show (0 : UInt16) = UInt16.ofNat 0 from rfl, he]
  rfl

/-- Where the parser on bytes finds nothing, `coap_parse` returns an error code. -/
theorem coapParse_err {m : Mem O} {buf : Ptr O} {n : Nat}
    (hfit : buf.off + n ≤ (m buf.obj).length)
    (h : decodeMsg (slice (m buf.obj) buf.off n) = none) :
    ∃ e, coapParse m buf n = .err e := by
  obtain ⟨obj, off⟩ := buf
  simp only at hfit h
  by_cases hn4 : n < 4
  · exact ⟨.headerTooShort, by rw [coapParse, coapParseHeader, if_pos hn4, Outcome.err_bind]⟩
  have hlen := slice_length hfit
  match hbs : slice (m obj) off n, hlen with
  | [], hlen | [_], hlen | [_, _], hlen | [_, _, _], hlen =>
    simp only [List.length_cons, List.length_nil] at hlen
    omega
  | b0 :: code :: idHi :: idLo :: bs, hlen =>
    simp only [List.length_cons] at hlen
    rw [hbs, decodeMsg] at h
    by_cases hver : b0.toNat / 64 = 1
    · rw [if_neg (not_not_intro hver)] at h
      rw [coapParse, coapParseHeader_ok hbs (by omega) hver]
      simp only [Outcome.ok_bind]
      by_cases hbad : 8 < b0.toNat % 16 ∨ bs.length < b0.toNat % 16
      · exact ⟨.tokenTooShort, by rw [coapParseToken_err (by omega) (by omega), Outcome.err_bind]⟩
      rw [if_neg (by omega), if_neg (by omega)] at h
      -- the token is there, so it is the options that are not
      have hwalk : walk maxopt (bs.drop (b0.toNat % 16)) = none := by
        cases hw : walk maxopt (bs.drop (b0.toNat % 16)) with
        | none => rfl
        | some r =>
          rw [hw] at h
          cases h
      obtain ⟨tok, htok⟩ := @coapParseToken_ok _ n b0 code idHi idLo ⟨obj, off⟩ (by omega) (by omega)
      obtain ⟨e, he⟩ := @coapParseOptionsAndPayload_err _ m obj off n b0 code idHi idLo bs
        (behind_header hbs) (by omega) (by omega) hwalk
      refine ⟨e, ?_⟩
      rw [htok, Outcome.ok_bind, he, Outcome.err_bind]
    · exact ⟨.versionNot1, by rw [coapParse, coapParseHeader_err hbs (by omega) hver,
        Outcome.err_bind]⟩

/-- `coap_parse` accepts a datagram exactly when the parser on bytes does, with the
    packet of what that finds. -/
theorem coapParse_eq_ok_iff {m : Mem O} {buf : Ptr O} {n : Nat} {pkt : CoapPacket O}
    (hfit : buf.off + n ≤ (m buf.obj).length) :
    coapParse m buf n = .ok pkt ↔
      ∃ r, decodeMsg (slice (m buf.obj) buf.off n) = some r ∧ pkt = packetOf buf r := by
  cases h : decodeMsg (slice (m buf.obj) buf.off n) with
  | none =>
    obtain ⟨e, he⟩ := coapParse_err hfit h
    rw [he]
    simp
  | some r =>
    rw [coapParse_ok hfit h]
    simp [eq_comm]

/-! ## Reading the packet back -/

/-- The values of the options, read through the pointers of the packet. -/
theorem layoutOpts_read {m : Mem O} {obj : O} {off num k : Nat} {ss : List Seen}
    {tail : List UInt8} (hs : slice (m obj) off k = seenBytes ss ++ tail)
    (hfit : off + (seenBytes ss).length ≤ (m obj).length) :
    (layoutOpts obj off num ss).map (fun o => o.buf.read m) = ss.map fun s => some s.value := by
  induction ss generalizing off num k with
  | nil => rfl
  | cons s ss ih =>
    rw [seenBytes_cons, Seen.bytes, List.append_assoc, List.append_assoc] at hs
    simp only [seenBytes_cons, Seen.bytes, List.length_append] at hfit
    have hval := slice_add_of_slice_eq_append hs
    have hrest := slice_add_of_slice_eq_append hval
    simp only [layoutOpts, List.map_cons]
    rw [ih hrest (by omega)]
    congr 1
    rw [CoapBuffer.read]
    split
    · next h0 => rw [List.length_eq_zero_iff.mp h0]
    · exact loadBytes_eq_some.mpr ⟨by simp only; omega, slice_of_slice_eq_append hval⟩

theorem layoutOpts_nums (obj : O) (off num : Nat) (ss : List Seen) :
    (layoutOpts obj off num ss).map CoapOption.num
      = (wireNums num (ss.map fun s => ⟨s.delta, s.value⟩)).map UInt8.ofNat := by
  induction ss generalizing off num with
  | nil => rfl
  | cons s ss ih => simp only [layoutOpts, List.map_cons, wireNums, ih]

theorem layoutOpts_length (obj : O) (off num : Nat) (ss : List Seen) :
    (layoutOpts obj off num ss).length = ss.length := by
  induction ss generalizing off num with
  | nil => rfl
  | cons s ss ih => simp only [layoutOpts, List.length_cons, ih]

/-- The payload is the end of the datagram, behind the marker. -/
theorem payloadOf_cases (tail : List UInt8) :
    payloadOf tail = [] ∨ tail = 0xFF :: payloadOf tail := by
  match tail with
  | [] | [_] => exact Or.inl rfl
  | b :: x :: xs =>
    by_cases hb : b = 0xFF
    · exact Or.inr (by rw [payloadOf, if_pos hb, hb])
    · exact Or.inl (by rw [payloadOf, if_neg hb])

theorem packetOf_tok_len (buf : Ptr O) (r : Parsed) :
    (packetOf buf r).tok.len = r.token.length := by
  simp only [packetOf]
  split
  · next h0 => rw [h0]; rfl
  · rfl

theorem packetOf_payload_len (buf : Ptr O) (r : Parsed) :
    (packetOf buf r).payload.len = (payloadOf r.tail).length := by
  simp only [packetOf, layoutPayload]
  split
  · next h0 => rw [h0]; rfl
  · rfl

/-- The bytes a packet stands for, read through its pointers. -/
structure Reads (m : Mem O) (pkt : CoapPacket O) (token : List UInt8)
    (values : List (List UInt8)) (payload : List UInt8) : Prop where
  tok : pkt.tok.read m = some token
  opts : pkt.opts.map (fun o => o.buf.read m) = values.map some
  payload : pkt.payload.read m = some payload

/-- Through the pointers of the packet the parts of the datagram are read. -/
theorem packetOf_reads {m : Mem O} {buf : Ptr O} {n : Nat} {r : Parsed}
    (hfit : buf.off + n ≤ (m buf.obj).length)
    (h : decodeMsg (slice (m buf.obj) buf.off n) = some r) :
    Reads m (packetOf buf r) r.token (r.seen.map Seen.value) (payloadOf r.tail) := by
  obtain ⟨hbs, -⟩ := decodeMsg_bytes h
  have hlen := congrArg List.length hbs
  rw [slice_length hfit] at hlen
  simp only [List.length_cons, List.length_append] at hlen
  have hs4 := slice_succ_of_slice_eq_cons (slice_succ_of_slice_eq_cons
    (slice_succ_of_slice_eq_cons (slice_succ_of_slice_eq_cons hbs)))
  have hs5 := slice_add_of_slice_eq_append hs4
  have hs6 := slice_add_of_slice_eq_append hs5
  refine ⟨?_, ?_, ?_⟩
  · simp only [packetOf]
    split
    · next h0 => rw [h0]; rfl
    · next h0 =>
      rw [CoapBuffer.read, if_neg (by simpa using h0)]
      exact loadBytes_eq_some.mpr
        ⟨by simp only [Ptr.add]; omega, slice_of_slice_eq_append hs4⟩
  · rw [List.map_map]
    exact layoutOpts_read hs5 (by omega)
  · simp only [packetOf, layoutPayload]
    split
    · next h0 => rw [h0]; rfl
    · next h0 =>
      have htail := (payloadOf_cases r.tail).resolve_left h0
      rw [htail] at hs6 hlen
      rw [List.length_cons] at hlen
      have hs7 := slice_succ_of_slice_eq_cons hs6
      rw [CoapBuffer.read, if_neg (by simpa using h0)]
      refine loadBytes_eq_some.mpr ⟨by simp only; omega, ?_⟩
      exact slice_of_slice_eq_append (hs7.trans (List.append_nil _).symm)

end Gateway.CoapServer.ParseSpec
