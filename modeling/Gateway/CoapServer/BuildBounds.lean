/-
  Gateway.CoapServer.BuildBounds

  Which packets `coap_build` encodes inside of the caller's buffer.

  The loop over the options compares with the size what was written before an option,
  and not the option that comes; without a payload nothing is compared behind the last
  one.  A delta that wraps around, because the numbers are not in order, leaves the
  nibble 0, and the option is written with it.

  The buffer is an object that ends at `buflen`, so a write behind it is a fault.  The
  parts of the packet may lie anywhere, as long as they can be read (`InBounds`):
  how many bytes are written depends on their lengths only.
-/

import Gateway.CoapServer.BuildSpec

namespace Gateway.CoapServer.BuildBounds

open Gateway.Lib.ByteWindow Gateway.Lib.BlockMem Gateway.Lib.CoapFormat
open Gateway.CoapServer.Microcoap Gateway.CoapServer.BuildSpec

variable {O : Type}

/-! ## Sizes -/

/-- The bytes that a descriptor stands for are in their object. -/
def InBounds (m : Mem O) (b : CoapBuffer O) : Prop :=
  b.len = 0 ∨ ∃ p, b.p = some p ∧ p.off + b.len ≤ (m p.obj).length

/-- The number of extension bytes of the delta; a delta that wraps around gets none. -/
def deltaSize (prev num : UInt8) : Nat :=
  if prev ≤ num then (ext (num.toNat - prev.toNat)).length else 0

/-- The header that is written for an option; the length is cut down to 32 bits for its nibble. -/
def headSize (prev : UInt8) (o : CoapOption O) : Nat :=
  1 + deltaSize prev o.num + (ext (o.buf.len % 2 ^ 32)).length

/-- The bytes that are written for the options behind number `prev`. -/
def optsSize (prev : UInt8) : List (CoapOption O) → Nat
  | [] => 0
  | o :: os => headSize prev o + o.buf.len + optsSize o.num os

/-- Where the options end. -/
def optsEnd (pkt : CoapPacket O) : Nat := 4 + pkt.hdr.tkl.toNat + optsSize 0 pkt.opts

/-- Every length has a nibble once it is cut down. -/
def HasNibbles (os : List (CoapOption O)) : Prop := ∀ o ∈ os, o.buf.len % 2 ^ 32 ≤ extMax

/-- The packet can be encoded in the format, in `buflen` bytes. -/
structure Encodable (buflen : Nat) (pkt : CoapPacket O) : Prop where
  tkl : pkt.hdr.tkl.toNat ≤ 8
  sorted : (pkt.opts.map CoapOption.num).Pairwise (· ≤ ·)
  lens : ∀ o ∈ pkt.opts, o.buf.len ≤ extMax
  fits : optsEnd pkt + (if 0 < pkt.payload.len then 1 + pkt.payload.len else 0) ≤ buflen

/-- A nibble below 13 is not the one of an extension. -/
theorem nibble_small {n : Nat} (h : n < 13) : UInt8.ofNat n ≠ 13 ∧ UInt8.ofNat n ≠ 14 := by
  have hn : (UInt8.ofNat n).toNat = n := by
    rw [UInt8.toNat_ofNat']
    omega
  have h13 : (13 : UInt8).toNat = 13 := rfl
  have h14 : (14 : UInt8).toNat = 14 := rfl
  constructor
  · intro hc
    rw [hc] at hn
    omega
  · intro hc
    rw [hc] at hn
    omega

theorem optDeltaBytes_length (n : Nat) (optDelta : UInt32) :
    (optDeltaBytes (UInt8.ofNat (nibble n)) optDelta).length = (ext n).length := by
  unfold optDeltaBytes ext nibble
  by_cases h13 : n < 13
  · rw [if_pos h13, if_pos h13, if_neg (nibble_small h13).1, if_neg (nibble_small h13).2]
  rw [if_neg h13, if_neg h13]
  by_cases h269 : n < 269
  · rw [if_pos h269, if_pos h269]
    rfl
  · rw [if_neg h269, if_neg h269, if_neg (by decide), if_pos (by decide), List.length_cons,
      List.length_cons, List.length_cons, List.length_cons]

theorem optLenBytes_length (n len : Nat) :
    (optLenBytes (UInt8.ofNat (nibble n)) len).length = (ext n).length := by
  unfold optLenBytes ext nibble
  by_cases h13 : n < 13
  · rw [if_pos h13, if_pos h13, if_neg (nibble_small h13).1, if_neg (nibble_small h13).2]
  rw [if_neg h13, if_neg h13]
  by_cases h269 : n < 269
  · rw [if_pos h269, if_pos h269]
    rfl
  · rw [if_neg h269, if_neg h269, if_neg (by decide), if_pos (by decide), List.length_cons,
      List.length_cons, List.length_cons, List.length_cons]

/-- A number below the one before it gives a delta that no nibble can express. -/
theorem coapOptionNibble_wrapped {prev num : UInt8} (h : ¬ prev ≤ num) :
    coapOptionNibble (num.toUInt32 - prev.toUInt16.toUInt32) = none := by
  have hlt : num.toNat < prev.toNat := by
    rw [UInt8.le_iff_toNat_le] at h
    omega
  have hprev := prev.toNat_lt
  have hv : (num.toUInt32 - prev.toUInt16.toUInt32).toNat = 2 ^ 32 - (prev.toNat - num.toNat) := by
    rw [UInt32.toNat_sub]
    simp only [UInt8.toNat_toUInt32, UInt16.toNat_toUInt32, UInt8.toNat_toUInt16]
    omega
  rw [coapOptionNibble_toNat, hv, if_neg (by unfold extMax; omega)]

/-- The header of an option: its nibbles and extension bytes. -/
theorem optionHeader_size (prev : UInt8) (o : CoapOption O) :
    let optDelta : UInt32 := o.num.toUInt32 - prev.toUInt16.toUInt32
    let delta := (coapOptionNibble optDelta).getD 0
    let len := UInt8.ofNat (nibble (o.buf.len % 2 ^ 32))
    ((delta <<< 4 ||| len)
      :: (optDeltaBytes delta optDelta ++ optLenBytes len o.buf.len)).length = headSize prev o := by
  simp only [List.length_cons, List.length_append, optLenBytes_length]
  rw [headSize, deltaSize]
  by_cases hle : prev ≤ o.num
  · have hlt := o.num.toNat_lt
    have hd : (UInt32.ofNat (o.num.toNat - prev.toNat)).toNat = o.num.toNat - prev.toNat := by
      rw [UInt32.toNat_ofNat']
      omega
    rw [optDelta_eq hle, coapOptionNibble_toNat, hd, if_pos (by unfold extMax; omega),
      Option.getD_some, optDeltaBytes_length, if_pos hle]
    omega
  · rw [coapOptionNibble_wrapped hle, if_neg hle]
    simp only [Option.getD_none]
    have hnil : optDeltaBytes 0 (o.num.toUInt32 - prev.toUInt16.toUInt32) = [] := rfl
    rw [hnil, List.length_nil]
    omega

/-! ## Writing up to the end of the buffer -/

theorem read_of_inBounds {b : CoapBuffer O} (h : InBounds m b) : ∃ v, b.read m = some v := by
  rw [CoapBuffer.read]
  by_cases h0 : b.len = 0
  · exact ⟨[], if_pos h0⟩
  · obtain ⟨p, hp, hle⟩ := h.resolve_left h0
    refine ⟨slice (m p.obj) p.off b.len, ?_⟩
    rw [if_neg h0, hp]
    exact if_pos hle

section Writes

variable [DecidableEq O] {m : Mem O} {buf : Ptr O} {buflen : Nat} {w : List UInt8}

theorem written_length (hfit : buf.off + w.length ≤ (m buf.obj).length) (o : O) :
    (written m buf w o).length = (m o).length := by
  by_cases ho : o = buf.obj
  · rw [ho, written, setObj_self, splice_length hfit]
  · rw [written, setObj_ne m _ ho]

theorem inBounds_written {b : CoapBuffer O} (hfit : buf.off + w.length ≤ (m buf.obj).length)
    (h : InBounds m b) : InBounds (written m buf w) b := by
  rcases h with h0 | ⟨p, hp, hle⟩
  · exact Or.inl h0
  · exact Or.inr ⟨p, hp, by rw [written_length hfit]; exact hle⟩

/-- A write behind the end of the object is a fault. -/
theorem storeBytes_over {a : List UInt8} (hfit : buf.off + w.length ≤ (m buf.obj).length)
    (hbig : (m buf.obj).length < buf.off + w.length + a.length) :
    storeBytes (written m buf w) (buf.add w.length) a = none := by
  rw [storeBytes, if_neg]
  rw [Ptr.add_obj, Ptr.add_off, written_length hfit]
  omega

/-- So is a copy that ends behind it. -/
theorem memcpy_over {b : CoapBuffer O} (hfit : buf.off + w.length ≤ (m buf.obj).length)
    (hbig : (m buf.obj).length < buf.off + w.length + b.len) :
    memcpy (written m buf w) (buf.add w.length) b.p b.len = none := by
  rw [memcpy, if_neg (by omega)]
  cases hp : b.p with
  | none => rfl
  | some p =>
    simp only [Option.bind_eq_bind, Option.bind_some]
    cases hload : loadBytes (written m buf w) p b.len with
    | none => rfl
    | some v =>
      have hlen := loadBytes_length hload
      exact storeBytes_over hfit (by omega)

/-- A copy that ends inside of it extends what was written. -/
theorem memcpy_inside {b : CoapBuffer O} (hin : InBounds m b)
    (hfit : buf.off + w.length + b.len ≤ (m buf.obj).length) :
    ∃ v, v.length = b.len ∧
      memcpy (written m buf w) (buf.add w.length) b.p b.len = some (written m buf (w ++ v)) := by
  obtain ⟨v, hv⟩ := read_of_inBounds
    (inBounds_written (show buf.off + w.length ≤ (m buf.obj).length by omega) hin)
  have hlen := CoapBuffer.read_length hv
  exact ⟨v, hlen, memcpy_written hv (by rw [List.length_append]; omega)⟩

/-- An option is written when its length has a nibble and it ends inside of the buffer; otherwise
    the loop body is a fault. -/
theorem coapBuildOption_bounds {o : CoapOption O} {prev : UInt8}
    (hsize : (m buf.obj).length = buf.off + buflen) (hin : InBounds m o.buf)
    (hw : w.length ≤ buflen) :
    (o.buf.len % 2 ^ 32 ≤ extMax ∧ w.length + (headSize prev o + o.buf.len) ≤ buflen ∧
      ∃ w', w'.length = w.length + (headSize prev o + o.buf.len) ∧
        coapBuildOption (written m buf w) (buf.add w.length) prev.toUInt16 o
          = some (written m buf w', buf.add w'.length)) ∨
    (¬ (o.buf.len % 2 ^ 32 ≤ extMax ∧ w.length + (headSize prev o + o.buf.len) ≤ buflen) ∧
      coapBuildOption (written m buf w) (buf.add w.length) prev.toUInt16 o = none) := by
  have hnat : (UInt32.ofNat o.buf.len).toNat = o.buf.len % 2 ^ 32 := UInt32.toNat_ofNat'
  rw [coapBuildOption]
  simp only [coapOptionNibble_toNat (UInt32.ofNat o.buf.len), hnat, Option.bind_eq_bind]
  by_cases hnib : o.buf.len % 2 ^ 32 ≤ extMax
  · have hhead := optionHeader_size prev o
    simp only at hhead
    rw [if_pos hnib]
    simp only [Option.bind_some]
    generalize ((coapOptionNibble (o.num.toUInt32 - prev.toUInt16.toUInt32)).getD 0 <<< 4
      ||| UInt8.ofNat (nibble (o.buf.len % 2 ^ 32))) :: _ = hd at hhead ⊢
    -- first the header, then the value
    by_cases hroom : w.length + headSize prev o ≤ buflen
    · rw [putBytes_written (by rw [List.length_append]; omega)]
      simp only [Option.bind_some]
      by_cases hfit : w.length + (headSize prev o + o.buf.len) ≤ buflen
      · left
        obtain ⟨v, hv, hcopy⟩ := @memcpy_inside _ _ m buf (w ++ hd) o.buf hin
          (by rw [List.length_append]; omega)
        refine ⟨hnib, hfit, w ++ hd ++ v, ?_, ?_⟩
        · rw [List.length_append, List.length_append, hhead, hv]
          omega
        · rw [hcopy]
          simp only [Option.bind_some, Ptr.add_add, List.length_append, hv]
      · right
        refine ⟨fun hc => hfit hc.2, ?_⟩
        rw [memcpy_over (by rw [List.length_append]; omega) (by rw [List.length_append]; omega)]
        rfl
    · right
      refine ⟨fun hc => hroom (by omega), ?_⟩
      rw [putBytes, storeBytes_over (by omega) (by omega)]
      rfl
  · right
    rw [if_neg hnib]
    exact ⟨fun hc => hnib hc.1, rfl⟩

/-- The loop writes all the options, or it is a fault; it never ends with an error. -/
theorem coapBuildOptions_bounds {os : List (CoapOption O)} {prev : UInt8}
    (hsize : (m buf.obj).length = buf.off + buflen) (hin : ∀ o ∈ os, InBounds m o.buf)
    (hw : w.length ≤ buflen) :
    (HasNibbles os ∧ w.length + optsSize prev os ≤ buflen ∧
      ∃ w', w'.length = w.length + optsSize prev os ∧
        coapBuildOptions buf buflen os (written m buf w) (buf.add w.length) prev.toUInt16
          = some (.none, written m buf w', buf.add w'.length)) ∨
    (¬ (HasNibbles os ∧ w.length + optsSize prev os ≤ buflen) ∧
      coapBuildOptions buf buflen os (written m buf w) (buf.add w.length) prev.toUInt16 = none) := by
  induction os generalizing w prev with
  | nil => exact Or.inl ⟨fun o ho => absurd ho List.not_mem_nil, hw, w, rfl, rfl⟩
  | cons o os ih =>
    have hnibs : HasNibbles (o :: os) ↔ o.buf.len % 2 ^ 32 ≤ extMax ∧ HasNibbles os :=
      List.forall_mem_cons
    have hpass : ¬ (buf.add w.length).off - buf.off > buflen := by
      rw [Ptr.add_off]
      omega
    rw [coapBuildOptions, if_neg hpass, hnibs, optsSize]
    rcases @coapBuildOption_bounds _ _ m buf buflen w o prev hsize (hin o (List.mem_cons_self ..)) hw
      with ⟨hnib, hfit, w', hw', hstep⟩ | ⟨hno, hstep⟩
    · rw [hstep]
      simp only [Option.bind_eq_bind, Option.bind_some]
      -- the other options behind this one
      rcases @ih w' o.num (fun o' ho' => hin o' (List.mem_cons_of_mem _ ho')) (by omega) with
        ⟨hnibs', hfit', w'', hw'', hrun⟩ | ⟨hno', hrun⟩
      · exact Or.inl ⟨⟨hnib, hnibs'⟩, by omega, w'', by omega, hrun⟩
      · refine Or.inr ⟨fun hc => hno' ⟨hc.1.2, ?_⟩, hrun⟩
        have hle := hc.2
        omega
    · rw [hstep]
      refine Or.inr ⟨fun hc => hno ⟨hc.1.1, ?_⟩, rfl⟩
      have hle := hc.2
      omega

/-! ## coap_build -/

/-- What the caller can rely on: the call returns, only bytes of the buffer are written, success
    means that exactly the new `*buflen` bytes were, and a packet that cannot be encoded is an
    error. -/
def Respects (m : Mem O) (buf : Ptr O) (buflen : Nat) (pkt : CoapPacket O) : Prop :=
  ∃ rc m' n, coapBuild m buf buflen pkt = some (rc, m', n) ∧
    (∃ w, m' = written m buf w ∧ w.length ≤ buflen ∧ (rc = .none → w.length = n)) ∧
    (¬ Encodable buflen pkt → rc ≠ .none)

/-- The packets with which that is so. -/
def Safe (buflen : Nat) (pkt : CoapPacket O) : Prop :=
  buflen < 4 + pkt.hdr.tkl.toNat ∨
  (0 < pkt.hdr.tkl.toNat ∧ pkt.hdr.tkl.toNat ≠ pkt.tok.len) ∨
  (HasNibbles pkt.opts ∧ optsEnd pkt ≤ buflen ∧
    ((0 < pkt.payload.len ∧ buflen < optsEnd pkt + 1 + pkt.payload.len) ∨
      (pkt.hdr.tkl.toNat ≤ 8 ∧ (pkt.opts.map CoapOption.num).Pairwise (· ≤ ·) ∧
        ∀ o ∈ pkt.opts, o.buf.len ≤ extMax)))

section Build

variable {pkt : CoapPacket O}

/-- The parts of the packet can be read. -/
structure Readable (m : Mem O) (pkt : CoapPacket O) : Prop where
  tok : InBounds m pkt.tok
  opts : ∀ o ∈ pkt.opts, InBounds m o.buf
  payload : InBounds m pkt.payload

/-- A buffer without room for header and token. -/
theorem coapBuild_short (h : buflen < 4 + pkt.hdr.tkl.toNat) :
    coapBuild m buf buflen pkt = some (.bufferTooSmall, m, buflen) := by
  rw [coapBuild, if_pos h]

/-- A token of another length than the header says. -/
theorem coapBuild_unsupported (hsize : (m buf.obj).length = buf.off + buflen)
    (hroom : 4 + pkt.hdr.tkl.toNat ≤ buflen)
    (h : 0 < pkt.hdr.tkl.toNat ∧ pkt.hdr.tkl.toNat ≠ pkt.tok.len) :
    ∃ w, w.length = 4 ∧
      coapBuild m buf buflen pkt = some (.unsupported, written m buf w, buflen) := by
  have hpos : 0 < pkt.hdr.tkl := by
    rw [UInt8.lt_iff_toNat_lt]
    exact h.1
  refine ⟨[buildHeadByte pkt.hdr, pkt.hdr.code, pkt.hdr.idHi, pkt.hdr.idLo], rfl, ?_⟩
  have hhead : storeBytes m buf [buildHeadByte pkt.hdr, pkt.hdr.code, pkt.hdr.idHi, pkt.hdr.idLo]
      = some (written m buf [buildHeadByte pkt.hdr, pkt.hdr.code, pkt.hdr.idHi, pkt.hdr.idLo]) :=
    storeBytes_eq (by simp only [List.length_cons, List.length_nil]; omega)
  unfold buildHeadByte at hhead
  rw [coapBuild, if_neg (by omega), hhead]
  simp only [Option.bind_eq_bind, Option.bind_some]
  rw [if_pos ⟨hpos, h.2⟩]
  rfl

/-- Header and token are written, and the loop over the options goes on behind them. -/
theorem coapBuild_head (hsize : (m buf.obj).length = buf.off + buflen) (hread : Readable m pkt)
    (hroom : 4 + pkt.hdr.tkl.toNat ≤ buflen)
    (htok : ¬ (0 < pkt.hdr.tkl.toNat ∧ pkt.hdr.tkl.toNat ≠ pkt.tok.len)) :
    ∃ w, w.length = 4 + pkt.hdr.tkl.toNat ∧
      coapBuild m buf buflen pkt
        = (coapBuildOptions buf buflen pkt.opts (written m buf w) (buf.add w.length) 0).bind
          fun r => if r.1 ≠ .none then some (r.1, r.2.1, buflen)
            else buildPayload r.2.1 buf buflen pkt (r.2.2.off - buf.off - 4) := by
  generalize hhd : [buildHeadByte pkt.hdr, pkt.hdr.code, pkt.hdr.idHi, pkt.hdr.idLo] = hd
  have hdlen : hd.length = 4 := by rw [← hhd]; rfl
  have hhead : storeBytes m buf hd = some (written m buf hd) := storeBytes_eq (by omega)
  -- the token is copied behind the header, if there is one
  obtain ⟨v, hv, hcopy⟩ : ∃ v, v.length = pkt.hdr.tkl.toNat ∧
      memcpy (written m buf hd) (buf.add 4) pkt.tok.p pkt.hdr.tkl.toNat
        = some (written m buf (hd ++ v)) := by
    by_cases h0 : pkt.hdr.tkl.toNat = 0
    · refine ⟨[], by rw [h0]; rfl, ?_⟩
      rw [memcpy, if_pos h0, List.append_nil]
    · have hlen : pkt.hdr.tkl.toNat = pkt.tok.len := by
        by_contra hne
        exact htok ⟨by omega, hne⟩
      obtain ⟨v, hv, hcopy⟩ := @memcpy_inside _ _ m buf hd pkt.tok hread.tok (by omega)
      rw [hlen]
      rw [hdlen] at hcopy
      exact ⟨v, hv, hcopy⟩
  have hw : (hd ++ v).length = 4 + pkt.hdr.tkl.toNat := by rw [List.length_append, hdlen, hv]
  refine ⟨hd ++ v, hw, ?_⟩
  rw [← hhd] at hhead
  rw [coapBuild_parts hroom htok hhead (hhd ▸ hcopy), hw, hhd]

/-- The marker is stored behind `w`, and the payload behind the marker. -/
theorem payload_inside (hsize : (m buf.obj).length = buf.off + buflen) (hread : Readable m pkt)
    (hfit : w.length + 1 + pkt.payload.len ≤ buflen) :
    ∃ v, v.length = w.length + 1 + pkt.payload.len ∧
      (store (written m buf w) (buf.add w.length) 0xFF).bind
          (fun m => memcpy m (buf.add (w.length + 1)) pkt.payload.p pkt.payload.len)
        = some (written m buf v) := by
  have hmark := @storeBytes_written _ _ m buf w [0xFF]
    (by rw [List.length_append, List.length_singleton]; omega)
  obtain ⟨v, hv, hcopy⟩ := @memcpy_inside _ _ m buf (w ++ [0xFF]) pkt.payload hread.payload
    (by rw [List.length_append, List.length_singleton]; omega)
  rw [List.length_append, List.length_singleton] at hcopy
  refine ⟨w ++ [0xFF] ++ v, ?_, ?_⟩
  · rw [List.length_append, List.length_append, List.length_singleton, hv]
  · rw [store, hmark, Option.bind_some, hcopy]

/-- Behind the bytes `w` of the options there is no room for the payload, or it is written. -/
theorem buildPayload_bounds (hsize : (m buf.obj).length = buf.off + buflen)
    (hread : Readable m pkt) (h4 : 4 ≤ w.length) (hfit : w.length ≤ buflen) :
    (0 < pkt.payload.len ∧ buflen < w.length + 1 + pkt.payload.len ∧
        buildPayload (written m buf w) buf buflen pkt (w.length - 4)
          = some (.bufferTooSmall, written m buf w, buflen)) ∨
      (w.length + (if 0 < pkt.payload.len then 1 + pkt.payload.len else 0) ≤ buflen ∧
        ∃ v, v.length = w.length + (if 0 < pkt.payload.len then 1 + pkt.payload.len else 0) ∧
          buildPayload (written m buf w) buf buflen pkt (w.length - 4)
            = some (.none, written m buf v, v.length)) := by
  unfold buildPayload
  by_cases hpay : 0 < pkt.payload.len
  · simp only [if_pos hpay]
    by_cases hbig : buflen < w.length + 1 + pkt.payload.len
    · exact Or.inl ⟨hpay, hbig, by rw [if_pos (by omega)]⟩
    · -- the marker behind the options, and the payload behind the marker
      right
      obtain ⟨v, hv, hput⟩ := @payload_inside _ _ m buf buflen w pkt hsize hread (by omega)
      refine ⟨by omega, v, by omega, ?_⟩
      rw [if_neg (by omega), show 4 + (w.length - 4) = w.length by omega,
        show 5 + (w.length - 4) = w.length + 1 by omega]
      simp only [Option.bind_eq_bind]
      rw [← Option.bind_assoc, hput, Option.bind_some, hv,
        show w.length - 4 + 5 + pkt.payload.len = w.length + 1 + pkt.payload.len by omega]
  · right
    simp only [if_neg hpay]
    refine ⟨by omega, w, by omega, ?_⟩
    rw [show w.length - 4 + 4 = w.length by omega]

/-- What `coap_build` does with a packet that passes the two checks at its start: a fault, the
    error of the payload, or the encoding in as many bytes as it says. -/
theorem coapBuild_bounds (hsize : (m buf.obj).length = buf.off + buflen) (hread : Readable m pkt)
    (hroom : 4 + pkt.hdr.tkl.toNat ≤ buflen)
    (htok : ¬ (0 < pkt.hdr.tkl.toNat ∧ pkt.hdr.tkl.toNat ≠ pkt.tok.len)) :
    (¬ (HasNibbles pkt.opts ∧ optsEnd pkt ≤ buflen) ∧ coapBuild m buf buflen pkt = none) ∨
    (HasNibbles pkt.opts ∧ optsEnd pkt ≤ buflen ∧
      ((0 < pkt.payload.len ∧ buflen < optsEnd pkt + 1 + pkt.payload.len ∧
          ∃ w, w.length = optsEnd pkt ∧
            coapBuild m buf buflen pkt = some (.bufferTooSmall, written m buf w, buflen)) ∨
        (optsEnd pkt + (if 0 < pkt.payload.len then 1 + pkt.payload.len else 0) ≤ buflen ∧
          ∃ w, w.length
              = optsEnd pkt + (if 0 < pkt.payload.len then 1 + pkt.payload.len else 0) ∧
            coapBuild m buf buflen pkt = some (.none, written m buf w, w.length)))) := by
  obtain ⟨w, hw, hbuild⟩ := coapBuild_head hsize hread hroom htok
  have hend : w.length + optsSize 0 pkt.opts = optsEnd pkt := by
    rw [hw, optsEnd]
  rw [hbuild]
  have hwle : w.length ≤ buflen := by omega
  rcases @coapBuildOptions_bounds _ _ m buf buflen w pkt.opts 0 hsize hread.opts hwle with
    ⟨hnibs, hfit, w', hw', hrun⟩ | ⟨hno, hrun⟩
  · right
    rw [hend] at hfit hw'
    have h4 : 4 ≤ w'.length := by
      rw [hw', optsEnd]
      omega
    have hrun0 : coapBuildOptions buf buflen pkt.opts (written m buf w) (buf.add w.length) 0
        = some (.none, written m buf w', buf.add w'.length) := hrun
    refine ⟨hnibs, hfit, ?_⟩
    rw [hrun0, Option.bind_some, if_neg (by simp), Ptr.add_off, Nat.add_sub_cancel_left, ← hw']
    rcases buildPayload_bounds hsize hread h4 (by omega) with ⟨hpay, hbig, heq⟩ | ⟨hroom', v, hv, heq⟩
    · exact Or.inl ⟨hpay, hbig, w', rfl, heq⟩
    · exact Or.inr ⟨hroom', v, hv, heq⟩
  · left
    rw [hend] at hno
    have hrun0 : coapBuildOptions buf buflen pkt.opts (written m buf w) (buf.add w.length) 0
        = none := hrun
    exact ⟨hno, by rw [hrun0]; rfl⟩

/-- An error without a byte outside of the buffer is what the caller can rely on. -/
theorem Respects.of_error {rc : CoapError} {n : Nat} {w : List UInt8} (hw : w.length ≤ buflen)
    (hrc : rc ≠ .none) (h : coapBuild m buf buflen pkt = some (rc, written m buf w, n)) :
    Respects m buf buflen pkt :=
  ⟨rc, _, n, h, ⟨w, rfl, hw, fun hc => absurd hc hrc⟩, fun _ => hrc⟩

/-- `coap_build` respects the buffer exactly for the safe packets. -/
theorem coapBuild_respects_iff (hsize : (m buf.obj).length = buf.off + buflen)
    (hread : Readable m pkt) : Respects m buf buflen pkt ↔ Safe buflen pkt := by
  by_cases hroom : buflen < 4 + pkt.hdr.tkl.toNat
  · have hbuild : coapBuild m buf buflen pkt = some (.bufferTooSmall, written m buf [], buflen) := by
      rw [coapBuild_short hroom, written_nil]
    exact ⟨fun _ => Or.inl hroom, fun _ => Respects.of_error (Nat.zero_le _) (by decide) hbuild⟩
  by_cases htok : 0 < pkt.hdr.tkl.toNat ∧ pkt.hdr.tkl.toNat ≠ pkt.tok.len
  · obtain ⟨w, hw, hbuild⟩ := coapBuild_unsupported hsize (by omega) htok
    exact ⟨fun _ => Or.inr (Or.inl htok),
      fun _ => Respects.of_error (by omega) (by decide) hbuild⟩
  have hsafe : Safe buflen pkt ↔ HasNibbles pkt.opts ∧ optsEnd pkt ≤ buflen ∧
      ((0 < pkt.payload.len ∧ buflen < optsEnd pkt + 1 + pkt.payload.len) ∨
        (pkt.hdr.tkl.toNat ≤ 8 ∧ (pkt.opts.map CoapOption.num).Pairwise (· ≤ ·) ∧
          ∀ o ∈ pkt.opts, o.buf.len ≤ extMax)) := by
    rw [Safe, or_iff_right hroom, or_iff_right htok]
  rw [hsafe]
  rcases coapBuild_bounds hsize hread (by omega) htok with
    ⟨hno, hbuild⟩ | ⟨hnibs, hend, ⟨hpay, hbig, w, hw, hbuild⟩ | ⟨hfit, w, hw, hbuild⟩⟩
  · -- a fault
    constructor
    · rintro ⟨rc, m', n, hres, -⟩
      rw [hbuild] at hres
      exact absurd hres (by simp)
    · exact fun h => absurd ⟨h.1, h.2.1⟩ hno
  · exact ⟨fun _ => ⟨hnibs, hend, Or.inl ⟨hpay, hbig⟩⟩,
      fun _ => Respects.of_error (by omega) (by decide) hbuild⟩
  · -- success, so the packet has to be in the format
    have hnbig : ¬ (0 < pkt.payload.len ∧ buflen < optsEnd pkt + 1 + pkt.payload.len) := by
      rintro ⟨hpay, hbig⟩
      rw [if_pos hpay] at hfit
      omega
    constructor
    · rintro ⟨rc, m', n, hres, -, herr⟩
      rw [hbuild] at hres
      obtain ⟨rfl, -⟩ := Prod.mk.inj (Option.some.inj hres)
      obtain ⟨htkl, hsorted, hlens, -⟩ : Encodable buflen pkt := by
        by_contra hc
        exact herr hc rfl
      exact ⟨hnibs, hend, Or.inr ⟨htkl, hsorted, hlens⟩⟩
    · rintro ⟨-, -, h⟩
      obtain ⟨htkl, hsorted, hlens⟩ := h.resolve_left hnbig
      exact ⟨.none, _, _, hbuild, ⟨w, rfl, by omega, fun _ => rfl⟩,
        fun hc => absurd ⟨htkl, hsorted, hlens, hfit⟩ hc⟩

end Build

end Writes

/-! ## Packets with small options -/

/-- Three bytes of values (object `true`) and a buffer of `n` bytes (object `false`). -/
def valuesMem (n : Nat) : Mem Bool
  | true => [0x61, 0x62, 0x63]
  | false => List.replicate n 0

/-- A GET with these options, numbers and lengths, whose values start at the same place. -/
def valuesPkt (os : List (UInt8 × Nat)) : CoapPacket Bool where
  hdr := { ver := 1, t := 0, tkl := 0, code := coapMethodGet, idHi := 0x12, idLo := 0x34 }
  tok := { p := none, len := 0 }
  opts := os.map fun o => { num := o.1, buf := { p := some ⟨true, 0⟩, len := o.2 } }
  payload := { p := none, len := 0 }

theorem valuesPkt_readable {n : Nat} {os : List (UInt8 × Nat)} (h : ∀ o ∈ os, o.2 ≤ 3) :
    Readable (valuesMem n) (valuesPkt os) where
  tok := Or.inl rfl
  opts := by
    intro o ho
    obtain ⟨o', ho', rfl⟩ := List.mem_map.mp ho
    refine Or.inr ⟨⟨true, 0⟩, rfl, ?_⟩
    have hle := h o' ho'
    show 0 + o'.2 ≤ 3
    omega
  payload := Or.inl rfl

/-- One option of three bytes in a buffer of eight. -/
theorem coapBuild_respects_iff_eight :
    Respects (valuesMem 8) ⟨false, 0⟩ 8 (valuesPkt [(11, 3)]) :=
  (coapBuild_respects_iff rfl (valuesPkt_readable (by decide))).mpr
    (Or.inr (Or.inr ⟨by unfold HasNibbles; decide, by decide, Or.inr (by decide)⟩))

/-- In a buffer of six bytes the value is written behind the end, and of two options in the wrong
    order the second is written with delta 0 and no error. -/
theorem not_respects_examples :
    coapBuild (valuesMem 6) ⟨false, 0⟩ 6 (valuesPkt [(11, 3)]) = none ∧
    ¬ Respects (valuesMem 6) ⟨false, 0⟩ 6 (valuesPkt [(11, 3)]) ∧
    (coapBuild (valuesMem 8) ⟨false, 0⟩ 8 (valuesPkt [(12, 0), (11, 0)])).map
        (fun r => (r.1, r.2.1 false, r.2.2))
      = some (.none, [0x40, 0x01, 0x12, 0x34, 0xC0, 0x00, 0, 0], 6) ∧
    ¬ Respects (valuesMem 8) ⟨false, 0⟩ 8 (valuesPkt [(12, 0), (11, 0)]) := by
  have hshort : coapBuild (valuesMem 6) ⟨false, 0⟩ 6 (valuesPkt [(11, 3)]) = none := by
    decide +kernel
  have horder : (coapBuild (valuesMem 8) ⟨false, 0⟩ 8 (valuesPkt [(12, 0), (11, 0)])).map
      (fun r => (r.1, r.2.1 false, r.2.2))
      = some (.none, [0x40, 0x01, 0x12, 0x34, 0xC0, 0x00, 0, 0], 6) := by
    decide +kernel
  refine ⟨hshort, ?_, horder, ?_⟩
  · rintro ⟨rc, m', n, hres, -⟩
    rw [hshort] at hres
    exact absurd hres (by simp)
  · rintro ⟨rc, m', n, hres, -, herr⟩
    have hnot : ¬ Encodable 8 (valuesPkt [(12, 0), (11, 0)]) :=
      fun h => absurd h.sorted (by decide)
    rw [hres, Option.map_some] at horder
    exact herr hnot (congrArg Prod.fst (Option.some.inj horder))

end Gateway.CoapServer.BuildBounds
