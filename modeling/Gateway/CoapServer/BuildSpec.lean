/-
  Gateway.CoapServer.BuildSpec

  What `coap_build` writes, as a function of the packet's bytes.

  `buildBytes` is the byte string of a packet as the encoder computes it.  It
  differs from the message format in one place, the two-byte extension of an
  option length (`extBuild`), and agrees with it on options of fewer than 269 bytes
  (`buildOptBytes_eq`).  `coapBuild_eq` says that `coap_build` overwrites the start
  of the buffer with `buildBytes` and leaves everything else as it was, also when
  the token it copies stands in that buffer.
-/

import Gateway.CoapServer.ParseSpec

namespace Gateway.CoapServer.BuildSpec

open Gateway.Lib.ByteWindow Gateway.Lib.BlockMem Gateway.Lib.ByteBits Gateway.Lib.CoapFormat
open Gateway.CoapServer.Microcoap

variable {O : Type}

/-! ## The bytes of a packet -/

/-- The extension bytes of an option length as the encoder writes them. -/
def extBuild (n : Nat) : List UInt8 :=
  if n < 13 then []
  else if n < 269 then [UInt8.ofNat (n - 13)]
  else [UInt8.ofNat (n / 256), UInt8.ofNat (n - 269)]

/-- An option of this delta and value. -/
def buildOptBytes (delta : Nat) (value : List UInt8) : List UInt8 :=
  UInt8.ofNat (nibble delta * 16 + nibble value.length)
    :: (ext delta ++ extBuild value.length ++ value)

/-- A list of options that follow option number `prev`. -/
def buildOptsBytes (prev : Nat) : List (UInt8 × List UInt8) → List UInt8
  | [] => []
  | (num, value) :: os => buildOptBytes (num.toNat - prev) value ++ buildOptsBytes num.toNat os

/-- The first byte of the header. -/
def buildHeadByte (hdr : CoapHeader) : UInt8 :=
  (hdr.ver &&& 0x03) <<< 6 ||| (hdr.t &&& 0x03) <<< 4 ||| (hdr.tkl &&& 0x0F)

/-- A packet with this header, token, options and payload. -/
def buildBytes (hdr : CoapHeader) (token : List UInt8) (os : List (UInt8 × List UInt8))
    (payload : List UInt8) : List UInt8 :=
  [buildHeadByte hdr, hdr.code, hdr.idHi, hdr.idLo] ++ token ++ buildOptsBytes 0 os
    ++ payloadBytes payload

theorem extBuild_eq {n : Nat} (h : n < 269) : extBuild n = ext n := by
  by_cases h13 : n < 13
  · rw [extBuild, ext, if_pos h13, if_pos h13]
  · rw [extBuild, ext, if_neg h13, if_neg h13, if_pos h, if_pos h]

theorem extBuild_length (n : Nat) : (extBuild n).length = (ext n).length := by
  by_cases h13 : n < 13
  · rw [extBuild, ext, if_pos h13, if_pos h13]
  · rw [extBuild, ext, if_neg h13, if_neg h13]
    split
    · rfl
    · rw [List.length_cons, List.length_cons, List.length_cons, List.length_cons]

/-- The length that stands in the header of an option of `n` bytes. -/
def builtLen (n : Nat) : Nat :=
  if n < 269 then n else n / 256 * 256 + (n - 269) % 256 + 269

theorem builtLen_of_lt {n : Nat} (h : n < 269) : builtLen n = n := if_pos h

/-- From 269 bytes on, the header names 256 or 512 bytes too many. -/
theorem builtLen_of_ge {n : Nat} (h : 269 ≤ n) : builtLen n = n + 256 ∨ builtLen n = n + 512 := by
  rw [builtLen, if_neg (by omega)]
  omega

theorem builtLen_le_extMax {n : Nat} (h : n ≤ 65535) : builtLen n ≤ extMax := by
  unfold builtLen extMax
  split <;> omega

/-- No length of 269 or more is read back, also after it is cut down to 16 bits. -/
theorem builtLen_mod_eq_iff {n : Nat} (h : n ≤ 65535) : builtLen n % 65536 = n ↔ n < 269 := by
  constructor
  · intro hmod
    by_contra hge
    rcases builtLen_of_ge (Nat.le_of_not_lt hge) with heq | heq <;> omega
  · intro hlt
    rw [builtLen_of_lt hlt]
    omega

theorem nibble_builtLen (n : Nat) : nibble (builtLen n) = nibble n := by
  by_cases h : n < 269
  · rw [builtLen_of_lt h]
  · have hge : 269 ≤ n := Nat.le_of_not_lt h
    have hbuilt : 269 ≤ builtLen n := by
      rcases builtLen_of_ge hge with heq | heq <;> omega
    rw [nibble, nibble, if_neg (by omega), if_neg (by omega), if_neg (by omega),
      if_neg (by omega)]

theorem extBuild_eq_ext (n : Nat) : extBuild n = ext (builtLen n) := by
  by_cases h : n < 269
  · rw [builtLen_of_lt h, extBuild_eq h]
  · have hhi : (n / 256 * 256 + (n - 269) % 256) / 256 = n / 256 := by omega
    have hlo : UInt8.ofNat ((n / 256 * 256 + (n - 269) % 256) % 256) = UInt8.ofNat (n - 269) := by
      apply UInt8.toNat_inj.mp
      rw [UInt8.toNat_ofNat', UInt8.toNat_ofNat']
      omega
    rw [extBuild, ext, builtLen, if_neg h, if_neg (by omega), if_neg h, if_neg (by omega),
      if_neg (by omega), Nat.add_sub_cancel, hhi, hlo]

/-- An encoded option is a header of the format, with the length `builtLen`, and the value. -/
theorem buildOptBytes_eq_optHeader (delta : Nat) (value : List UInt8) :
    buildOptBytes delta value = optHeader delta (builtLen value.length) ++ value := by
  rw [buildOptBytes, optHeader, nibble_builtLen, extBuild_eq_ext, List.cons_append]

/-- Options of fewer than 269 bytes are encoded as the format demands. -/
theorem buildOptBytes_eq {delta : Nat} {value : List UInt8} (h : value.length < 269) :
    buildOptBytes delta value = WireOpt.bytes ⟨delta, value⟩ := by
  rw [buildOptBytes_eq_optHeader, builtLen_of_lt h, WireOpt.bytes]

/-- The encoding has the length the format gives it, whatever the values. -/
theorem buildOptBytes_length (delta : Nat) (value : List UInt8) :
    (buildOptBytes delta value).length = (optHeader delta value.length).length + value.length := by
  simp only [buildOptBytes, optHeader, List.length_cons, List.length_append, extBuild_length]
  omega

/-- The list of options a packet with these numbers and values stands for. -/
def optsOf (os : List (UInt8 × List UInt8)) : List Opt := os.map fun o => ⟨o.1.toNat, o.2⟩

theorem optsOf_nums (os : List (UInt8 × List UInt8)) :
    (optsOf os).map Opt.num = (os.map Prod.fst).map UInt8.toNat := by
  rw [optsOf, List.map_map, List.map_map]
  rfl

theorem optsOf_values (os : List (UInt8 × List UInt8)) :
    (optsOf os).map Opt.value = os.map Prod.snd := by
  rw [optsOf, List.map_map]
  rfl

theorem buildOptsBytes_length (prev : Nat) (os : List (UInt8 × List UInt8)) :
    (buildOptsBytes prev os).length = (optsBytes (toWire prev (optsOf os))).length := by
  induction os generalizing prev with
  | nil => rfl
  | cons o os ih =>
    have ih' := ih o.1.toNat
    simp only [optsOf] at ih'
    simp only [buildOptsBytes, optsOf, List.map_cons, toWire_cons, optsBytes_cons,
      List.length_append, buildOptBytes_length, WireOpt.bytes, ih']

theorem buildOptsBytes_eq {prev : Nat} {os : List (UInt8 × List UInt8)}
    (h : ∀ o ∈ os, o.2.length < 269) :
    buildOptsBytes prev os = optsBytes (toWire prev (optsOf os)) := by
  induction os generalizing prev with
  | nil => rfl
  | cons o os ih =>
    have ih' := @ih o.1.toNat fun o' ho' => h o' (List.mem_cons_of_mem _ ho')
    simp only [optsOf] at ih'
    simp only [buildOptsBytes, optsOf, List.map_cons, toWire_cons, optsBytes_cons,
      buildOptBytes_eq (h o (List.mem_cons_self ..)), ih']

/-! ## The bytes of one option -/

/-- The nibble of a number that has one. -/
theorem coapOptionNibble_toNat (v : UInt32) :
    coapOptionNibble v
      = if v.toNat ≤ extMax then some (UInt8.ofNat (nibble v.toNat)) else none := by
  have h13 : (13 : UInt32).toNat = 13 := rfl
  have h268 : (0xFF + 13 : UInt32).toNat = 268 := rfl
  have h65804 : (0xFFFF + 269 : UInt32).toNat = 65804 := rfl
  have hext : extMax = 65804 := rfl
  unfold nibble
  simp only [coapOptionNibble, UInt32.lt_iff_toNat_lt, UInt32.le_iff_toNat_le, h13, h268, h65804,
    hext]
  by_cases hlt : v.toNat < 13
  · have hv : v.toUInt8 = UInt8.ofNat v.toNat := by
      apply UInt8.toNat_inj.mp
      rw [UInt32.toNat_toUInt8, UInt8.toNat_ofNat']
    rw [if_pos hlt, if_pos (by omega), if_pos hlt, hv]
  rw [if_neg hlt, if_neg hlt]
  by_cases hbig : v.toNat ≤ 65804
  · rw [if_pos hbig, if_pos hbig]
    by_cases hle : v.toNat ≤ 268
    · rw [if_pos hle, if_pos (by omega)]
      rfl
    · rw [if_neg hle, if_neg (by omega)]
      rfl
  · rw [if_neg (by omega), if_neg hbig, if_neg hbig]

theorem coapOptionNibble_eq {n : Nat} (h : n ≤ 65535) :
    coapOptionNibble (UInt32.ofNat n) = some (UInt8.ofNat (nibble n)) := by
  have hn : (UInt32.ofNat n).toNat = n := by rw [UInt32.toNat_ofNat']; omega
  rw [coapOptionNibble_toNat, hn, if_pos (by unfold extMax; omega)]

/-- The delta of an option and its extension bytes. -/
theorem optDeltaBytes_eq {delta : Nat} (h : delta ≤ 65535) :
    optDeltaBytes (UInt8.ofNat (nibble delta)) (UInt32.ofNat delta) = ext delta := by
  have hd : (UInt32.ofNat delta).toNat = delta := by rw [UInt32.toNat_ofNat']; omega
  unfold optDeltaBytes ext nibble
  by_cases h13 : delta < 13
  · have hn : (UInt8.ofNat delta).toNat = delta := by rw [UInt8.toNat_ofNat']; omega
    simp only [if_pos h13, ← UInt8.toNat_inj, hn, UInt8.reduceToNat]
    rw [if_neg (by omega), if_neg (by omega)]
  -- one byte, less 13; then two bytes, less 269, the high byte first
  by_cases h269 : delta < 269
  · have hv : (UInt32.ofNat delta - 13).toUInt8 = UInt8.ofNat (delta - 13) := by
      apply UInt8.toNat_inj.mp
      rw [UInt32.toNat_toUInt8, UInt32.toNat_sub_of_le _ _ (by
        rw [UInt32.le_iff_toNat_le, hd]; exact Nat.le_of_not_lt h13), hd, UInt8.toNat_ofNat']
      rfl
    rw [if_neg h13, if_pos h269, if_neg h13, if_pos h269, if_pos (by decide), hv]
  · have hsub : (UInt32.ofNat delta - 269).toNat = delta - 269 := by
      rw [UInt32.toNat_sub_of_le _ _ (by
        rw [UInt32.le_iff_toNat_le, hd]; exact Nat.le_of_not_lt h269), hd]
      rfl
    have hhi : ((UInt32.ofNat delta - 269) >>> 8).toUInt8 = UInt8.ofNat ((delta - 269) / 256) := by
      apply UInt8.toNat_inj.mp
      rw [UInt32.toNat_toUInt8, UInt32.toNat_shiftRight, hsub, UInt8.toNat_ofNat',
        Nat.shiftRight_eq_div_pow]
      rfl
    have hlo : (UInt32.ofNat delta - 269).toUInt8 = UInt8.ofNat ((delta - 269) % 256) := by
      apply UInt8.toNat_inj.mp
      rw [UInt32.toNat_toUInt8, hsub, UInt8.toNat_ofNat']
      omega
    rw [if_neg h13, if_neg h269, if_neg h13, if_neg h269, if_neg (by decide),
      if_pos (by decide), hhi, hlo]

theorem optLenBytes_eq (len : Nat) :
    optLenBytes (UInt8.ofNat (nibble len)) len = extBuild len := by
  unfold optLenBytes extBuild nibble
  by_cases h13 : len < 13
  · have hn : (UInt8.ofNat len).toNat = len := by rw [UInt8.toNat_ofNat']; omega
    simp only [if_pos h13, ← UInt8.toNat_inj, hn, UInt8.reduceToNat]
    rw [if_neg (by omega), if_neg (by omega)]
  -- 269 is taken off for the low byte only, in the code as in `extBuild`
  by_cases h269 : len < 269
  · rw [if_neg h13, if_pos h269, if_neg h13, if_pos h269, if_pos (by decide)]
  · rw [if_neg h13, if_neg h269, if_neg h13, if_neg h269, if_neg (by decide),
      if_pos (by decide), Nat.shiftRight_eq_div_pow]

/-- The bytes the loop body writes before the value. -/
theorem optHeaderBytes_eq {delta len : Nat} (hd : delta ≤ 65535) :
    (UInt8.ofNat (nibble delta) <<< 4 ||| UInt8.ofNat (nibble len))
        :: (optDeltaBytes (UInt8.ofNat (nibble delta)) (UInt32.ofNat delta)
          ++ optLenBytes (UInt8.ofNat (nibble len)) len)
      = UInt8.ofNat (nibble delta * 16 + nibble len) :: (ext delta ++ extBuild len) := by
  rw [nibbles_or, optDeltaBytes_eq hd, optLenBytes_eq]

/-! ## Copying from outside the buffer -/

/-- The descriptor points into no object but `o`'s. -/
def Apart (b : CoapBuffer O) (o : O) : Prop := ∀ p, b.p = some p → p.obj ≠ o

theorem CoapBuffer.read_length {m : Mem O} {b : CoapBuffer O} {v : List UInt8}
    (h : b.read m = some v) : v.length = b.len := by
  rw [CoapBuffer.read] at h
  split at h
  · next h0 =>
    cases h
    exact h0.symm
  · obtain ⟨p, -, hload⟩ := Option.bind_eq_some_iff.mp h
    exact loadBytes_length hload

/-- What a descriptor stands for depends on the object it points into only. -/
theorem CoapBuffer.read_congr {m m' : Mem O} {b : CoapBuffer O}
    (h : ∀ p, b.p = some p → m' p.obj = m p.obj) : b.read m' = b.read m := by
  rw [CoapBuffer.read, CoapBuffer.read]
  cases hp : b.p with
  | none => rfl
  | some p =>
    simp only [Option.bind_eq_bind, Option.bind_some, loadBytes, h p hp]

variable [DecidableEq O]

/-- What stands outside an object is not changed by writing into it. -/
theorem read_setObj {m : Mem O} {b : CoapBuffer O} {o : O} {v l : List UInt8}
    (hb : Apart b o) (h : b.read m = some v) : b.read (setObj m o l) = some v := by
  rw [← h]
  exact CoapBuffer.read_congr fun p hp => setObj_ne m l (hb p hp)

/-- `m` with the buffer behind `buf` overwritten by `w`. -/
def written (m : Mem O) (buf : Ptr O) (w : List UInt8) : Mem O :=
  setObj m buf.obj (splice (m buf.obj) buf.off w)

theorem written_nil (m : Mem O) (buf : Ptr O) : written m buf [] = m := by
  rw [written, splice_nil, setObj_eq_self]

theorem read_written {m : Mem O} {buf : Ptr O} {b : CoapBuffer O} {w v : List UInt8}
    (hb : Apart b buf.obj) (h : b.read m = some v) : b.read (written m buf w) = some v :=
  read_setObj hb h

/-- A descriptor that points behind what was written reads as before. -/
theorem read_written_behind {m : Mem O} {buf : Ptr O} {b : CoapBuffer O} {w v : List UInt8}
    (hb : b.p = some (buf.add w.length)) (hfit : buf.off + w.length ≤ (m buf.obj).length)
    (h : b.read m = some v) : b.read (written m buf w) = some v := by
  rw [CoapBuffer.read] at h ⊢
  split at h
  · next h0 => rw [if_pos h0, h]
  · next h0 =>
    rw [if_neg h0, hb]
    rw [hb] at h
    exact (loadBytes_setObj_splice hfit fun _ => Or.inr (Nat.le_refl _)).trans h

/-- Storing behind what was written. -/
theorem storeBytes_written {m : Mem O} {buf : Ptr O} {w a : List UInt8}
    (hfit : buf.off + (w ++ a).length ≤ (m buf.obj).length) :
    storeBytes (written m buf w) (buf.add w.length) a = some (written m buf (w ++ a)) := by
  rw [List.length_append] at hfit
  exact storeBytes_append (by omega)

theorem putBytes_written {m : Mem O} {buf : Ptr O} {w a : List UInt8}
    (hfit : buf.off + (w ++ a).length ≤ (m buf.obj).length) :
    putBytes (written m buf w) (buf.add w.length) a
      = some (written m buf (w ++ a), buf.add (w ++ a).length) := by
  rw [putBytes, storeBytes_written hfit, List.length_append, ← Ptr.add_add]
  rfl

/-- Copying what a descriptor stands for behind what was written. -/
theorem memcpy_written {m : Mem O} {buf : Ptr O} {b : CoapBuffer O} {w v : List UInt8}
    (h : b.read (written m buf w) = some v)
    (hfit : buf.off + (w ++ v).length ≤ (m buf.obj).length) :
    memcpy (written m buf w) (buf.add w.length) b.p b.len = some (written m buf (w ++ v)) := by
  rw [CoapBuffer.read] at h
  split at h
  · next h0 =>
    cases h
    rw [memcpy, if_pos h0, List.append_nil]
  · next h0 =>
    obtain ⟨p, hp, hload⟩ := Option.bind_eq_some_iff.mp h
    rw [memcpy, if_neg h0, hp]
    show (loadBytes (written m buf w) p b.len).bind (storeBytes _ _) = _
    rw [hload]
    exact storeBytes_written hfit

/-! ## The option loop -/

/-- Numbers that do not decrease give the deltas of the format. -/
theorem optDelta_eq {num prev : UInt8} (h : prev ≤ num) :
    num.toUInt32 - prev.toUInt16.toUInt32 = UInt32.ofNat (num.toNat - prev.toNat) := by
  apply UInt32.toNat_inj.mp
  have hle : prev.toUInt16.toUInt32 ≤ num.toUInt32 := by
    rw [UInt32.le_iff_toNat_le]
    simpa [UInt8.le_iff_toNat_le] using h
  have hn := num.toNat_lt
  rw [UInt32.toNat_sub_of_le _ _ hle, UInt32.toNat_ofNat']
  simp
  omega

/-- The loop body overwrites the buffer behind `w` with the encoded option. -/
theorem coapBuildOption_eq {m : Mem O} {buf : Ptr O} {o : CoapOption O} {w v : List UInt8}
    {prev : UInt8} (hv : o.buf.read m = some v) (hapart : Apart o.buf buf.obj)
    (hlen : o.buf.len ≤ 65535) (hle : prev ≤ o.num)
    (hfit : buf.off + (w ++ buildOptBytes (o.num.toNat - prev.toNat) v).length
      ≤ (m buf.obj).length) :
    coapBuildOption (written m buf w) (buf.add w.length) prev.toUInt16 o
      = some (written m buf (w ++ buildOptBytes (o.num.toNat - prev.toNat) v),
          buf.add (w ++ buildOptBytes (o.num.toNat - prev.toNat) v).length) := by
  have hvlen := CoapBuffer.read_length hv
  have hdle : o.num.toNat - prev.toNat ≤ 65535 := by have := o.num.toNat_lt; omega
  have hb : w ++ buildOptBytes (o.num.toNat - prev.toNat) v
      = (w ++ (UInt8.ofNat (nibble (o.num.toNat - prev.toNat) * 16 + nibble o.buf.len)
          :: (ext (o.num.toNat - prev.toNat) ++ extBuild o.buf.len))) ++ v := by
    simp only [buildOptBytes, hvlen, List.append_assoc, List.cons_append]
  rw [hb] at hfit ⊢
  simp only [coapBuildOption, optDelta_eq hle, coapOptionNibble_eq hdle, coapOptionNibble_eq hlen,
    Option.getD_some, Option.bind_eq_bind, Option.bind_some, optHeaderBytes_eq hdle]
  rw [putBytes_written (by rw [List.length_append] at hfit; omega)]
  simp only [Option.bind_some]
  rw [memcpy_written (read_written hapart hv) hfit]
  simp only [Option.bind_some, Ptr.add_add, List.length_append, hvlen]

/-- The loop overwrites the buffer behind `w` with the encoded options. -/
theorem coapBuildOptions_eq {m : Mem O} {buf : Ptr O} {buflen : Nat} {os : List (CoapOption O)}
    {vs : List (List UInt8)} {w : List UInt8} {prev : UInt8}
    (hreads : os.map (fun o => o.buf.read m) = vs.map some)
    (hapart : ∀ o ∈ os, Apart o.buf buf.obj)
    (hlen : ∀ o ∈ os, o.buf.len ≤ 65535)
    (hsorted : (prev :: os.map CoapOption.num).Pairwise (· ≤ ·))
    (hroom : buf.off + buflen ≤ (m buf.obj).length)
    (hfit : (w ++ buildOptsBytes prev.toNat ((os.map CoapOption.num).zip vs)).length ≤ buflen) :
    coapBuildOptions buf buflen os (written m buf w) (buf.add w.length) prev.toUInt16
      = some (.none, written m buf (w ++ buildOptsBytes prev.toNat ((os.map CoapOption.num).zip vs)),
          buf.add (w ++ buildOptsBytes prev.toNat ((os.map CoapOption.num).zip vs)).length) := by
  induction os generalizing vs w prev with
  | nil => simp [coapBuildOptions, buildOptsBytes]
  | cons o os ih =>
    obtain ⟨v, vs, rfl, hv, hvs⟩ : ∃ v vs', vs = v :: vs' ∧ o.buf.read m = some v ∧
        os.map (fun o => o.buf.read m) = vs'.map some := by
      cases vs with
      | nil => simp at hreads
      | cons v vs =>
        simp only [List.map_cons, List.cons.injEq] at hreads
        exact ⟨v, vs, rfl, hreads.1, hreads.2⟩
    obtain ⟨hle, hsorted'⟩ := List.pairwise_cons.mp hsorted
    have happ : w ++ buildOptsBytes prev.toNat (((o :: os).map CoapOption.num).zip (v :: vs))
        = (w ++ buildOptBytes (o.num.toNat - prev.toNat) v)
          ++ buildOptsBytes o.num.toNat ((os.map CoapOption.num).zip vs) := by
      rw [List.append_assoc]
      rfl
    rw [happ] at hfit ⊢
    have hfit1 := hfit
    rw [List.length_append] at hfit1
    have hw : w.length ≤ (w ++ buildOptBytes (o.num.toNat - prev.toNat) v).length := by
      rw [List.length_append]; omega
    -- what was written so far fits, so the check of the turn passes
    rw [coapBuildOptions, if_neg (by simp only [Ptr.add]; omega),
      coapBuildOption_eq hv (hapart o (List.mem_cons_self ..)) (hlen o (List.mem_cons_self ..))
        (hle o.num (by simp)) (by omega)]
    exact ih hvs (fun o' ho' => hapart o' (List.mem_cons_of_mem _ ho'))
      (fun o' ho' => hlen o' (List.mem_cons_of_mem _ ho')) hsorted' hfit

/-! ## coap_build -/

/-- The conditions under which `coap_build` encodes a packet whose parts read as
    `token`, `vs` and `payload`: the token length of the header is that of the token,
    the numbers do not decrease, and every part can be read while the buffer is
    overwritten.  The token may stand in the buffer itself, behind the header. -/
structure Buildable (m : Mem O) (buf : Ptr O) (pkt : CoapPacket O) (token : List UInt8)
    (vs : List (List UInt8)) (payload : List UInt8) : Prop where
  tkl : pkt.hdr.tkl.toNat = pkt.tok.len
  tok : ∀ w, w.length = 4 → pkt.tok.read (written m buf w) = some token
  opts : pkt.opts.map (fun o => o.buf.read m) = vs.map some
  optsApart : ∀ o ∈ pkt.opts, Apart o.buf buf.obj
  optsLen : ∀ o ∈ pkt.opts, o.buf.len ≤ 65535
  sorted : (pkt.opts.map CoapOption.num).Pairwise (· ≤ ·)
  payload : pkt.payload.read m = some payload
  payloadApart : Apart pkt.payload buf.obj

/-- The bytes of a packet whose option values are `vs`. -/
def pktBytes (pkt : CoapPacket O) (token : List UInt8) (vs : List (List UInt8))
    (payload : List UInt8) : List UInt8 :=
  buildBytes pkt.hdr token ((pkt.opts.map CoapOption.num).zip vs) payload

/-- The marker and the payload are written behind `w`. -/
theorem storePayload_written {m : Mem O} {buf : Ptr O} {b : CoapBuffer O}
    {w payload : List UInt8} (hread : b.read m = some payload) (hapart : Apart b buf.obj)
    (hne : payload ≠ [])
    (hfit : buf.off + (w ++ payloadBytes payload).length ≤ (m buf.obj).length) :
    ∃ m', store (written m buf w) (buf.add w.length) 0xFF = some m' ∧
      memcpy m' (buf.add (w.length + 1)) b.p b.len
        = some (written m buf (w ++ payloadBytes payload)) := by
  have hbytes : w ++ payloadBytes payload = (w ++ [0xFF]) ++ payload := by
    rw [payloadBytes_of_ne_nil hne, List.append_assoc]
    rfl
  rw [hbytes] at hfit ⊢
  have hmark : buf.off + (w ++ [0xFF]).length ≤ (m buf.obj).length := by
    rw [List.length_append] at hfit
    omega
  refine ⟨written m buf (w ++ [0xFF]), storeBytes_written hmark, ?_⟩
  have hcopy := memcpy_written (read_written hapart hread) hfit
  rw [List.length_append, List.length_singleton] at hcopy
  exact hcopy

/-- What `coap_build` does behind the options, which are `optsLen` bytes with the token. -/
def buildPayload (m : Mem O) (buf : Ptr O) (buflen : Nat) (pkt : CoapPacket O) (optsLen : Nat) :
    Option (CoapError × Mem O × Nat) :=
  if 0 < pkt.payload.len then
    if buflen < 4 + 1 + pkt.payload.len + optsLen then some (.bufferTooSmall, m, buflen) else do
    let m ← store m (buf.add (4 + optsLen)) 0xFF
    let m ← memcpy m (buf.add (5 + optsLen)) pkt.payload.p pkt.payload.len
    some (.none, m, optsLen + 5 + pkt.payload.len)
  else some (.none, m, optsLen + 4)

/-- Header and token are written, and behind them the options and the payload. -/
theorem coapBuild_parts {m m₁ m₂ : Mem O} {buf : Ptr O} {buflen : Nat} {pkt : CoapPacket O}
    (hroom : 4 + pkt.hdr.tkl.toNat ≤ buflen)
    (htkl : ¬ (0 < pkt.hdr.tkl.toNat ∧ pkt.hdr.tkl.toNat ≠ pkt.tok.len))
    (hhead : storeBytes m buf [buildHeadByte pkt.hdr, pkt.hdr.code, pkt.hdr.idHi, pkt.hdr.idLo]
      = some m₁)
    (htok : memcpy m₁ (buf.add 4) pkt.tok.p pkt.hdr.tkl.toNat = some m₂) :
    coapBuild m buf buflen pkt
      = (coapBuildOptions buf buflen pkt.opts m₂ (buf.add (4 + pkt.hdr.tkl.toNat)) 0).bind fun r =>
          if r.1 ≠ .none then some (r.1, r.2.1, buflen)
          else buildPayload r.2.1 buf buflen pkt (r.2.2.off - buf.off - 4) := by
  have hguard : ¬ (0 < pkt.hdr.tkl ∧ pkt.hdr.tkl.toNat ≠ pkt.tok.len) := by
    rw [UInt8.lt_iff_toNat_lt]
    exact htkl
  unfold buildHeadByte at hhead
  rw [coapBuild, if_neg (by omega), hhead]
  simp only [Option.bind_eq_bind, Option.bind_some]
  rw [if_neg hguard, htok]
  rfl

/-- Behind the bytes `w` of the options come the marker and the payload, if there is one. -/
theorem buildPayload_written {m : Mem O} {buf : Ptr O} {buflen : Nat} {pkt : CoapPacket O}
    {w payload : List UInt8} (hread : pkt.payload.read m = some payload)
    (hapart : Apart pkt.payload buf.obj) (h4 : 4 ≤ w.length)
    (hroom : buf.off + buflen ≤ (m buf.obj).length)
    (hfit : (w ++ payloadBytes payload).length ≤ buflen) :
    buildPayload (written m buf w) buf buflen pkt (w.length - 4)
      = some (.none, written m buf (w ++ payloadBytes payload),
          (w ++ payloadBytes payload).length) := by
  have hlen := CoapBuffer.read_length hread
  unfold buildPayload
  by_cases h0 : payload = []
  · -- without a payload the length is that of the options
    rw [if_neg (by rw [← hlen, h0]; exact Nat.lt_irrefl 0), h0, payloadBytes_nil, List.append_nil,
      Nat.sub_add_cancel h4]
  · have hpos : 0 < pkt.payload.len := by rw [← hlen]; exact List.length_pos_of_ne_nil h0
    have hbytes : (w ++ payloadBytes payload).length = w.length + 1 + pkt.payload.len := by
      rw [payloadBytes_of_ne_nil h0, List.length_append, List.length_cons, hlen]
      omega
    obtain ⟨m', hmark, hcopy⟩ :=
      @storePayload_written _ _ m buf _ w _ hread hapart h0 (by omega)
    -- the offsets of the marker and of the payload, as the code computes them
    rw [if_pos hpos, if_neg (by omega), show 4 + (w.length - 4) = w.length by omega,
      show 5 + (w.length - 4) = w.length + 1 by omega,
      show w.length - 4 + 5 + pkt.payload.len = (w ++ payloadBytes payload).length by omega, hmark]
    simp only [Option.bind_eq_bind, Option.bind_some]
    rw [hcopy]
    rfl

/-- `coap_build` overwrites the start of a large enough buffer with the packet's bytes. -/
theorem coapBuild_eq {m : Mem O} {buf : Ptr O} {buflen : Nat} {pkt : CoapPacket O}
    {token payload : List UInt8} {vs : List (List UInt8)}
    (h : Buildable m buf pkt token vs payload)
    (hroom : buf.off + buflen ≤ (m buf.obj).length)
    (hfit : (pktBytes pkt token vs payload).length ≤ buflen) :
    coapBuild m buf buflen pkt
      = some (.none, written m buf (pktBytes pkt token vs payload),
          (pktBytes pkt token vs payload).length) := by
  have htoklen : token.length = pkt.tok.len := CoapBuffer.read_length (h.tok [0, 0, 0, 0] rfl)
  have htkl := h.tkl
  unfold pktBytes buildBytes at hfit ⊢
  generalize hhd : [buildHeadByte pkt.hdr, pkt.hdr.code, pkt.hdr.idHi, pkt.hdr.idLo] = hd
    at hfit ⊢
  have hdlen : hd.length = 4 := by rw [← hhd]; rfl
  generalize hob : buildOptsBytes 0 ((pkt.opts.map CoapOption.num).zip vs) = ob at hfit ⊢
  have hfit1 := hfit
  simp only [List.length_append] at hfit1
  -- header, token, options, payload: each behind what was written before
  have hhead : storeBytes m buf hd = some (written m buf hd) := storeBytes_eq (by omega)
  have htok := memcpy_written (h.tok hd hdlen) (by rw [List.length_append]; omega)
  have hopts := @coapBuildOptions_eq _ _ m buf buflen pkt.opts vs (hd ++ token) 0 h.opts
    h.optsApart h.optsLen (List.pairwise_cons.mpr ⟨fun _ _ => UInt8.zero_le, h.sorted⟩) hroom
  simp only [UInt8.toNat_zero, hob] at hopts
  have hopts := hopts (by simp only [List.length_append]; omega)
  rw [hdlen, ← htkl] at htok
  rw [List.length_append, hdlen, htoklen, ← htkl] at hopts
  rw [← hhd] at hhead
  rw [coapBuild_parts (by omega) (by omega) hhead (hhd ▸ htok), hhd]
  have hopts' : coapBuildOptions buf buflen pkt.opts (written m buf (hd ++ token))
      (buf.add (4 + pkt.hdr.tkl.toNat)) 0
      = some (.none, written m buf (hd ++ token ++ ob), buf.add (hd ++ token ++ ob).length) := hopts
  rw [hopts', Option.bind_some, if_neg (by simp), Ptr.add_off, Nat.add_sub_cancel_left]
  exact buildPayload_written h.payload h.payloadApart (by simp only [List.length_append]; omega)
    hroom hfit

end Gateway.CoapServer.BuildSpec
