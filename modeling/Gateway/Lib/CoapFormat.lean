/-
  Gateway.Lib.CoapFormat

  The CoAP message format of RFC 7252, section 3, over plain byte lists.

  An option on the wire is a header (`optHeader`: one byte with two nibbles, then
  the extension bytes of the delta and of the length) followed by its value.
  `ext` and `nibble` are the encoder of one such number, `readExt` the decoder;
  they are inverse to each other on the numbers the format can carry, up to
  `extMax` (`readExt_ext`, `eq_ext_of_readExt`).  So an option header determines
  its delta and length, and these determine the header.

  `WireOpt` is an option with its delta, `Opt` one with its absolute number;
  `toWire` computes the deltas of a list of options.  `Message` is a message with
  the conditions the format puts on it, and `Message.encode` its bytes.
-/

import Mathlib.Data.List.Basic
import Mathlib.Tactic.Linarith

namespace Gateway.Lib.CoapFormat

/-! ## The extended encoding of a delta or a length -/

/-- The largest number a nibble and two extension bytes can carry. -/
def extMax : Nat := 65535 + 269

/-- The nibble of `n`: `n` itself, or the number of extension bytes plus 12. -/
def nibble (n : Nat) : Nat :=
  if n < 13 then n else if n < 269 then 13 else 14

/-- The extension bytes of `n`. -/
def ext (n : Nat) : List UInt8 :=
  if n < 13 then []
  else if n < 269 then [UInt8.ofNat (n - 13)]
  else [UInt8.ofNat ((n - 269) / 256), UInt8.ofNat ((n - 269) % 256)]

/-- Read the number of nibble `nib`, taking its extension bytes off `bs`. -/
def readExt (nib : Nat) (bs : List UInt8) : Option (Nat × List UInt8) :=
  if nib < 13 then some (nib, bs)
  else if nib = 13 then
    match bs with
    | b :: rest => some (b.toNat + 13, rest)
    | [] => none
  else if nib = 14 then
    match bs with
    | b :: c :: rest => some (b.toNat * 256 + c.toNat + 269, rest)
    | _ => none
  else none

theorem nibble_lt (n : Nat) : nibble n < 15 := by
  unfold nibble
  split
  · omega
  · split <;> omega

theorem ext_length_le (n : Nat) : (ext n).length ≤ 2 := by
  unfold ext
  split
  · simp
  · split <;> simp

theorem ext_length (n : Nat) : (ext n).length = if n < 13 then 0 else if n < 269 then 1 else 2 := by
  unfold ext
  split
  · rfl
  · split <;> rfl

theorem ext_length_mono {m n : Nat} (h : m ≤ n) : (ext m).length ≤ (ext n).length := by
  rw [ext_length, ext_length]
  split_ifs <;> omega

/-- Decoding what was encoded. -/
theorem readExt_ext {n : Nat} (h : n ≤ extMax) (rest : List UInt8) :
    readExt (nibble n) (ext n ++ rest) = some (n, rest) := by
  unfold extMax at h
  unfold nibble ext
  by_cases h13 : n < 13
  · simp [readExt, h13]
  by_cases h269 : n < 269
  · have hb : (UInt8.ofNat (n - 13)).toNat = n - 13 := by
      rw [UInt8.toNat_ofNat']; omega
    have hn : n - 13 + 13 = n := by omega
    simp only [if_neg h13, if_pos h269, readExt, Nat.lt_irrefl, if_false, if_true,
      List.singleton_append, hb, hn]
  · have hb : (UInt8.ofNat ((n - 269) / 256)).toNat = (n - 269) / 256 := by
      rw [UInt8.toNat_ofNat']; omega
    have hc : (UInt8.ofNat ((n - 269) % 256)).toNat = (n - 269) % 256 := by
      rw [UInt8.toNat_ofNat']; omega
    have hn : (n - 269) / 256 * 256 + (n - 269) % 256 + 269 = n := by omega
    simp only [if_neg h13, if_neg h269, readExt, List.cons_append, List.nil_append, hb, hc, hn]
    rfl

/-- Whatever decodes is the encoding of the number it decodes to. -/
theorem eq_ext_of_readExt {nib n : Nat} {bs rest : List UInt8}
    (h : readExt nib bs = some (n, rest)) :
    nib = nibble n ∧ bs = ext n ++ rest ∧ n ≤ extMax := by
  unfold readExt at h
  split at h
  · next h13 =>
    obtain ⟨rfl, rfl⟩ : nib = n ∧ bs = rest := by simpa using h
    simp only [nibble, ext, extMax, if_pos h13, List.nil_append, true_and]
    omega
  split at h
  · next h13 hnib =>
    cases bs with
    | nil => cases h
    | cons b bs =>
      obtain ⟨rfl, rfl⟩ : b.toNat + 13 = n ∧ bs = rest := by simpa using h
      have hb := b.toNat_lt
      simp only [nibble, ext, extMax, if_neg (show ¬ b.toNat + 13 < 13 by omega),
        if_pos (show b.toNat + 13 < 269 by omega), Nat.add_sub_cancel, UInt8.ofNat_toNat,
        List.singleton_append, hnib, true_and]
      omega
  split at h
  · next h13 hne hnib =>
    match bs, h with
    | b :: c :: bs, h =>
      obtain ⟨rfl, rfl⟩ : b.toNat * 256 + c.toNat + 269 = n ∧ bs = rest := by simpa using h
      have hb := b.toNat_lt
      have hc := c.toNat_lt
      have hdiv : (b.toNat * 256 + c.toNat) / 256 = b.toNat := by omega
      have hmod : (b.toNat * 256 + c.toNat) % 256 = c.toNat := by omega
      simp only [nibble, ext, extMax, if_neg (show ¬ b.toNat * 256 + c.toNat + 269 < 13 by omega),
        if_neg (show ¬ b.toNat * 256 + c.toNat + 269 < 269 by omega), Nat.add_sub_cancel,
        hdiv, hmod, UInt8.ofNat_toNat, List.cons_append, List.nil_append, hnib, true_and]
      omega
  · cases h

/-! ## Option headers -/

/-- The header of an option with this delta and value length. -/
def optHeader (delta len : Nat) : List UInt8 :=
  UInt8.ofNat (nibble delta * 16 + nibble len) :: (ext delta ++ ext len)

/-- Read an option header: the delta, the length, and the bytes behind it. -/
def readOptHeader : List UInt8 → Option (Nat × Nat × List UInt8)
  | [] => none
  | b :: bs =>
    match readExt (b.toNat / 16) bs with
    | none => none
    | some (delta, bs') =>
      match readExt (b.toNat % 16) bs' with
      | none => none
      | some (len, rest) => some (delta, len, rest)

theorem firstByte_toNat (d l : Nat) :
    (UInt8.ofNat (nibble d * 16 + nibble l)).toNat = nibble d * 16 + nibble l := by
  have hd := nibble_lt d
  have hl := nibble_lt l
  rw [UInt8.toNat_ofNat']
  omega

/-- The two nibbles of the first byte, as C code puts them together. -/
theorem nibbles_or (d l : Nat) :
    UInt8.ofNat (nibble d) <<< 4 ||| UInt8.ofNat (nibble l)
      = UInt8.ofNat (nibble d * 16 + nibble l) := by
  have hall : ∀ i j : Fin 16, UInt8.ofNat i <<< 4 ||| UInt8.ofNat j = UInt8.ofNat (i * 16 + j) := by
    decide +kernel
  have hd := nibble_lt d
  have hl := nibble_lt l
  exact hall ⟨nibble d, by omega⟩ ⟨nibble l, by omega⟩

theorem optHeader_length_pos (d l : Nat) : 0 < (optHeader d l).length := by
  simp [optHeader]

theorem optHeader_length_le (d l : Nat) : (optHeader d l).length ≤ 5 := by
  have hd := ext_length_le d
  have hl := ext_length_le l
  simp only [optHeader, List.length_cons, List.length_append]
  omega

/-- No option header starts with the payload marker. -/
theorem optHeader_ne_marker (d l : Nat) (rest : List UInt8) :
    ∃ b bs, optHeader d l ++ rest = b :: bs ∧ b ≠ 0xFF := by
  refine ⟨_, _, rfl, fun hff => ?_⟩
  have hn := congrArg UInt8.toNat hff
  rw [firstByte_toNat] at hn
  have hd := nibble_lt d
  have hl := nibble_lt l
  have h255 : (0xFF : UInt8).toNat = 255 := rfl
  omega

theorem readOptHeader_optHeader {d l : Nat} (hd : d ≤ extMax) (hl : l ≤ extMax)
    (rest : List UInt8) :
    readOptHeader (optHeader d l ++ rest) = some (d, l, rest) := by
  have hnd := nibble_lt d
  have hnl := nibble_lt l
  have hdiv : (nibble d * 16 + nibble l) / 16 = nibble d := by omega
  have hmod : (nibble d * 16 + nibble l) % 16 = nibble l := by omega
  simp only [optHeader, List.cons_append, List.append_assoc, readOptHeader, firstByte_toNat,
    hdiv, hmod, readExt_ext hd, readExt_ext hl]

/-- Whatever reads as an option header is the header of what it reads as. -/
theorem eq_optHeader_of_readOptHeader {d l : Nat} {bs rest : List UInt8}
    (h : readOptHeader bs = some (d, l, rest)) :
    bs = optHeader d l ++ rest ∧ d ≤ extMax ∧ l ≤ extMax := by
  cases bs with
  | nil => cases h
  | cons b bs =>
    simp only [readOptHeader] at h
    split at h
    · cases h
    next d' bs' hd =>
    split at h
    · cases h
    next l' rest' hl =>
    obtain ⟨rfl, rfl, rfl⟩ : d' = d ∧ l' = l ∧ rest' = rest := by simpa using h
    obtain ⟨hnd, rfl, hdle⟩ := eq_ext_of_readExt hd
    obtain ⟨hnl, rfl, hlle⟩ := eq_ext_of_readExt hl
    refine ⟨?_, hdle, hlle⟩
    have hb : UInt8.ofNat (nibble d' * 16 + nibble l') = b := by
      rw [← hnd, ← hnl, Nat.div_add_mod', UInt8.ofNat_toNat]
    rw [optHeader, hb, List.cons_append, List.append_assoc]

/-! ## Options -/

/-- An option as it stands on the wire, with its delta. -/
structure WireOpt where
  delta : Nat
  value : List UInt8
  deriving DecidableEq, Repr

/-- The header and the value of an option. -/
def WireOpt.bytes (o : WireOpt) : List UInt8 :=
  optHeader o.delta o.value.length ++ o.value

/-- The format can carry the option's delta and length. -/
def WireOpt.Fits (o : WireOpt) : Prop :=
  o.delta ≤ extMax ∧ o.value.length ≤ extMax

/-- The bytes of a list of options. -/
def optsBytes (os : List WireOpt) : List UInt8 := os.flatMap WireOpt.bytes

@[simp] theorem optsBytes_nil : optsBytes [] = [] := rfl

@[simp] theorem optsBytes_cons (o : WireOpt) (os : List WireOpt) :
    optsBytes (o :: os) = o.bytes ++ optsBytes os := rfl

@[simp] theorem optsBytes_append (os ps : List WireOpt) :
    optsBytes (os ++ ps) = optsBytes os ++ optsBytes ps := by
  simp [optsBytes]

theorem WireOpt.bytes_length (o : WireOpt) :
    o.bytes.length = (optHeader o.delta o.value.length).length + o.value.length := by
  rw [WireOpt.bytes, List.length_append]

/-- The marker and the payload; nothing when there is no payload. -/
def payloadBytes (payload : List UInt8) : List UInt8 :=
  if payload = [] then [] else 0xFF :: payload

@[simp] theorem payloadBytes_nil : payloadBytes [] = [] := rfl

theorem payloadBytes_of_ne_nil {payload : List UInt8} (h : payload ≠ []) :
    payloadBytes payload = 0xFF :: payload := by
  rw [payloadBytes, if_neg h]

/-- The bytes behind the token are the end of the message or start with the
    marker or with an option header. -/
theorem payloadBytes_cases (payload : List UInt8) :
    payloadBytes payload = [] ∨ ∃ bs, payloadBytes payload = 0xFF :: bs := by
  by_cases h : payload = []
  · exact Or.inl (by rw [h]; rfl)
  · exact Or.inr ⟨payload, payloadBytes_of_ne_nil h⟩

/-- No list of options starts like what can stand behind the options. -/
theorem optsBytes_cons_ne {o : WireOpt} {os : List WireOpt} {rest tail : List UInt8}
    (htail : tail = [] ∨ ∃ bs, tail = 0xFF :: bs) : optsBytes (o :: os) ++ rest ≠ tail := by
  intro h
  rw [optsBytes_cons, WireOpt.bytes, List.append_assoc, List.append_assoc] at h
  obtain ⟨b, bs, hb, hne⟩ := optHeader_ne_marker o.delta o.value.length
    (o.value ++ (optsBytes os ++ rest))
  rw [hb] at h
  rcases htail with rfl | ⟨bs', rfl⟩
  · cases h
  · exact hne (List.cons_eq_cons.mp h).1

/-- The options and what stands behind them can be told apart. -/
theorem optsBytes_append_inj {os os' : List WireOpt} {tail tail' : List UInt8}
    (hos : ∀ o ∈ os, o.Fits) (hos' : ∀ o ∈ os', o.Fits)
    (htail : tail = [] ∨ ∃ bs, tail = 0xFF :: bs) (htail' : tail' = [] ∨ ∃ bs, tail' = 0xFF :: bs)
    (h : optsBytes os ++ tail = optsBytes os' ++ tail') : os = os' ∧ tail = tail' := by
  induction os generalizing os' with
  | nil =>
    cases os' with
    | nil => exact ⟨rfl, h⟩
    | cons o' os' => exact absurd h.symm (optsBytes_cons_ne htail)
  | cons o os ih =>
    cases os' with
    | nil => exact absurd h (optsBytes_cons_ne htail')
    | cons o' os' =>
      obtain ⟨hd, hl⟩ := hos o (List.mem_cons_self ..)
      obtain ⟨hd', hl'⟩ := hos' o' (List.mem_cons_self ..)
      simp only [optsBytes_cons, WireOpt.bytes, List.append_assoc] at h
      -- the headers say the same, so the values have one length
      have hread := readOptHeader_optHeader hd hl (o.value ++ (optsBytes os ++ tail))
      rw [h, readOptHeader_optHeader hd' hl'] at hread
      simp only [Option.some.injEq, Prod.mk.injEq] at hread
      obtain ⟨hdelta, hlen, hrest⟩ := hread
      obtain ⟨hvalue, hrest⟩ := List.append_inj hrest hlen
      obtain ⟨hopts, htails⟩ := ih (fun o ho => hos o (List.mem_cons_of_mem _ ho))
        (fun o ho => hos' o (List.mem_cons_of_mem _ ho)) hrest.symm
      refine ⟨?_, htails⟩
      rw [hopts, show o = o' from by cases o; cases o'; simp only at hdelta hvalue; rw [hdelta, hvalue]]

theorem payloadBytes_inj {payload payload' : List UInt8}
    (h : payloadBytes payload = payloadBytes payload') : payload = payload' := by
  unfold payloadBytes at h
  split at h
  · next h0 =>
    split at h
    · next h0' => rw [h0, h0']
    · cases h
  · split at h
    · cases h
    · exact (List.cons_eq_cons.mp h).2

/-! ## Absolute option numbers -/

/-- An option with its absolute number. -/
structure Opt where
  num : Nat
  value : List UInt8
  deriving DecidableEq, Repr

/-- The wire form of options that follow option number `prev`. -/
def toWire (prev : Nat) : List Opt → List WireOpt
  | [] => []
  | o :: os => ⟨o.num - prev, o.value⟩ :: toWire o.num os

/-- The number of the last option, `prev` when there is none. -/
def lastNum (prev : Nat) : List Opt → Nat
  | [] => prev
  | o :: os => lastNum o.num os

@[simp] theorem toWire_nil (prev : Nat) : toWire prev [] = [] := rfl

@[simp] theorem toWire_cons (prev : Nat) (o : Opt) (os : List Opt) :
    toWire prev (o :: os) = ⟨o.num - prev, o.value⟩ :: toWire o.num os := rfl

@[simp] theorem toWire_length (prev : Nat) (os : List Opt) :
    (toWire prev os).length = os.length := by
  induction os generalizing prev with
  | nil => rfl
  | cons o os ih => simp [ih]

theorem toWire_append (prev : Nat) (os ps : List Opt) :
    toWire prev (os ++ ps) = toWire prev os ++ toWire (lastNum prev os) ps := by
  induction os generalizing prev with
  | nil => rfl
  | cons o os ih => simp [ih, lastNum]

/-- The numbers the deltas of a list of wire options add up to, from `prev` on. -/
def wireNums (prev : Nat) : List WireOpt → List Nat
  | [] => []
  | o :: os => (prev + o.delta) :: wireNums (prev + o.delta) os

/-- Adding the deltas up gives the numbers back. -/
theorem wireNums_toWire (prev : Nat) (os : List Opt) (hs : (prev :: os.map Opt.num).Pairwise (· ≤ ·)) :
    wireNums prev (toWire prev os) = os.map Opt.num := by
  induction os generalizing prev with
  | nil => rfl
  | cons o os ih =>
    obtain ⟨hle, hs'⟩ := List.pairwise_cons.mp hs
    have hpo : prev ≤ o.num := hle o.num (by simp)
    have hsum : prev + (o.num - prev) = o.num := by omega
    simp only [toWire_cons, wireNums, hsum, List.map_cons, ih o.num hs']

/-! ## Messages -/

/-- A CoAP message: the conditions are those of the format. -/
structure Message where
  ver : Fin 4
  type : Fin 4
  code : UInt8
  idHi : UInt8
  idLo : UInt8
  token : List UInt8
  opts : List Opt
  payload : List UInt8
  token_le : token.length ≤ 8
  sorted : (opts.map Opt.num).Pairwise (· ≤ ·)

/-- A literal stands for a version or a type. -/
instance instNeZeroFour : NeZero 4 := ⟨by decide⟩

theorem noToken_le : ([] : List UInt8).length ≤ 8 := Nat.zero_le _

theorem noOpts_sorted : (([] : List Opt).map Opt.num).Pairwise (· ≤ ·) := List.Pairwise.nil

/-- The first byte of a header. -/
def headByte (ver type tkl : Nat) : UInt8 := UInt8.ofNat (ver * 64 + type * 16 + tkl)

/-- The bytes of a message with these header fields, token, options and payload. -/
def wireMessage (b0 code idHi idLo : UInt8) (token : List UInt8) (os : List WireOpt)
    (payload : List UInt8) : List UInt8 :=
  b0 :: code :: idHi :: idLo :: (token ++ (optsBytes os ++ payloadBytes payload))

/-- The bytes of a message. -/
def Message.encode (msg : Message) : List UInt8 :=
  wireMessage (headByte msg.ver msg.type msg.token.length) msg.code msg.idHi msg.idLo
    msg.token (toWire 0 msg.opts) msg.payload

theorem headByte_toNat {ver type tkl : Nat} (hv : ver < 4) (ht : type < 4) (hk : tkl < 16) :
    (headByte ver type tkl).toNat = ver * 64 + type * 16 + tkl := by
  rw [headByte, UInt8.toNat_ofNat']
  omega

theorem wireMessage_length (b0 code idHi idLo : UInt8) (token : List UInt8) (os : List WireOpt)
    (payload : List UInt8) :
    (wireMessage b0 code idHi idLo token os payload).length
      = 4 + token.length + (optsBytes os).length + (payloadBytes payload).length := by
  simp only [wireMessage, List.length_cons, List.length_append]
  omega

end Gateway.Lib.CoapFormat
