/-
  Gateway.CoapServer.ParseSafety

  The memory safety of `coap_parse` on any bytes.

  The datagram is the whole object here, so that a read at an index that is not
  below `buflen` is a fault.  `Loop` are the states of the option loop at its head,
  in runs that end well and in runs that end in an error: the entries of `opts`
  written so far, `delta` and the cursor.  A turn moves the cursor by at least a
  byte and not past the end (`coapParseOption_advances`), which bounds all of them
  (`Loop.bounds`); what the packet points to is then in order in the buffer
  (`coapParse_inOrder`).
-/

import Gateway.CoapServer.Grammar

namespace Gateway.CoapServer.ParseSafety

open Gateway.Lib.ByteWindow Gateway.Lib.BlockMem
open Gateway.CoapServer.Microcoap Gateway.CoapServer.ParseSpec Gateway.CoapServer.Grammar

variable {O : Type} {m : Mem O}

/-! ## Ranges in order -/

/-- The buffers that point somewhere lie in the object `obj` between the offsets, one behind
    the other; a buffer with a null pointer has no bytes. -/
def InOrder (obj : O) : Nat → List (CoapBuffer O) → Nat → Prop
  | lo, [], hi => lo ≤ hi
  | lo, b :: bs, hi =>
    match b.p with
    | none => b.len = 0 ∧ InOrder obj lo bs hi
    | some p => p.obj = obj ∧ lo ≤ p.off ∧ InOrder obj (p.off + b.len) bs hi

variable {obj : O} {lo mid hi : Nat}

theorem InOrder.of_le {bs : List (CoapBuffer O)} (hle : lo ≤ mid) (h : InOrder obj mid bs hi) :
    InOrder obj lo bs hi := by
  induction bs generalizing lo mid with
  | nil => exact Nat.le_trans hle h
  | cons b bs ih =>
    rw [InOrder] at h ⊢
    cases hp : b.p with
    | none =>
      rw [hp] at h
      exact ⟨h.1, ih hle h.2⟩
    | some p =>
      rw [hp] at h
      exact ⟨h.1, Nat.le_trans hle h.2.1, h.2.2⟩

theorem InOrder.append {bs cs : List (CoapBuffer O)} (hbs : InOrder obj lo bs mid)
    (hcs : InOrder obj mid cs hi) : InOrder obj lo (bs ++ cs) hi := by
  induction bs generalizing lo with
  | nil => exact hcs.of_le hbs
  | cons b bs ih =>
    rw [List.cons_append]
    rw [InOrder] at hbs ⊢
    cases hp : b.p with
    | none =>
      rw [hp] at hbs
      exact ⟨hbs.1, ih hbs.2⟩
    | some p =>
      rw [hp] at hbs
      exact ⟨hbs.1, hbs.2.1, ih hbs.2.2⟩

/-- One buffer that points somewhere. -/
theorem inOrder_singleton {b : CoapBuffer O} {p : Ptr O} (hp : b.p = some p) (hobj : p.obj = obj)
    (hlo : lo ≤ p.off) (hhi : p.off + b.len ≤ hi) : InOrder obj lo [b] hi := by
  rw [InOrder, hp]
  exact ⟨hobj, hlo, hhi⟩

/-! ## One option -/

/-- The extension moves `p` by as much as it adds to `headlen`. -/
theorem coapParseExt_advances {buflen headlen headlen' : Nat} {invalid : CoapError}
    {nib v : UInt16} {p p' : Ptr O}
    (h : coapParseExt m buflen invalid nib headlen p = .ok (v, headlen', p')) :
    p'.obj = p.obj ∧ p.off ≤ p'.off := by
  rw [coapParseExt] at h
  split at h
  · split at h
    · cases h
    · obtain ⟨b, -, h⟩ := Outcome.bind_eq_ok.mp h
      cases h
      exact ⟨rfl, Nat.le_add_right ..⟩
  · split at h
    · split at h
      · cases h
      · obtain ⟨b, -, h⟩ := Outcome.bind_eq_ok.mp h
        obtain ⟨c, -, h⟩ := Outcome.bind_eq_ok.mp h
        cases h
        exact ⟨rfl, Nat.le_add_right ..⟩
    · split at h
      · cases h
      · cases h
        exact ⟨rfl, Nat.le_refl _⟩

/-- `coap_parseOption` advances the cursor by at least one byte and not past the end; the value
    stands between the option's first byte and the new cursor. -/
theorem coapParseOption_advances {delta delta' : UInt16} {p p' : Ptr O} {buflen : Nat}
    {o : CoapOption O} (h : coapParseOption m delta p buflen = .ok (o, delta', p')) :
    p'.obj = p.obj ∧ p.off + 1 ≤ p'.off ∧ p'.off ≤ p.off + buflen ∧
      InOrder p.obj (p.off + 1) [o.buf] p'.off := by
  rw [coapParseOption] at h
  split at h
  · cases h
  obtain ⟨b, -, h⟩ := Outcome.bind_eq_ok.mp h
  obtain ⟨⟨d, headlen, p₁⟩, hdelta, h⟩ := Outcome.bind_eq_ok.mp h
  obtain ⟨⟨len, headlen', p₂⟩, hlen, h⟩ := Outcome.bind_eq_ok.mp h
  obtain ⟨hobj₁, hle₁⟩ := coapParseExt_advances hdelta
  obtain ⟨hobj₂, hle₂⟩ := coapParseExt_advances hlen
  have hobj : p₂.obj = p.obj := hobj₂.trans hobj₁
  simp only at h
  split at h
  · cases h
  · -- the last check is that the value ends inside the buffer
    cases h
    refine ⟨hobj, ?_, ?_, inOrder_singleton rfl hobj ?_ ?_⟩ <;>
      simp only [Ptr.add_off] <;> omega

/-! ## The option loop -/

/-- The states of the loop of `coap_parseOptionsAndPayload` at its head, from the cursor `p₀` on:
    the entries of `options` that were written, `delta` and `p`. -/
inductive Loop (m : Mem O) (end_ numOptions : Nat) (p₀ : Ptr O) :
    List (CoapOption O) → UInt16 → Ptr O → Prop where
  | start : Loop m end_ numOptions p₀ [] 0 p₀
  | turn {options : List (CoapOption O)} {delta delta' : UInt16} {p p' : Ptr O} {b : UInt8}
      {o : CoapOption O} : Loop m end_ numOptions p₀ options delta p →
      options.length < numOptions → p.off < end_ → load m p = some b → b ≠ 0xFF →
      coapParseOption m delta p (end_ - p.off) = .ok (o, delta', p') →
      Loop m end_ numOptions p₀ (options ++ [o]) delta' p'

variable {end_ numOptions : Nat} {p₀ p : Ptr O} {options : List (CoapOption O)} {delta : UInt16}

/-- At every turn there is room in the array, the cursor is inside the buffer, and the values
    stand in order before it. -/
theorem Loop.bounds (hloop : Loop m end_ numOptions p₀ options delta p) (hstart : p₀.off ≤ end_) :
    options.length ≤ numOptions ∧ p.obj = p₀.obj ∧ p₀.off + options.length ≤ p.off ∧
      p.off ≤ end_ ∧ InOrder p₀.obj p₀.off (options.map CoapOption.buf) p.off := by
  induction hloop with
  | start => exact ⟨Nat.zero_le _, rfl, Nat.le_refl _, hstart, Nat.le_refl _⟩
  | turn _ hroom hlt _ _ hopt ih =>
    obtain ⟨-, hobj, hlen, hend, horder⟩ := ih
    obtain ⟨hobj', hadv, hfit, hvalue⟩ := coapParseOption_advances hopt
    rw [List.length_append, List.length_singleton, List.map_append]
    refine ⟨hroom, hobj'.trans hobj, by omega, by omega, horder.append ?_⟩
    rw [← hobj]
    exact hvalue.of_le (Nat.le_succ _)

/-- The loop of the code goes through these states: it returns one of them, or the error that
    `coap_parseOption` returned in one of them. -/
theorem coapParseOptions_visits {free : Nat} (hloop : Loop m end_ numOptions p₀ options delta p)
    (hfree : options.length + free = numOptions) :
    match coapParseOptions m end_ free delta p with
    | .ok (os, q) => ∃ delta', Loop m end_ numOptions p₀ (options ++ os) delta' q
    | .err e => ∃ options' delta' p', Loop m end_ numOptions p₀ options' delta' p' ∧
        coapParseOption m delta' p' (end_ - p'.off) = .err e
    | .fault => True := by
  induction free generalizing options delta p with
  | zero => exact ⟨delta, (List.append_nil options).symm ▸ hloop⟩
  | succ free ih =>
    have hstop : ∃ delta', Loop m end_ numOptions p₀ (options ++ []) delta' p :=
      ⟨delta, (List.append_nil options).symm ▸ hloop⟩
    rw [coapParseOptions]
    by_cases hlt : p.off < end_
    · rw [if_pos hlt]
      cases hb : load m p with
      | none => trivial
      | some b =>
        simp only [Outcome.liftM_some, Outcome.ok_bind]
        by_cases hmarker : b = 0xFF
        · rw [if_pos hmarker]
          exact hstop
        · rw [if_neg hmarker]
          cases hopt : coapParseOption m delta p (end_ - p.off) with
          | fault => trivial
          | err e => exact ⟨options, delta, p, hloop, hopt⟩
          | ok r =>
            obtain ⟨o, delta', p'⟩ := r
            -- one more entry is written, and the loop goes on behind the option
            have hturn := hloop.turn (by omega) hlt hb hmarker hopt
            have hgoes := ih hturn (by
              rw [List.length_append, List.length_singleton]
              omega)
            simp only [Outcome.ok_bind]
            cases hrest : coapParseOptions m end_ free delta' p' with
            | fault => trivial
            | err e =>
              rw [hrest] at hgoes
              exact hgoes
            | ok r =>
              rw [hrest] at hgoes
              obtain ⟨delta'', hloop'⟩ := hgoes
              rw [List.append_assoc] at hloop'
              exact ⟨delta'', hloop'⟩
    · rw [if_neg hlt]
      exact hstop

/-! ## The packet -/

/-- A header that is accepted has its four bytes. -/
theorem coapParseHeader_fits {buf : Ptr O} {n : Nat} {hdr : CoapHeader}
    (h : coapParseHeader m buf n = .ok hdr) : 4 ≤ n := by
  rw [coapParseHeader] at h
  split at h
  · cases h
  · omega

/-- A token that is accepted stands behind the header, inside the buffer. -/
theorem coapParseToken_fits {buf : Ptr O} {n : Nat} {hdr : CoapHeader} {tok : CoapBuffer O}
    (hn : 4 ≤ n) (h : coapParseToken hdr buf n = .ok tok) :
    4 + hdr.tkl.toNat ≤ n ∧
      InOrder buf.obj (buf.off + 4) [tok] (buf.off + 4 + hdr.tkl.toNat) := by
  rw [coapParseToken] at h
  split at h
  next hzero =>
    cases h
    rw [hzero]
    exact ⟨hn, rfl, Nat.le_refl _⟩
  next =>
    split at h
    · split at h
      · cases h
      · cases h
        exact ⟨by omega, inOrder_singleton rfl rfl (Nat.le_refl _) (Nat.le_refl _)⟩
    · cases h

/-- The payload reaches from behind its marker to the end. -/
theorem coapParsePayload_inOrder {q : Ptr O} {payload : CoapBuffer O} (hq : q.off ≤ end_)
    (h : coapParsePayload m end_ q = .ok payload) : InOrder q.obj q.off [payload] end_ := by
  have hnone : InOrder q.obj q.off [{ p := none, len := 0 }] end_ := ⟨rfl, hq⟩
  rw [coapParsePayload] at h
  split at h
  next hlt =>
    obtain ⟨b, -, h⟩ := Outcome.bind_eq_ok.mp h
    split at h
    · cases h
      refine inOrder_singleton rfl rfl (Nat.le_add_right ..) ?_
      simp only [Ptr.add_off]
      omega
    · cases h
      exact hnone
  · cases h
    exact hnone

/-- Token, option values and payload of an accepted packet are ranges of the buffer behind the
    header, and stand there in this order. -/
theorem coapParse_inOrder {buf : Ptr O} {n : Nat} {pkt : CoapPacket O}
    (h : coapParse m buf n = .ok pkt) :
    InOrder buf.obj (buf.off + 4) (pkt.tok :: pkt.opts.map CoapOption.buf ++ [pkt.payload])
      (buf.off + n) := by
  obtain ⟨hdr, hhdr, h⟩ := Outcome.bind_eq_ok.mp h
  obtain ⟨tok, htok, h⟩ := Outcome.bind_eq_ok.mp h
  obtain ⟨⟨opts, payload⟩, hrest, h⟩ := Outcome.bind_eq_ok.mp h
  cases h
  obtain ⟨hfit, horder⟩ := coapParseToken_fits (coapParseHeader_fits hhdr) htok
  rw [coapParseOptionsAndPayload] at hrest
  split at hrest
  · cases hrest
  obtain ⟨⟨os, q⟩, hopts, hrest⟩ := Outcome.bind_eq_ok.mp hrest
  obtain ⟨pl, hpayload, hrest⟩ := Outcome.bind_eq_ok.mp hrest
  cases hrest
  have hvisits := coapParseOptions_visits (@Loop.start _ m (buf.off + n) maxopt (buf.add (4 + hdr.tkl.toNat)))
    (Nat.zero_add maxopt)
  rw [hopts] at hvisits
  obtain ⟨delta, hloop⟩ := hvisits
  obtain ⟨-, hobj, -, hend, hvalues⟩ := hloop.bounds (by simp only [Ptr.add_off]; omega)
  have htail := coapParsePayload_inOrder hend hpayload
  rw [hobj] at htail
  refine (InOrder.append horder (hvalues.of_le ?_)).append htail
  simp only [Ptr.add_off]
  omega

/-! ## Safety -/

/-- `coap_parse` reads nothing outside the buffer, whether it accepts it or not. -/
theorem coapParse_ne_fault (m : Mem O) (buf : Ptr O) (n : Nat)
    (hfit : buf.off + n ≤ (m buf.obj).length) : coapParse m buf n ≠ .fault := by
  cases h : decodeMsg (slice (m buf.obj) buf.off n) with
  | some r =>
    rw [coapParse_ok hfit h]
    exact nofun
  | none =>
    obtain ⟨e, he⟩ := coapParse_err hfit h
    rw [he]
    exact nofun

/-- For every datagram: no byte outside it is read; the option loop goes through the states of
    `Loop`, in which at most 16 options are written, the cursor is inside the datagram and moves on
    by at least a byte, not past the end, with each option that is read; and the ranges of an
    accepted packet are in order. -/
theorem coapParse_safe (bs : List UInt8) :
    coapParse (datagram bs) ⟨(), 0⟩ bs.length ≠ .fault ∧
    (∀ hdr tok, coapParseHeader (datagram bs) ⟨(), 0⟩ bs.length = .ok hdr →
      coapParseToken hdr (⟨(), 0⟩ : Ptr Unit) bs.length = .ok tok →
      let AtHead := Loop (datagram bs) bs.length maxopt ⟨(), 4 + hdr.tkl.toNat⟩
      (match coapParseOptions (datagram bs) bs.length maxopt 0 ⟨(), 4 + hdr.tkl.toNat⟩ with
        | .ok (opts, p) => ∃ delta, AtHead opts delta p
        | .err e => ∃ opts delta p, AtHead opts delta p ∧
            coapParseOption (datagram bs) delta p (bs.length - p.off) = .err e
        | .fault => False) ∧
      ∀ opts delta p, AtHead opts delta p → opts.length ≤ 16 ∧ p.off ≤ bs.length ∧
        ∀ o delta' p', coapParseOption (datagram bs) delta p (bs.length - p.off)
            = .ok (o, delta', p') → p.off + 1 ≤ p'.off ∧ p'.off ≤ bs.length) ∧
    (∀ pkt, coapParse (datagram bs) ⟨(), 0⟩ bs.length = .ok pkt →
      InOrder () 4 (pkt.tok :: pkt.opts.map CoapOption.buf ++ [pkt.payload]) bs.length) := by
  have hsafe := coapParse_ne_fault (datagram bs) ⟨(), 0⟩ bs.length (Nat.le_of_eq (Nat.zero_add _))
  refine ⟨hsafe, ?_, ?_⟩
  · intro hdr tok hhdr htok
    obtain ⟨hfit, -⟩ := coapParseToken_fits (coapParseHeader_fits hhdr) htok
    refine ⟨?_, ?_⟩
    · have hvisits := coapParseOptions_visits (@Loop.start _ (datagram bs) bs.length maxopt
        ⟨(), 4 + hdr.tkl.toNat⟩) (Nat.zero_add maxopt)
      cases hopts : coapParseOptions (datagram bs) bs.length maxopt 0 ⟨(), 4 + hdr.tkl.toNat⟩ with
      | ok r =>
        rw [hopts] at hvisits
        exact hvisits
      | err e =>
        rw [hopts] at hvisits
        exact hvisits
      | fault =>
        -- a fault of the loop would be one of the whole function
        refine hsafe ?_
        rw [coapParse, hhdr]
        simp only [Outcome.ok_bind, htok, coapParseOptionsAndPayload, Ptr.add, Nat.zero_add]
        rw [if_neg (by omega), hopts]
        rfl
    · intro opts delta p hloop
      obtain ⟨hroom, -, -, hend, -⟩ := hloop.bounds hfit
      refine ⟨hroom, hend, fun o delta' p' hopt => ?_⟩
      obtain ⟨-, hadv, hin, -⟩ := coapParseOption_advances hopt
      exact ⟨hadv, by omega⟩
  · intro pkt hpkt
    have horder := coapParse_inOrder hpkt
    simp only [Nat.zero_add] at horder
    exact horder

end Gateway.CoapServer.ParseSafety
