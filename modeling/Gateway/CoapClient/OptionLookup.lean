/-
  Gateway.CoapClient.OptionLookup

  `coap_get_option_by_num` against the option it is asked for.

  The options of a message stand at known places (`placed`), and the one that is
  looked up is the `occ`-th of its number among them (`lookedUp`).  The loop passes
  over the options whose numbers are not larger (`getOptionByNumLoop_pass`), until it
  stops at the right occurrence, at a larger number or at the end.  Two of its
  branches go wrong: at the end it returns what the iterator returns, which is not
  empty before a payload, and with `occ` 255 the 8-bit counter wraps around before it
  is larger (`coapGetOptionByNum_iff`).
-/

import Gateway.CoapClient.AddAnywhere
import Gateway.CoapClient.IteratorEnd

namespace Gateway.CoapClient.OptionLookup

open Gateway.Lib.ByteWindow Gateway.Lib.CoapFormat
open Gateway.CoapClient.Picocoap Gateway.CoapClient.DecodeSpec Gateway.CoapClient.PduSpec
open Gateway.CoapClient.GetterSpec Gateway.CoapClient.DecodersAgree Gateway.CoapClient.IteratorEnd
open Gateway.CoapClient.AddAnywhere (upTo beyond upTo_append_beyond upTo_le beyond_lt)

/-! ## Where the options stand -/

/-- The options `os` from offset `ptr` on, behind option number `prev`. -/
def placed (addr ptr prev : Nat) : List Opt → List CoapOption
  | [] => []
  | o :: os => optionAt addr ptr prev o :: placed addr (behind ptr prev o) o.num os

/-- `num` 0, `len` 0 and `val` NULL. -/
def noOption : CoapOption := { num := 0, len := 0, val := 0 }

/-- The options of the message numbered `num`. -/
def numbered (num : Nat) (os : List Opt) : List Opt := os.filter (·.num == num)

/-- The `occ`-th option numbered `num` where it stands, or no option. -/
def lookedUp (addr : Nat) (msg : Message) (num occ : Nat) : CoapOption :=
  ((placed addr (4 + msg.token.length) 0 msg.opts).filter
    (fun opt => opt.num.toNat == num))[occ]?.getD noOption

section Placed

variable {addr ptr prev num : Nat} {pdu : CoapPdu} {os pre rest : List Opt} {m : Opt}
  {tail : List UInt8}

theorem optionAt_num_toNat (hnum : m.num ≤ 65535) : (optionAt addr ptr prev m).num.toNat = m.num := by
  show (UInt16.ofNat m.num).toNat = m.num
  rw [UInt16.toNat_ofNat']
  omega

theorem numbered_cons_length :
    (numbered num (m :: os)).length = (if m.num = num then 1 else 0) + (numbered num os).length := by
  rw [numbered]
  split
  · next hm => rw [List.filter_cons_of_pos (by simpa using hm), List.length_cons, Nat.add_comm, numbered]
  · next hm => rw [List.filter_cons_of_neg (by simpa using hm), Nat.zero_add, numbered]

/-- The offset behind the options `pre`. -/
def behindAll (ptr prev : Nat) (pre : List Opt) : Nat :=
  ptr + (optsBytes (toWire prev pre)).length

theorem behindAll_cons (o : Opt) :
    behindAll ptr prev (o :: pre) = behindAll (behind ptr prev o) o.num pre := by
  unfold behindAll behind
  rw [toWire_cons, optsBytes_cons, List.length_append, WireOpt.bytes, List.length_append]
  simp only
  omega

theorem placed_append : placed addr ptr prev (pre ++ rest)
    = placed addr ptr prev pre ++ placed addr (behindAll ptr prev pre) (lastNum prev pre) rest := by
  induction pre generalizing ptr prev with
  | nil => rfl
  | cons o pre ih => rw [List.cons_append, placed, ih, placed, behindAll_cons, lastNum, List.cons_append]

theorem filter_placed_length (hnums : ∀ o ∈ os, o.num ≤ 65535) :
    ((placed addr ptr prev os).filter (fun opt => opt.num.toNat == num)).length
      = (numbered num os).length := by
  induction os generalizing ptr prev with
  | nil => rfl
  | cons o os ih =>
    have hnat := @optionAt_num_toNat addr ptr prev o (hnums o (List.mem_cons_self ..))
    have hrest := @ih (behind ptr prev o) o.num (fun o' ho' => hnums o' (List.mem_cons_of_mem _ ho'))
    rw [placed, numbered_cons_length, ← hrest]
    split
    · next hnum =>
      rw [List.filter_cons_of_pos (by simpa [hnat] using hnum), List.length_cons, Nat.add_comm]
    · next hnum => rw [List.filter_cons_of_neg (by simpa [hnat] using hnum), Nat.zero_add]

/-- Behind `n` options of its number, an option is the `n`-th of them. -/
theorem filter_placed_getElem? {n : Nat} (hnums : ∀ o ∈ pre ++ m :: rest, o.num ≤ 65535)
    (hm : m.num = num) (hcount : (numbered num pre).length = n) :
    ((placed addr ptr prev (pre ++ m :: rest)).filter (fun opt => opt.num.toNat == num))[n]?
      = some (optionAt addr (behindAll ptr prev pre) (lastNum prev pre) m) := by
  have hnat := @optionAt_num_toNat addr (behindAll ptr prev pre) (lastNum prev pre) m
    (hnums m (by simp))
  have hlen := @filter_placed_length addr ptr prev num pre
    (fun o ho => hnums o (List.mem_append_left _ ho))
  rw [placed_append, List.filter_append, List.getElem?_append_right (by omega), hlen, hcount,
    Nat.sub_self, placed, List.filter_cons_of_pos (by simpa [hnat] using hm),
    List.getElem?_cons_zero]

end Placed

/-! ## The loop -/

section Loop

variable {addr ptr prev num fuel : Nat} {occ i : UInt8} {pdu : CoapPdu} {opt : CoapOption}
  {pre rest : List Opt} {m : Opt} {tail : List UInt8}

/-- One turn over an option whose number is not larger: the counter is one higher at a match. -/
theorem getOptionByNumLoop_turn (ha : PlacedAt addr pdu)
    (hs : StandsAt addr pdu (some opt) ptr prev) (h : ListedAt pdu ptr prev (m :: rest) tail)
    (hm : 1 ≤ m.num ∧ m.num ≤ num) (hshort : m.value.length ≤ 65535)
    (hroom : i.toNat + (if m.num = num then 1 else 0) ≤ occ.toNat ∨ occ = 255) :
    ∃ i', getOptionByNumLoop addr pdu num occ (fuel + 1) i opt
        = getOptionByNumLoop addr pdu num occ fuel i' (optionAt addr ptr prev m) ∧
      (occ ≠ 255 → i'.toNat = i.toNat + (if m.num = num then 1 else 0)) := by
  have hnat := @optionAt_num_toNat addr ptr prev m (h.nums m (List.mem_cons_self ..))
  obtain ⟨hget, -, -⟩ := coapGetOption_cons ha hs h hm.1 hshort
  have hocc := occ.toNat_lt
  rw [getOptionByNumLoop, hget]
  simp only [Option.bind_eq_bind, Option.bind_some, hnat]
  by_cases hnum : m.num = num
  · rw [if_pos hnum] at hroom ⊢
    have hnext : occ ≠ 255 → (i + 1).toNat = i.toNat + 1 := by
      intro hne
      have hle := hroom.resolve_right hne
      rw [UInt8.toNat_add]
      show (i.toNat + 1) % 2 ^ 8 = i.toNat + 1
      omega
    have hle : i + 1 ≤ occ := by
      rw [UInt8.le_iff_toNat_le]
      by_cases hne : occ = 255
      · have hlt := (i + 1).toNat_lt
        rw [hne]
        show _ ≤ 255
        omega
      · rw [hnext hne]
        exact hroom.resolve_right hne
    rw [if_pos hle]
    exact ⟨i + 1, rfl, fun hne => by rw [hnext hne, if_pos hnum]⟩
  · rw [if_neg hnum, Nat.add_zero] at hroom
    have hne : (optionAt addr ptr prev m).num ≠ 0 := by
      intro h0
      rw [h0] at hnat
      exact absurd hnat (by show ¬ (0 = m.num); omega)
    have hle : i ≤ occ := by
      rw [UInt8.le_iff_toNat_le]
      rcases hroom with hroom | rfl
      · exact hroom
      · have hlt := i.toNat_lt
        show _ ≤ 255
        omega
    rw [if_neg hnum, if_neg (by omega), if_neg hne, if_pos hle]
    exact ⟨i, rfl, fun _ => by rw [if_neg hnum, Nat.add_zero]⟩

/-- The search passes over the options whose numbers are not larger, while the counter is not
    above `occ`; it never is when `occ` is 255. -/
theorem getOptionByNumLoop_pass (ha : PlacedAt addr pdu)
    (hs : StandsAt addr pdu (some opt) ptr prev) (h : ListedAt pdu ptr prev (pre ++ rest) tail)
    (hnums : ∀ o ∈ pre, 1 ≤ o.num ∧ o.num ≤ num) (hshort : ShortValues pre)
    (hroom : i.toNat + (numbered num pre).length ≤ occ.toNat ∨ occ = 255) :
    ∃ i' opt', getOptionByNumLoop addr pdu num occ (fuel + pre.length) i opt
        = getOptionByNumLoop addr pdu num occ fuel i' opt' ∧
      (occ ≠ 255 → i'.toNat = i.toNat + (numbered num pre).length) ∧
      StandsAt addr pdu (some opt') (behindAll ptr prev pre) (lastNum prev pre) ∧
      ListedAt pdu (behindAll ptr prev pre) (lastNum prev pre) rest tail := by
  induction pre generalizing i opt ptr prev with
  | nil => exact ⟨i, opt, rfl, fun _ => rfl, hs, h⟩
  | cons o pre ih =>
    have ho := hnums o (List.mem_cons_self ..)
    have hlen := hshort o (List.mem_cons_self ..)
    obtain ⟨-, hs', h'⟩ := coapGetOption_cons ha hs h ho.1 hlen
    rw [numbered_cons_length] at hroom
    obtain ⟨i', hturn, hcount⟩ := @getOptionByNumLoop_turn _ _ _ _ (fuel + pre.length) occ i _ _ _ _ _
      ha hs h ho hlen (hroom.imp_left fun hroom => by omega)
    have hroom' : i'.toNat + (numbered num pre).length ≤ occ.toNat ∨ occ = 255 := by
      rcases Decidable.em (occ = 255) with hocc | hocc
      · exact Or.inr hocc
      · have hle := hroom.resolve_right hocc
        exact Or.inl (by rw [hcount hocc]; omega)
    obtain ⟨i'', opt', hrest, hcount', hs'', h''⟩ := ih hs' h'
      (fun o' ho' => hnums o' (List.mem_cons_of_mem _ ho'))
      (fun o' ho' => hshort o' (List.mem_cons_of_mem _ ho')) hroom'
    rw [behindAll_cons, List.length_cons, ← Nat.add_assoc, numbered_cons_length, ← Nat.add_assoc]
    exact ⟨i'', opt', hturn.trans hrest, fun hne => by rw [hcount' hne, hcount hne], hs'', h''⟩

/-- At the right occurrence it stops and returns the option, with a length of 16 bits. -/
theorem getOptionByNumLoop_found (hs : StandsAt addr pdu (some opt) ptr prev)
    (h : ListedAt pdu ptr prev (m :: rest) tail) (hm : m.num = num) (hi : i.toNat = occ.toNat)
    (hocc : occ ≠ 255) : getOptionByNumLoop addr pdu num occ (fuel + 1) i opt
      = some { optionAt addr ptr prev m with len := m.value.length % 65536 } := by
  have hnat := @optionAt_num_toNat addr ptr prev m (h.nums m (List.mem_cons_self ..))
  have hlt : occ.toNat < 255 := by
    have hle := occ.toNat_lt
    have hne : occ.toNat ≠ 255 := fun heq => hocc (UInt8.toNat_inj.mp heq)
    omega
  have hnext : (i + 1).toNat = occ.toNat + 1 := by
    rw [UInt8.toNat_add, hi]
    show (occ.toNat + 1) % 2 ^ 8 = occ.toNat + 1
    omega
  rw [getOptionByNumLoop, coapGetOption_decodes hs h]
  simp only [Option.bind_eq_bind, Option.bind_some, hnat]
  rw [if_pos hm, if_neg (by rw [UInt8.le_iff_toNat_le]; omega)]

/-- At a larger number it stops without an option, at the end with what the iterator returns. -/
theorem getOptionByNumLoop_missed (hs : StandsAt addr pdu (some opt) ptr prev)
    (h : ListedAt pdu ptr prev rest tail) (hrest : ∀ o ∈ rest, num < o.num) (hnum : 1 ≤ num)
    (hprev : prev ≤ 65535) : getOptionByNumLoop addr pdu num occ (fuel + 1) i opt
      = some (if rest = [] then endOption addr pdu prev tail else noOption) := by
  rw [getOptionByNumLoop]
  cases rest with
  | nil =>
    have h0 := endOption_num addr pdu prev tail
    have hnat : (endOption addr pdu prev tail).num.toNat = 0 := by rw [h0]; rfl
    rw [coapGetOption_nil hs h hprev]
    simp only [Option.bind_eq_bind, Option.bind_some, hnat]
    rw [if_neg (by omega), if_neg (by omega), if_pos h0, if_true]
  | cons m rest =>
    have hm := hrest m (List.mem_cons_self ..)
    have hnat := @optionAt_num_toNat addr ptr prev m (h.nums m (List.mem_cons_self ..))
    rw [coapGetOption_decodes hs h]
    simp only [Option.bind_eq_bind, Option.bind_some, hnat]
    rw [if_neg (by omega), if_pos hm, if_neg (List.cons_ne_nil _ _)]
    rfl

end Loop

/-! ## coap_get_option_by_num -/

section Lookup

variable {addr num : Nat} {occ : UInt8} {pdu : CoapPdu} {msg : Message} {pre rest : List Opt}
  {m : Opt}

/-- What the lookup is for: it returns the `occ`-th option numbered `num` of the message, and no
    option when there is none. -/
def LooksUp (addr : Nat) (pdu : CoapPdu) (msg : Message) (num : Nat) (occ : UInt8) : Prop :=
  coapGetOptionByNum addr pdu num occ = some (lookedUp addr msg num occ.toNat)

/-- The options the search has to pass over: those with smaller numbers, and the earlier ones of
    the number; with `occ` 255 all of them. -/
def passed (num : Nat) (occ : UInt8) (os : List Opt) : List Opt :=
  os.filter (·.num < num) ++
    (if occ = 255 then numbered num os else (numbered num os).take occ.toNat)

/-- The options whose lengths the right answer depends on: those before the `occ`-th of the number,
    and this one. -/
def examined (num : Nat) (occ : UInt8) (os : List Opt) : List Opt :=
  os.filter (·.num < num) ++ (numbered num os).take (occ.toNat + 1)

/-- When the lookup does what it is for. -/
def LookupFine (msg : Message) (num : Nat) (occ : UInt8) : Prop :=
  ShortValues (examined num occ msg.opts) ∧
    if occ.toNat < (numbered num msg.opts).length then occ ≠ 255
    else msg.payload = [] ∨ ∃ o ∈ msg.opts, num < o.num

instance (msg : Message) (num : Nat) (occ : UInt8) : Decidable (LookupFine msg num occ) :=
  inferInstanceAs (Decidable (_ ∧ _))

/-- The search starts at the first option. -/
theorem Holds.starts (hpdu : Holds addr pdu msg) (hmsg : WellFormed msg) :
    PlacedAt addr pdu ∧ StandsAt addr pdu (some noOption) (4 + msg.token.length) 0 ∧
      ListedAt pdu (4 + msg.token.length) 0 msg.opts (payloadBytes msg.payload) ∧
      msg.opts.length ≤ pdu.buf.length := by
  obtain ⟨rest, hbuf⟩ := hpdu.bytes
  obtain ⟨tkl, htkl, hnat⟩ := coapGetTkl_of_bytes hbuf
  have hlen := hpdu.len
  have hsize := congrArg List.length hbuf
  have hmax := hpdu.size
  have hlt := hpdu.lt
  have hpos := hpdu.pos
  have hcount := length_le_optsBytes 0 msg.opts
  rw [List.length_append] at hsize
  have hlisted := listedAt_of_bytes hbuf hlen (by omega) (fun o ho => (hmsg.nums o ho).2) hmsg.lens
  have hfill := hlisted.length_eq
  refine ⟨⟨hpos, by omega⟩, ?_, hlisted, by omega⟩
  rw [← hnat]
  exact standsAt_first htkl (by omega) rfl

/-- The options before one of the number do not have larger numbers. -/
theorem le_of_split (hsplit : msg.opts = pre ++ m :: rest) (hm : m.num = num) :
    ∀ o ∈ pre, o.num ≤ num := by
  intro o ho
  have hsorted := msg.sorted
  rw [hsplit, List.map_append, List.map_cons] at hsorted
  exact hm ▸ (List.pairwise_append.mp hsorted).2.2 o.num (List.mem_map_of_mem ho) m.num
    (List.mem_cons_self ..)

/-- The option that is looked up, behind `occ` others of its number. -/
theorem coapGetOptionByNum_found (hmsg : WellFormed msg) (hpdu : Holds addr pdu msg)
    (hsplit : msg.opts = pre ++ m :: rest) (hm : m.num = num)
    (hcount : (numbered num pre).length = occ.toNat) (hocc : occ ≠ 255) (hshort : ShortValues pre) :
    coapGetOptionByNum addr pdu num occ
      = some { lookedUp addr msg num occ.toNat with len := m.value.length % 65536 } ∧
    lookedUp addr msg num occ.toNat
      = optionAt addr (behindAll (4 + msg.token.length) 0 pre) (lastNum 0 pre) m := by
  obtain ⟨ha, hs, h, hfuel⟩ := Holds.starts hpdu hmsg
  have hnums := hmsg.nums
  rw [hsplit] at h hfuel hnums
  have hlook : lookedUp addr msg num occ.toNat
      = optionAt addr (behindAll (4 + msg.token.length) 0 pre) (lastNum 0 pre) m := by
    rw [lookedUp, hsplit, filter_placed_getElem? (fun o ho => (hnums o ho).2) hm hcount]
    rfl
  refine ⟨?_, hlook⟩
  rw [List.length_append, List.length_cons] at hfuel
  have hle : ∀ o ∈ pre, 1 ≤ o.num ∧ o.num ≤ num := fun o ho =>
    ⟨(hnums o (List.mem_append_left _ ho)).1, le_of_split hsplit hm o ho⟩
  obtain ⟨i', opt', hrun, hi, hs', h'⟩ := @getOptionByNumLoop_pass _ _ _ num
    (pdu.buf.length - pre.length + 1) occ 0 _ _ _ _ _ ha hs h hle hshort
    (Or.inl (by rw [hcount]; show 0 + _ ≤ _; omega))
  have hi' : i'.toNat = occ.toNat := by
    rw [hi hocc, hcount]
    exact Nat.zero_add _
  rw [coapGetOptionByNum, show pdu.buf.length + 1 = pdu.buf.length - pre.length + 1 + pre.length by omega]
  exact hrun.trans ((getOptionByNumLoop_found hs' h' hm hi' hocc).trans (by rw [hlook]))

/-- A search that does not stop at an option of its number. -/
theorem coapGetOptionByNum_missed (hmsg : WellFormed msg) (hpdu : Holds addr pdu msg)
    (hnum : 1 ≤ num) (hsplit : msg.opts = pre ++ rest) (hpre : ∀ o ∈ pre, o.num ≤ num)
    (hrest : ∀ o ∈ rest, num < o.num) (hshort : ShortValues pre)
    (hroom : (numbered num pre).length ≤ occ.toNat ∨ occ = 255) :
    coapGetOptionByNum addr pdu num occ
      = some (if rest = [] then endOption addr pdu (lastNum 0 pre) (payloadBytes msg.payload)
          else noOption) := by
  obtain ⟨ha, hs, h, hfuel⟩ := Holds.starts hpdu hmsg
  have hnums := hmsg.nums
  rw [hsplit] at h hfuel hnums
  rw [List.length_append] at hfuel
  have hle : ∀ o ∈ pre, 1 ≤ o.num ∧ o.num ≤ num := fun o ho =>
    ⟨(hnums o (List.mem_append_left _ ho)).1, hpre o ho⟩
  obtain ⟨i', opt', hrun, -, hs', h'⟩ := @getOptionByNumLoop_pass _ _ _ num
    (pdu.buf.length - pre.length + 1) occ 0 _ _ _ _ _ ha hs h hle hshort
    (hroom.imp_left fun hroom => by show 0 + _ ≤ _; omega)
  have hlast : lastNum 0 pre ≤ 65535 := lastNum_le (Nat.zero_le _)
    fun o ho => (hnums o (List.mem_append_left _ ho)).2
  rw [coapGetOptionByNum, show pdu.buf.length + 1 = pdu.buf.length - pre.length + 1 + pre.length by omega]
  exact hrun.trans (getOptionByNumLoop_missed hs' h' hrest hnum hlast)

/-- What is returned at the end is no option exactly when there is no payload. -/
theorem endOption_eq_noOption_iff (ha : PlacedAt addr pdu) (prev : Nat) (payload : List UInt8) :
    endOption addr pdu prev (payloadBytes payload) = noOption ↔ payload = [] := by
  have hpos := ha.pos
  have hlt := ha.lt
  constructor
  · intro h
    by_contra hne
    rw [payloadBytes_of_ne_nil hne, endOption] at h
    split at h
    · exact hne (List.length_eq_zero_iff.mp (congrArg CoapOption.len h))
    · -- the length of the packet and its address
      have hlen : sz (pdu.len - (0 - addr)) = 0 := congrArg CoapOption.len h
      rw [sz_of_range (by omega) (by omega)] at hlen
      omega
  · rintro rfl
    rfl

/-! ## What the search passes over -/

theorem numbered_append (os os' : List Opt) :
    numbered num (os ++ os') = numbered num os ++ numbered num os' := List.filter_append ..

theorem numbered_eq_nil (h : ∀ o ∈ rest, num < o.num) : numbered num rest = [] := by
  refine List.filter_eq_nil_iff.mpr fun o ho heq => ?_
  have hlt := h o ho
  rw [beq_iff_eq.mp heq] at hlt
  exact absurd hlt (Nat.lt_irrefl _)

theorem smaller_eq_nil (h : ∀ o ∈ rest, num ≤ o.num) : rest.filter (·.num < num) = [] := by
  refine List.filter_eq_nil_iff.mpr fun o ho hlt => ?_
  exact absurd (of_decide_eq_true hlt) (Nat.not_lt.mpr (h o ho))

/-- Nothing long is passed over where there is nothing long. -/
theorem shortValues_passed {os : List Opt} (h : ShortValues os) (num : Nat) (occ : UInt8) :
    ShortValues (passed num occ os) := by
  intro o ho
  rcases List.mem_append.mp ho with ho | ho
  · exact h o (List.mem_filter.mp ho).1
  · split at ho
    · exact h o (List.mem_filter.mp ho).1
    · exact h o (List.mem_filter.mp (List.mem_of_mem_take ho)).1

/-- Options without larger numbers have smaller ones or the number. -/
theorem shortValues_pre_iff (hle : ∀ o ∈ pre, o.num ≤ num) :
    ShortValues (pre.filter (·.num < num) ++ numbered num pre) ↔ ShortValues pre := by
  constructor
  · intro h o ho
    refine h o (List.mem_append.mpr ?_)
    rcases Nat.lt_or_eq_of_le (hle o ho) with hlt | heq
    · exact Or.inl (List.mem_filter.mpr ⟨ho, decide_eq_true hlt⟩)
    · exact Or.inr (List.mem_filter.mpr ⟨ho, beq_iff_eq.mpr heq⟩)
  · intro h o ho
    rcases List.mem_append.mp ho with ho | ho
    · exact h o (List.mem_filter.mp ho).1
    · exact h o (List.mem_filter.mp ho).1

/-- In front of an option of the number there are `n` others of it. -/
theorem exists_split {os : List Opt} {n : Nat} (h : n < (numbered num os).length) :
    ∃ pre m rest, os = pre ++ m :: rest ∧ m.num = num ∧ (numbered num pre).length = n := by
  have hsplit : numbered num os = (numbered num os).take n
      ++ (numbered num os)[n] :: (numbered num os).drop (n + 1) := by
    rw [← List.drop_eq_getElem_cons h, List.take_append_drop]
  obtain ⟨l, l', hos, hl, hl'⟩ := List.filter_eq_append_iff.mp hsplit
  obtain ⟨l₁, l₂, hbehind, hnone, hm, -⟩ := List.filter_eq_cons_iff.mp hl'
  refine ⟨l ++ l₁, _, l₂, hos.trans (by rw [hbehind, List.append_assoc]), beq_iff_eq.mp hm, ?_⟩
  have hfirst : numbered num l₁ = [] := List.filter_eq_nil_iff.mpr hnone
  rw [numbered_append, hfirst, List.append_nil, numbered, hl, List.length_take]
  omega

/-- What is passed over in front of the `occ`-th option of the number. -/
theorem passed_of_split (hsorted : ((pre ++ m :: rest).map Opt.num).Pairwise (· ≤ ·))
    (hm : m.num = num) (hcount : (numbered num pre).length = occ.toNat) (hocc : occ ≠ 255) :
    passed num occ (pre ++ m :: rest) = pre.filter (·.num < num) ++ numbered num pre ∧
    examined num occ (pre ++ m :: rest)
      = pre.filter (·.num < num) ++ numbered num pre ++ [m] := by
  rw [List.map_append, List.map_cons] at hsorted
  obtain ⟨-, hbehind, -⟩ := List.pairwise_append.mp hsorted
  have hrest : ∀ o ∈ m :: rest, num ≤ o.num := by
    intro o ho
    rcases List.mem_cons.mp ho with rfl | ho
    · exact Nat.le_of_eq hm.symm
    · exact hm ▸ (List.pairwise_cons.mp hbehind).1 o.num (List.mem_map_of_mem ho)
  have hnumbered : numbered num (pre ++ m :: rest) = numbered num pre ++ m :: numbered num rest := by
    rw [numbered_append, numbered, numbered, List.filter_cons_of_pos (by simpa using hm), numbered]
  rw [passed, examined, hnumbered, List.filter_append, smaller_eq_nil hrest, List.append_nil,
    if_neg hocc, ← hcount, List.take_left, List.take_length_add_append, List.append_assoc]
  exact ⟨rfl, rfl⟩

/-- The option that is looked up is returned exactly when its value is short. -/
theorem looksUp_iff_of_found (hmsg : WellFormed msg) (hpdu : Holds addr pdu msg)
    (hlt : occ.toNat < (numbered num msg.opts).length) (hocc : occ ≠ 255)
    (hpassed : ShortValues (passed num occ msg.opts)) :
    LooksUp addr pdu msg num occ ↔ LookupFine msg num occ := by
  obtain ⟨pre, m, rest, hsplit, hm, hcount⟩ := exists_split hlt
  have hsorted := msg.sorted
  rw [hsplit] at hsorted
  obtain ⟨hp, he⟩ := passed_of_split hsorted hm hcount hocc
  have hle := le_of_split hsplit hm
  rw [hsplit, hp, shortValues_pre_iff hle] at hpassed
  obtain ⟨hget, hlook⟩ := coapGetOptionByNum_found hmsg hpdu hsplit hm hcount hocc hpassed
  have hmlen := hmsg.lens m (by rw [hsplit]; simp)
  unfold extMax at hmlen
  rw [LooksUp, hget, Option.some_inj, LookupFine, if_pos hlt, and_iff_left hocc, hsplit, he]
  constructor
  · intro heq o ho
    rcases List.mem_append.mp ho with ho | ho
    · exact (shortValues_pre_iff hle).mpr hpassed o ho
    · have hlen : m.value.length % 65536 = (lookedUp addr msg num occ.toNat).len :=
        congrArg CoapOption.len heq
      rw [hlook] at hlen
      replace hlen : m.value.length % 65536 = m.value.length := hlen
      rw [List.mem_singleton.mp ho]
      omega
  · intro hshort
    have hmle := hshort m (by simp)
    rw [hlook]
    show { optionAt addr _ _ m with len := m.value.length % 65536 } = optionAt addr _ _ m
    rw [Nat.mod_eq_of_lt (by omega)]
    rfl

/-- A search that passes over all options without larger numbers. -/
theorem coapGetOptionByNum_of_passed (hmsg : WellFormed msg) (hpdu : Holds addr pdu msg)
    (hnum : 1 ≤ num) (hroom : (numbered num msg.opts).length ≤ occ.toNat ∨ occ = 255)
    (hpassed : ShortValues (passed num occ msg.opts)) :
    ShortValues (upTo num msg.opts) ∧ coapGetOptionByNum addr pdu num occ
      = some (if beyond num msg.opts = [] then
          endOption addr pdu (lastNum 0 (upTo num msg.opts)) (payloadBytes msg.payload)
        else noOption) := by
  have hsplit := upTo_append_beyond num msg.opts
  have hlarger : ∀ o ∈ beyond num msg.opts, num < o.num := fun o ho => beyond_lt msg.sorted ho
  have hnumbered : numbered num msg.opts = numbered num (upTo num msg.opts) := by
    conv_lhs => rw [← hsplit, numbered_append, numbered_eq_nil hlarger, List.append_nil]
  have hsmaller : msg.opts.filter (·.num < num) = (upTo num msg.opts).filter (·.num < num) := by
    conv_lhs => rw [← hsplit, List.filter_append,
      smaller_eq_nil (fun o ho => Nat.le_of_lt (hlarger o ho)), List.append_nil]
  have hshort : ShortValues (upTo num msg.opts) := by
    refine (shortValues_pre_iff fun o => upTo_le).mp ?_
    rw [passed, hsmaller, hnumbered] at hpassed
    split at hpassed
    · exact hpassed
    · next hocc =>
      rwa [List.take_of_length_le (hnumbered ▸ hroom.resolve_right hocc)] at hpassed
  rw [hnumbered] at hroom
  exact ⟨hshort, coapGetOptionByNum_missed hmsg hpdu hnum hsplit.symm (fun o => upTo_le) hlarger
    hshort hroom⟩

/-! ## When the lookup is exact -/

theorem lookedUp_of_le (hmsg : WellFormed msg)
    (hle : (numbered num msg.opts).length ≤ occ.toNat) :
    lookedUp addr msg num occ.toNat = noOption := by
  have hlen := @filter_placed_length addr (4 + msg.token.length) 0 num msg.opts
    (fun o ho => (hmsg.nums o ho).2)
  rw [lookedUp, List.getElem?_eq_none (by omega)]
  rfl

/-- Without such an option, nothing is found exactly when a larger number ends the search, or
    there is no payload. -/
theorem looksUp_iff_of_missed (hmsg : WellFormed msg) (hpdu : Holds addr pdu msg) (hnum : 1 ≤ num)
    (hle : (numbered num msg.opts).length ≤ occ.toNat)
    (hpassed : ShortValues (passed num occ msg.opts)) :
    LooksUp addr pdu msg num occ ↔ LookupFine msg num occ := by
  obtain ⟨-, hget⟩ := coapGetOptionByNum_of_passed hmsg hpdu hnum (Or.inl hle) hpassed
  have hplaced := (Holds.starts hpdu hmsg).1
  have hexamined : ShortValues (examined num occ msg.opts) := by
    rw [examined, List.take_of_length_le (by omega)]
    rw [passed, List.take_of_length_le hle, ite_self] at hpassed
    exact hpassed
  have hbeyond : beyond num msg.opts ≠ [] ↔ ∃ o ∈ msg.opts, num < o.num := by
    rw [beyond, Ne, List.dropWhile_eq_nil_iff]
    simp
  rw [LooksUp, hget, lookedUp_of_le hmsg hle, Option.some_inj, LookupFine,
    and_iff_right hexamined, if_neg (Nat.not_lt.mpr hle), ← hbeyond]
  by_cases hnil : beyond num msg.opts = []
  · rw [if_pos hnil, endOption_eq_noOption_iff hplaced, or_iff_left (fun hne => hne hnil)]
  · rw [if_neg hnil]
    exact ⟨fun _ => Or.inr hnil, fun _ => rfl⟩

/-- With `occ` 255 no option is ever returned. -/
theorem not_looksUp_of_full (hmsg : WellFormed msg) (hpdu : Holds addr pdu msg) (hnum : 1 ≤ num)
    (hlt : (255 : UInt8).toNat < (numbered num msg.opts).length)
    (hpassed : ShortValues (passed num 255 msg.opts)) : ¬ LooksUp addr pdu msg num 255 := by
  obtain ⟨-, hget⟩ := coapGetOptionByNum_of_passed hmsg hpdu hnum (Or.inr rfl) hpassed
  obtain ⟨pre, m, rest, hsplit, hm, hcount⟩ := exists_split hlt
  have hnums := hmsg.nums
  rw [hsplit] at hnums
  rw [LooksUp, hget, Option.some_inj, lookedUp, hsplit,
    filter_placed_getElem? (fun o ho => (hnums o ho).2) hm hcount, Option.getD_some]
  intro heq
  have hzero := congrArg CoapOption.num heq
  have hnat := @optionAt_num_toNat addr (behindAll (4 + msg.token.length) 0 pre) (lastNum 0 pre) m
    (hnums m (by simp)).2
  rw [← hzero] at hnat
  -- the number of what is returned is 0
  have h0 : ∀ prev tail, (if beyond num (pre ++ m :: rest) = [] then
      endOption addr pdu prev tail else noOption).num = 0 := by
    intro prev tail
    split
    · exact endOption_num ..
    · rfl
  rw [h0] at hnat
  have hm0 : 0 = m.num := hnat
  omega

/-- As long as the search passes over short values only. -/
theorem looksUp_iff_of_passed (hmsg : WellFormed msg) (hpdu : Holds addr pdu msg) (hnum : 1 ≤ num)
    (hpassed : ShortValues (passed num occ msg.opts)) :
    LooksUp addr pdu msg num occ ↔ LookupFine msg num occ := by
  by_cases hlt : occ.toNat < (numbered num msg.opts).length
  · by_cases hocc : occ = 255
    · subst hocc
      refine iff_of_false (not_looksUp_of_full hmsg hpdu hnum hlt hpassed) fun hfine => ?_
      rw [LookupFine, if_pos hlt] at hfine
      exact hfine.2 rfl
    · exact looksUp_iff_of_found hmsg hpdu hlt hocc hpassed
  · exact looksUp_iff_of_missed hmsg hpdu hnum (Nat.not_lt.mp hlt) hpassed

/-- The values that are passed over are among those that are examined. -/
theorem LookupFine.passed (h : LookupFine msg num occ) : ShortValues (passed num occ msg.opts) := by
  obtain ⟨hshort, hcond⟩ := h
  have htake : ∀ o ∈ (numbered num msg.opts).take occ.toNat,
      o ∈ (numbered num msg.opts).take (occ.toNat + 1) :=
    fun o ho => (List.take_subset_take_left _ (Nat.le_succ _)) ho
  intro o ho
  refine hshort o (List.mem_append.mpr ((List.mem_append.mp ho).imp_right fun ho => ?_))
  by_cases hocc : occ = 255
  · -- then there are at most 255 of them
    rw [if_pos hocc] at ho
    by_cases hlt : occ.toNat < (numbered num msg.opts).length
    · rw [if_pos hlt] at hcond
      exact absurd hocc hcond
    · rwa [List.take_of_length_le (by omega)]
  · rw [if_neg hocc] at ho
    exact htake o ho

/-- The lookup is exact when the values it examines are short and, if there is such an option,
    `occ` is not 255, if there is none, a larger number follows or there is no payload; in all other
    cases it is not, or a value that it passes over is too long for the decoder. -/
theorem coapGetOptionByNum_iff (hmsg : WellFormed msg) (hpdu : Holds addr pdu msg)
    (hnum : 1 ≤ num) (occ : UInt8) :
    (LookupFine msg num occ → LooksUp addr pdu msg num occ) ∧
    (LooksUp addr pdu msg num occ →
      LookupFine msg num occ ∨ ¬ ShortValues (passed num occ msg.opts)) := by
  refine ⟨fun hfine => (looksUp_iff_of_passed hmsg hpdu hnum hfine.passed).mpr hfine, fun h => ?_⟩
  by_cases hpassed : ShortValues (passed num occ msg.opts)
  · exact Or.inl ((looksUp_iff_of_passed hmsg hpdu hnum hpassed).mp h)
  · exact Or.inr hpassed

end Lookup

/-! ## Lookups that find and that miss -/

/-- The response with the Uri-Path `a` and a payload. -/
def pathMessage : Message := contentMessage [⟨11, [0x61]⟩] (List.pairwise_singleton _ _)

/-- A message with 256 empty options numbered 11. -/
def manyMessage : Message :=
  contentMessage (List.replicate 256 ⟨11, []⟩) (by
    rw [List.map_replicate]
    exact List.pairwise_replicate.mpr (Or.inr (Nat.le_refl _)))

theorem pathMessage_wellFormed : WellFormed pathMessage := ⟨rfl, by decide, by decide⟩

theorem manyMessage_wellFormed : WellFormed manyMessage ∧ ShortValues manyMessage.opts := by
  have hopt : ∀ o ∈ manyMessage.opts, o = ⟨11, []⟩ := fun o ho => List.eq_of_mem_replicate ho
  refine ⟨⟨rfl, fun o ho => ?_, fun o ho => ?_⟩, fun o ho => ?_⟩
  · rw [hopt o ho]
    decide
  · rw [hopt o ho]
    decide
  · rw [hopt o ho]
    decide

/-- The Uri-Path is found, and an option with a smaller number is not. -/
theorem coapGetOptionByNum_iff_path :
    LooksUp 4096 (packed pathMessage) pathMessage 11 0 ∧
      LooksUp 4096 (packed pathMessage) pathMessage 3 7 :=
  ⟨(coapGetOptionByNum_iff pathMessage_wellFormed (holds_packed (by decide)) (by decide) 0).1
      (by decide),
    (coapGetOptionByNum_iff pathMessage_wellFormed (holds_packed (by decide)) (by decide) 7).1
      (by decide)⟩

/-- Option 12 is not in the message, but something is returned that is not empty; and of 256 options
    the last one is not returned. -/
theorem not_looksUp_examples :
    (pathMessage.encode = [0x40, 0x45, 0x00, 0x01, 0xB1, 0x61, 0xFF, 0x62] ∧
      coapGetOptionByNum 4096 (packed pathMessage) 12 0 = some { num := 0, len := 4104, val := 0 } ∧
      ¬ LooksUp 4096 (packed pathMessage) pathMessage 12 0) ∧
    (manyMessage.opts = List.replicate 256 ⟨11, []⟩ ∧
      ¬ LooksUp 4096 (packed manyMessage) manyMessage 11 255) := by
  refine ⟨⟨by decide, by decide, fun h => ?_⟩, rfl, fun h => ?_⟩
  · have hget : coapGetOptionByNum 4096 (packed pathMessage) 12 0
        = some { num := 0, len := 4104, val := 0 } := by decide
    rw [LooksUp, hget] at h
    exact absurd h (by decide)
  · obtain ⟨hmsg, hshort⟩ := manyMessage_wellFormed
    have hcount : (numbered 11 manyMessage.opts).length = 256 := by
      rw [numbered, manyMessage, contentMessage]
      simp only
      rw [List.filter_replicate_of_pos (by decide), List.length_replicate]
    have hlen : manyMessage.encode.length < 2 ^ 32 := by decide +kernel
    exact not_looksUp_of_full hmsg (holds_packed hlen) (by decide) (by rw [hcount]; decide)
      (shortValues_passed hshort 11 255) h

end Gateway.CoapClient.OptionLookup
