/-
  Gateway.CoapServer.OptionNums

  The option numbers `coap_parse` reports and what `coap_findOptions` finds among
  them, against the numbers that stand on the wire.

  `scan` reads all options of a datagram, without the cap of 16; their numbers are
  the sums of their deltas (`wireNumbers`).  `coap_parse` reports the first 16, with
  the number cut down to 8 bits, so the numbers survive exactly when the reported
  ones are at most 255 and no option with such a number is left out
  (`coapParse_nums_iff`).
-/

import Gateway.CoapServer.Grammar

namespace Gateway.CoapServer.OptionNums

open Gateway.Lib.ByteWindow Gateway.Lib.BlockMem Gateway.Lib.CoapFormat
open Gateway.CoapServer.Microcoap Gateway.CoapServer.ParseSpec Gateway.CoapServer.Roundtrip
open Gateway.CoapServer.Grammar

variable {O : Type}

/-! ## The block of a value in a sorted list -/

section Block

variable {α : Type} [LinearOrder α]

/-- In a sorted list that starts with `a`, the elements equal to `a` are the first ones. -/
theorem length_takeWhile_eq_count {a : α} {l : List α} (h : (a :: l).Pairwise (· ≤ ·)) :
    (l.takeWhile (· == a)).length = l.count a := by
  induction l with
  | nil => rfl
  | cons x xs ih =>
    obtain ⟨hax, hxs⟩ := List.pairwise_cons.mp h
    have hle : a ≤ x := hax x (List.mem_cons_self ..)
    obtain ⟨hx, hxs'⟩ := List.pairwise_cons.mp hxs
    by_cases hxa : x = a
    · subst hxa
      rw [List.takeWhile_cons_of_pos (by simp), List.length_cons, ih hxs, List.count_cons_self]
    · have hnot : a ∉ x :: xs := by
        intro hmem
        rcases List.mem_cons.mp hmem with heq | hmem
        · exact hxa heq.symm
        · exact hxa (le_antisymm (hx a hmem) hle)
      rw [List.takeWhile_cons_of_neg (by simpa using hxa), List.count_eq_zero_of_not_mem hnot]
      rfl

/-- In a sorted list, the first run of `a` holds all of them. -/
theorem length_block_eq_count {a : α} {l : List α} (h : l.Pairwise (· ≤ ·)) :
    ((l.dropWhile (· != a)).takeWhile (· == a)).length = l.count a := by
  induction l with
  | nil => rfl
  | cons x xs ih =>
    by_cases hxa : x = a
    · subst hxa
      rw [List.dropWhile_cons_of_neg (by simp), List.takeWhile_cons_of_pos (by simp),
        List.length_cons, length_takeWhile_eq_count h, List.count_cons_self]
    · rw [List.dropWhile_cons_of_pos (by simpa using hxa), ih (List.pairwise_cons.mp h).2,
        List.count_cons_of_ne hxa]

end Block

/-! ## coap_findOptions -/

/-- The options of the first run of number `num`. -/
def numBlock (num : UInt8) (os : List (CoapOption O)) : List (CoapOption O) :=
  (os.dropWhile (·.num != num)).takeWhile (·.num == num)

theorem numBlock_cons_of_ne {num : UInt8} {o : CoapOption O} (os : List (CoapOption O))
    (h : o.num ≠ num) : numBlock num (o :: os) = numBlock num os := by
  rw [numBlock, List.dropWhile_cons_of_pos (by simpa using h), numBlock]

/-- The loop behind the first match counts the run to its end. -/
theorem findOptionsLoop_some (num : UInt8) (os : List (CoapOption O)) (i first : Nat) (count : UInt8) :
    findOptionsLoop num os i (some first) count
      = (some first, count + UInt8.ofNat (os.takeWhile (·.num == num)).length) := by
  induction os generalizing i count with
  | nil => simp [findOptionsLoop]
  | cons o os ih =>
    by_cases hnum : o.num = num
    · rw [findOptionsLoop, if_pos hnum, if_neg (by simp), ih,
        List.takeWhile_cons_of_pos (by simpa using hnum), List.length_cons, UInt8.ofNat_add,
        UInt8.add_assoc, UInt8.add_comm 1]
      rfl
    · rw [findOptionsLoop, if_neg hnum, if_neg (by simp),
        List.takeWhile_cons_of_neg (by simpa using hnum)]
      simp

theorem findOptionsLoop_none (num : UInt8) (os : List (CoapOption O)) (i : Nat) :
    findOptionsLoop num os i none 0
      = ((os.findIdx? (·.num == num)).map (· + i), UInt8.ofNat (numBlock num os).length) := by
  induction os generalizing i with
  | nil => rfl
  | cons o os ih =>
    by_cases hnum : o.num = num
    · rw [findOptionsLoop, if_pos hnum, if_pos rfl, findOptionsLoop_some, numBlock,
        List.dropWhile_cons_of_neg (by simpa using hnum),
        List.takeWhile_cons_of_pos (by simpa using hnum), List.findIdx?_cons,
        if_pos (by simpa using hnum), List.length_cons, UInt8.ofNat_add, UInt8.add_comm]
      simp
    · rw [findOptionsLoop, if_neg hnum, if_pos rfl, ih, numBlock_cons_of_ne os hnum,
        List.findIdx?_cons, if_neg (by simpa using hnum), Option.map_map]
      congr 2
      funext k
      simp only [Function.comp]
      omega

/-- `coap_findOptions` finds the first run of the number. -/
theorem coapFindOptions_eq (pkt : CoapPacket O) (num : UInt8) :
    coapFindOptions pkt num
      = (pkt.opts.findIdx? (·.num == num), UInt8.ofNat (numBlock num pkt.opts).length) := by
  rw [coapFindOptions, findOptionsLoop_none]
  simp

/-! ## The options on the wire -/

/-- All options that stand one behind the other in `bs`, with lengths cut down to 16 bits; at
    most as many as there are bytes. -/
def scanFrom : Nat → List UInt8 → List Seen
  | 0, _ => []
  | _ + 1, [] => []
  | fuel + 1, b :: bs =>
    if b = 0xFF then [] else
    match readOptHeader (b :: bs) with
    | none => []
    | some (delta, len, rest) =>
      if rest.length < len % 65536 then [] else
      ⟨delta, len, rest.take (len % 65536)⟩ :: scanFrom fuel (rest.drop (len % 65536))

/-- All options of a datagram, the token of which ends where its TKL says. -/
def scan (bs : List UInt8) : List Seen :=
  scanFrom bs.length (bs.drop (4 + (bs.headD 0).toNat % 16))

/-- The numbers of all options of a datagram. -/
def wireNumbers (bs : List UInt8) : List Nat :=
  wireNums 0 ((scan bs).map fun s => ⟨s.delta, s.value⟩)

/-- One step of the scan, at an option. -/
theorem scanFrom_cons {fuel delta len : Nat} {b : UInt8} {bs rest : List UInt8} (hb : b ≠ 0xFF)
    (hread : readOptHeader (b :: bs) = some (delta, len, rest))
    (hfit : len % 65536 ≤ rest.length) :
    scanFrom (fuel + 1) (b :: bs)
      = ⟨delta, len, rest.take (len % 65536)⟩ :: scanFrom fuel (rest.drop (len % 65536)) := by
  rw [scanFrom, if_neg hb, hread]
  simp only
  rw [if_neg (Nat.not_lt.mpr hfit)]

/-- The walk finds the first options of the scan. -/
theorem walk_eq_take {free fuel : Nat} {bs tail : List UInt8} {ss : List Seen}
    (hfuel : bs.length ≤ fuel) (h : walk free bs = some (ss, tail)) :
    ss = (scanFrom fuel bs).take free := by
  replace h := walks_of_walk h
  induction h generalizing fuel with
  | @stop free bs hstop =>
    rcases hstop with rfl | rfl | ⟨t, rfl⟩
    · rfl
    · cases fuel <;> exact List.take_nil.symm
    · cases fuel with
      | zero => exact absurd hfuel (Nat.not_succ_le_zero _)
      | succ fuel => rw [scanFrom, if_pos rfl, List.take_nil]
  | @option free b bs rest tail delta len ss hb hread hfit _ ih =>
    -- the header is not empty, so the fuel still covers what is left
    have hhdr := congrArg List.length (eq_optHeader_of_readOptHeader hread).1
    have hpos := optHeader_length_pos delta len
    rw [List.length_append, List.length_cons] at hhdr
    rw [List.length_cons] at hfuel
    obtain ⟨fuel, rfl⟩ : ∃ fuel', fuel = fuel' + 1 := ⟨fuel - 1, by omega⟩
    rw [scanFrom_cons hb hread hfit, List.take_succ_cons,
      ← ih (by rw [List.length_drop]; omega)]

theorem scan_eq_of_headToken {bs token body : List UInt8} {b0 code idHi idLo : UInt8}
    (h : HeadToken bs b0 code idHi idLo token body) : scan bs = scanFrom bs.length body := by
  obtain ⟨rfl, -, htkl, -⟩ := h
  have hdrop : (b0 :: code :: idHi :: idLo :: (token ++ body)).drop (4 + token.length) = body := by
    rw [Nat.add_comm]
    simp only [List.drop_succ_cons, List.drop_left]
  rw [scan, List.headD_cons, htkl, hdrop]

/-- On the messages of the format with lengths of 16 bits, the scan finds the options. -/
theorem scan_of_isMessage {bs token : List UInt8} {b0 code idHi idLo : UInt8} {os : List WireOpt}
    {payload : List UInt8}
    (h : HeadToken bs b0 code idHi idLo token (optsBytes os ++ payloadBytes payload))
    (hfits : ∀ o ∈ os, o.Fits) (hlens : ∀ o ∈ os, o.value.length < 65536) :
    scan bs = os.map seenOf := by
  have hwalk := @walk_optsBytes (os.length + 1) os (payloadBytes payload) (Nat.le_succ _)
    (fun o ho => ⟨(hfits o ho).1, hlens o ho⟩) (payloadBytes_cases payload)
  have hle : (optsBytes os ++ payloadBytes payload).length ≤ bs.length := by
    rw [h.bytes]
    simp only [List.length_cons, List.length_append]
    omega
  -- a walk with room for one more option sees them all
  have htake := walk_eq_take hle hwalk
  rw [scan_eq_of_headToken h]
  have hlen := congrArg List.length htake
  rw [List.length_map, List.length_take] at hlen
  rw [htake, List.take_of_length_le (by omega)]

/-- `coap_parse` reports the first 16 options of the datagram. -/
theorem seen_eq_take {bs : List UInt8} {r : Parsed} (h : decodeMsg bs = some r) :
    r.seen = (scan bs).take maxopt := by
  obtain ⟨hhead, hwalk⟩ := headToken_of_decodeMsg h
  have hle : (seenBytes r.seen ++ r.tail).length ≤ bs.length := by
    conv_rhs => rw [hhead.bytes]
    simp only [List.length_cons, List.length_append]
    omega
  rw [scan_eq_of_headToken hhead]
  exact walk_eq_take hle hwalk

/-! ## Numbers that survive -/

theorem wireNums_take (prev k : Nat) (os : List WireOpt) :
    wireNums prev (os.take k) = (wireNums prev os).take k := by
  induction os generalizing prev k with
  | nil => simp [wireNums]
  | cons o os ih =>
    cases k with
    | zero => rfl
    | succ k => rw [List.take_succ_cons, wireNums, wireNums, List.take_succ_cons, ih]

/-- The numbers on the wire do not decrease. -/
theorem wireNums_sorted (prev : Nat) (os : List WireOpt) :
    (prev :: wireNums prev os).Pairwise (· ≤ ·) := by
  induction os generalizing prev with
  | nil => exact List.pairwise_singleton _ _
  | cons o os ih =>
    have hle : prev ≤ prev + o.delta := Nat.le_add_right _ _
    have ih' := ih (prev + o.delta)
    refine List.pairwise_cons.mpr ⟨?_, ih'⟩
    intro k hk
    rcases List.mem_cons.mp hk with rfl | hk
    · exact hle
    · exact Nat.le_trans hle ((List.pairwise_cons.mp ih').1 k hk)

theorem wireNumbers_sorted (bs : List UInt8) : (wireNumbers bs).Pairwise (· ≤ ·) :=
  (List.pairwise_cons.mp (wireNums_sorted 0 _)).2

/-- The packet reports the numbers `nums` of the wire: the number of each option it has, in
    sorted order, and `coap_findOptions` finds the first one and the count of every number. -/
structure NumsSurvive (pkt : CoapPacket O) (nums : List Nat) : Prop where
  reported : pkt.opts.map (·.num.toNat) = nums.take pkt.opts.length
  sorted : (pkt.opts.map (·.num.toNat)).Pairwise (· ≤ ·)
  first : ∀ n : UInt8, (coapFindOptions pkt n).1 = nums.findIdx? (· == n.toNat)
  count : ∀ n : UInt8, (coapFindOptions pkt n).2.toNat = nums.count n.toNat

/-- The numbers that are reported are those of the wire, cut down to 8 bits. -/
theorem packetOf_nums {buf : Ptr O} {bs : List UInt8} {r : Parsed} (h : decodeMsg bs = some r) :
    (packetOf buf r).opts.map (·.num.toNat) = ((wireNumbers bs).take maxopt).map (· % 256) := by
  have hnums := congrArg (List.map UInt8.toNat)
    (layoutOpts_nums buf.obj (buf.off + 4 + r.token.length) 0 r.seen)
  rw [List.map_map, List.map_map, seen_eq_take h, List.map_take, wireNums_take] at hnums
  refine Eq.trans ?_ (hnums.trans ?_)
  · rw [← seen_eq_take h]
    rfl
  · refine List.map_congr_left fun k _ => ?_
    exact UInt8.toNat_ofNat'

/-- The count of a number in a sorted packet of at most 16 options. -/
theorem count_coapFindOptions {pkt : CoapPacket O} (hcount : pkt.opts.length ≤ maxopt)
    (hsorted : (pkt.opts.map (·.num.toNat)).Pairwise (· ≤ ·)) (n : UInt8) :
    (coapFindOptions pkt n).2.toNat = (pkt.opts.map (·.num.toNat)).count n.toNat := by
  have heq : ∀ o : CoapOption O, (o.num.toNat == n.toNat) = (o.num == n) := by
    intro o
    rw [Bool.eq_iff_iff]
    simp [UInt8.toNat_inj]
  have hne : ∀ o : CoapOption O, (o.num.toNat != n.toNat) = (o.num != n) := by
    intro o
    rw [bne, bne, heq]
  have hblock := @length_block_eq_count _ _ n.toNat _ hsorted
  rw [List.dropWhile_map, List.takeWhile_map, List.length_map] at hblock
  simp only [Function.comp_def, heq, hne] at hblock
  have hle : (numBlock n pkt.opts).length ≤ pkt.opts.length :=
    Nat.le_trans (List.takeWhile_sublist _).length_le (List.dropWhile_sublist _).length_le
  unfold maxopt at hcount
  rw [coapFindOptions_eq, UInt8.toNat_ofNat', Nat.mod_eq_of_lt (by omega)]
  exact hblock

theorem first_coapFindOptions (pkt : CoapPacket O) (n : UInt8) :
    (coapFindOptions pkt n).1 = (pkt.opts.map (·.num.toNat)).findIdx? (· == n.toNat) := by
  have heq : ((fun k => k == n.toNat) ∘ fun o : CoapOption O => o.num.toNat)
      = fun o : CoapOption O => o.num == n := by
    funext o
    rw [Bool.eq_iff_iff]
    simp [UInt8.toNat_inj]
  rw [coapFindOptions_eq, List.findIdx?_map, heq]

/-- A packet that reports 16 numbers at most, those of the wire cut down to 8 bits. -/
structure ReportsLow (pkt : CoapPacket O) (nums : List Nat) : Prop where
  sorted : nums.Pairwise (· ≤ ·)
  low : pkt.opts.map (·.num.toNat) = (nums.take maxopt).map (· % 256)

section ReportsLow

variable {pkt : CoapPacket O} {nums : List Nat}

theorem ReportsLow.length_eq (h : ReportsLow pkt nums) :
    pkt.opts.length = min maxopt nums.length := by
  simpa using congrArg List.length h.low

theorem ReportsLow.take_eq (h : ReportsLow pkt nums) :
    nums.take pkt.opts.length = nums.take maxopt := by
  rw [h.length_eq]
  rcases Nat.le_total maxopt nums.length with hle | hle
  · rw [Nat.min_eq_left hle]
  · rw [Nat.min_eq_right hle, List.take_of_length_le hle, List.take_of_length_le (Nat.le_refl _)]

/-- Where numbers do not survive cutting down, or one is left out, the packet shows it. -/
theorem ReportsLow.of_numsSurvive (h : ReportsLow pkt nums) (hs : NumsSurvive pkt nums) :
    (∀ k ∈ nums.take maxopt, k < 256) ∧ ∀ k ∈ nums.drop maxopt, 256 ≤ k := by
  have hcount : pkt.opts.length ≤ maxopt := by
    rw [h.length_eq]
    exact Nat.min_le_left _ _
  have hreported := hs.reported
  rw [h.take_eq] at hreported
  refine ⟨?_, ?_⟩
  · intro k hk
    rw [← hreported] at hk
    obtain ⟨o, -, rfl⟩ := List.mem_map.mp hk
    exact o.num.toNat_lt
  · intro k hk
    by_contra hlt
    -- the number `k` is counted once more on the wire than in the packet
    have hk256 : (UInt8.ofNat k).toNat = k := by rw [UInt8.toNat_ofNat']; omega
    have hwire := hs.count (UInt8.ofNat k)
    rw [count_coapFindOptions hcount hs.sorted, hk256, hreported] at hwire
    have hsplit := congrArg (List.count k) (List.take_append_drop maxopt nums)
    rw [List.count_append] at hsplit
    have hpos := List.count_pos_iff.mpr hk
    omega

theorem ReportsLow.numsSurvive (h : ReportsLow pkt nums) (hsmall : ∀ k ∈ nums.take maxopt, k < 256)
    (hlarge : ∀ k ∈ nums.drop maxopt, 256 ≤ k) : NumsSurvive pkt nums := by
  have hcount : pkt.opts.length ≤ maxopt := by
    rw [h.length_eq]
    exact Nat.min_le_left _ _
  have hreported : pkt.opts.map (·.num.toNat) = nums.take maxopt := by
    conv_rhs => rw [← List.map_id (nums.take maxopt)]
    rw [h.low]
    refine List.map_congr_left fun k hk => ?_
    exact Nat.mod_eq_of_lt (hsmall k hk)
  have hs : (pkt.opts.map (·.num.toNat)).Pairwise (· ≤ ·) :=
    hreported ▸ h.sorted.sublist (List.take_sublist ..)
  -- no 8-bit number is among those left out
  have habsent : ∀ n : UInt8, n.toNat ∉ nums.drop maxopt := by
    intro n hmem
    have hle := hlarge _ hmem
    have hlt := n.toNat_lt
    omega
  refine ⟨by rw [hreported, h.take_eq], hs, fun n => ?_, fun n => ?_⟩
  · have hnone : (nums.drop maxopt).findIdx? (· == n.toNat) = none := by
      refine List.findIdx?_eq_none_iff.mpr fun k hk => ?_
      rw [beq_eq_false_iff_ne]
      rintro rfl
      exact habsent n hk
    rw [first_coapFindOptions, hreported]
    conv_rhs => rw [← List.take_append_drop maxopt nums]
    rw [List.findIdx?_append, hnone]
    simp
  · rw [count_coapFindOptions hcount hs, hreported]
    conv_rhs => rw [← List.take_append_drop maxopt nums]
    rw [List.count_append, List.count_eq_zero_of_not_mem (habsent n), Nat.add_zero]

end ReportsLow

theorem packetOf_reportsLow {buf : Ptr O} {bs : List UInt8} {r : Parsed}
    (h : decodeMsg bs = some r) : ReportsLow (packetOf buf r) (wireNumbers bs) :=
  ⟨wireNumbers_sorted bs, packetOf_nums h⟩

/-- The option numbers survive parsing exactly when the first 16 on the wire are at most 255
    and the others are not. -/
theorem coapParse_nums_iff {m : Mem O} {buf : Ptr O} {n : Nat} {pkt : CoapPacket O}
    (hfit : buf.off + n ≤ (m buf.obj).length) (h : coapParse m buf n = .ok pkt) :
    NumsSurvive pkt (wireNumbers (slice (m buf.obj) buf.off n)) ↔
      (∀ k ∈ (wireNumbers (slice (m buf.obj) buf.off n)).take maxopt, k < 256) ∧
        ∀ k ∈ (wireNumbers (slice (m buf.obj) buf.off n)).drop maxopt, 256 ≤ k := by
  obtain ⟨r, hr, rfl⟩ := (coapParse_eq_ok_iff hfit).mp h
  have hlow := @packetOf_reportsLow _ buf _ _ hr
  exact ⟨hlow.of_numsSurvive, fun hcond => hlow.numsSurvive hcond.1 hcond.2⟩

/-! ## Datagrams that keep and that lose their numbers -/

/-- A GET with a Uri-Path and a Uri-Query keeps its numbers. -/
theorem coapParse_nums_iff_get : ∃ pkt,
    coapParse (datagram [0x40, 0x01, 0x12, 0x34, 0xB1, 0x61, 0x41, 0x62]) ⟨(), 0⟩ 8 = .ok pkt ∧
      NumsSurvive pkt [11, 15] :=
  ⟨_, rfl, (@coapParse_nums_iff _ (datagram [0x40, 0x01, 0x12, 0x34, 0xB1, 0x61, 0x41, 0x62])
    ⟨(), 0⟩ 8 _ (by decide) rfl).mpr ⟨by decide, by decide⟩⟩

/-- Option 267 is reported as a Uri-Path; of 17 Uri-Path options 16 are counted. -/
theorem coapParse_nums_lost :
    (∃ pkt, coapParse (datagram [0x40, 0x01, 0x12, 0x34, 0xD0, 0xFE]) ⟨(), 0⟩ 6 = .ok pkt ∧
      wireNumbers [0x40, 0x01, 0x12, 0x34, 0xD0, 0xFE] = [267] ∧
      coapFindOptions pkt coapOptionUriPath = (some 0, 1) ∧ ¬ NumsSurvive pkt [267]) ∧
    (∃ pkt, coapParse (datagram ([0x40, 0x01, 0x12, 0x34, 0xB0] ++ List.replicate 16 0x00))
        ⟨(), 0⟩ 21 = .ok pkt ∧
      wireNumbers ([0x40, 0x01, 0x12, 0x34, 0xB0] ++ List.replicate 16 0x00)
        = List.replicate 17 11 ∧
      coapFindOptions pkt coapOptionUriPath = (some 0, 16) ∧
      ¬ NumsSurvive pkt (List.replicate 17 11)) := by
  refine ⟨⟨_, rfl, by decide, by decide, fun h => ?_⟩, ⟨_, rfl, by decide, by decide, fun h => ?_⟩⟩
  · exact absurd (h.count coapOptionUriPath) (by decide)
  · exact absurd (h.count coapOptionUriPath) (by decide)

end Gateway.CoapServer.OptionNums
