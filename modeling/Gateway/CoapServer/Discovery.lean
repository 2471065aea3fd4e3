/-
  Gateway.CoapServer.Discovery

  The discovery text that `build_rsp` makes of an endpoint table of any size.

  `build_rsp` appends one string after the other (`tablePieces`), also where its
  counter has wrapped around or the array has been overrun (`buildRsp_eq`).  The
  pieces together are the text, and the counter starts with the 1499 characters
  there is room for.  So the counter wraps exactly when the text is longer, and until
  then nothing is cut off (`buildRsp_iff`).
-/

import Gateway.CoapServer.Dispatch
import Gateway.CoapServer.Endpoints

namespace Gateway.CoapServer.Discovery

open Gateway.Lib.BlockMem Gateway.Lib.CString
open Gateway.CoapServer.Microcoap Gateway.CoapServer.Endpoints
open Gateway.CoapServer.Dispatch (IsTable)

variable {O : Type}

/-! ## The text and its pieces -/

/-- The entries with an attribute: their segments and the attribute. -/
def attributed (eps : List (CoapEndpoint O)) : List (List (List UInt8) × List UInt8) :=
  eps.filterMap fun ep => ep.coreAttr.map fun attr => (ep.path.elems, attr)

/-- The comma-separated list of the entries with an attribute. -/
def discoveryText (eps : List (CoapEndpoint O)) : List UInt8 :=
  (cstr [',']).intercalate ((attributed eps).map fun e => entryText e.1 e.2)

/-- What is appended for the segments. -/
def segmentPieces (elems : List (List UInt8)) : List (List UInt8) :=
  elems.flatMap fun elem => [cstr ['/'], elem]

/-- What is appended for an entry. -/
def entryPieces (elems : List (List UInt8)) (attr : List UInt8) : List (List UInt8) :=
  cstr ['<'] :: (segmentPieces elems ++ [cstr ['>', ';'], attr])

/-- What is appended for a table. -/
def tablePieces (eps : List (CoapEndpoint O)) : List (List UInt8) :=
  [cstr [',']].intercalate ((attributed eps).map fun e => entryPieces e.1 e.2)

theorem intercalate_cons {α : Type} (sep x : List α) (xs : List (List α)) :
    sep.intercalate (x :: xs) = x ++ xs.flatMap (sep ++ ·) := by
  induction xs generalizing x with
  | nil => rw [List.intercalate_singleton, List.flatMap_nil, List.append_nil]
  | cons y ys ih =>
    rw [List.intercalate_cons_cons, ih, List.flatMap_cons, List.append_assoc, List.append_assoc]

theorem flatten_intercalate {α : Type} (sep : List (List α)) (xs : List (List (List α))) :
    (sep.intercalate xs).flatten = sep.flatten.intercalate (xs.map List.flatten) := by
  cases xs with
  | nil => rfl
  | cons x xs =>
    rw [intercalate_cons, List.map_cons, intercalate_cons, List.flatten_append]
    congr 1
    induction xs with
    | nil => rfl
    | cons y ys ih =>
      rw [List.flatMap_cons, List.map_cons, List.flatMap_cons, List.flatten_append, ih,
        List.flatten_append]

theorem entryPieces_flatten (elems : List (List UInt8)) (attr : List UInt8) :
    (entryPieces elems attr).flatten = entryText elems attr := by
  have hsegs : (segmentPieces elems).flatten = segmentsText elems := by
    unfold segmentPieces segmentsText
    induction elems with
    | nil => rfl
    | cons elem elems ih =>
      rw [List.flatMap_cons, List.flatten_append, ih, List.flatMap_cons]
      simp
  rw [entryPieces, List.flatten_cons, List.flatten_append, hsegs, entryText]
  simp

/-- The pieces together are the text. -/
theorem tablePieces_flatten (eps : List (CoapEndpoint O)) :
    (tablePieces eps).flatten = discoveryText eps := by
  rw [tablePieces, flatten_intercalate, List.map_map, discoveryText]
  congr 1
  refine List.map_congr_left fun e _ => ?_
  exact entryPieces_flatten e.1 e.2

theorem entryText_ne_nil (elems : List (List UInt8)) (attr : List UInt8) :
    entryText elems attr ≠ [] := by
  rw [entryText]
  exact List.cons_ne_nil _ _

/-- An entry without an attribute is left out. -/
theorem attributed_cons_none {ep : CoapEndpoint O} (next : List (CoapEndpoint O))
    (hattr : ep.coreAttr = none) : attributed (ep :: next) = attributed next := by
  rw [attributed, List.filterMap_cons_none (by rw [hattr]; rfl), attributed]

theorem attributed_cons_some {ep : CoapEndpoint O} {attr : List UInt8} (next : List (CoapEndpoint O))
    (hattr : ep.coreAttr = some attr) :
    attributed (ep :: next) = (ep.path.elems, attr) :: attributed next := by
  rw [attributed, List.filterMap_cons_some (by rw [hattr]; rfl), attributed]

/-- What an `IsTable` says about the first entry and those behind it. -/
theorem isTable_cons {ep last : CoapEndpoint O} {next : List (CoapEndpoint O)}
    (h : IsTable (ep :: next) last) : (∃ handler, ep.handler = some handler) ∧
      ep.path.count = ep.path.elems.length ∧ IsTable next last := by
  have hep : ep ∈ ep :: next := List.mem_cons_self ..
  exact ⟨Option.ne_none_iff_exists'.mp (h.handlers ep hep), h.counts ep hep,
    fun ep' hep' => h.handlers ep' (List.mem_cons_of_mem _ hep'),
    fun ep' hep' => h.counts ep' (List.mem_cons_of_mem _ hep'), h.last⟩

/-- Behind some text, each entry comes with a comma. -/
theorem tableText_behind {eps : List (CoapEndpoint O)} {last : CoapEndpoint O}
    (htable : IsTable eps last) {text : List UInt8} (hne : text ≠ []) :
    tableText (eps ++ [last]) text
      = text ++ ((attributed eps).map fun e => entryText e.1 e.2).flatMap (cstr [','] ++ ·) := by
  induction eps generalizing text with
  | nil =>
    rw [List.nil_append, tableText, htable.last]
    exact (List.append_nil _).symm
  | cons ep next ih =>
    obtain ⟨⟨handler, hh⟩, -, hnext⟩ := isTable_cons htable
    rw [List.cons_append, tableText, hh]
    cases hattr : ep.coreAttr with
    | none =>
      rw [attributed_cons_none next hattr]
      exact ih hnext hne
    | some attr =>
      have hmore : text ++ cstr [','] ++ entryText ep.path.elems attr ≠ [] := by
        intro hnil
        exact hne (List.append_eq_nil_iff.mp (List.append_eq_nil_iff.mp hnil).1).1
      rw [attributed_cons_some next hattr, List.map_cons, List.flatMap_cons]
      simp only
      rw [addEntry, if_neg hne, ih hnext hmore]
      simp only [List.append_assoc]

/-- The text that `tableText` collects entry by entry. -/
theorem tableText_eq {eps : List (CoapEndpoint O)} {last : CoapEndpoint O}
    (htable : IsTable eps last) : tableText (eps ++ [last]) [] = discoveryText eps := by
  induction eps with
  | nil =>
    rw [List.nil_append, tableText, htable.last]
    rfl
  | cons ep next ih =>
    obtain ⟨⟨handler, hh⟩, -, hnext⟩ := isTable_cons htable
    rw [List.cons_append, tableText, hh]
    cases hattr : ep.coreAttr with
    | none =>
      rw [discoveryText, attributed_cons_none next hattr]
      exact ih hnext
    | some attr =>
      rw [discoveryText, attributed_cons_some next hattr, List.map_cons, intercalate_cons]
      simp only
      rw [addEntry, if_pos rfl, tableText_behind hnext (entryText_ne_nil _ _)]

/-- What the server sends for `/.well-known/core` is the discovery text of its three resources. -/
theorem rspText_eq_discoveryText : rspText = discoveryText (endpoints.take 3) := by
  have htable : IsTable (endpoints.take 3)
      { method := 0, handler := none, path := { count := 0, elems := [] }, coreAttr := none } :=
    ⟨by decide, by decide, rfl⟩
  unfold rspText
  exact tableText_eq htable

/-! ## What build_rsp appends -/

section Appends

variable {rsp : List UInt8} {len : UInt16}

theorem buildSegments_eq {elems : List (List UInt8)} {left i : Nat}
    (hleft : left + i = elems.length) :
    buildSegments elems left i rsp len = appendAll (segmentPieces (elems.drop i)) rsp len := by
  induction left generalizing i rsp len with
  | zero =>
    rw [List.drop_eq_nil_of_le (by omega)]
    rfl
  | succ left ih =>
    have hi : i < elems.length := by omega
    have hpieces : segmentPieces (elems.drop i)
        = cstr ['/'] :: elems[i] :: segmentPieces (elems.drop (i + 1)) := by
      rw [List.drop_eq_getElem_cons hi]
      rfl
    rw [hpieces, buildSegments, appendAll]
    cases strncat rsp (cstr ['/']) len.toNat with
    | none => rfl
    | some rsp₁ =>
      simp only [Option.bind_eq_bind, Option.bind_some, List.getElem?_eq_getElem hi]
      show (strncat rsp₁ elems[i] (len - 1).toNat).bind _ = (strncat rsp₁ elems[i] (len - 1).toNat).bind _
      congr 1
      funext rsp₂
      exact ih (by omega)

/-- Without a comma in front, at the start of an empty `rsp`. -/
theorem buildComma_empty (hempty : rsp.head? = some 0) : buildComma rsp len = some (rsp, len) := by
  obtain ⟨rest, rfl⟩ := List.head?_eq_some_iff.mp hempty
  rfl

/-- Behind another entry the comma is appended. -/
theorem buildComma_eq (hne : rsp.head? ≠ some 0) :
    buildComma rsp len = appendAll [cstr [',']] rsp len := by
  rw [buildComma, appendAll]
  cases hlen : strlen rsp with
  | none => rw [strncat, hlen]; rfl
  | some n =>
    have hpos : 0 < n := by
      refine Nat.pos_of_ne_zero ?_
      rintro rfl
      obtain ⟨hlt, hzero, -⟩ := List.findIdx?_eq_some_iff_getElem.mp hlen
      rw [List.head?_eq_getElem?, List.getElem?_eq_getElem hlt, beq_iff_eq.mp hzero] at hne
      exact hne rfl
    simp only [Option.bind_eq_bind, Option.bind_some]
    rw [if_pos hpos]
    rfl

theorem buildEntry_eq {path : CoapEndpointPath} {attr : List UInt8}
    (hcount : path.count = path.elems.length) : buildEntry path attr rsp len
      = (buildComma rsp len).bind fun r => appendAll (entryPieces path.elems attr) r.1 r.2 := by
  rw [buildEntry]
  cases buildComma rsp len with
  | none => rfl
  | some r =>
    obtain ⟨rsp₀, len₀⟩ := r
    simp only [Option.bind_eq_bind, Option.bind_some, entryPieces, appendAll]
    congr 1
    funext rsp₁
    rw [buildSegments_eq ((Nat.add_zero _).trans hcount), List.drop_zero, appendAll_append]
    rfl

/-- The entries behind the first one. -/
theorem buildEntries_behind {eps : List (CoapEndpoint O)} {last : CoapEndpoint O}
    (htable : IsTable eps last) (hne : rsp.head? ≠ some 0) :
    buildEntries (eps ++ [last]) rsp len
      = (appendAll (((attributed eps).map fun e => entryPieces e.1 e.2).flatMap
          ([cstr [',']] ++ ·)) rsp len).map Prod.fst := by
  induction eps generalizing rsp len with
  | nil =>
    rw [List.nil_append, buildEntries, htable.last]
    rfl
  | cons ep next ih =>
    obtain ⟨⟨handler, hh⟩, hcount, hnext⟩ := isTable_cons htable
    rw [List.cons_append, buildEntries, hh]
    simp only
    cases hattr : ep.coreAttr with
    | none =>
      rw [attributed_cons_none next hattr]
      exact ih hnext hne
    | some attr =>
      simp only
      rw [attributed_cons_some next hattr, List.map_cons, List.flatMap_cons, buildEntry_eq hcount,
        buildComma_eq hne, ← appendAll_append, appendAll_append (_ ++ _)]
      cases hrun : appendAll ([cstr [',']] ++ entryPieces ep.path.elems attr) rsp len with
      | none => rfl
      | some r =>
        obtain ⟨rsp', len'⟩ := r
        exact ih hnext (by rw [appendAll_head? hrun hne]; exact hne)

/-- The first character of an entry stands at the start of `rsp`. -/
theorem appendAll_entry_head? {elems : List (List UInt8)} {attr rsp' : List UInt8} {len' : UInt16}
    (hempty : rsp.head? = some 0) (hlen : 1 ≤ len.toNat)
    (h : appendAll (entryPieces elems attr) rsp len = some (rsp', len')) : rsp'.head? ≠ some 0 := by
  obtain ⟨rest, rfl⟩ := List.head?_eq_some_iff.mp hempty
  obtain ⟨rsp₁, h₁, h⟩ := Option.bind_eq_some_iff.mp h
  have hhead : rsp₁.head? = some 0x3C := by
    have hstrlen : strlen (0 :: rest) = some 0 := rfl
    have hsrc : (cstr ['<']).take len.toNat = [0x3C] := List.take_of_length_le hlen
    rw [strncat, hstrlen] at h₁
    simp only [Option.bind_eq_bind, Option.bind_some, hsrc] at h₁
    split at h₁
    · obtain rfl := Option.some_inj.mp h₁
      rfl
    · cases h₁
  rw [appendAll_head? h (by rw [hhead]; decide), hhead]
  decide

/-- `build_rsp` appends the pieces of the table, one behind the other. -/
theorem buildEntries_eq {eps : List (CoapEndpoint O)} {last : CoapEndpoint O}
    (htable : IsTable eps last) (hempty : rsp.head? = some 0) (hlen : 1 ≤ len.toNat) :
    buildEntries (eps ++ [last]) rsp len = (appendAll (tablePieces eps) rsp len).map Prod.fst := by
  induction eps with
  | nil =>
    rw [List.nil_append, buildEntries, htable.last]
    rfl
  | cons ep next ih =>
    obtain ⟨⟨handler, hh⟩, hcount, hnext⟩ := isTable_cons htable
    rw [List.cons_append, buildEntries, hh]
    simp only
    cases hattr : ep.coreAttr with
    | none =>
      rw [tablePieces, attributed_cons_none next hattr]
      exact ih hnext
    | some attr =>
      simp only
      -- the first entry with an attribute, and then those behind it
      rw [tablePieces, attributed_cons_some next hattr, List.map_cons, intercalate_cons,
        buildEntry_eq hcount, buildComma_empty hempty, Option.bind_some, appendAll_append]
      cases hrun : appendAll (entryPieces ep.path.elems attr) rsp len with
      | none => rfl
      | some r =>
        obtain ⟨rsp', len'⟩ := r
        exact buildEntries_behind hnext (appendAll_entry_head? hempty hlen hrun)

/-- The counter starts with the space for the characters in front of the NUL. -/
theorem buildRsp_eq {eps : List (CoapEndpoint O)} {last : CoapEndpoint O}
    (htable : IsTable eps last) (hempty : rsp.head? = some 0) :
    buildRsp (eps ++ [last]) rsp
      = (appendAll (tablePieces eps) rsp (UInt16.ofNat rsplen - 1)).map Prod.fst :=
  buildEntries_eq htable hempty (by decide)

end Appends

/-! ## The discovery text -/

/-- What `build_rsp` is for: a text of at most 1499 characters is left in `rsp` as a string, in any
    case nothing is written behind `rsp`, and the counter never wraps around. -/
structure BuildsText (eps : List (CoapEndpoint O)) (last : CoapEndpoint O) (rsp : List UInt8) :
    Prop where
  text : (discoveryText eps).length ≤ 1499 →
    ∃ rest, buildRsp (eps ++ [last]) rsp = some (discoveryText eps ++ 0 :: rest) ∧
      (discoveryText eps ++ 0 :: rest).length = rsplen
  inside : buildRsp (eps ++ [last]) rsp ≠ none
  counter : NeverWraps (tablePieces eps) (UInt16.ofNat rsplen - 1)

/-- No piece of a table of strings has a NUL. -/
theorem tablePieces_nul {eps : List (CoapEndpoint O)} (hwf : ∀ ep ∈ eps, CoapEndpoint.Wf ep) :
    ∀ piece ∈ tablePieces eps, 0 ∉ piece := by
  have hentry : ∀ e ∈ attributed eps, ∀ piece ∈ entryPieces e.1 e.2, 0 ∉ piece := by
    intro e he piece hpiece
    obtain ⟨ep, hep, hsome⟩ := List.mem_filterMap.mp he
    obtain ⟨attr, hattr, rfl⟩ := Option.map_eq_some_iff.mp hsome
    obtain ⟨-, helems, hnul⟩ := hwf ep hep
    simp only [entryPieces, segmentPieces, List.mem_cons, List.mem_append, List.mem_flatMap,
      List.not_mem_nil, or_false] at hpiece
    rcases hpiece with rfl | ⟨elem, helem, rfl | rfl⟩ | rfl | rfl
    · decide
    · decide
    · exact helems _ helem
    · decide
    · exact hnul _ hattr
  intro piece hpiece
  cases hentries : attributed eps with
  | nil =>
    rw [tablePieces, hentries] at hpiece
    cases hpiece
  | cons e es =>
    rw [tablePieces, hentries, List.map_cons, intercalate_cons] at hpiece
    rw [hentries] at hentry
    rcases List.mem_append.mp hpiece with hpiece | hpiece
    · exact hentry e (List.mem_cons_self ..) piece hpiece
    · obtain ⟨pieces, hpieces, hmem⟩ := List.mem_flatMap.mp hpiece
      obtain ⟨e', he', rfl⟩ := List.mem_map.mp hpieces
      rcases List.mem_cons.mp hmem with rfl | hmem
      · decide
      · exact hentry e' (List.mem_cons_of_mem _ he') piece hmem

/-- The counter never wraps exactly when the text has at most 1499 characters. -/
theorem counter_iff (eps : List (CoapEndpoint O)) :
    NeverWraps (tablePieces eps) (UInt16.ofNat rsplen - 1) ↔ (discoveryText eps).length ≤ 1499 := by
  rw [neverWraps_iff, tablePieces_flatten]
  exact Iff.rfl

/-- For every table and every empty `rsp`, `build_rsp` does what it is for exactly when the text has
    at most 1499 characters. -/
theorem buildRsp_iff {eps : List (CoapEndpoint O)} {last : CoapEndpoint O} {rsp : List UInt8}
    (htable : IsTable eps last) (hwf : ∀ ep ∈ eps, CoapEndpoint.Wf ep) (hsize : rsp.length = rsplen)
    (hempty : rsp.head? = some 0) :
    BuildsText eps last rsp ↔ (discoveryText eps).length ≤ 1499 := by
  refine ⟨fun h => (counter_iff eps).mp h.counter, fun hle => ?_⟩
  obtain ⟨rest, rfl⟩ := List.head?_eq_some_iff.mp hempty
  rw [List.length_cons] at hsize
  have hcounter := (counter_iff eps).mpr hle
  have hroom : (UInt16.ofNat rsplen - 1).toNat ≤ rest.length := by
    show 1499 ≤ rest.length
    unfold rsplen at hsize
    omega
  obtain ⟨rest', len', hrun, hlen⟩ :=
    @appendAll_fits _ [] _ _ hcounter hroom (by simp) (tablePieces_nul hwf)
  rw [tablePieces_flatten] at hrun hlen
  have hbuild : buildRsp (eps ++ [last]) (0 :: rest) = some (discoveryText eps ++ 0 :: rest') := by
    rw [buildRsp_eq htable hempty, ← List.nil_append (0 :: rest), hrun]
    rfl
  refine ⟨fun _ => ⟨rest', hbuild, ?_⟩, ?_, hcounter⟩
  · rw [List.length_append, List.length_cons]
    omega
  · rw [hbuild]
    exact Option.some_ne_none _

/-! ## A table that fits and tables that do not -/

/-- A resource `/a` with this attribute. -/
def linkEntry (attr : List UInt8) : CoapEndpoint O where
  method := coapMethodGet
  handler := some fun _ _ _ _ _ _ => none
  path := { count := 1, elems := [cstr ['a']] }
  coreAttr := some attr

/-- The last entry. -/
def endEntry : CoapEndpoint O where
  method := 0
  handler := none
  path := { count := 0, elems := [] }
  coreAttr := none

theorem isTable_linkEntry {attrs : List (List UInt8)} :
    IsTable (attrs.map (@linkEntry O)) endEntry := by
  refine ⟨fun ep hep => ?_, fun ep hep => ?_, rfl⟩
  · obtain ⟨attr, -, rfl⟩ := List.mem_map.mp hep
    exact Option.some_ne_none _
  · obtain ⟨attr, -, rfl⟩ := List.mem_map.mp hep
    rfl

theorem wf_linkEntry {attrs : List (List UInt8)} (hnul : ∀ attr ∈ attrs, 0 ∉ attr) :
    ∀ ep ∈ attrs.map (@linkEntry O), CoapEndpoint.Wf ep := by
  intro ep hep
  obtain ⟨attr, hattr, rfl⟩ := List.mem_map.mp hep
  refine ⟨rfl, ?_, fun attr' hsome => ?_⟩
  · show ∀ elem ∈ [cstr ['a']], 0 ∉ elem
    decide
  · obtain rfl := Option.some_inj.mp hsome
    exact hnul attr hattr

/-- Two entries, whatever stands behind the NUL of the empty string. -/
theorem buildRsp_iff_two :
    BuildsText ([cstr ['c', 't', '=', '0'], []].map (@linkEntry Unit)) endEntry
      (0 :: List.replicate 1499 0x78) :=
  (buildRsp_iff isTable_linkEntry (wf_linkEntry (by decide))
    (by rw [List.length_cons, List.length_replicate]; rfl) rfl).mpr (by decide)

/-- An entry that fills `rsp` is followed by another one, and something is written behind the
    array; a single entry that is too long leaves the counter wrapped. -/
theorem not_buildsText_long :
    buildRsp ([List.replicate 1494 0x78, []].map (@linkEntry Unit) ++ [endEntry])
      (List.replicate 1500 0) = none ∧
    ¬ BuildsText ([List.replicate 1494 0x78, []].map (@linkEntry Unit)) endEntry
      (List.replicate 1500 0) ∧
    ¬ BuildsText ([List.replicate 1495 0x78].map (@linkEntry Unit)) endEntry
      (List.replicate 1500 0) := by
  have hover : buildRsp ([List.replicate 1494 0x78, []].map (@linkEntry Unit) ++ [endEntry])
      (List.replicate 1500 0) = none := by
    decide +kernel
  refine ⟨hover, fun h => h.inside hover, fun h => ?_⟩
  have hle := (counter_iff _).mp h.counter
  exact absurd hle (by decide +kernel)

end Gateway.CoapServer.Discovery
