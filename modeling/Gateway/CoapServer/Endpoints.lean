/-
  Gateway.CoapServer.Endpoints

  The resources of the server (`coapServer/endpoints.c`): the endpoint table, its
  three handlers, the value `retHello` and the discovery text that `build_rsp`
  collects from the table.

  `rsp` is an array of 1500 bytes; `build_rsp` appends to it with `strncat`, and
  its `len` is a `uint16_t`.
-/

import Gateway.Lib.CString
import Gateway.CoapServer.Microcoap

namespace Gateway.CoapServer.Endpoints

open Gateway.Lib.BlockMem Gateway.Lib.CString
open Gateway.CoapServer.Microcoap

/-! ## Objects -/

/-- The arrays and variables a turn of the server works on. -/
inductive Obj where
  | buf
  | scratchRaw
  | rsp
  | retHello
  deriving DecidableEq, Repr

/-- `rsplen`. -/
def rsplen : Nat := 1500

/-! ## Handlers -/

def pathWellKnownCore : CoapEndpointPath where
  count := 2
  elems := [cstr ['.', 'w', 'e', 'l', 'l', '-', 'k', 'n', 'o', 'w', 'n'], cstr ['c', 'o', 'r', 'e']]

def pathHello : CoapEndpointPath where
  count := 1
  elems := [cstr ['h', 'e', 'l', 'l', 'o']]

/-- `handle_get_well_known_core`. -/
def handleGetWellKnownCore : CoapEndpointFunc Obj := fun m scratch inpkt outpkt idHi idLo => do
  let n ← strlen (m .rsp)
  coapMakeResponse m scratch outpkt { p := some ⟨.rsp, 0⟩, len := n } idHi idLo (some inpkt.tok)
    .content .applicationLinkformat

/-- `handle_get_hello`. -/
def handleGetHello : CoapEndpointFunc Obj := fun m scratch inpkt outpkt idHi idLo =>
  coapMakeResponse m scratch outpkt { p := some ⟨.retHello, 0⟩, len := 1 } idHi idLo
    (some inpkt.tok) .content .textPlain

/-- `handle_put_hello`. -/
def handlePutHello : CoapEndpointFunc Obj := fun m scratch inpkt outpkt idHi idLo =>
  if inpkt.payload.len = 0 then
    coapMakeResponse m scratch outpkt { p := none, len := 0 } idHi idLo (some inpkt.tok)
      .badRequest .textPlain
  else do
  let p ← inpkt.payload.p
  let b ← load m p
  -- the two branches of the source differ in the stored character only
  let m ← store m ⟨.retHello, 0⟩ (if b = 0x31 then 0x31 else 0x30)
  coapMakeResponse m scratch outpkt { p := some ⟨.retHello, 0⟩, len := 1 } idHi idLo
    (some inpkt.tok) .changed .textPlain

/-- `endpoints`. -/
def endpoints : List (CoapEndpoint Obj) :=
  [{ method := coapMethodGet, handler := some handleGetWellKnownCore, path := pathWellKnownCore,
     coreAttr := some (cstr ['c', 't', '=', '4', '0']) },
   { method := coapMethodGet, handler := some handleGetHello, path := pathHello,
     coreAttr := some (cstr ['c', 't', '=', '0']) },
   { method := coapMethodPut, handler := some handlePutHello, path := pathHello,
     coreAttr := none },
   { method := 0, handler := none, path := { count := 0, elems := [] }, coreAttr := none }]

/-! ## build_rsp -/

/-- The loop of `build_rsp` over the segments from index `i` on, `left` of them. -/
def buildSegments (elems : List (List UInt8)) :
    Nat → Nat → List UInt8 → UInt16 → Option (List UInt8 × UInt16)
  | 0, _, rsp, len => some (rsp, len)
  | left + 1, i, rsp, len => do
    let rsp ← strncat rsp (cstr ['/']) len.toNat
    let len := len - 1
    let elem ← elems[i]?
    let rsp ← strncat rsp elem len.toNat
    buildSegments elems left (i + 1) rsp (len - UInt16.ofNat elem.length)

/-- The comma of `build_rsp`, where `rsp` is not empty. -/
def buildComma (rsp : List UInt8) (len : UInt16) : Option (List UInt8 × UInt16) := do
  let n ← strlen rsp
  if 0 < n then do
    let rsp ← strncat rsp (cstr [',']) len.toNat
    some (rsp, len - 1)
  else some (rsp, len)

/-- The loop body of `build_rsp` for an entry with an attribute. -/
def buildEntry (path : CoapEndpointPath) (attr rsp : List UInt8) (len : UInt16) :
    Option (List UInt8 × UInt16) := do
  let (rsp, len) ← buildComma rsp len
  let rsp ← strncat rsp (cstr ['<']) len.toNat
  let len := len - 1
  let (rsp, len) ← buildSegments path.elems path.count 0 rsp len
  let rsp ← strncat rsp (cstr ['>', ';']) len.toNat
  let len := len - 2
  let rsp ← strncat rsp attr len.toNat
  some (rsp, len - UInt16.ofNat attr.length)

/-- The loop of `build_rsp` over the table from some entry on. -/
def buildEntries {O : Type} : List (CoapEndpoint O) → List UInt8 → UInt16 → Option (List UInt8)
  | [], _, _ => none
  | ep :: next, rsp, len =>
    match ep.handler with
    | none => some rsp
    | some _ =>
      match ep.coreAttr with
      | none => buildEntries next rsp len
      | some attr => do
        let (rsp, len) ← buildEntry ep.path attr rsp len
        buildEntries next rsp len

/-- `build_rsp`: the new contents of `rsp`. -/
def buildRsp {O : Type} (eps : List (CoapEndpoint O)) (rsp : List UInt8) : Option (List UInt8) :=
  buildEntries eps rsp (UInt16.ofNat rsplen - 1)

/-- `endpoint_setup`. -/
def endpointSetup (m : Mem Obj) : Option (Mem Obj) := do
  let rsp ← buildRsp endpoints (m .rsp)
  some (setObj m .rsp rsp)

/-! ## The discovery text -/

/-- `rsp` holds `text`, and `len` is what is left of the 1499 characters. -/
structure Holds (rsp : List UInt8) (len : UInt16) (text : List UInt8) : Prop where
  rsp_eq : rsp = padded rsplen text
  len_eq : len.toNat + text.length = 1499
  nul : 0 ∉ text

/-- Appending a string that fits keeps the invariant. -/
theorem Holds.append {rsp text src : List UInt8} {len : UInt16} (h : Holds rsp len text)
    (hfit : (text ++ src).length ≤ 1499) (hsrc : 0 ∉ src) :
    ∃ rsp', strncat rsp src len.toNat = some rsp' ∧
      Holds rsp' (len - UInt16.ofNat src.length) (text ++ src) := by
  obtain ⟨rfl, hlen, hnul⟩ := h
  rw [List.length_append] at hfit
  refine ⟨_, strncat_padded (by unfold rsplen; omega) (by omega) hnul, rfl, ?_, ?_⟩
  · have hn : (UInt16.ofNat src.length).toNat = src.length := by
      rw [UInt16.toNat_ofNat']
      omega
    rw [UInt16.toNat_sub_of_le _ _ (by rw [UInt16.le_iff_toNat_le]; omega), hn, List.length_append]
    omega
  · exact fun hmem => (List.mem_append.mp hmem).elim hnul hsrc

/-- The text of a path. -/
def segmentsText (elems : List (List UInt8)) : List UInt8 := elems.flatMap (cstr ['/'] ++ ·)

/-- The text of an entry. -/
def entryText (elems : List (List UInt8)) (attr : List UInt8) : List UInt8 :=
  cstr ['<'] ++ segmentsText elems ++ cstr ['>', ';'] ++ attr

/-- The text with an entry behind it. -/
def addEntry (text entry : List UInt8) : List UInt8 :=
  if text = [] then entry else text ++ cstr [','] ++ entry

/-- The text of a table, behind `text`: the entries up to the last one that have an attribute. -/
def tableText {O : Type} : List (CoapEndpoint O) → List UInt8 → List UInt8
  | [], text => text
  | ep :: next, text =>
    match ep.handler, ep.coreAttr with
    | none, _ => text
    | some _, none => tableText next text
    | some _, some attr => tableText next (addEntry text (entryText ep.path.elems attr))

theorem buildSegments_holds {elems : List (List UInt8)} {left i : Nat} {rsp text : List UInt8}
    {len : UInt16} (h : Holds rsp len text) (hleft : left + i = elems.length)
    (hnul : ∀ e ∈ elems, 0 ∉ e)
    (hfit : (text ++ segmentsText (elems.drop i)).length ≤ 1499) :
    ∃ rsp' len', buildSegments elems left i rsp len = some (rsp', len') ∧
      Holds rsp' len' (text ++ segmentsText (elems.drop i)) := by
  induction left generalizing i rsp text len with
  | zero =>
    rw [List.drop_eq_nil_of_le (by omega), segmentsText, List.flatMap_nil, List.append_nil]
    exact ⟨rsp, len, rfl, h⟩
  | succ left ih =>
    have hi : i < elems.length := by omega
    have hdrop : segmentsText (elems.drop i)
        = cstr ['/'] ++ elems[i] ++ segmentsText (elems.drop (i + 1)) := by
      rw [List.drop_eq_getElem_cons hi]
      rfl
    rw [hdrop] at hfit ⊢
    have hfit' := hfit
    simp only [List.length_append] at hfit'
    obtain ⟨rsp1, h1, hold1⟩ := @Holds.append rsp text (cstr ['/']) len h
      (by rw [List.length_append]; omega) (by decide)
    obtain ⟨rsp2, h2, hold2⟩ := @Holds.append rsp1 _ elems[i] _ hold1
      (by simp only [List.length_append]; omega) (hnul _ (List.getElem_mem hi))
    obtain ⟨rsp3, len3, h3, hold3⟩ := @ih (i + 1) _ _ _ hold2 (by omega)
      (by simp only [List.length_append]; omega)
    refine ⟨rsp3, len3, ?_, by simpa only [List.append_assoc] using hold3⟩
    have helem : elems[i]? = some elems[i] := List.getElem?_eq_getElem hi
    have h2' : strncat rsp1 elems[i] (len - 1).toNat = some rsp2 := h2
    simp only [buildSegments, h1, helem, Option.bind_eq_bind, Option.bind_some, h2']
    exact h3

/-- The comma separates an entry from those before it. -/
theorem buildComma_holds {rsp text entry : List UInt8} {len : UInt16} (h : Holds rsp len text)
    (hfit : (addEntry text entry).length ≤ 1499) :
    ∃ rsp' len' text', buildComma rsp len = some (rsp', len') ∧ Holds rsp' len' text' ∧
      addEntry text entry = text' ++ entry := by
  have hstrlen : strlen rsp = some text.length := by
    have hlen := h.len_eq
    rw [h.rsp_eq]
    exact strlen_padded (by unfold rsplen; omega) h.nul
  simp only [buildComma, hstrlen, Option.bind_eq_bind, Option.bind_some]
  unfold addEntry at hfit ⊢
  by_cases hnil : text = []
  · refine ⟨rsp, len, text, ?_, h, ?_⟩
    · rw [if_neg (by rw [hnil]; decide)]
    · rw [if_pos hnil, hnil, List.nil_append]
  · rw [if_neg hnil] at hfit ⊢
    simp only [List.length_append] at hfit
    obtain ⟨rsp1, h1, hold1⟩ := @Holds.append rsp text (cstr [',']) len h
      (by rw [List.length_append]; omega) (by decide)
    refine ⟨rsp1, len - 1, text ++ cstr [','], ?_, hold1, rfl⟩
    rw [if_pos (List.length_pos_of_ne_nil hnil), h1]
    rfl

theorem buildEntry_holds {path : CoapEndpointPath} {attr rsp text : List UInt8} {len : UInt16}
    (h : Holds rsp len text) (hcount : path.count = path.elems.length)
    (hnul : ∀ e ∈ path.elems, 0 ∉ e) (hattr : 0 ∉ attr)
    (hfit : (addEntry text (entryText path.elems attr)).length ≤ 1499) :
    ∃ rsp' len', buildEntry path attr rsp len = some (rsp', len') ∧
      Holds rsp' len' (addEntry text (entryText path.elems attr)) := by
  obtain ⟨rsp0, len0, text0, h0, hold0, htext0⟩ := buildComma_holds h hfit
  rw [htext0] at hfit ⊢
  unfold entryText at hfit ⊢
  have hfit' := hfit
  simp only [List.length_append] at hfit'
  obtain ⟨rsp1, h1, hold1⟩ := @Holds.append rsp0 text0 (cstr ['<']) len0 hold0
    (by rw [List.length_append]; omega) (by decide)
  obtain ⟨rsp2, len2, h2, hold2⟩ := @buildSegments_holds path.elems path.count 0 rsp1 _ _ hold1
    hcount hnul (by simp only [List.length_append, List.drop_zero]; omega)
  obtain ⟨rsp3, h3, hold3⟩ := @Holds.append rsp2 _ (cstr ['>', ';']) len2 hold2
    (by simp only [List.length_append, List.drop_zero]; omega) (by decide)
  obtain ⟨rsp4, h4, hold4⟩ := @Holds.append rsp3 _ attr _ hold3
    (by simp only [List.length_append, List.drop_zero]; omega) hattr
  have h2' : buildSegments path.elems path.count 0 rsp1 (len0 - 1) = some (rsp2, len2) := h2
  have h4' : strncat rsp3 attr (len2 - 2).toNat = some rsp4 := h4
  refine ⟨rsp4, _, ?_, by simpa only [List.append_assoc, List.drop_zero] using hold4⟩
  simp only [buildEntry, h0, h1, h2', h3, h4', Option.bind_eq_bind, Option.bind_some]
  rfl

theorem addEntry_length (text entry : List UInt8) :
    text.length ≤ (addEntry text entry).length := by
  unfold addEntry
  split
  · next h0 => rw [h0]; exact Nat.zero_le _
  · simp only [List.length_append]; omega

theorem tableText_length {O : Type} (eps : List (CoapEndpoint O)) (text : List UInt8) :
    text.length ≤ (tableText eps text).length := by
  induction eps generalizing text with
  | nil => exact Nat.le_refl _
  | cons ep next ih =>
    rw [tableText]
    split
    · exact Nat.le_refl _
    · exact ih text
    · exact Nat.le_trans (addEntry_length _ _) (ih _)

/-- The entries of a table are strings, as many segments as the path counts. -/
def CoapEndpoint.Wf {O : Type} (ep : CoapEndpoint O) : Prop :=
  ep.path.count = ep.path.elems.length ∧ (∀ e ∈ ep.path.elems, 0 ∉ e) ∧
    ∀ attr, ep.coreAttr = some attr → 0 ∉ attr

/-- `build_rsp` leaves the text of the table when that has at most 1499 characters. -/
theorem buildEntries_holds {O : Type} {eps : List (CoapEndpoint O)} {rsp text : List UInt8}
    {len : UInt16} (h : Holds rsp len text) (hend : ∃ ep ∈ eps, ep.handler.isNone)
    (hwf : ∀ ep ∈ eps, CoapEndpoint.Wf ep) (hfit : (tableText eps text).length ≤ 1499) :
    buildEntries eps rsp len = some (padded rsplen (tableText eps text)) := by
  induction eps generalizing rsp text len with
  | nil => simp at hend
  | cons ep next ih =>
    obtain ⟨hcount, hnul, hattr⟩ := hwf ep (List.mem_cons_self ..)
    have hwf' : ∀ ep' ∈ next, CoapEndpoint.Wf ep' := fun ep' hep' =>
      hwf ep' (List.mem_cons_of_mem _ hep')
    cases hh : ep.handler with
    | none => simp only [buildEntries, tableText, hh, h.rsp_eq]
    | some handler =>
      have hend' : ∃ ep' ∈ next, ep'.handler.isNone := by
        obtain ⟨ep', hep', hnone⟩ := hend
        rcases List.mem_cons.mp hep' with rfl | hep'
        · rw [hh] at hnone
          cases hnone
        · exact ⟨ep', hep', hnone⟩
      cases ha : ep.coreAttr with
      | none =>
        simp only [buildEntries, tableText, hh, ha] at hfit ⊢
        exact ih h hend' hwf' hfit
      | some attr =>
        simp only [buildEntries, tableText, hh, ha] at hfit ⊢
        obtain ⟨rsp', len', hentry, hold⟩ := buildEntry_holds h hcount hnul (hattr attr ha)
          (Nat.le_trans (tableText_length next _) hfit)
        simp only [hentry, Option.bind_eq_bind, Option.bind_some]
        exact ih hold hend' hwf' hfit

/-- The discovery text of the server. -/
@[irreducible] def rspText : List UInt8 := tableText endpoints []

theorem rspText_eq : rspText =
    cstr ['<', '/', '.', 'w', 'e', 'l', 'l', '-', 'k', 'n', 'o', 'w', 'n', '/', 'c', 'o', 'r', 'e',
      '>', ';', 'c', 't', '=', '4', '0', ',', '<', '/', 'h', 'e', 'l', 'l', 'o', '>', ';', 'c',
      't', '=', '0'] := by
  unfold rspText
  rfl

theorem rspText_length : rspText.length = 39 := by
  rw [rspText_eq]
  rfl

theorem rspText_nul : 0 ∉ rspText := by
  rw [rspText_eq]
  decide

theorem endpoints_wf : ∀ ep ∈ endpoints, CoapEndpoint.Wf ep := by
  simp only [endpoints, List.mem_cons, List.not_mem_nil, or_false, CoapEndpoint.Wf]
  rintro ep (rfl | rfl | rfl | rfl)
  · exact ⟨rfl, by decide, fun attr h => by cases h; decide⟩
  · exact ⟨rfl, by decide, fun attr h => by cases h; decide⟩
  · exact ⟨rfl, by decide, fun attr h => by cases h⟩
  · exact ⟨rfl, by decide, fun attr h => by cases h⟩

/-- After `endpoint_setup`, `rsp` holds the discovery text. -/
theorem endpointSetup_eq {m : Mem Obj} (h : m .rsp = padded rsplen []) :
    endpointSetup m = some (setObj m .rsp (padded rsplen rspText)) := by
  have hold : Holds (m .rsp) (UInt16.ofNat rsplen - 1) [] := ⟨h, by decide, by simp⟩
  have hbuild := @buildEntries_holds _ endpoints _ _ _ hold
    ⟨_, List.mem_of_getElem? (i := 3) rfl, rfl⟩ endpoints_wf (by decide)
  rw [endpointSetup, buildRsp, hbuild, rspText]
  rfl

end Gateway.CoapServer.Endpoints
