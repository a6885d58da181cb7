import MnoGoSearch.Xml.Parser
import Mathlib.Data.List.GetD

/-!
# What the parser reads

Every loop of the parser ends, as each turn reads a byte of the document at least, and the ranges of texts and values are in
the document: `udmXMLCalls_fine`.
-/

namespace MnoGoSearch.Xml

/-- What is read from a document: ranges are in it, and names of elements are not empty. -/
def Action.Fine (doc : List UInt8) : Action → Prop
  | .text beg stop => beg ≤ stop ∧ stop ≤ doc.length
  | .cdata beg stop =>
    stop ≤ doc.length ∧
      if [0x5D, 0x5D, 0x3E] <:+: doc.drop (beg + 9) then beg + 12 ≤ stop else stop = beg
  | .enter name attrs => name ≠ [] ∧ ∀ a ∈ attrs, ∀ v ∈ a.value, v.1 ≤ v.2 ∧ v.2 ≤ doc.length
  | .close name => name ≠ []
  | .leave | .fail _ => True

/-- A lexeme between a place and the end, if there is one. -/
def Behind (doc : List UInt8) (cur : ℕ) : List UInt8 ⊕ Token → Prop
  | .inl _ => True
  | .inr t => cur ≤ t.cur ∧ t.cur ≤ doc.length

/-- What a part of the parser does is fine, and it goes on behind a place. -/
structure PartFine (doc : List UInt8) (cur : ℕ) (r : List Action × Option ℕ) : Prop where
  actions (a : Action) : a ∈ r.1 → a.Fine doc
  next (c : ℕ) : r.2 = some c → cur ≤ c ∧ c ≤ doc.length

section Read

variable {skip : Bool} {doc : List UInt8} {cur fuel cur' : ℕ} {t : Token}

theorem partFine_fail (e : List UInt8) : PartFine doc cur ([.fail e], none) where
  actions a ha := by
    rw [List.mem_singleton.1 ha]
    trivial
  next _ h := nomatch h

theorem PartFine.cons {a : Action} {r : List Action × Option ℕ} (ha : a.Fine doc) (hr : PartFine doc cur r) :
    PartFine doc cur (a :: r.1, r.2) where
  actions b hb := by
    rcases List.mem_cons.1 hb with rfl | hb
    · exact ha
    · exact hr.actions b hb
  next := hr.next

theorem PartFine.mono {r : List Action × Option ℕ} (hle : cur' ≤ cur) (hr : PartFine doc cur r) :
    PartFine doc cur' r where
  actions := hr.actions
  next c hc := ⟨hle.trans (hr.next c hc).1, (hr.next c hc).2⟩

theorem scan_behind (skip : Bool) (h : cur ≤ doc.length) :
    cur ≤ (udmXMLScan skip doc cur).cur ∧ (udmXMLScan skip doc cur).cur ≤ doc.length := by
  have hf := udmXMLScan_fine skip h
  exact ⟨hf.beg_ge.trans (hf.beg_le.trans hf.stop_le), hf.cur_le⟩

theorem text_ne_nil (ht : t.Fine doc cur) (hident : t.lex = .ident) : t.text doc ≠ [] := by
  have hlt := ht.ident hident
  have hle := ht.stop_le.trans ht.cur_le
  intro hnil
  have hlen := congrArg List.length hnil
  rw [Token.text, length_textBetween hle, List.length_nil] at hlen
  omega

/-- What the loop over the attributes gives. -/
def AttrsFine (doc : List UInt8) (cur : ℕ) (r : List Attr × (List UInt8 ⊕ Token)) : Prop :=
  (∀ a ∈ r.1, ∀ v ∈ a.value, v.1 ≤ v.2 ∧ v.2 ≤ doc.length) ∧ Behind doc cur r.2

theorem Behind.mono {r : List UInt8 ⊕ Token} (hle : cur' ≤ cur) (hr : Behind doc cur r) : Behind doc cur' r := by
  cases r with
  | inl e => trivial
  | inr t => exact ⟨hle.trans hr.1, hr.2⟩

theorem AttrsFine.cons {cur' : ℕ} {a : Attr} {r : List Attr × (List UInt8 ⊕ Token)} (hle : cur' ≤ cur)
    (ha : ∀ v ∈ a.value, v.1 ≤ v.2 ∧ v.2 ≤ doc.length) (hr : AttrsFine doc cur r) :
    AttrsFine doc cur' (a :: r.1, r.2) := by
  refine ⟨fun b hb => ?_, hr.2.mono hle⟩
  rcases List.mem_cons.1 hb with rfl | hb
  · exact ha
  · exact hr.1 b hb

theorem value_fine {name : List UInt8} {beg stop : ℕ} (h : beg ≤ stop ∧ stop ≤ doc.length) :
    ∀ v ∈ (Attr.mk name (some (beg, stop))).value, v.1 ≤ v.2 ∧ v.2 ≤ doc.length := by
  rintro v hv
  obtain rfl : (beg, stop) = v := Option.some.inj hv
  exact h

/-- **The loop over the attributes ends.** -/
theorem scanAttributes_fine (skip : Bool) (hcur : cur ≤ doc.length) (hfuel : doc.length < fuel + cur) :
    ∃ r, scanAttributes skip doc fuel cur = some r ∧ AttrsFine doc cur r := by
  induction fuel generalizing cur with
  | zero => omega
  | succ fuel ih =>
    have ha := udmXMLScan_fine skip hcur
    have hb := udmXMLScan_fine skip ha.cur_le
    have hv := udmXMLScan_fine skip hb.cur_le
    obtain ⟨ha1, -⟩ := scan_behind skip hcur
    obtain ⟨hb1, -⟩ := scan_behind skip ha.cur_le
    obtain ⟨hv1, -⟩ := scan_behind skip hb.cur_le
    rw [scanAttributes]
    dsimp only
    by_cases hname : (udmXMLScan skip doc cur).lex = .ident ∨ (udmXMLScan skip doc cur).lex = .string
    · rw [if_pos hname]
      have hlt : cur < (udmXMLScan skip doc cur).cur :=
        ha.progress fun heof => by rw [heof] at hname; exact absurd hname (by decide)
      split_ifs with heq hvalue hident hstring
      · obtain ⟨r, hrun, hr⟩ := ih hv.cur_le (by omega)
        exact ⟨_, by rw [hrun]; rfl, hr.cons (by omega) (value_fine ⟨hv.beg_le, hv.stop_le.trans hv.cur_le⟩)⟩
      · exact ⟨_, rfl, nofun, trivial⟩
      · obtain ⟨r, hrun, hr⟩ := ih hb.cur_le (by omega)
        exact ⟨_, by rw [hrun]; rfl, hr.cons (by omega) fun _ hval => absurd hval (Option.not_mem_none _)⟩
      · obtain ⟨r, hrun, hr⟩ := ih hb.cur_le (by omega)
        exact ⟨r, hrun, hr.1, hr.2.mono (by omega)⟩
      · exact ⟨_, rfl, nofun, by omega, hb.cur_le⟩
    · rw [if_neg hname]
      exact ⟨_, rfl, nofun, ha1, ha.cur_le⟩

/-- **The loop over a subset ends.** -/
theorem skipSubset_fine (skip : Bool) (hcur : cur ≤ doc.length) (hfuel : doc.length < fuel + cur) :
    ∃ r, skipSubset skip doc fuel cur = some r ∧ Behind doc cur r := by
  induction fuel generalizing cur with
  | zero => omega
  | succ fuel ih =>
    have ha := udmXMLScan_fine skip hcur
    obtain ⟨ha1, -⟩ := scan_behind skip hcur
    rw [skipSubset]
    split_ifs with heof hrb
    · exact ⟨_, rfl, trivial⟩
    · obtain ⟨hb1, hb2⟩ := scan_behind skip ha.cur_le
      exact ⟨_, rfl, ha1.trans hb1, hb2⟩
    · have hlt := ha.progress heof
      obtain ⟨r, hrun, hr⟩ := ih ha.cur_le (by omega)
      exact ⟨r, hrun, hr.mono ha1⟩

theorem finishTag_fine (exclam : Bool) (ht : cur ≤ t.cur ∧ t.cur ≤ doc.length) :
    PartFine doc cur (finishTag exclam t) := by
  have hend : PartFine doc cur (if t.lex = .gt then ([], some t.cur)
      else ([.fail (unexpected "5" t.lex "'>'")], none)) := by
    split_ifs
    · exact ⟨nofun, fun c hc => Option.some.inj hc ▸ ht⟩
    · exact partFine_fail _
  rw [finishTag]
  cases exclam with
  | false => exact hend
  | true =>
    have hcons := @PartFine.cons _ _ .leave _ trivial hend
    change PartFine doc cur (if t.lex = .gt then ([.leave], some t.cur)
      else ([.leave] ++ [.fail (unexpected "5" t.lex "'>'")], none))
    split_ifs at hcons ⊢ <;> exact hcons

theorem gotoGt_fine (question exclam : Bool) (ht : cur ≤ t.cur ∧ t.cur ≤ doc.length) :
    PartFine doc cur (gotoGt skip doc question exclam t) := by
  rw [gotoGt]
  split_ifs with hq hlex
  · obtain ⟨h1, h2⟩ := scan_behind skip ht.2
    exact (finishTag_fine exclam ⟨ht.1.trans h1, h2⟩).cons trivial
  · exact partFine_fail _
  · exact finishTag_fine exclam ht

theorem afterAttributes_fine (skip : Bool) (question exclam : Bool) (ht : cur ≤ t.cur ∧ t.cur ≤ doc.length) :
    ∃ r, afterAttributes skip doc question exclam t = some r ∧ PartFine doc cur r := by
  have hsubset : ∃ r, (if exclam && t.lex = .lb then skipSubset skip doc (doc.length + 1) t.cur
      else some (.inr t)) = some r ∧ Behind doc cur r := by
    split_ifs
    · obtain ⟨r, hrun, hr⟩ := skipSubset_fine skip ht.2 (show doc.length < doc.length + 1 + t.cur by omega)
      exact ⟨r, hrun, hr.mono ht.1⟩
    · exact ⟨_, rfl, ht⟩
  obtain ⟨r, hrun, hr⟩ := hsubset
  rw [afterAttributes]
  dsimp only
  rw [hrun]
  refine ⟨_, rfl, ?_⟩
  cases r with
  | inl e => exact partFine_fail e
  | inr t =>
    dsimp only
    split_ifs
    · obtain ⟨h1, h2⟩ := scan_behind skip hr.2
      exact (gotoGt_fine question exclam ⟨hr.1.trans h1, h2⟩).cons trivial
    · exact gotoGt_fine question exclam hr

theorem enterTag_fine (skip : Bool) (question exclam : Bool) {n : Token} (hn : n.Fine doc cur) :
    ∃ r, enterTag skip doc question exclam n = some r ∧ PartFine doc cur r := by
  rw [enterTag]
  split_ifs with hident
  · obtain ⟨⟨attrs, r⟩, hrun, hattrs, hr⟩ :=
      scanAttributes_fine skip hn.cur_le (show doc.length < doc.length + 1 + n.cur by omega)
    have henter : (Action.enter (n.text doc) attrs).Fine doc := ⟨text_ne_nil hn hident, hattrs⟩
    rw [hrun, Option.bind_some]
    cases r with
    | inl e => exact ⟨_, rfl, (partFine_fail e).cons henter⟩
    | inr t =>
      have hle : cur ≤ n.cur := hn.beg_ge.trans (hn.beg_le.trans hn.stop_le)
      obtain ⟨r, hrun, hr⟩ := afterAttributes_fine skip question exclam ⟨hle.trans hr.1, hr.2⟩
      dsimp only
      rw [hrun]
      exact ⟨_, rfl, hr.cons henter⟩
  · exact ⟨_, rfl, partFine_fail _⟩

/-- **A tag is read**, and is not empty. -/
theorem parseTag_fine (hlt : cur < doc.length) (hbeg : doc.getD cur 0 = 0x3C) :
    ∃ r, parseTag skip doc cur = some r ∧ PartFine doc (cur + 1) r := by
  have hl := udmXMLScan_fine skip hlt.le
  have hprogress : cur + 1 ≤ (udmXMLScan skip doc cur).cur := by
    refine hl.progress fun heof => ?_
    rw [List.getD_eq_getElem _ _ hlt] at hbeg
    have hmem : doc[cur] ∈ doc.drop cur := by
      rw [List.drop_eq_getElem_cons hlt]
      exact List.mem_cons_self
    have hspace := hl.eof heof _ hmem
    rw [hbeg] at hspace
    exact absurd hspace (by decide)
  have ha := udmXMLScan_fine skip hl.cur_le
  obtain ⟨ha1, -⟩ := scan_behind skip hl.cur_le
  have hn := udmXMLScan_fine skip ha.cur_le
  obtain ⟨hn1, -⟩ := scan_behind skip ha.cur_le
  rw [parseTag]
  dsimp only
  split_ifs with hcomment hcdata hslash hident hexclam hquestion
  · exact ⟨_, rfl, nofun, fun c hc => Option.some.inj hc ▸ ⟨hprogress, hl.cur_le⟩⟩
  · refine ⟨_, rfl, fun a hmem => ?_, fun c hc => Option.some.inj hc ▸ ⟨hprogress, hl.cur_le⟩⟩
    rw [List.mem_singleton.1 hmem]
    exact ⟨hl.stop_le.trans hl.cur_le, (hl.cdata hcdata).2⟩
  · obtain ⟨h1, h2⟩ := scan_behind skip hn.cur_le
    exact ⟨_, rfl, (gotoGt_fine false false ⟨by omega, h2⟩).cons (text_ne_nil hn hident)⟩
  · exact ⟨_, rfl, partFine_fail _⟩
  · obtain ⟨r, hrun, hr⟩ := enterTag_fine skip false true hn
    exact ⟨r, hrun, hr.mono (by omega)⟩
  · obtain ⟨r, hrun, hr⟩ := enterTag_fine skip true false hn
    exact ⟨r, hrun, hr.mono (by omega)⟩
  · obtain ⟨r, hrun, hr⟩ := enterTag_fine skip false false ha
    exact ⟨r, hrun, hr.mono hprogress⟩

theorem parseText_fine (hlt : cur < doc.length) (hbeg : doc.getD cur 0 ≠ 0x3C) :
    PartFine doc (cur + 1) (parseText skip doc cur) := by
  rw [List.getD_eq_getElem _ _ hlt] at hbeg
  have hle := (List.takeWhile_prefix (fun c => decide (c ≠ 0x3C)) (l := doc.drop cur)).length_le
  have hpos : 0 < ((doc.drop cur).takeWhile (· ≠ 0x3C)).length := by
    rw [List.drop_eq_getElem_cons hlt, List.takeWhile_cons_of_pos (by simpa using hbeg)]
    exact Nat.succ_pos _
  rw [List.length_drop] at hle
  have hstop : cur + ((doc.drop cur).takeWhile (· ≠ 0x3C)).length ≤ doc.length := by omega
  obtain ⟨h1, h2, h3⟩ := normUnlessSkip_bounds skip (Nat.le_add_right _ _) hstop
  refine ⟨fun a ha => ?_, fun c hc => ?_⟩
  · rw [parseText] at ha
    dsimp only at ha
    split_ifs at ha
    · exact nomatch ha
    · rw [List.mem_singleton.1 ha]
      exact ⟨h2, h3.trans (by omega)⟩
  · have hc' := Option.some.inj hc
    omega

/-- **The parser goes on until the end**, or an error. -/
theorem parseLoop_fine (hcur : cur ≤ doc.length) (hfuel : doc.length < fuel + cur) :
    ∃ as, parseLoop skip doc fuel cur = some as ∧ ∀ a ∈ as, a.Fine doc := by
  induction fuel generalizing cur with
  | zero => omega
  | succ fuel ih =>
    rw [parseLoop]
    by_cases hend : doc.length ≤ cur
    · rw [if_pos hend]
      exact ⟨[], rfl, nofun⟩
    · rw [if_neg hend]
      rw [Nat.not_le] at hend
      have hpart : ∃ r, (if doc.getD cur 0 = 0x3C then parseTag skip doc cur
          else some (parseText skip doc cur)) = some r ∧ PartFine doc (cur + 1) r := by
        split_ifs with hbeg
        · exact parseTag_fine hend hbeg
        · exact ⟨_, rfl, parseText_fine hend hbeg⟩
      obtain ⟨⟨as, c⟩, hrun, hr⟩ := hpart
      rw [hrun, Option.bind_some]
      cases c with
      | none => exact ⟨as, rfl, hr.actions⟩
      | some c =>
        obtain ⟨h1, h2⟩ := hr.next c rfl
        obtain ⟨bs, hrun', hbs⟩ := ih h2 (by omega)
        dsimp only
        rw [hrun']
        exact ⟨_, rfl, fun a ha => (List.mem_append.1 ha).elim (hr.actions a) (hbs a)⟩

/-- **The parser terminates**, and what it reads is in the document. -/
theorem udmXMLCalls_fine (skip : Bool) (doc : List UInt8) :
    ∃ as, udmXMLCalls skip doc = some as ∧ ∀ a ∈ as, a.Fine doc :=
  parseLoop_fine (Nat.zero_le _) (by omega)

end Read

end MnoGoSearch.Xml
