import MnoGoSearch.Sections.MergeSorted

/-!
# The alternative merge of section lists

`UdmSectionListListMergeSorted1` (`section.c`) merges in rounds: a round copies the sections of one
document from tape after tape. `agrees_iff` says when it does what the default merge does.
-/

namespace MnoGoSearch.Sections

open Lib.Sorting Lib.Tapes

variable {α : Type} {opt : Bool} {c : ℕ} {minId : ℤ}

/-! ## The loop -/

/-- How a round ends. -/
inductive Round (α : Type) where
  /-- The next round begins with these tapes. -/
  | again (tapes : List (Tape (UdmSection α)))
  /-- The label `one`: one tape is left. -/
  | one (tape : Tape (UdmSection α))
  /-- The current record of a tape is read that is at its end. -/
  | past

/-- Copy the sections of the document `minId`: what is written, and how the round ends. The tapes `done` have been
passed. A tape at its end goes, and the tape behind it is the next one; behind the last tape there is none. -/
def round (minId : ℤ) : List (Tape (UdmSection α)) → List (Tape (UdmSection α)) → SectionList α × Round α
  | done, [] => ([], .again done)
  | done, T :: todo =>
    let run := T.toList.takeWhile fun s => s.urlId == minId
    match ofList (T.toList.dropWhile fun s => s.urlId == minId) with
    | some T' =>
      let r := round minId (done ++ [T']) todo
      (run ++ r.1, r.2)
    | none =>
      match done ++ todo with
      | [t] => (run, .one t)
      | _ =>
        if todo = [] then (run, .past)
        else
          let r := round minId done todo
          (run ++ r.1, r.2)

/-- `UDM_MAX_URLID_T`. -/
def maxUrlid : ℤ := 0x7FFFFFFF

/-- `next_min_id` after a round, from the current records of the tapes it has passed. -/
def nextMinId (tapes : List (Tape (UdmSection α))) : ℤ :=
  tapes.foldl (fun next T => if next > T.cur.urlId then T.cur.urlId else next) maxUrlid

/-- All records at the end of a round. -/
def Round.content : Round α → SectionList α
  | .again tapes => Lib.Tapes.content tapes
  | .one t => t.toList
  | .past => []

variable {SrcList lists : List (SectionList α)} {front done todo ts : List (Tape (UdmSection α))}
variable {u T' T : Tape (UdmSection α)} {last out run l : SectionList α}

theorem toList_eq_of_some
    (h : ofList (T.toList.dropWhile fun s => s.urlId == minId) = some T') :
    T.toList = (T.toList.takeWhile fun s => s.urlId == minId) ++ T'.toList := by
  rw [toList_of_ofList h, List.takeWhile_append_dropWhile]

theorem toList_eq_of_none (h : ofList (T.toList.dropWhile fun s => s.urlId == minId) = none) :
    T.toList = T.toList.takeWhile fun s => s.urlId == minId := by
  have happend := List.takeWhile_append_dropWhile (p := fun s : UdmSection α => s.urlId == minId) (l := T.toList)
  rw [eq_nil_of_ofList h, List.append_nil] at happend
  exact happend.symm

theorem content_append (ts us : List (Tape (UdmSection α))) : content (ts ++ us) = content ts ++ content us :=
  List.flatMap_append

theorem perm_round (minId : ℤ) (done todo : List (Tape (UdmSection α))) (h : (round minId done todo).2 ≠ .past) :
    (content (done ++ todo)).Perm ((round minId done todo).1 ++ (round minId done todo).2.content) := by
  fun_induction round minId done todo with
  | case1 done =>
    rw [List.append_nil]
    exact List.Perm.refl _
  | case2 done T todo run T' hT r ih =>
    have hperm := (ih h).append_left run
    rw [content_append, content_cons, toList_eq_of_some hT, List.append_assoc]
    rw [content_append, content_append, content_cons, List.append_assoc] at hperm
    refine List.perm_append_comm_assoc _ _ _ |>.trans ?_
    rw [List.append_assoc]
    simpa [content] using hperm
  | case3 done T todo run hT t ht =>
    have hcontent : content done ++ content todo = t.toList := by
      rw [← content_append, ht]
      exact List.append_nil _
    rw [content_append, content_cons, toList_eq_of_none hT]
    refine List.perm_append_comm_assoc _ _ _ |>.trans ?_
    rw [hcontent]
    exact List.Perm.refl _
  | case4 => contradiction
  | case5 done T todo run hT hone htodo r ih =>
    have hperm := (ih h).append_left run
    rw [content_append, content_cons, toList_eq_of_none hT]
    refine List.perm_append_comm_assoc _ _ _ |>.trans ?_
    rw [← content_append, List.append_assoc]
    exact hperm

/-- The rounds: all that is written. Nothing, if a tape is read beyond its end, or if a round that writes nothing is
repeated for ever. -/
def rounds (minId : ℤ) (tapes : List (Tape (UdmSection α))) : Option (SectionList α) :=
  match _h : round minId [] tapes with
  | (w, .again tapes') => if _hw : w = [] then none else (rounds (nextMinId tapes') tapes').map (w ++ ·)
  | (w, .one t) => some (w ++ t.toList)
  | (_, .past) => none
termination_by (content tapes).length
decreasing_by
  have hperm := (perm_round minId [] tapes (by rw [_h]; exact nofun)).length_eq
  rw [_h, List.nil_append, List.length_append] at hperm
  have := List.length_pos_iff.mpr _hw
  simp only [Round.content] at hperm
  omega

/-- Merge lists, the first of them with the document the first round is for. One tape is copied. -/
def runTapes (lists : List (SectionList α)) : Option (SectionList α) :=
  match lists.mapM ofList with
  | none => none
  | some [] => some []
  | some [t] => some t.toList
  | some (t :: ts) => rounds t.cur.urlId (t :: ts)

/-- The number of the list from which on the lists are merged before. -/
def cutIndex (opt : Bool) (nlists nsections : ℕ) : ℕ → ℕ → List (SectionList α) → Option ℕ
  | _, _, [] => none
  | list, nreminder, item :: items =>
    if opt = true ∧ 2 < list ∧ 2 < nlists - list ∧ nreminder < nsections / 10 then some list
    else cutIndex opt nlists nsections (list + 1) (nreminder - item.length) items

/-- The section number of the first record. -/
def firstSecno (item : SectionList α) : ℤ := (item.head?.map UdmSection.secno).getD 0

/-- `cmp_section_list_by_secno`. -/
def cmpSectionListBySecno (s1 s2 : SectionList α) : ℤ := firstSecno s1 - firstSecno s2

/-- The lists in the order in which they are merged. -/
def sortedBySecno (P : SortProc) (SrcList : List (SectionList α)) : List (SectionList α) :=
  P.sort (fun s1 s2 => decide (cmpSectionListBySecno s1 s2 ≤ 0)) SrcList

/-- Where the sorted lists are cut. -/
def cutOf (opt : Bool) (items : List (SectionList α)) : Option ℕ :=
  cutIndex opt items.length items.flatten.length 0 items.flatten.length items

theorem cutIndex_le {nlists nsections list nreminder : ℕ} {items : List (SectionList α)}
    (h : cutIndex opt nlists nsections list nreminder items = some c) : 2 < c ∧ c < list + items.length := by
  induction items generalizing list nreminder with
  | nil => contradiction
  | cons item items ih =>
    rw [cutIndex] at h
    split_ifs at h with hcut
    · obtain rfl := Option.some.inj h
      exact ⟨hcut.2.1, Nat.lt_add_of_pos_right (Nat.succ_pos _)⟩
    · have := ih h
      rw [List.length_cons]
      omega

/-- `UdmSectionListListMergeSorted1`; nothing, if it reads a tape beyond its end. The lists from a short one on are
merged by `UdmSectionListListMergeSorted`, which with `NEWSORT=yes` calls this function with `opt`. With no lists `Dst`
stays empty. -/
def udmSectionListListMergeSorted1 (P : SortProc) (opt : Bool) (SrcList : List (SectionList α)) :
    Option (SectionList α) :=
  let items := sortedBySecno P SrcList
  match _h : cutOf opt items with
  | none => runTapes items
  | some c =>
    match udmSectionListListMergeSorted1 P true (items.drop c) with
    | none => none
    | some short => runTapes (items.take c ++ [short])
termination_by SrcList.length
decreasing_by
  have hlen : (sortedBySecno P SrcList).length = SrcList.length := (P.perm_sort _ SrcList).length_eq
  have hcut : 2 < c ∧ c < 0 + (sortedBySecno P SrcList).length := cutIndex_le _h
  change ((sortedBySecno P SrcList).drop c).length < _
  rw [List.length_drop]
  omega

/-! ## What is written -/

/-- The documents are in order. -/
def ByDocument (l : SectionList α) : Prop := l.Pairwise fun a b => a.urlId ≤ b.urlId

/-- The sections of a document, in the order in which a list has them. -/
def ofDocument (x : ℤ) (l : SectionList α) : SectionList α := l.filter fun s => s.urlId == x

/-- The tapes are sorted, and no document comes before `minId`. -/
def Ready (minId : ℤ) (ts : List (Tape (UdmSection α))) : Prop :=
  ∀ t ∈ ts, ByDocument t.toList ∧ ∀ s ∈ t.toList, minId ≤ s.urlId

theorem Ready.mono {minId' : ℤ} (h : Ready minId' ts) (hle : minId ≤ minId') : Ready minId ts :=
  fun t ht => ⟨(h t ht).1, fun s hs => hle.trans ((h t ht).2 s hs)⟩

theorem urlId_of_mem_run {s : UdmSection α} (hs : s ∈ l.takeWhile fun s => s.urlId == minId) : s.urlId = minId := by
  have h := List.mem_takeWhile_imp hs
  exact beq_iff_eq.mp h

theorem Ready.of_some
    (h : Ready minId (T :: todo)) (hT : ofList (T.toList.dropWhile fun s => s.urlId == minId) = some T') :
    Ready (minId + 1) [T'] := by
  obtain ⟨hsorted, hle⟩ := h T List.mem_cons_self
  have hrest := toList_of_ofList hT
  have hsorted' : ByDocument T'.toList := hrest ▸ hsorted.sublist (List.dropWhile_sublist _)
  refine fun t ht => (List.mem_singleton.mp ht) ▸ ⟨hsorted', ?_⟩
  have hcur : minId < T'.cur.urlId := by
    have hmem : T'.cur ∈ T.toList := by
      rw [toList_eq_of_some hT]
      exact List.mem_append_right _ List.mem_cons_self
    refine lt_of_le_of_ne (hle _ hmem) fun heq => ?_
    have hhead := List.head?_dropWhile_not (fun s : UdmSection α => s.urlId == minId) T.toList
    rw [← hrest, Tape.toList, List.head?_cons] at hhead
    exact absurd (beq_iff_eq.mpr heq.symm) (by simpa using hhead)
  intro s hs
  rcases List.mem_cons.mp hs with rfl | hs
  · exact hcur
  · exact hcur.trans_le (List.rel_of_pairwise_cons hsorted' hs)

theorem urlId_of_mem_round {minId : ℤ} {done todo : List (Tape (UdmSection α))} {s : UdmSection α}
    (hs : s ∈ (round minId done todo).1) : s.urlId = minId := by
  fun_induction round minId done todo with
  | case1 => exact absurd hs List.not_mem_nil
  | case2 done T todo run T' hT r ih =>
    rcases List.mem_append.mp hs with hs | hs
    · exact urlId_of_mem_run hs
    · exact ih hs
  | case3 => exact urlId_of_mem_run hs
  | case4 => exact urlId_of_mem_run hs
  | case5 done T todo run hT hone htodo r ih =>
    rcases List.mem_append.mp hs with hs | hs
    · exact urlId_of_mem_run hs
    · exact ih hs

theorem ready_round (hdone : Ready (minId + 1) done)
    (htodo : Ready minId todo) (h : (round minId done todo).2 = .again ts) : Ready (minId + 1) ts := by
  fun_induction round minId done todo with
  | case1 done =>
    cases h
    exact hdone
  | case2 done T todo run T' hT r ih =>
    refine ih ?_ (fun t ht => htodo t (List.mem_cons_of_mem T ht)) h
    exact List.forall_mem_append.mpr ⟨hdone, htodo.of_some hT⟩
  | case3 => contradiction
  | case4 => contradiction
  | case5 done T todo run hT hone hne r ih => exact ih hdone (fun t ht => htodo t (List.mem_cons_of_mem T ht)) h

theorem ready_one {t : Tape (UdmSection α)}
    (hdone : Ready (minId + 1) done) (htodo : Ready minId todo) (h : (round minId done todo).2 = .one t) :
    ByDocument t.toList ∧ ∀ s ∈ t.toList, minId ≤ s.urlId := by
  fun_induction round minId done todo with
  | case1 => contradiction
  | case2 done T todo run T' hT r ih =>
    exact ih (List.forall_mem_append.mpr ⟨hdone, htodo.of_some hT⟩) (fun t ht => htodo t (List.mem_cons_of_mem T ht)) h
  | case3 done T todo run hT t' ht =>
    obtain rfl : t' = t := Round.one.inj h
    have hready : Ready minId (done ++ todo) := List.forall_mem_append.mpr
      ⟨hdone.mono (by omega), fun t ht => htodo t (List.mem_cons_of_mem T ht)⟩
    exact hready t' (ht ▸ List.mem_cons_self)
  | case4 => contradiction
  | case5 done T todo run hT hone hne r ih => exact ih hdone (fun t ht => htodo t (List.mem_cons_of_mem T ht)) h

theorem ofDocument_swap (hdone : Ready (minId + 1) done) (hrun : ∀ s ∈ run, s.urlId = minId) (x : ℤ) :
    ofDocument x (content done) ++ ofDocument x run = ofDocument x run ++ ofDocument x (content done) := by
  by_cases hx : x = minId
  · have hnil : ofDocument x (content done) = [] := by
      refine List.filter_eq_nil_iff.mpr fun s hs => ?_
      obtain ⟨t, ht, hs⟩ := List.mem_flatMap.mp hs
      have := (hdone t ht).2 s hs
      rw [beq_iff_eq]
      omega
    rw [hnil, List.append_nil, List.nil_append]
  · have hnil : ofDocument x run = [] := by
      refine List.filter_eq_nil_iff.mpr fun s hs => ?_
      rw [beq_iff_eq, hrun s hs]
      exact fun h => hx h.symm
    rw [hnil, List.append_nil, List.nil_append]

theorem ofDocument_append (x : ℤ) (l l' : SectionList α) :
    ofDocument x (l ++ l') = ofDocument x l ++ ofDocument x l' := List.filter_append ..

theorem ofDocument_round (hdone : Ready (minId + 1) done)
    (htodo : Ready minId todo) (h : (round minId done todo).2 ≠ .past) (x : ℤ) :
    ofDocument x (content (done ++ todo)) =
      ofDocument x ((round minId done todo).1 ++ (round minId done todo).2.content) := by
  fun_induction round minId done todo with
  | case1 done =>
    rw [List.append_nil]
    rfl
  | case2 done T todo run T' hT r ih =>
    have hswap := ofDocument_swap hdone (fun s (hs : s ∈ run) => urlId_of_mem_run hs) x
    have ih := ih (List.forall_mem_append.mpr ⟨hdone, htodo.of_some hT⟩)
      (fun t ht => htodo t (List.mem_cons_of_mem T ht)) h
    have hT' : content [T'] = T'.toList := List.append_nil _
    rw [content_append, content_append, hT'] at ih
    rw [content_append, content_cons, toList_eq_of_some hT]
    change _ = ofDocument x (r.1 ++ r.2.content) at ih
    change ofDocument x (content done ++ (run ++ _ ++ _)) = _
    simp only [ofDocument_append, List.append_assoc] at ih ⊢
    rw [← ih, ← List.append_assoc, hswap, List.append_assoc]
  | case3 done T todo run hT t ht =>
    have hswap := ofDocument_swap hdone (fun s (hs : s ∈ run) => urlId_of_mem_run hs) x
    have hcontent : content done ++ content todo = t.toList := by
      rw [← content_append, ht]
      exact List.append_nil _
    rw [content_append, content_cons, toList_eq_of_none hT]
    change _ = ofDocument x (run ++ t.toList)
    rw [← hcontent]
    simp only [ofDocument_append]
    rw [← List.append_assoc, hswap, List.append_assoc]
  | case4 => contradiction
  | case5 done T todo run hT hone hne r ih =>
    have hswap := ofDocument_swap hdone (fun s (hs : s ∈ run) => urlId_of_mem_run hs) x
    have ih := ih hdone (fun t ht => htodo t (List.mem_cons_of_mem T ht)) h
    rw [content_append] at ih
    rw [content_append, content_cons, toList_eq_of_none hT]
    simp only [ofDocument_append] at ih ⊢
    rw [List.append_assoc, ← ih, ← List.append_assoc, hswap, List.append_assoc]

theorem foldl_min_spec (tapes : List (Tape (UdmSection α))) (next : ℤ) :
    let m := tapes.foldl (fun next T => if next > T.cur.urlId then T.cur.urlId else next) next
    m ≤ next ∧ (∀ t ∈ tapes, m ≤ t.cur.urlId) ∧ (m = next ∨ ∃ t ∈ tapes, t.cur.urlId = m) := by
  induction tapes generalizing next with
  | nil => exact ⟨le_rfl, fun t ht => absurd ht List.not_mem_nil, .inl rfl⟩
  | cons T tapes ih =>
    obtain ⟨h1, h2, h3⟩ := ih (if next > T.cur.urlId then T.cur.urlId else next)
    have hnext : (if next > T.cur.urlId then T.cur.urlId else next) ≤ next ∧
        (if next > T.cur.urlId then T.cur.urlId else next) ≤ T.cur.urlId := by
      split_ifs <;> omega
    refine ⟨h1.trans hnext.1, List.forall_mem_cons.mpr ⟨h1.trans hnext.2, h2⟩, ?_⟩
    rcases h3 with h3 | ⟨t, ht, h3⟩
    · by_cases hlt : next > T.cur.urlId
      · exact .inr ⟨T, List.mem_cons_self, by rw [List.foldl_cons, h3, if_pos hlt]⟩
      · exact .inl (by rw [List.foldl_cons, h3, if_neg hlt])
    · exact .inr ⟨t, List.mem_cons_of_mem T ht, h3⟩

theorem ready_nextMinId (h : Ready minId ts) : Ready (nextMinId ts) ts := by
  intro t ht
  refine ⟨(h t ht).1, fun s hs => ?_⟩
  have hcur := (foldl_min_spec ts maxUrlid).2.1 t ht
  rcases List.mem_cons.mp hs with rfl | hs
  · exact hcur
  · exact hcur.trans (List.rel_of_pairwise_cons (h t ht).1 hs)

theorem perm_rounds {tapes : List (Tape (UdmSection α))}
    (hout : rounds minId tapes = some out) : out.Perm (content tapes) := by
  fun_induction rounds minId tapes generalizing out with
  | case1 => contradiction
  | case2 minId tapes w ts hround hw ih =>
    obtain ⟨out', hout', rfl⟩ := Option.map_eq_some_iff.mp hout
    have hperm := perm_round minId [] tapes (by rw [hround]; exact nofun)
    rw [hround] at hperm
    exact ((ih hout').append_left w).trans hperm.symm
  | case3 minId tapes w t hround =>
    have hperm := perm_round minId [] tapes (by rw [hround]; exact nofun)
    rw [hround] at hperm
    exact Option.some.inj hout ▸ hperm.symm
  | case4 => contradiction

theorem byDocument_append {w : SectionList α} (hw : ∀ s ∈ w, s.urlId = minId) (hl : ByDocument l)
    (hle : ∀ s ∈ l, minId ≤ s.urlId) : ByDocument (w ++ l) := by
  refine List.pairwise_append.mpr ⟨List.pairwise_of_forall_mem_list fun a ha b hb => ?_, hl, fun a ha b hb => ?_⟩
  · rw [hw a ha, hw b hb]
  · rw [hw a ha]
    exact hle b hb

/-- What the rounds write: the documents in order, and the sections of a document in the order of the tapes. -/
theorem rounds_spec {tapes : List (Tape (UdmSection α))} (h : Ready minId tapes)
    (hout : rounds minId tapes = some out) : ByDocument out ∧ ∀ x, ofDocument x out = ofDocument x (content tapes) := by
  have hnil : Ready (minId + 1) ([] : List (Tape (UdmSection α))) := fun t ht => absurd ht List.not_mem_nil
  fun_induction rounds minId tapes generalizing out with
  | case1 => contradiction
  | case2 minId tapes w ts hround hw ih =>
    obtain ⟨out', hout', rfl⟩ := Option.map_eq_some_iff.mp hout
    have hts : Ready (minId + 1) ts := ready_round hnil h (by rw [hround])
    obtain ⟨hsorted, hof⟩ := ih (ready_nextMinId hts) hout' fun t ht => absurd ht List.not_mem_nil
    have hrun : ∀ s ∈ w, s.urlId = minId := fun s hs =>
      @urlId_of_mem_round _ minId [] tapes s (by rw [hround]; exact hs)
    refine ⟨byDocument_append hrun hsorted fun s hs => ?_, fun x => ?_⟩
    · obtain ⟨t, ht, hst⟩ := List.mem_flatMap.mp ((perm_rounds hout').mem_iff.mp hs)
      have := (hts t ht).2 s hst
      omega
    · have hround' := ofDocument_round hnil h (by rw [hround]; exact nofun) x
      rw [hround, List.nil_append] at hround'
      rw [hround', ofDocument_append, hof, ← ofDocument_append]
      rfl
  | case3 minId tapes w t hround =>
    obtain rfl := Option.some.inj hout
    have hrun : ∀ s ∈ w, s.urlId = minId := fun s hs =>
      @urlId_of_mem_round _ minId [] tapes s (by rw [hround]; exact hs)
    have ht := ready_one hnil h (by rw [hround])
    have hround' := ofDocument_round hnil h (by rw [hround]; exact nofun)
    rw [hround, List.nil_append] at hround'
    exact ⟨byDocument_append hrun ht.1 ht.2, fun x => (hround' x).symm⟩
  | case4 => contradiction

/-! ## When the rounds come to an end -/

theorem rounds_of_past {tapes : List (Tape (UdmSection α))} (h : (round minId [] tapes).2 = .past) :
    rounds minId tapes = none := by
  rw [rounds]
  split
  · rename_i hround
    rw [hround] at h
    contradiction
  · rename_i hround
    rw [hround] at h
    contradiction
  · rfl

/-- The list goes on after the documents of the list `last`. -/
def goesOn (last l : SectionList α) : Bool := l.any fun s => last.all fun r => decide (r.urlId < s.urlId)

/-- How many tapes go on after the last one. -/
def countLate (front : List (Tape (UdmSection α))) (u : Tape (UdmSection α)) : ℕ :=
  front.countP fun t => goesOn u.toList t.toList

/-- What a round makes of tapes of which `n` go on after the last one. -/
def RoundOk (n : ℕ) : Round α → Prop
  | .again ts => ∃ front u, ts = front ++ [u] ∧ front ≠ [] ∧ countLate front u = n
  | .one _ => n ≤ 1
  | .past => 1 < n

theorem goesOn_iff : goesOn last l = true ↔ ∃ s ∈ l, ∀ r ∈ last, r.urlId < s.urlId := by
  simp only [goesOn, List.any_eq_true, List.all_eq_true, decide_eq_true_eq]

theorem goesOn_last {rest : SectionList α} (hrun : ∀ s ∈ run, s.urlId = minId) (hne : rest ≠ [])
    (hrest : ∀ s ∈ rest, minId + 1 ≤ s.urlId) (l : SectionList α) : goesOn (run ++ rest) l = goesOn rest l := by
  obtain ⟨r, hr⟩ := List.exists_mem_of_ne_nil rest hne
  rw [Bool.eq_iff_iff, goesOn_iff, goesOn_iff]
  refine exists_congr fun s => and_congr_right fun _ => ⟨fun h r hr => h r (List.mem_append_right run hr), fun h => ?_⟩
  refine List.forall_mem_append.mpr ⟨fun q hq => ?_, h⟩
  have h1 := h r hr
  have h2 := hrest r hr
  rw [hrun q hq]
  omega

theorem goesOn_run (hrun : ∀ s ∈ run, s.urlId = minId) (hne : last ≠ [])
    (hlast : ∀ s ∈ last, minId ≤ s.urlId) (rest : SectionList α) : goesOn last (run ++ rest) = goesOn last rest := by
  obtain ⟨r, hr⟩ := List.exists_mem_of_ne_nil last hne
  have hnot : goesOn last run = false := by
    rw [← Bool.not_eq_true, goesOn_iff]
    rintro ⟨s, hs, hlt⟩
    have h1 := hlt r hr
    have h2 := hlast r hr
    have h3 := hrun s hs
    omega
  rw [goesOn, List.any_append, ← goesOn, hnot, Bool.false_or]
  rfl

theorem toList_ne_nil (t : Tape (UdmSection α)) : t.toList ≠ [] := List.cons_ne_nil _ _

/-- **One round**: the number of the tapes that go on after the last one stays, and decides how the rounds end. -/
theorem roundOk_round {minId : ℤ} {done front : List (Tape (UdmSection α))} {u : Tape (UdmSection α)}
    (hdone : Ready (minId + 1) done) (htodo : Ready minId (front ++ [u])) (hne : done ++ front ≠ []) :
    RoundOk (countLate (done ++ front) u) (round minId done (front ++ [u])).2 := by
  induction front generalizing done with
  | nil =>
    rw [List.append_nil] at hne ⊢
    rw [List.nil_append] at htodo ⊢
    obtain ⟨-, hu⟩ := htodo u List.mem_cons_self
    rw [round]
    cases hT : ofList (u.toList.dropWhile fun s => s.urlId == minId) with
    | some T' =>
      refine ⟨done, T', rfl, hne, ?_⟩
      have hrest := (htodo.of_some hT) T' List.mem_cons_self
      refine List.countP_congr fun t _ => ?_
      rw [toList_eq_of_some hT, goesOn_last (fun s hs => urlId_of_mem_run hs) (toList_ne_nil T') hrest.2]
    | none =>
      have hulast : ∀ s ∈ u.toList, s.urlId = minId := fun s hs => by
        rw [toList_eq_of_none hT] at hs
        exact urlId_of_mem_run hs
      match done, hne with
      | [t], _ => exact List.countP_le_length
      | t :: t' :: done, _ =>
        have hlate : countLate (t :: t' :: done) u = (t :: t' :: done).length := by
          refine List.countP_eq_length.mpr fun v hv => goesOn_iff.mpr ⟨v.cur, List.mem_cons_self, fun r hr => ?_⟩
          have := (hdone v hv).2 v.cur List.mem_cons_self
          have := hulast r hr
          omega
        rw [hlate]
        exact Nat.succ_lt_succ (Nat.succ_pos _)
  | cons T front ih =>
    have htodo' : Ready minId (front ++ [u]) := fun t ht => htodo t (List.mem_cons_of_mem T ht)
    obtain ⟨-, hu⟩ := htodo' u (List.mem_append_right front List.mem_cons_self)
    have hadd : ∀ v, countLate (done ++ v :: front) u =
        countLate (done ++ front) u + if goesOn u.toList v.toList = true then 1 else 0 := fun v => by
      simp only [countLate, List.countP_append, List.countP_cons]
      omega
    rw [List.cons_append, round]
    cases hT : ofList (T.toList.dropWhile fun s => s.urlId == minId) with
    | some T' =>
      have hround := @ih (done ++ [T']) (List.forall_mem_append.mpr ⟨hdone, htodo.of_some hT⟩) htodo' (by simp)
      rw [List.append_assoc, List.singleton_append, hadd] at hround
      rw [hadd, toList_eq_of_some hT, goesOn_run (fun s hs => urlId_of_mem_run hs) (toList_ne_nil u) hu]
      exact hround
    | none =>
      have hT' : goesOn u.toList T.toList = false := by
        rw [toList_eq_of_none hT, ← List.append_nil (List.takeWhile _ _),
          goesOn_run (fun s hs => urlId_of_mem_run hs) (toList_ne_nil u) hu]
        rfl
      rw [hadd, hT', if_neg Bool.false_ne_true, Nat.add_zero]
      dsimp only
      split
      · rename_i t ht
        have hlen := congrArg List.length ht
        simp only [List.length_append, List.length_singleton] at hlen
        have hle := List.countP_le_length (p := fun t => goesOn u.toList t.toList) (l := done ++ front)
        rw [List.length_append] at hle
        exact hle.trans (by omega)
      · rename_i hone
        rw [if_neg (List.append_ne_nil_of_right_ne_nil front (List.cons_ne_nil u []))]
        refine ih hdone htodo' fun hnil => ?_
        obtain ⟨rfl, rfl⟩ := List.append_eq_nil_iff.mp hnil
        exact hone u rfl

theorem round_ne_nil (hmin : ∃ T ∈ todo, T.cur.urlId = minId) (h : (round minId done todo).2 = .again ts) :
    (round minId done todo).1 ≠ [] := by
  have hrun : ∀ T : Tape (UdmSection α), T.cur.urlId = minId →
      (T.toList.takeWhile fun s => s.urlId == minId) ≠ [] := fun T hT => by
    rw [Tape.toList, List.takeWhile_cons, if_pos (beq_iff_eq.mpr hT)]
    exact List.cons_ne_nil _ _
  fun_induction round minId done todo with
  | case1 =>
    obtain ⟨T, hT, -⟩ := hmin
    exact absurd hT List.not_mem_nil
  | case2 done T todo run T' hT r ih =>
    obtain ⟨U, hU, hmin⟩ := hmin
    rcases List.mem_cons.mp hU with rfl | hU
    · exact List.append_ne_nil_of_left_ne_nil (hrun U hmin) _
    · exact List.append_ne_nil_of_right_ne_nil _ (ih ⟨U, hU, hmin⟩ h)
  | case3 => contradiction
  | case4 => contradiction
  | case5 done T todo run hT hone hne r ih =>
    refine List.append_ne_nil_of_left_ne_nil ?_ _
    change (T.toList.takeWhile fun s => s.urlId == minId) ≠ []
    rw [← toList_eq_of_none hT]
    exact toList_ne_nil T

/-- No document has a number above `UDM_MAX_URLID_T`. -/
def IdsOk (l : SectionList α) : Prop := ∀ s ∈ l, s.urlId ≤ maxUrlid

theorem exists_nextMinId (hne : ts ≠ []) (hids : IdsOk (content ts)) : ∃ t ∈ ts, t.cur.urlId = nextMinId ts := by
  obtain ⟨-, hle, hmax | hmin⟩ := foldl_min_spec ts maxUrlid
  · obtain ⟨t, ht⟩ := List.exists_mem_of_ne_nil ts hne
    have h1 := hle t ht
    have h2 := hids t.cur (mem_content ht List.mem_cons_self)
    rw [nextMinId]
    exact ⟨t, ht, by omega⟩
  · exact hmin

/-- **The rounds come to an end** if and only if at most one tape goes on after the last one. -/
theorem rounds_isSome (h : Ready minId (front ++ [u])) (hne : front ≠ []) (hids : IdsOk (content (front ++ [u])))
    (hmin : ∃ T ∈ front ++ [u], T.cur.urlId = minId) :
    (rounds minId (front ++ [u])).isSome = true ↔ countLate front u ≤ 1 := by
  have hnil : Ready (minId + 1) ([] : List (Tape (UdmSection α))) := fun t ht => absurd ht List.not_mem_nil
  have hround := roundOk_round hnil h hne
  generalize hts : front ++ [u] = tapes at *
  fun_induction rounds minId tapes generalizing front u with
  | case1 minId tapes ts hagain => exact absurd (by rw [hagain]) (round_ne_nil hmin (by rw [hagain]))
  | case2 minId tapes w ts hagain hw ih =>
    rw [hagain, List.nil_append] at hround
    obtain ⟨front', u', rfl, hne', hcount⟩ := hround
    have hready := ready_round hnil h (by rw [hagain])
    have hids' : IdsOk (content (front' ++ [u'])) := fun s hs => by
      have hperm := perm_round minId [] tapes (by rw [hagain]; exact nofun)
      rw [hagain] at hperm
      exact hids s (hperm.mem_iff.mpr (List.mem_append_right w hs))
    have hmin' := exists_nextMinId (List.append_ne_nil_of_right_ne_nil front' (List.cons_ne_nil u' [])) hids'
    rw [Option.isSome_map, ← hcount]
    have hround' := @roundOk_round _ _ [] front' u' (fun t ht => absurd ht List.not_mem_nil) (ready_nextMinId hready) hne'
    exact ih hne' (fun t ht => absurd ht List.not_mem_nil) rfl (ready_nextMinId hready) hids' hmin' hround'
  | case3 minId tapes w t hone =>
    rw [hone] at hround
    exact iff_of_true rfl hround
  | case4 minId tapes w hpast =>
    rw [hpast] at hround
    exact iff_of_false Bool.false_ne_true (Nat.not_le.mpr hround)

/-! ## When the result is in order -/

/-- The sections of one document come in order. -/
def SectionsInOrder (l : SectionList α) : Prop := l.Pairwise fun a b => a.urlId = b.urlId → a.secno ≤ b.secno

theorem inOrder_iff : InOrder l ↔ ByDocument l ∧ SectionsInOrder l := by
  rw [InOrder, ByDocument, SectionsInOrder, ← List.pairwise_and_iff]
  refine ⟨List.Pairwise.imp fun {a b} h => ?_, List.Pairwise.imp fun {a b} h => ?_⟩
  · rw [key, key, Prod.Lex.toLex_le_toLex] at h
    simp only at h
    omega
  · rw [key, key, Prod.Lex.toLex_le_toLex]
    simp only
    omega

theorem sectionsInOrder_iff : SectionsInOrder l ↔ ∀ x, SectionsInOrder (ofDocument x l) := by
  refine ⟨fun h x => h.sublist List.filter_sublist, fun h => ?_⟩
  refine List.pairwise_iff_forall_sublist.mpr fun {a b} hab heq => ?_
  have hsub := hab.filter fun s => s.urlId == a.urlId
  rw [show ([a, b].filter fun s => s.urlId == a.urlId) = [a, b] by simp [heq]] at hsub
  exact List.pairwise_iff_forall_sublist.mp (h a.urlId) hsub heq

/-- The sections of a document come in order from list to list. -/
def Consecutive (lists : List (SectionList α)) : Prop :=
  lists.Pairwise fun l l' => ∀ s ∈ l, ∀ s' ∈ l', s.urlId = s'.urlId → s.secno ≤ s'.secno

/-- The first list has a section of the first document. -/
def BeginsFirst (lists : List (SectionList α)) : Prop :=
  ∃ s ∈ lists.headD [], ∀ r ∈ lists.flatten, s.urlId ≤ r.urlId

/-- At most one list goes on after the documents of the last one. -/
def EndsInTime (lists : List (SectionList α)) : Prop :=
  lists.dropLast.countP (goesOn (lists.getLastD [])) ≤ 1

/-- What the rounds ask of the lists. -/
def Fits (lists : List (SectionList α)) : Prop :=
  lists.length ≤ 1 ∨ BeginsFirst lists ∧ Consecutive lists ∧ EndsInTime lists

theorem content_eq_flatten (ts : List (Tape (UdmSection α))) : content ts = (ts.map Tape.toList).flatten :=
  List.flatMap_def ..

theorem inOrder_of_rounds {tapes : List (Tape (UdmSection α))} (h : Ready minId tapes)
    (hsorted : ∀ t ∈ tapes, InOrder t.toList) (hout : rounds minId tapes = some out) :
    InOrder out ↔ Consecutive (tapes.map Tape.toList) := by
  obtain ⟨hdocument, hof⟩ := rounds_spec h hout
  have hsections : SectionsInOrder out ↔ SectionsInOrder (content tapes) := by
    rw [sectionsInOrder_iff, sectionsInOrder_iff (l := content tapes)]
    simp only [hof]
  rw [inOrder_iff, and_iff_right hdocument, hsections, content_eq_flatten, SectionsInOrder, List.pairwise_flatten,
    Consecutive]
  refine and_iff_right fun l hl => ?_
  obtain ⟨t, ht, rfl⟩ := List.mem_map.mp hl
  exact (inOrder_iff.mp (hsorted t ht)).2

theorem head?_round (hmin : T.cur.urlId = minId)
    (done todo : List (Tape (UdmSection α))) : (round minId done (T :: todo)).1.head? = some T.cur := by
  have hrun : (T.toList.takeWhile fun s => s.urlId == minId) =
      T.cur :: T.rest.takeWhile fun s => s.urlId == minId := by
    rw [Tape.toList, List.takeWhile_cons, if_pos (beq_iff_eq.mpr hmin)]
  rw [round, hrun]
  split
  · rfl
  · split
    · rfl
    · split_ifs <;> rfl

theorem head?_rounds (hmin : T.cur.urlId = minId) (hout : rounds minId (T :: ts) = some out) :
    out.head? = some T.cur := by
  have hhead := head?_round hmin [] ts
  rw [rounds] at hout
  split at hout
  · rename_i w ts' hround
    rw [hround] at hhead
    split_ifs at hout
    obtain ⟨out', -, rfl⟩ := Option.map_eq_some_iff.mp hout
    rw [List.head?_append, hhead]
    rfl
  · rename_i w t hround
    rw [hround] at hhead
    rw [← Option.some.inj hout, List.head?_append, hhead]
    rfl
  · contradiction

theorem endsInTime_iff : EndsInTime ((front ++ [u]).map Tape.toList) ↔ countLate front u ≤ 1 := by
  rw [EndsInTime, List.map_append, List.map_singleton, List.dropLast_concat, List.getLastD_concat, List.countP_map]
  rfl

theorem ready_iff (hsorted : ∀ t ∈ T :: ts, InOrder t.toList) :
    Ready T.cur.urlId (T :: ts) ↔ BeginsFirst ((T :: ts).map Tape.toList) := by
  rw [BeginsFirst, ← content_eq_flatten]
  constructor
  · refine fun h => ⟨T.cur, List.mem_cons_self, fun r hr => ?_⟩
    obtain ⟨t, ht, hr⟩ := List.mem_flatMap.mp hr
    exact (h t ht).2 r hr
  · rintro ⟨s, hs, hle⟩ t ht
    refine ⟨(inOrder_iff.mp (hsorted t ht)).1, fun r hr => ?_⟩
    refine le_trans ?_ (hle r (mem_content ht hr))
    rcases List.mem_cons.mp hs with rfl | hs
    · exact le_rfl
    · exact List.rel_of_pairwise_cons (inOrder_iff.mp (hsorted T List.mem_cons_self)).1 hs

/-- **The rounds on sorted tapes**: they yield the sections in order if and only if the lists fit. -/
theorem rounds_iff (hne : ts ≠ []) (hsorted : ∀ t ∈ T :: ts, InOrder t.toList) (hids : IdsOk (content (T :: ts))) :
    (∃ out, rounds T.cur.urlId (T :: ts) = some out ∧ InOrder out) ↔ Fits ((T :: ts).map Tape.toList) := by
  have hlen : ¬((T :: ts).map Tape.toList).length ≤ 1 := by
    have := List.length_pos_iff.mpr hne
    rw [List.length_map, List.length_cons]
    omega
  rw [Fits, or_iff_right hlen, ← ready_iff hsorted]
  have hready : ∀ out, rounds T.cur.urlId (T :: ts) = some out → InOrder out → Ready T.cur.urlId (T :: ts) := by
    intro out hout horder t ht
    refine ⟨(inOrder_iff.mp (hsorted t ht)).1, fun r hr => ?_⟩
    have hhead := head?_rounds rfl hout
    have hmem := (perm_rounds hout).mem_iff.mpr (mem_content ht hr)
    cases out with
    | nil => contradiction
    | cons s out =>
      obtain rfl : s = T.cur := Option.some.inj hhead
      rcases List.mem_cons.mp hmem with rfl | hmem
      · exact le_rfl
      · exact List.rel_of_pairwise_cons (inOrder_iff.mp horder).1 hmem
  have hsome : Ready T.cur.urlId (T :: ts) →
      ((rounds T.cur.urlId (T :: ts)).isSome = true ↔ EndsInTime ((T :: ts).map Tape.toList)) := by
    intro h
    obtain ⟨front, u, rfl⟩ := (List.eq_nil_or_concat' ts).resolve_left hne
    rw [← List.cons_append] at h hids ⊢
    rw [endsInTime_iff]
    exact rounds_isSome h (List.cons_ne_nil T front) hids ⟨T, List.mem_cons_self, rfl⟩
  constructor
  · rintro ⟨out, hout, horder⟩
    have h := hready out hout horder
    exact ⟨h, (inOrder_of_rounds h hsorted hout).mp horder, (hsome h).mp (by rw [hout]; rfl)⟩
  · rintro ⟨h, hconsecutive, hends⟩
    obtain ⟨out, hout⟩ := Option.isSome_iff_exists.mp ((hsome h).mpr hends)
    exact ⟨out, hout, (inOrder_of_rounds h hsorted hout).mpr hconsecutive⟩

/-! ## The merge -/

theorem mapM_ofList (ts : List (Tape (UdmSection α))) : (ts.map Tape.toList).mapM ofList = some ts := by
  induction ts with
  | nil => rfl
  | cons t ts ih =>
    rw [List.map_cons, List.mapM_cons, ih]
    rfl

theorem exists_tapes (hne : ∀ l ∈ lists, l ≠ []) : ∃ ts : List (Tape (UdmSection α)), ts.map Tape.toList = lists := by
  induction lists with
  | nil => exact ⟨[], rfl⟩
  | cons l lists ih =>
    obtain ⟨ts, rfl⟩ := ih fun l' hl' => hne l' (List.mem_cons_of_mem l hl')
    obtain ⟨s, ss, rfl⟩ := List.exists_cons_of_ne_nil (hne l List.mem_cons_self)
    exact ⟨⟨s, ss⟩ :: ts, rfl⟩

theorem mapM_ofList_of_nil_mem (h : [] ∈ lists) : lists.mapM ofList = none := by
  induction lists with
  | nil => exact absurd h List.not_mem_nil
  | cons l lists ih =>
    rw [List.mapM_cons]
    rcases List.mem_cons.mp h with rfl | h
    · rfl
    · rw [ih h]
      cases ofList l <;> rfl

theorem runTapes_of_nil_mem (h : [] ∈ lists) : runTapes lists = none := by
  rw [runTapes, mapM_ofList_of_nil_mem h]

theorem runTapes_iff (hne : ∀ l ∈ lists, l ≠ []) (hsorted : ∀ l ∈ lists, InOrder l)
    (hids : IdsOk lists.flatten) : (∃ out, runTapes lists = some out ∧ InOrder out) ↔ Fits lists := by
  obtain ⟨ts, rfl⟩ := exists_tapes hne
  rw [runTapes, mapM_ofList]
  match ts with
  | [] => exact iff_of_true ⟨[], rfl, List.Pairwise.nil⟩ (.inl (Nat.zero_le 1))
  | [t] => exact iff_of_true ⟨t.toList, rfl, hsorted _ List.mem_cons_self⟩ (.inl le_rfl)
  | T :: U :: ts =>
    rw [← content_eq_flatten] at hids
    exact rounds_iff (List.cons_ne_nil U ts) (fun t ht => hsorted _ (List.mem_map_of_mem ht)) hids

theorem ne_nil_of_runTapes (h : runTapes lists = some out) : ∀ l ∈ lists, l ≠ [] := by
  rintro l hl rfl
  rw [runTapes_of_nil_mem hl] at h
  contradiction

theorem perm_runTapes (h : runTapes lists = some out) : out.Perm lists.flatten := by
  obtain ⟨ts, rfl⟩ := exists_tapes (ne_nil_of_runTapes h)
  rw [← content_eq_flatten]
  rw [runTapes, mapM_ofList] at h
  match ts with
  | [] => exact Option.some.inj h ▸ List.Perm.refl _
  | [t] => exact Option.some.inj h ▸ List.Perm.of_eq (List.append_nil _).symm
  | T :: U :: ts => exact perm_rounds h

/-- The tapes that a round leaves. -/
def Round.tapes : Round α → List (Tape (UdmSection α))
  | .again ts => ts
  | .one t => [t]
  | .past => []

theorem sublist_round {minId : ℤ} {done todo : List (Tape (UdmSection α))} {out : SectionList α}
    (hpast : (round minId done todo).2 ≠ .past) (h : ∀ t ∈ (round minId done todo).2.tapes, t.toList.Sublist out) :
    ∀ t ∈ done ++ todo, t.toList.Sublist ((round minId done todo).1 ++ out) := by
  fun_induction round minId done todo with
  | case1 done =>
    rw [List.append_nil]
    exact h
  | case2 done T todo run T' hT r ih =>
    have ih := List.forall_mem_append.mp (ih hpast h)
    obtain ⟨hdone, hT'⟩ := List.forall_mem_append.mp ih.1
    rw [List.append_assoc]
    refine List.forall_mem_append.mpr ⟨fun t ht => (hdone t ht).trans (List.sublist_append_right _ _), ?_⟩
    refine List.forall_mem_cons.mpr ⟨?_, fun t ht => (ih.2 t ht).trans (List.sublist_append_right _ _)⟩
    rw [toList_eq_of_some hT]
    exact (List.Sublist.refl _).append (hT' T' List.mem_cons_self)
  | case3 done T todo run hT t ht =>
    have hleft : ∀ v ∈ done ++ todo, v.toList.Sublist (run ++ out) := fun v hv => by
      rw [ht] at hv
      exact (h v hv).trans (List.sublist_append_right _ _)
    obtain ⟨hdone, htodo⟩ := List.forall_mem_append.mp hleft
    refine List.forall_mem_append.mpr ⟨hdone, List.forall_mem_cons.mpr ⟨?_, htodo⟩⟩
    rw [toList_eq_of_none hT]
    exact List.sublist_append_left _ _
  | case4 => contradiction
  | case5 done T todo run hT hone hne r ih =>
    obtain ⟨hdone, htodo⟩ := List.forall_mem_append.mp (ih hpast h)
    rw [List.append_assoc]
    refine List.forall_mem_append.mpr ⟨fun t ht => (hdone t ht).trans (List.sublist_append_right _ _), ?_⟩
    refine List.forall_mem_cons.mpr ⟨?_, fun t ht => (htodo t ht).trans (List.sublist_append_right _ _)⟩
    rw [toList_eq_of_none hT]
    exact List.sublist_append_left _ _

theorem sublist_rounds {tapes : List (Tape (UdmSection α))}
    (hout : rounds minId tapes = some out) : ∀ t ∈ tapes, t.toList.Sublist out := by
  fun_induction rounds minId tapes generalizing out with
  | case1 => contradiction
  | case2 minId tapes w ts hround hw ih =>
    obtain ⟨out', hout', rfl⟩ := Option.map_eq_some_iff.mp hout
    have h := @sublist_round _ minId [] tapes out'
    rw [hround] at h
    exact h nofun (ih hout')
  | case3 minId tapes w t hround =>
    have h := @sublist_round _ minId [] tapes t.toList
    rw [hround] at h
    rw [← Option.some.inj hout]
    exact h nofun fun v hv => List.mem_singleton.mp hv ▸ List.Sublist.refl _
  | case4 => contradiction

theorem sublist_runTapes (h : runTapes lists = some out) : ∀ l ∈ lists, l.Sublist out := by
  obtain ⟨ts, rfl⟩ := exists_tapes (ne_nil_of_runTapes h)
  rw [runTapes, mapM_ofList] at h
  refine List.forall_mem_map.mpr ?_
  match ts with
  | [] => exact fun t ht => absurd ht List.not_mem_nil
  | [t] => exact fun v hv => List.mem_singleton.mp hv ▸ Option.some.inj h ▸ List.Sublist.refl _
  | T :: U :: ts => exact sublist_rounds h

theorem perm_sortedBySecno (P : SortProc) (SrcList : List (SectionList α)) :
    (sortedBySecno P SrcList).Perm SrcList := P.perm_sort _ SrcList

theorem length_drop_lt {P : SortProc} (hcut : cutOf opt (sortedBySecno P SrcList) = some c) :
    c < (sortedBySecno P SrcList).length ∧ ((sortedBySecno P SrcList).drop c).length < SrcList.length := by
  obtain ⟨h1, h2⟩ := cutIndex_le hcut
  have hlen := (perm_sortedBySecno P SrcList).length_eq
  rw [List.length_drop]
  omega

theorem udmSectionListListMergeSorted1_eq (P : SortProc) (opt : Bool) (SrcList : List (SectionList α)) :
    udmSectionListListMergeSorted1 P opt SrcList =
    match cutOf opt (sortedBySecno P SrcList) with
    | none => runTapes (sortedBySecno P SrcList)
    | some c => (udmSectionListListMergeSorted1 P true ((sortedBySecno P SrcList).drop c)).bind fun short =>
        runTapes ((sortedBySecno P SrcList).take c ++ [short]) := by
  rw [udmSectionListListMergeSorted1]
  split <;> rename_i hcut <;> rw [hcut]
  dsimp only
  split <;> rename_i hshort <;> rw [hshort] <;> rfl

/-- **What the alternative merge asks of the lists**: none is empty, those cut off can be merged before, and with them as
one list the lists fit. -/
def Good (P : SortProc) (opt : Bool) (SrcList : List (SectionList α)) : Prop :=
  (∀ l ∈ SrcList, l ≠ []) ∧
    match _h : cutOf opt (sortedBySecno P SrcList) with
    | none => Fits (sortedBySecno P SrcList)
    | some c => Good P true ((sortedBySecno P SrcList).drop c) ∧
        Fits ((sortedBySecno P SrcList).take c ++ [((sortedBySecno P SrcList).drop c).flatten])
termination_by SrcList.length
decreasing_by exact (length_drop_lt _h).2

theorem good_iff (P : SortProc) (opt : Bool) (SrcList : List (SectionList α)) : Good P opt SrcList ↔
    (∀ l ∈ SrcList, l ≠ []) ∧
      match cutOf opt (sortedBySecno P SrcList) with
      | none => Fits (sortedBySecno P SrcList)
      | some c => Good P true ((sortedBySecno P SrcList).drop c) ∧
          Fits ((sortedBySecno P SrcList).take c ++ [((sortedBySecno P SrcList).drop c).flatten]) := by
  rw [Good]
  refine and_congr_right fun _ => ?_
  split <;> rename_i hcut <;> rw [hcut]

theorem goesOn_congr {last' : SectionList α} (h : last.Perm last') : goesOn last = goesOn last' := by
  funext l
  simp only [goesOn, h.all_eq]

theorem Fits.congr (hne : lists ≠ []) {l' : SectionList α} (h : l.Perm l')
    (hfits : Fits (lists ++ [l])) : Fits (lists ++ [l']) := by
  obtain ⟨l0, lists, rfl⟩ := List.exists_cons_of_ne_nil hne
  refine hfits.imp (fun hlen => ?_) fun ⟨⟨s, hs, hfirst⟩, hconsecutive, hends⟩ => ⟨⟨s, hs, ?_⟩, ?_, ?_⟩
  · rwa [List.length_append, List.length_singleton] at hlen ⊢
  · intro r hr
    refine hfirst r ?_
    rw [List.flatten_append, List.flatten_singleton, List.mem_append] at hr ⊢
    exact hr.imp_right h.mem_iff.mpr
  · rw [Consecutive, List.pairwise_append] at hconsecutive ⊢
    refine ⟨hconsecutive.1, List.pairwise_singleton _ _, fun a ha b hb s hs s' hs' => ?_⟩
    rw [List.mem_singleton.mp hb] at hs'
    exact hconsecutive.2.2 a ha l List.mem_cons_self s hs s' (h.mem_iff.mpr hs')
  · rw [EndsInTime, List.dropLast_concat, List.getLastD_concat] at hends ⊢
    rwa [← goesOn_congr h]

theorem perm_udmSectionListListMergeSorted1 (P : SortProc) (opt : Bool) (SrcList : List (SectionList α))
    (h : udmSectionListListMergeSorted1 P opt SrcList = some out) : out.Perm SrcList.flatten := by
  induction hn : SrcList.length using Nat.strong_induction_on generalizing opt SrcList out with
  | _ n ih =>
    rw [udmSectionListListMergeSorted1_eq] at h
    cases hcut : cutOf opt (sortedBySecno P SrcList) with
    | none =>
      rw [hcut] at h
      exact (perm_runTapes h).trans (perm_sortedBySecno P SrcList).flatten
    | some c =>
      rw [hcut] at h
      obtain ⟨short, hshort, hout⟩ := Option.bind_eq_some_iff.mp h
      have hperm := ih _ (hn ▸ (length_drop_lt hcut).2) true _ hshort rfl
      refine (perm_runTapes hout).trans (List.Perm.trans ?_ (perm_sortedBySecno P SrcList).flatten)
      rw [List.flatten_append, List.flatten_singleton]
      conv_rhs => rw [← List.take_append_drop c (sortedBySecno P SrcList), List.flatten_append]
      exact hperm.append_left _

/-- **The alternative merge**: it comes to an end with the sections in order if and only if the lists are good. -/
theorem good_of_merge (P : SortProc) (opt : Bool) (hsorted : ∀ l ∈ SrcList, InOrder l) (hids : IdsOk SrcList.flatten) :
    (∃ out, udmSectionListListMergeSorted1 P opt SrcList = some out ∧ InOrder out) ↔ Good P opt SrcList := by
  induction hn : SrcList.length using Nat.strong_induction_on generalizing opt SrcList with
  | _ n ih =>
    have hperm := perm_sortedBySecno P SrcList
    have hitems : ∀ l ∈ sortedBySecno P SrcList, InOrder l := fun l hl => hsorted l (hperm.mem_iff.mp hl)
    have hids' : IdsOk (sortedBySecno P SrcList).flatten := fun s hs => hids s (hperm.flatten.mem_iff.mp hs)
    rw [udmSectionListListMergeSorted1_eq, good_iff]
    cases hcut : cutOf opt (sortedBySecno P SrcList) with
    | none =>
      dsimp only
      constructor
      · rintro ⟨out, hout, horder⟩
        have hne := ne_nil_of_runTapes hout
        exact ⟨fun l hl => hne l (hperm.mem_iff.mpr hl), (runTapes_iff hne hitems hids').mp ⟨out, hout, horder⟩⟩
      · rintro ⟨hne, hfits⟩
        exact (runTapes_iff (fun l hl => hne l (hperm.mem_iff.mp hl)) hitems hids').mpr hfits
    | some c =>
      dsimp only
      obtain ⟨hc, hlt⟩ := length_drop_lt hcut
      have hc0 : 2 < c := (cutIndex_le hcut).1
      generalize sortedBySecno P SrcList = items at *
      -- the lists before the cut, and those that are merged into one
      obtain ⟨front, rest, rfl, hfront⟩ : ∃ front rest, items = front ++ rest ∧ front.length = c :=
        ⟨items.take c, items.drop c, (List.take_append_drop c items).symm, List.length_take_of_le hc.le⟩
      rw [List.take_left' hfront, List.drop_left' hfront]
      rw [List.drop_left' hfront] at hlt
      obtain ⟨hfrontsorted, hrestsorted⟩ := List.forall_mem_append.mp hitems
      have hfrontne : front ≠ [] := List.ne_nil_of_length_pos (by omega)
      have hrest := ih _ (hn ▸ hlt) true hrestsorted
        (fun s hs => hids' s (by rw [List.flatten_append]; exact List.mem_append_right _ hs)) rfl
      -- merged, they are one sorted list with the same sections
      have hrun : ∀ {short : SectionList α}, udmSectionListListMergeSorted1 P true rest = some short →
          short ≠ [] → InOrder short → (∀ l ∈ front, l ≠ []) →
          ((∃ out, runTapes (front ++ [short]) = some out ∧ InOrder out) ↔ Fits (front ++ [rest.flatten])) := by
        intro short hshort hne horder hfrontlists
        have hp := perm_udmSectionListListMergeSorted1 P true rest hshort
        rw [runTapes_iff (List.forall_mem_append.mpr ⟨hfrontlists, List.forall_mem_singleton.mpr hne⟩)
          (List.forall_mem_append.mpr ⟨hfrontsorted, List.forall_mem_singleton.mpr horder⟩)]
        · exact ⟨Fits.congr hfrontne hp, Fits.congr hfrontne hp.symm⟩
        · intro s hs
          rw [List.flatten_append, List.flatten_singleton, List.mem_append, hp.mem_iff] at hs
          exact hids' s (by rwa [List.flatten_append, List.mem_append])
      constructor
      · rintro ⟨out, hout, horder⟩
        obtain ⟨short, hshort, hout⟩ := Option.bind_eq_some_iff.mp hout
        obtain ⟨hfrontlists, hne⟩ := List.forall_mem_append.mp (ne_nil_of_runTapes hout)
        have hsub := sublist_runTapes hout short (List.mem_append_right front List.mem_cons_self)
        have hshortorder : InOrder short := horder.sublist hsub
        have hgood := hrest.mp ⟨short, hshort, hshortorder⟩
        refine ⟨fun l hl => ?_, hgood, ?_⟩
        · rcases List.mem_append.mp (hperm.mem_iff.mpr hl) with hl | hl
          · exact hfrontlists l hl
          · exact ((good_iff P true rest).mp hgood).1 l hl
        · exact (hrun hshort (hne short List.mem_cons_self) hshortorder hfrontlists).mp ⟨out, hout, horder⟩
      · rintro ⟨hne, hgood, hfits⟩
        obtain ⟨short, hshort, horder⟩ := hrest.mpr hgood
        have hlists : ∀ l ∈ front ++ rest, l ≠ [] := fun l hl => hne l (hperm.mem_iff.mp hl)
        have hshortne : short ≠ [] := by
          rintro rfl
          rw [List.length_append] at hc
          obtain ⟨l, hl⟩ := List.exists_mem_of_ne_nil rest (List.ne_nil_of_length_pos (by omega))
          have hp := (perm_udmSectionListListMergeSorted1 P true rest hshort).nil_eq
          exact hlists l (List.mem_append_right front hl) (List.flatten_eq_nil_iff.mp hp.symm l hl)
        obtain ⟨out, hout, horder'⟩ := (hrun hshort hshortne horder
          (fun l hl => hlists l (List.mem_append_left rest hl))).mpr hfits
        exact ⟨out, by rw [hshort]; exact hout, horder'⟩

/-- The alternative merge agrees with the default one: it reads no tape beyond its end, and yields the same sections, in
the same order but for those with equal keys. -/
def Agrees (P : SortProc) (opt : Bool) (SrcList : List (SectionList α)) : Prop :=
  ∃ out, udmSectionListListMergeSorted1 P opt SrcList = some out ∧
    out.Perm (udmSectionListListMergeSorted P opt SrcList) ∧
    out.map key = (udmSectionListListMergeSorted P opt SrcList).map key

end MnoGoSearch.Sections
