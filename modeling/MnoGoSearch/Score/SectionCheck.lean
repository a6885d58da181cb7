import MnoGoSearch.Score.AllWords

/-!
# The check of phrases in one section

What the records of one section are merged into (`mem_mergedCoords`, `sorted_mergedCoords`), and what it
takes that `CheckPhrase` counts a word by it: all words of the phrase are in the section
(`Marks.words`), and it is enough that they stand there one behind the other (`runMarks_placeRun`).
-/

namespace MnoGoSearch.Score

open Query Lib.Runs Lib.Sorting Lib.Tapes

/-! ### The merged coords -/

variable {c : UdmCoord2} {r : List (ℕ × UdmWideWord)} {items : List UdmStackItem} {coords : List UdmCoord2}
variable {seclen z : ℕ} {p : Phrase} {S : List SectionCoords}

theorem mem_coords {S : SectionCoords} : c ∈ S.coords ↔ c.order = S.order ∧ c.pos ∈ S.coord := by
  obtain ⟨pos, order⟩ := c
  simp only [SectionCoords.coords, List.mem_map, UdmCoord2.mk.injEq]
  constructor
  · rintro ⟨p, hp, rfl, rfl⟩
    exact ⟨rfl, hp⟩
  · rintro ⟨rfl, hp⟩
    exact ⟨pos, hp, rfl, rfl⟩

theorem content_ofList_coords (S : List SectionCoords) :
    content (S.filterMap fun s => ofList s.coords) = S.flatMap SectionCoords.coords := by
  induction S with
  | nil => rfl
  | cons s S ih =>
    rw [List.flatMap_cons, ← ih, List.filterMap_cons]
    cases hs : ofList s.coords with
    | none => rw [eq_nil_of_ofList hs, List.nil_append]
    | some t =>
      rw [content, List.flatMap_cons, toList_of_ofList hs]
      rfl

theorem perm_udmMergeCoordsMany (P : SortProc) (S : List SectionCoords) :
    (udmMergeCoordsMany P S).Perm (S.flatMap SectionCoords.coords) := by
  rw [udmMergeCoordsMany]
  split_ifs
  · exact P.perm_sort _ _
  · rw [← content_ofList_coords]
    exact perm_mergeTapes _ _

theorem mem_udmMergeCoordsMany (P : SortProc) :
    c ∈ udmMergeCoordsMany P S ↔ ∃ s ∈ S, c.order = s.order ∧ c.pos ∈ s.coord := by
  rw [(perm_udmMergeCoordsMany P S).mem_iff, List.mem_flatMap]
  exact exists_congr fun s => and_congr_right fun _ => mem_coords

theorem sorted_udmMergeCoordsMany (P : SortProc)
    (h : ∀ s ∈ S, s.coord.Pairwise (· < ·)) : SortedByPos (udmMergeCoordsMany P S) := by
  rw [udmMergeCoordsMany]
  split_ifs
  · refine List.Pairwise.imp of_decide_eq_true (P.pairwise_sort (fun a _ b _ c _ hab hbc => ?_) fun a _ b _ => ?_)
    · exact decide_eq_true ((of_decide_eq_true hab).trans (of_decide_eq_true hbc))
    · simpa using le_total a.pos b.pos
  · refine pairwise_mergeTapes (f := UdmCoord2.pos) (fun _ _ => rfl) fun t ht => ?_
    obtain ⟨s, hs, hts⟩ := List.mem_filterMap.mp ht
    rw [toList_of_ofList hts, SectionCoords.coords, List.pairwise_map]
    exact (h s hs).imp le_of_lt

section

variable {env : ScoreSetup} {S : List ScoreSection}

theorem mem_mergedCoords (hc : c ∈ mergedCoords env S) : ∃ T ∈ S, c.order = T.order ∧ c.pos ∈ T.coord := by
  have hmany : ∀ S : List ScoreSection, c ∈ udmMergeCoordsMany env.sort (S.map ScoreSection.sectionCoords) →
      ∃ T ∈ S, c.order = T.order ∧ c.pos ∈ T.coord := by
    intro S hmem
    obtain ⟨s, hs, hcs⟩ := (mem_udmMergeCoordsMany env.sort).mp hmem
    obtain ⟨T, hT, rfl⟩ := List.mem_map.mp hs
    exact ⟨T, hT, hcs⟩
  match S with
  | [] | [_] => contradiction
  | [S1, S2] =>
    rw [mergedCoords] at hc
    split_ifs at hc
    · exact hmany [S1, S2] hc
    · obtain ⟨pos, order⟩ := c
      rcases mem_fullMerge.mp ((udmMergeCoordsN2_sublist _ _).mem hc) with hmem | hmem
      · exact ⟨S1, List.mem_cons_self, hmem⟩
      · exact ⟨S2, List.mem_cons_of_mem _ List.mem_cons_self, hmem⟩
  | S1 :: S2 :: S3 :: S => exact hmany (S1 :: S2 :: S3 :: S) hc

theorem sorted_mergedCoords (h : ∀ T ∈ S, T.coord.Pairwise (· < ·)) : SortedByPos (mergedCoords env S) := by
  have hmany : ∀ S : List ScoreSection, (∀ T ∈ S, T.coord.Pairwise (· < ·)) →
      SortedByPos (udmMergeCoordsMany env.sort (S.map ScoreSection.sectionCoords)) := by
    intro S hS
    refine sorted_udmMergeCoordsMany env.sort fun s hs => ?_
    obtain ⟨T, hT, rfl⟩ := List.mem_map.mp hs
    exact hS T hT
  match S with
  | [] | [_] => exact List.Pairwise.nil
  | [S1, S2] =>
    rw [mergedCoords]
    split_ifs
    · exact hmany [S1, S2] h
    · obtain ⟨h1, h2⟩ := List.forall_mem_cons.mp h
      have h2 := h2 S2 List.mem_cons_self
      exact List.Pairwise.sublist (udmMergeCoordsN2_sublist _ _) (sorted_fullMerge h1 h2)
  | S1 :: S2 :: S3 :: S => exact hmany (S1 :: S2 :: S3 :: S) h

end

/-! ### A phrase in the coords -/

theorem mem_skipStops {phrase : List UdmStackItem} : ⟨.word, z⟩ ∈ skipStops phrase ↔ ⟨.word, z⟩ ∈ phrase := by
  induction phrase with
  | nil => rfl
  | cons item phrase ih =>
    rw [skipStops, List.dropWhile_cons]
    split_ifs with hstop
    · rw [← skipStops, ih, List.mem_cons]
      refine (or_iff_right ?_).symm
      rintro rfl
      exact absurd hstop Bool.false_ne_true
    · rfl

theorem Marks.exists_occursAt (h : Marks coords seclen p z)
    (hs : SortedByPos coords) : ∃ pos, OccursAt (skipStops p.items) coords pos := by
  obtain ⟨hfound, hmem⟩ := h
  cases hskip : skipStops p.items with
  | nil =>
    rw [hskip] at hmem
    contradiction
  | cons cmdBeg cmds =>
    rw [hskip, phraseFound] at hfound
    have hbeg : cmdBeg.cmd ≠ .stop := by
      have hnot := List.head?_dropWhile_not (fun item : UdmStackItem => item.cmd == .stop) p.items
      rw [← skipStops, hskip, List.head?_cons] at hnot
      exact ne_of_beq_false hnot
    have hcheck : checkOnePhrase cmdBeg cmds p.arg seclen coords = true := by
      by_contra hno
      rw [if_neg hno] at hfound
      exact hfound rfl
    obtain ⟨-, pos, hoccurs, -⟩ := (checkOnePhrase_iff hbeg hs).mp hcheck
    exact ⟨pos, hoccurs⟩

theorem Marks.words (h : Marks coords seclen p z)
    (hs : SortedByPos coords) {w : ℕ} (hw : w ∈ p.words) : ∃ c ∈ coords, c.order = w := by
  obtain ⟨pos, hoccurs⟩ := h.exists_occursAt hs
  obtain ⟨i, hi⟩ := List.mem_iff_getElem?.mp (mem_skipStops.mpr (Phrase.mem_words.mp hw))
  exact ⟨_, hoccurs i _ hi StackCmd.noConfusion, rfl⟩

theorem RunMarks.docOrders {env : ScoreSetup} {S : List ScoreSection}
    (h : RunMarks env items S z) (hS : ∀ T ∈ S, T.coord.Pairwise (· < ·)) :
    ∃ p ∈ phrases none items, z ∈ p.words ∧ ∀ w ∈ p.words, w ∈ docOrders S := by
  obtain ⟨-, p, hp, hmarks⟩ := h
  refine ⟨p, hp, Phrase.mem_words.mpr (mem_skipStops.mp hmarks.2), fun w hw => ?_⟩
  obtain ⟨c, hc, rfl⟩ := hmarks.words (sorted_mergedCoords hS) hw
  obtain ⟨T, hT, horder, -⟩ := mem_mergedCoords hc
  exact List.mem_map.mpr ⟨T, hT, horder.symm⟩

/-! ### A section that has a phrase -/

theorem getElem?_placeRun (secno seclen pos : ℕ) (r : List (ℕ × UdmWideWord)) (i : ℕ) :
    (placeRun secno seclen pos r)[i]? = r[i]?.map (placeWord secno seclen (pos + i)) := by
  induction r generalizing pos i with
  | nil => rfl
  | cons p r ih =>
    cases i with
    | zero => rfl
    | succ i =>
      rw [placeRun, List.getElem?_cons_succ, List.getElem?_cons_succ, ih]
      rw [show pos + 1 + i = pos + (i + 1) by omega]

theorem mem_mergedCoords_placeRun (env : ScoreSetup) (secno seclen : ℕ)
    (hr : 1 < r.length) {i : ℕ} {p : ℕ × UdmWideWord} (hp : r[i]? = some p) :
    ⟨1 + i, p.2.order⟩ ∈ mergedCoords env (placeRun secno seclen 1 r) := by
  have hmany : ⟨1 + i, p.2.order⟩ ∈
      udmMergeCoordsMany env.sort ((placeRun secno seclen 1 r).map ScoreSection.sectionCoords) := by
    rw [mem_udmMergeCoordsMany]
    have hget := getElem?_placeRun secno seclen 1 r i
    rw [hp, Option.map_some] at hget
    exact ⟨_, List.mem_map_of_mem (List.mem_of_getElem? hget), rfl, List.mem_singleton_self _⟩
  rcases r with _ | ⟨p1, _ | ⟨p2, _ | ⟨p3, r⟩⟩⟩
  · contradiction
  · exact absurd hr (Nat.lt_irrefl 1)
  · simp only [placeRun, mergedCoords]
    split_ifs
    · exact hmany
    · have hn2 : (udmMergeCoordsN2 ⟨p1.2.order, [1]⟩ ⟨p2.2.order, [2]⟩).1 = [⟨1, p1.2.order⟩, ⟨2, p2.2.order⟩] := by
        simp [udmMergeCoordsN2, mergeLoop, single, runCoords]
      change _ ∈ (udmMergeCoordsN2 ⟨p1.2.order, [1]⟩ ⟨p2.2.order, [2]⟩).1
      rw [hn2]
      rcases i with _ | _ | i
      · obtain rfl := Option.some.inj hp
        exact List.mem_cons_self
      · obtain rfl := Option.some.inj hp
        exact List.mem_cons_of_mem _ List.mem_cons_self
      · contradiction
  · exact hmany

/-- **A phrase whose words stand one behind the other** in a section of their own is found there. -/
theorem runMarks_placeRun (env : ScoreSetup) (hp : p ∈ phrases none items) (hwords : ∀ item ∈ p.items, item.cmd = .word)
    (hr : r.map (fun q => q.2.order) = p.items.map UdmStackItem.arg) (hlen : 1 < r.length) (secno : ℕ)
    (hz : z ∈ p.words) : RunMarks env items (placeRun secno (r.length + 1) 1 r) z := by
  have hlength : r.length = p.items.length := by
    have h := congrArg List.length hr
    rwa [List.length_map, List.length_map] at h
  have hskip : skipStops p.items = p.items := by
    cases hitems : p.items with
    | nil => rfl
    | cons item rest =>
      have hword := hwords item (hitems ▸ List.mem_cons_self)
      rw [skipStops, List.dropWhile_cons_of_neg]
      rw [hword]
      exact Bool.false_ne_true
  have hat : ∀ i item, p.items[i]? = some item →
      ⟨1 + i, item.arg⟩ ∈ mergedCoords env (placeRun secno (r.length + 1) 1 r) := by
    intro i item hi
    have hget := congrArg (fun l => l[i]?) hr
    simp only [List.getElem?_map, hi, Option.map_some] at hget
    obtain ⟨q, hq, hqa⟩ := Option.map_eq_some_iff.mp hget
    rw [← hqa]
    exact mem_mergedCoords_placeRun env secno (r.length + 1) hlen hq
  refine ⟨?_, p, hp, ?_, ?_⟩
  · obtain ⟨q1, q2, r, rfl⟩ : ∃ q1 q2 rest, r = q1 :: q2 :: rest := by
      rcases r with _ | ⟨q1, _ | ⟨q2, rest⟩⟩
      · contradiction
      · exact absurd hlen (Nat.lt_irrefl 1)
      · exact ⟨q1, q2, rest, rfl⟩
    have h1 := mem_mergedCoords_placeRun env secno ((q1 :: q2 :: r).length + 1) hlen (i := 0) rfl
    have h2 := mem_mergedCoords_placeRun env secno ((q1 :: q2 :: r).length + 1) hlen (i := 1) rfl
    generalize mergedCoords env _ = coords at h1 h2
    rcases coords with _ | ⟨c, _ | ⟨d, coords⟩⟩
    · contradiction
    · rw [List.mem_singleton] at h1 h2
      exact absurd (congrArg UdmCoord2.pos (h1.trans h2.symm)) (by simp)
    · simp
  · rw [hskip]
    cases hitems : p.items with
    | nil =>
      rw [hlength, hitems] at hlen
      exact absurd hlen (Nat.not_lt_zero 1)
    | cons cmdBeg cmds =>
      have hbeg : cmdBeg.cmd ≠ .stop := by
        rw [hwords cmdBeg (hitems ▸ List.mem_cons_self)]
        exact StackCmd.noConfusion
      have hsorted : SortedByPos (mergedCoords env (placeRun secno (r.length + 1) 1 r)) := by
        refine sorted_mergedCoords fun T hT => ?_
        obtain ⟨q, -, c, rfl⟩ := mem_placeRun hT
        exact List.pairwise_singleton _ _
      have hseclen : (placeRun secno (r.length + 1) 1 r).head?.elim 0 ScoreSection.seclen = r.length + 1 := by
        obtain ⟨q, r, rfl⟩ := List.exists_cons_of_length_pos (Nat.lt_of_lt_of_le Nat.zero_lt_one hlen.le)
        rfl
      rw [hseclen, phraseFound, if_pos]
      · exact fun h => absurd h (by decide)
      · rw [checkOnePhrase_iff hbeg hsorted]
        refine ⟨fun _ => ?_, 1, fun i item hi _ => hat i item (hitems ▸ hi), fun i item hi hstop => ?_⟩
        · rw [hlength, hitems, List.length_cons]
        · rw [hwords item (hitems ▸ List.mem_of_getElem? hi)] at hstop
          contradiction
  · rw [hskip]
    exact Phrase.mem_words.mp hz

end MnoGoSearch.Score
