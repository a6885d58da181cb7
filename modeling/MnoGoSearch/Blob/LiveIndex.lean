import MnoGoSearch.Limits.UrlIdList

/-!
# The live index

In the blob mode the words of a document go to table `bdicti`, one record a document, and
a conversion writes the words of all the documents to table `bdict`, the searching table.
The records of `bdicti` have a state, which lets a search see the documents stored,
changed and removed since the last conversion (`dbmode-blob.c`).

A record is taken with the postings it holds, of any type: how they are packed into the
columns of `bdicti` and of `bdict` is not described here. `visible_run` says that at any
moment a search sees the postings of the latest version of each document and no others.
-/

namespace MnoGoSearch.Blob

open Lib.BinarySearch Limits

/-- The field `state` of table `bdicti`. -/
inductive RowState
  /-- `0`: a deleted document, in `bdicti` and in `bdict`. -/
  | deleted
  /-- `1`: a new document, in `bdicti` only. -/
  | new
  /-- `2`: a converted document, in `bdicti` and in `bdict`. -/
  | converted
  deriving DecidableEq, Repr

/-- A record of table `bdicti`. -/
structure BdictiRow (α : Type) where
  urlId : ℤ
  state : RowState
  /-- The postings in its columns. -/
  words : List α

/-- The tables. -/
structure Database (α : Type) where
  /-- Table `url`: the key of each document. -/
  url : List ℤ
  /-- Table `bdicti`. -/
  bdicti : List (BdictiRow α)
  /-- Table `bdict`: the postings of all the words, each with its document. -/
  bdict : List (ℤ × α)

/-- The documents and their words before the indexer has run. -/
def Database.init {α : Type} : Database α := ⟨[], [], []⟩

variable {α : Type} {u : ℤ}

/-- A document gets its record in table `url`, unless it has one. -/
def udmAddURL (urlId : ℤ) (db : Database α) : Database α :=
  if urlId ∈ db.url then db else { db with url := db.url ++ [urlId] }

/-- `UdmDeleteWordsFromURLBlob`. -/
def udmDeleteWordsFromURLBlob (urlId : ℤ) (db : Database α) : Database α :=
  let bdicti := db.bdicti.filter fun r => !(r.state == .new && r.urlId == urlId)
  { db with bdicti := bdicti.map fun r =>
      if r.state == .converted && r.urlId == urlId then { r with state := .deleted } else r }

/-- `UdmStoreWordsBlob`. -/
def udmStoreWordsBlob (urlId : ℤ) (words : List α) (db : Database α) : Database α :=
  let db := udmDeleteWordsFromURLBlob urlId db
  if words.isEmpty then db else { db with bdicti := db.bdicti ++ [⟨urlId, .new, words⟩] }

/-- `UdmDeleteURL`: the words go first, then the record of the document. -/
def udmDeleteURL (urlId : ℤ) (db : Database α) : Database α :=
  let db := udmDeleteWordsFromURLBlob urlId db
  { db with url := db.url.filter fun id => !(id == urlId) }

/-- `UdmURLIdListSort`. -/
def udmURLIdListSort (urls : List ℤ) : List ℤ := urls.mergeSort fun x y => decide (x ≤ y)

/-- The documents that a conversion takes, sorted: `UdmLoadURLDataFromURLForConv`. -/
def udmLoadURLDataFromURLForConv (db : Database α) : List ℤ := udmURLIdListSort db.url

/-- `UdmURLDataListSearch`. -/
def udmURLDataListSearch (list : List ℤ) (id : ℤ) : Bool :=
  (bsearch udmCmpURLID id list).isSome

/-- `UdmBlob2BlobSQL`, a full conversion: the new searching table is written from the
records with `state>0`, then table `bdicti` is cleaned up. -/
def udmBlob2BlobSQL (db : Database α) : Database α :=
  let list := udmLoadURLDataFromURLForConv db
  let rows := db.bdicti.filter fun r => r.state != .deleted && udmURLDataListSearch list r.urlId
  let bdicti := db.bdicti.filter fun r => !(r.state == .deleted)
  { db with
    bdict := rows.flatMap fun r => r.words.map fun w => (r.urlId, w)
    bdicti := bdicti.map fun r => { r with state := .converted } }

/-! ### Searching -/

/-- How the readers of postings apply a limit. -/
def udmURLIdListAllows (urls : UdmURLIdList) (urlId : ℤ) : Bool :=
  if urls.urls.isEmpty then true
  else if (bsearch udmCmpURLID urlId urls.urls).isSome then !urls.exclude else urls.exclude

/-- The exclude list of `UdmBlobLoadLiveUpdateLimit`. -/
def liveUpdateDeletedUrls (db : Database α) : UdmURLIdList :=
  let rows := db.bdicti.filter fun r => r.state == .deleted
  { empty := false, exclude := true, urls := udmURLIdListSort (rows.map BdictiRow.urlId) }

/-- The postings that `UdmFindWordBlobSimple` reads from table `bdict`. -/
def udmFindWordBlobSimple (urls : UdmURLIdList) (db : Database α) : List (ℤ × α) :=
  if urls.empty then [] else db.bdict.filter fun p => udmURLIdListAllows urls p.1

/-- The postings that `UdmFindWordRawBlobDelta` reads from the new records of `bdicti`. -/
def udmFindWordRawBlobDelta (activeUrls : UdmURLIdList) (db : Database α) : List (ℤ × α) :=
  if activeUrls.empty then []
  else
    let rows := db.bdicti.filter fun r => r.state == .new && udmURLIdListAllows activeUrls r.urlId
    rows.flatMap fun r => r.words.map fun w => (r.urlId, w)

/-- `UdmFindWordBlobLiveUpdates` for a search without other limits: the list of the deleted
documents is merged into the limit of the search, and the limit as it was before goes to
the raw search. -/
def udmFindWordBlobLiveUpdates (db : Database α) : List (ℤ × α) :=
  let activeUrls : UdmURLIdList := { empty := false, exclude := false, urls := [] }
  let urls := udmURLIdListMerge activeUrls (liveUpdateDeletedUrls db)
  udmFindWordBlobSimple urls db ++ udmFindWordRawBlobDelta activeUrls db

/-! ### Runs -/

/-- What the indexer does to the documents. -/
inductive Op (α : Type)
  /-- A link has been found: the document is known, and has no words yet. -/
  | add (urlId : ℤ)
  /-- A document is stored, for the first time or again. -/
  | store (urlId : ℤ) (words : List α)
  /-- A document loses its words and stays known. -/
  | deleteWords (urlId : ℤ)
  | delete (urlId : ℤ)
  | convert

/-- One operation on the tables. -/
def Database.step (db : Database α) : Op α → Database α
  | .add urlId => udmAddURL urlId db
  | .store urlId words => udmStoreWordsBlob urlId words (udmAddURL urlId db)
  | .deleteWords urlId => udmDeleteWordsFromURLBlob urlId db
  | .delete urlId => udmDeleteURL urlId db
  | .convert => udmBlob2BlobSQL db

/-- The tables after any operations. -/
def Database.run (ops : List (Op α)) : Database α := ops.foldl Database.step .init

/-- The documents that are alive, each with the postings of its latest version. -/
abbrev Versions (α : Type) := ℤ → Option (List α)

/-- What an operation is for. -/
def Versions.step (v : Versions α) : Op α → Versions α
  | .add urlId => fun u => if u = urlId then some ((v u).getD []) else v u
  | .store urlId words => fun u => if u = urlId then some words else v u
  | .deleteWords urlId => fun u => if u = urlId then (v u).map fun _ => [] else v u
  | .delete urlId => fun u => if u = urlId then none else v u
  | .convert => v

/-- The versions after any operations. -/
def Versions.run (ops : List (Op α)) : Versions α := ops.foldl Versions.step fun _ => none

/-! ### One document -/

/-- The records of a document in table `bdicti`. -/
def Database.rows (db : Database α) (u : ℤ) : List (BdictiRow α) := db.bdicti.filter fun r => r.urlId == u

/-- The postings of a document in table `bdict`. -/
def Database.postings (db : Database α) (u : ℤ) : List (ℤ × α) := db.bdict.filter fun p => p.1 == u

/-- The states a document can be in: its records, its postings in `bdict`, its version. -/
inductive Stored (u : ℤ) : List (BdictiRow α) → List (ℤ × α) → Option (List α) → Prop
  /-- It has no words, or is unknown. -/
  | absent {version} (h : version.getD [] = []) : Stored u [] [] version
  /-- Its words have not been converted yet. -/
  | new (words) : Stored u [⟨u, .new, words⟩] [] (some words)
  /-- Its words have been converted. -/
  | converted (words) : Stored u [⟨u, .converted, words⟩] (words.map (Prod.mk u)) (some words)
  /-- It has lost the words that have been converted. -/
  | deleted {words postings version} (h : version.getD [] = []) : Stored u [⟨u, .deleted, words⟩] postings version
  /-- It has got other words than those that have been converted. -/
  | replaced {old postings} (words) :
      Stored u [⟨u, .deleted, old⟩, ⟨u, .new, words⟩] postings (some words)

/-- The tables hold these versions of the documents. -/
structure Holds (db : Database α) (v : Versions α) : Prop where
  /-- A document has a record in table `url` when it is alive. -/
  alive : ∀ u, u ∈ db.url ↔ (v u).isSome
  /-- Its words are in one of the states. -/
  stored : ∀ u, Stored u (db.rows u) (db.postings u) (v u)

/-! ### What an operation does to one document -/

theorem mem_udmAddURL (v : ℤ) (db : Database α) (u : ℤ) : u ∈ (udmAddURL v db).url ↔ u ∈ db.url ∨ u = v := by
  unfold udmAddURL
  split
  · rename_i h
    constructor
    · exact Or.inl
    · rintro (hu | rfl)
      · exact hu
      · exact h
  · simp

@[simp] theorem bdicti_udmAddURL (v : ℤ) (db : Database α) : (udmAddURL v db).bdicti = db.bdicti := by
  unfold udmAddURL
  split <;> rfl

@[simp] theorem bdict_udmAddURL (v : ℤ) (db : Database α) : (udmAddURL v db).bdict = db.bdict := by
  unfold udmAddURL
  split <;> rfl

theorem rows_udmAddURL (v : ℤ) (db : Database α) (u : ℤ) : (udmAddURL v db).rows u = db.rows u := by
  rw [Database.rows, bdicti_udmAddURL, Database.rows]

theorem postings_udmAddURL (v : ℤ) (db : Database α) (u : ℤ) : (udmAddURL v db).postings u = db.postings u := by
  rw [Database.postings, bdict_udmAddURL, Database.postings]

/-- What deleting the words of a document does to its records. -/
def deleteRows (rows : List (BdictiRow α)) : List (BdictiRow α) :=
  (rows.filter fun r => !(r.state == .new)).map fun r =>
    if r.state == .converted then { r with state := .deleted } else r

theorem rows_udmDeleteWordsFromURLBlob_self (v : ℤ) (db : Database α) :
    (udmDeleteWordsFromURLBlob v db).rows v = deleteRows (db.rows v) := by
  obtain ⟨url, bdicti, bdict⟩ := db
  simp only [Database.rows, udmDeleteWordsFromURLBlob, deleteRows]
  induction bdicti with
  | nil => rfl
  | cons r rows ih =>
    by_cases hv : r.urlId = v
    · cases hs : r.state <;> simp_all
    · cases hs : r.state <;> simp_all

variable {v : Versions α} {db : Database α} {version : Option (List α)}

theorem rows_udmDeleteWordsFromURLBlob_of_ne {v : ℤ} (db : Database α) (h : u ≠ v) :
    (udmDeleteWordsFromURLBlob v db).rows u = db.rows u := by
  obtain ⟨url, bdicti, bdict⟩ := db
  simp only [Database.rows, udmDeleteWordsFromURLBlob]
  induction bdicti with
  | nil => rfl
  | cons r rows ih =>
    by_cases hv : r.urlId = v
    · have hu : r.urlId ≠ u := fun hu => h (hu.symm.trans hv)
      cases hs : r.state <;> simp_all
    · by_cases hu : r.urlId = u <;> simp_all

/-- A conversion of the records of one document. -/
def convertRows (rows : List (BdictiRow α)) : List (BdictiRow α) :=
  (rows.filter fun r => !(r.state == .deleted)).map fun r => { r with state := .converted }

theorem rows_udmBlob2BlobSQL (db : Database α) (u : ℤ) : (udmBlob2BlobSQL db).rows u = convertRows (db.rows u) := by
  obtain ⟨url, bdicti, bdict⟩ := db
  simp only [Database.rows, udmBlob2BlobSQL, convertRows]
  induction bdicti with
  | nil => rfl
  | cons r rows ih => by_cases hu : r.urlId = u <;> cases hs : r.state <;> simp_all

/-- The postings of some records. -/
def postingsOf (rows : List (BdictiRow α)) : List (ℤ × α) :=
  rows.flatMap fun r => r.words.map fun w => (r.urlId, w)

theorem filter_postingsOf (rows : List (BdictiRow α)) (u : ℤ) :
    (postingsOf rows).filter (fun p => p.1 == u) = postingsOf (rows.filter fun r => r.urlId == u) := by
  induction rows with
  | nil => rfl
  | cons r rows ih =>
    have hcons : postingsOf (r :: rows) = r.words.map (fun w => (r.urlId, w)) ++ postingsOf rows := rfl
    rw [hcons, List.filter_append, ih, List.filter_cons]
    by_cases hu : r.urlId = u
    · simp [hu, postingsOf]
    · simp [hu]

theorem bsearch_udmURLIdListSort (urls : List ℤ) (u : ℤ) :
    (bsearch udmCmpURLID u (udmURLIdListSort urls)).isSome = true ↔ u ∈ urls := by
  have hsorted : (udmURLIdListSort urls).Pairwise (· ≤ ·) := by
    have h := @List.pairwise_mergeSort ℤ (fun x y => decide (x ≤ y))
      (by simpa using fun a b c => le_trans) (by simpa using fun a b => le_total a b) urls
    exact h.imp fun h => of_decide_eq_true h
  rw [bsearch_isSome_iff udmCmpURLID (searchable_compare u hsorted)]
  simp [udmCmpURLID, udmURLIdListSort]

theorem postings_udmBlob2BlobSQL (db : Database α) (u : ℤ) :
    (udmBlob2BlobSQL db).postings u =
      if u ∈ db.url then postingsOf ((db.rows u).filter fun r => r.state != .deleted) else [] := by
  have hrows : ∀ rows : List (BdictiRow α), (rows.filter fun r => r.state != .deleted &&
      udmURLDataListSearch (udmLoadURLDataFromURLForConv db) r.urlId).filter (fun r => r.urlId == u) =
        if u ∈ db.url then (rows.filter fun r => r.urlId == u).filter (fun r => r.state != .deleted) else [] := by
    intro rows
    rw [List.filter_filter]
    split
    · rename_i hu
      rw [List.filter_filter]
      refine List.filter_congr fun r _ => ?_
      by_cases hr : r.urlId = u
      · have hfound : udmURLDataListSearch (udmLoadURLDataFromURLForConv db) r.urlId = true :=
          (bsearch_udmURLIdListSort db.url r.urlId).mpr (hr ▸ hu)
        rw [hfound, Bool.and_true, Bool.and_comm]
      · have hr' : (r.urlId == u) = false := beq_eq_false_iff_ne.mpr hr
        simp only [hr', Bool.false_and, Bool.and_false]
    · rename_i hu
      rw [List.filter_eq_nil_iff]
      intro r _ hr
      simp only [Bool.and_eq_true, beq_iff_eq] at hr
      obtain ⟨rfl, -, hfound⟩ := hr
      exact hu ((bsearch_udmURLIdListSort db.url r.urlId).mp hfound)
  have hpost : (udmBlob2BlobSQL db).postings u = (postingsOf (db.bdicti.filter fun r => r.state != .deleted &&
      udmURLDataListSearch (udmLoadURLDataFromURLForConv db) r.urlId)).filter (fun p => p.1 == u) := rfl
  rw [hpost, filter_postingsOf, hrows]
  split <;> rfl

/-! ### The invariant -/

theorem Stored.add {rows : List (BdictiRow α)} {postings : List (ℤ × α)}
    (h : Stored u rows postings version) : Stored u rows postings (some (version.getD [])) := by
  cases h with
  | absent hv => exact .absent hv
  | new words => exact .new words
  | converted words => exact .converted words
  | deleted hv => exact .deleted hv
  | replaced words => exact .replaced words

theorem Stored.deleteWords {rows : List (BdictiRow α)} {postings : List (ℤ × α)}
    (h : Stored u rows postings version) {version' : Option (List α)} (hv : version'.getD [] = []) :
    Stored u (deleteRows rows) postings version' := by
  cases h with
  | absent => exact .absent hv
  | new words => exact .absent hv
  | converted words => exact .deleted hv
  | deleted => exact .deleted hv
  | replaced words => exact .deleted hv

theorem Stored.store {rows : List (BdictiRow α)} {postings : List (ℤ × α)}
    (h : Stored u rows postings none) (words : List α) :
    Stored u (rows ++ [⟨u, .new, words⟩]) postings (some words) := by
  cases h with
  | absent => exact .new words
  | deleted => exact .replaced words

theorem Stored.convert {rows : List (BdictiRow α)} {postings : List (ℤ × α)}
    (h : Stored u rows postings version) :
    Stored u (convertRows rows)
      (if version.isSome then postingsOf (rows.filter fun r => r.state != .deleted) else []) version := by
  cases h with
  | absent hv => simpa [convertRows, postingsOf] using Stored.absent hv
  | new words => simpa [convertRows, postingsOf] using Stored.converted words
  | converted words => simpa [convertRows, postingsOf] using Stored.converted words
  | deleted hv => simpa [convertRows, postingsOf] using Stored.absent hv
  | replaced words => simpa [convertRows, postingsOf] using Stored.converted words

theorem holds_init : Holds (Database.init : Database α) fun _ => none :=
  ⟨fun u => by simp [Database.init], fun u => .absent rfl⟩

theorem Holds.add (h : Holds db v) (urlId : ℤ) : Holds (udmAddURL urlId db) (v.step (.add urlId)) := by
  constructor
  · intro u
    rw [mem_udmAddURL, h.alive]
    simp only [Versions.step]
    split <;> simp_all
  · intro u
    have hs := h.stored u
    simp only [Versions.step]
    rw [rows_udmAddURL, postings_udmAddURL]
    split
    · exact hs.add
    · exact hs

theorem Holds.deleteWords (h : Holds db v) (urlId : ℤ) (version : Option (List α)) (hv : version.getD [] = []) (u : ℤ) :
    Stored u ((udmDeleteWordsFromURLBlob urlId db).rows u) (db.postings u) (if u = urlId then version else v u) := by
  split
  · rename_i hu
    subst hu
    rw [rows_udmDeleteWordsFromURLBlob_self]
    exact (h.stored u).deleteWords hv
  · rename_i hu
    rw [rows_udmDeleteWordsFromURLBlob_of_ne db hu]
    exact h.stored u

theorem url_udmStoreWordsBlob (urlId : ℤ) (words : List α) (db : Database α) :
    (udmStoreWordsBlob urlId words db).url = db.url := by
  unfold udmStoreWordsBlob
  split <;> rfl

theorem postings_udmStoreWordsBlob (urlId : ℤ) (words : List α) (db : Database α) (u : ℤ) :
    (udmStoreWordsBlob urlId words db).postings u = db.postings u := by
  unfold udmStoreWordsBlob
  split <;> rfl

theorem rows_udmStoreWordsBlob {urlId : ℤ} {words : List α} (db : Database α) (u : ℤ) (hw : words ≠ []) :
    (udmStoreWordsBlob urlId words db).rows u = (udmDeleteWordsFromURLBlob urlId db).rows u ++
      if u = urlId then [⟨urlId, .new, words⟩] else [] := by
  have hempty : words.isEmpty = false := List.isEmpty_eq_false_iff.mpr hw
  by_cases hu : u = urlId
  · simp [Database.rows, udmStoreWordsBlob, hempty, hu]
  · have hu' : ¬ urlId = u := fun h => hu h.symm
    simp [Database.rows, udmStoreWordsBlob, hempty, hu, hu']

theorem Holds.store (h : Holds db v) (urlId : ℤ) (words : List α)
    (hurl : urlId ∈ db.url) : Holds (udmStoreWordsBlob urlId words db) (v.step (.store urlId words)) := by
  constructor
  · intro u
    rw [url_udmStoreWordsBlob]
    simp only [Versions.step]
    split
    · rename_i heq
      simpa [heq] using hurl
    · exact h.alive u
  · intro u
    rw [postings_udmStoreWordsBlob]
    simp only [Versions.step]
    by_cases hw : words = []
    · -- no record is inserted: the document has a version without words
      subst hw
      exact h.deleteWords urlId (some []) rfl u
    · rw [rows_udmStoreWordsBlob db u hw]
      have hs := h.deleteWords urlId none rfl u
      split at hs
      · rename_i hu
        subst hu
        simpa using hs.store words
      · rename_i hu
        simpa [hu] using hs

theorem Holds.deleteWordsFromURL (h : Holds db v) (urlId : ℤ) :
    Holds (udmDeleteWordsFromURLBlob urlId db) (v.step (.deleteWords urlId)) := by
  constructor
  · intro u
    simp only [Versions.step]
    rw [apply_ite Option.isSome, Option.isSome_map, ite_self]
    exact h.alive u
  · intro u
    have hnone : ((v urlId).map fun _ => ([] : List α)).getD [] = [] := by
      cases v urlId <;> rfl
    have hs := h.deleteWords urlId _ hnone u
    simp only [Versions.step]
    split
    · rename_i hu
      subst hu
      rwa [if_pos rfl] at hs
    · rename_i hu
      rwa [if_neg hu] at hs

theorem Holds.deleteURL (h : Holds db v) (urlId : ℤ) : Holds (udmDeleteURL urlId db) (v.step (.delete urlId)) := by
  constructor
  · intro u
    simp only [Versions.step]
    have hmem : u ∈ (udmDeleteURL urlId db).url ↔ u ∈ db.url ∧ u ≠ urlId := by
      simp [udmDeleteURL, udmDeleteWordsFromURLBlob]
    rw [hmem, h.alive]
    split <;> simp_all
  · exact h.deleteWords urlId none rfl

theorem Holds.convert (h : Holds db v) : Holds (udmBlob2BlobSQL db) v := by
  constructor
  · exact h.alive
  · intro u
    rw [rows_udmBlob2BlobSQL, postings_udmBlob2BlobSQL]
    have hs := (h.stored u).convert
    rwa [if_congr (h.alive u) rfl rfl]

theorem Holds.step {db : Database α} {v : Versions α} (h : Holds db v) (op : Op α) :
    Holds (db.step op) (v.step op) := by
  cases op with
  | add urlId => exact h.add urlId
  | store urlId words =>
    have hadd := (h.add urlId).store urlId words ((mem_udmAddURL urlId db urlId).mpr (Or.inr rfl))
    have hv : (v.step (.add urlId)).step (.store urlId words) = v.step (.store urlId words) := by
      funext u
      simp only [Versions.step]
      split <;> rfl
    exact hv ▸ hadd
  | deleteWords urlId => exact h.deleteWordsFromURL urlId
  | delete urlId => exact h.deleteURL urlId
  | convert => exact h.convert

theorem holds_run (ops : List (Op α)) : Holds (Database.run ops) (Versions.run ops) := by
  have hfold : ∀ (db : Database α) (v : Versions α), Holds db v →
      Holds (ops.foldl Database.step db) (ops.foldl Versions.step v) := by
    induction ops with
    | nil => exact fun db v h => h
    | cons op ops ih => exact fun db v h => ih (db.step op) (v.step op) (h.step op)
  exact hfold _ _ holds_init

/-! ### What a search sees -/

theorem any_deleted_iff (db : Database α) (u : ℤ) :
    u ∈ (db.bdicti.filter fun r => r.state == .deleted).map BdictiRow.urlId ↔
      ∃ r ∈ db.rows u, r.state = .deleted := by
  simp only [List.mem_map, List.mem_filter, beq_iff_eq, Database.rows]
  constructor
  · rintro ⟨r, ⟨hr, hs⟩, hu⟩
    exact ⟨r, ⟨hr, hu⟩, hs⟩
  · rintro ⟨r, ⟨hr, hu⟩, hs⟩
    exact ⟨r, ⟨hr, hs⟩, hu⟩

/-- The limit of a search without other limits. -/
def liveUpdateLimit (db : Database α) : UdmURLIdList :=
  udmURLIdListMerge { empty := false, exclude := false, urls := [] } (liveUpdateDeletedUrls db)

theorem liveUpdateLimit_eq (db : Database α) :
    liveUpdateLimit db = ⟨false, !(liveUpdateDeletedUrls db).urls.isEmpty, (liveUpdateDeletedUrls db).urls⟩ := by
  have hex : (liveUpdateDeletedUrls db).exclude = true := rfl
  cases hurls : (liveUpdateDeletedUrls db).urls with
  | nil => simp [liveUpdateLimit, udmURLIdListMerge, hurls, hex]
  | cons x xs => simp [liveUpdateLimit, udmURLIdListMerge, udmURLIdListCopy, hurls, hex]

theorem udmURLIdListAllows_liveUpdateLimit (db : Database α) (u : ℤ) :
    udmURLIdListAllows (liveUpdateLimit db) u = true ↔ ¬ ∃ r ∈ db.rows u, r.state = .deleted := by
  have hmem := bsearch_udmURLIdListSort ((db.bdicti.filter fun r => r.state == .deleted).map BdictiRow.urlId) u
  rw [any_deleted_iff] at hmem
  rw [← hmem, liveUpdateLimit_eq, udmURLIdListAllows]
  have hurls : (liveUpdateDeletedUrls db).urls =
      udmURLIdListSort ((db.bdicti.filter fun r => r.state == .deleted).map BdictiRow.urlId) := rfl
  rw [hurls]
  cases hsort : udmURLIdListSort ((db.bdicti.filter fun r => r.state == .deleted).map BdictiRow.urlId) with
  | nil => simp [bsearch, search]
  | cons x xs => cases bsearch udmCmpURLID u (x :: xs) <;> simp

theorem filter_udmFindWordBlobSimple (db : Database α) (u : ℤ) :
    (udmFindWordBlobSimple (liveUpdateLimit db) db).filter (fun p => p.1 == u) =
      if udmURLIdListAllows (liveUpdateLimit db) u then db.postings u else [] := by
  have hempty : (liveUpdateLimit db).empty = false := by rw [liveUpdateLimit_eq]
  rw [udmFindWordBlobSimple, hempty, if_neg Bool.false_ne_true, List.filter_filter, Database.postings]
  split
  · rename_i hu
    refine List.filter_congr fun p _ => ?_
    by_cases hp : p.1 = u
    · rw [hp, hu, Bool.and_true]
    · rw [beq_eq_false_iff_ne.mpr hp, Bool.false_and]
  · rename_i hu
    rw [List.filter_eq_nil_iff]
    intro p _ hp
    rw [Bool.and_eq_true, beq_iff_eq] at hp
    exact hu (hp.1 ▸ hp.2)

theorem filter_udmFindWordRawBlobDelta (db : Database α) (u : ℤ) :
    (udmFindWordRawBlobDelta { empty := false, exclude := false, urls := [] } db).filter (fun p => p.1 == u) =
      postingsOf ((db.rows u).filter fun r => r.state == .new) := by
  have hallow : ∀ u, udmURLIdListAllows { empty := false, exclude := false, urls := [] } u = true := fun _ => rfl
  have hraw : udmFindWordRawBlobDelta { empty := false, exclude := false, urls := [] } db =
      postingsOf (db.bdicti.filter fun r => r.state == .new) := by
    simp only [udmFindWordRawBlobDelta, hallow, Bool.and_true]
    rfl
  rw [hraw, filter_postingsOf, Database.rows, List.filter_filter, List.filter_filter]
  congr 1
  exact List.filter_congr fun r _ => Bool.and_comm _ _

/-- **A search sees the latest version of each document.** After any operations the postings
of a document that a search finds, in table `bdict` and among the new records, are those of
its latest version, each as often as the version has it; a document that is not alive has
none. -/
theorem visible_run (ops : List (Op α)) (u : ℤ) :
    (udmFindWordBlobLiveUpdates (Database.run ops)).filter (fun p => p.1 == u) =
      ((Versions.run ops u).getD []).map (Prod.mk u) := by
  generalize hdb : Database.run ops = db
  have hs := (holds_run ops).stored u
  have hlimit := udmURLIdListAllows_liveUpdateLimit db u
  rw [hdb] at hs
  rw [show udmFindWordBlobLiveUpdates db = udmFindWordBlobSimple (liveUpdateLimit db) db ++
      udmFindWordRawBlobDelta { empty := false, exclude := false, urls := [] } db from rfl,
    List.filter_append, filter_udmFindWordBlobSimple, filter_udmFindWordRawBlobDelta, if_congr hlimit rfl rfl]
  generalize db.rows u = rows at hs
  generalize db.postings u = postings at hs
  generalize Versions.run ops u = version at hs
  cases hs with
  | absent hv => simp [postingsOf, hv]
  | new words => simp [postingsOf]
  | converted words => simp [postingsOf]
  | deleted hv => simp [postingsOf, hv]
  | replaced words => simp [postingsOf]

end MnoGoSearch.Blob
