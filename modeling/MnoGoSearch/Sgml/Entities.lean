import MnoGoSearch.Url.Canonize
import Mathlib.Data.List.Sort
import Mathlib.Data.List.Infix

/-!
# Names of characters

The table `SGMLChars` and `UdmSgmlToUni` (`sgml.c`). The text is not cut behind the name, so the first name that the
text starts with is taken. If the text is cut there, the loop that compares does not stop at the end of it.
-/

namespace MnoGoSearch.Sgml

open Url

/-! ## The table -/

/-- `struct udm_sgml_chars`. -/
structure UdmSgmlChars where
  /-- The name, without its NUL. -/
  sgml : List UInt8
  unicode : ℕ
  deriving DecidableEq

/-- The rows of `SGMLChars` in front of the end marker. -/
def sgmlRows : List (List Char × ℕ) :=
  [(['l', 't'], 60), (['g', 't'], 62), (['a', 'm', 'p'], 38), (['q', 'u', 'o', 't'], 34),
   (['n', 'b', 's', 'p'], 160), (['i', 'e', 'x', 'c', 'l'], 161), (['c', 'e', 'n', 't'], 162),
   (['p', 'o', 'u', 'n', 'd'], 163), (['c', 'u', 'r', 'r', 'e', 'n'], 164), (['y', 'e', 'n'], 165),
   (['b', 'r', 'v', 'b', 'a', 'r'], 166), (['s', 'e', 'c', 't'], 167), (['u', 'm', 'l'], 168),
   (['c', 'o', 'p', 'y'], 169), (['o', 'r', 'd', 'f'], 170), (['l', 'a', 'q', 'u', 'o'], 171),
   (['n', 'o', 't'], 172), (['s', 'h', 'y'], 173), (['r', 'e', 'g'], 174), (['h', 'i', 'b', 'a', 'r'], 175),
   (['d', 'e', 'g'], 176), (['p', 'l', 'u', 's', 'm', 'n'], 177), (['s', 'u', 'p', '2'], 178),
   (['s', 'u', 'p', '3'], 179), (['a', 'c', 'u', 't', 'e'], 180), (['m', 'i', 'c', 'r', 'o'], 181),
   (['p', 'a', 'r', 'a'], 182), (['m', 'i', 'd', 'd', 'o', 't'], 183), (['c', 'e', 'd', 'i', 'l'], 184),
   (['s', 'u', 'p', '1'], 185), (['o', 'r', 'd', 'm'], 186), (['r', 'a', 'q', 'u', 'o'], 187),
   (['f', 'r', 'a', 'c', '1', '4'], 188), (['f', 'r', 'a', 'c', '1', '2'], 189),
   (['f', 'r', 'a', 'c', '3', '4'], 190), (['i', 'q', 'u', 'e', 's', 't'], 191),
   (['A', 'g', 'r', 'a', 'v', 'e'], 192), (['A', 'a', 'c', 'u', 't', 'e'], 193), (['A', 'c', 'i', 'r', 'c'], 194),
   (['A', 't', 'i', 'l', 'd', 'e'], 195), (['A', 'u', 'm', 'l'], 196), (['A', 'r', 'i', 'n', 'g'], 197),
   (['A', 'E', 'l', 'i', 'g'], 198), (['C', 'c', 'e', 'd', 'i', 'l'], 199), (['E', 'g', 'r', 'a', 'v', 'e'], 200),
   (['E', 'a', 'c', 'u', 't', 'e'], 201), (['E', 'c', 'i', 'r', 'c'], 202), (['E', 'u', 'm', 'l'], 203),
   (['I', 'g', 'r', 'a', 'v', 'e'], 205), (['I', 'a', 'c', 'u', 't', 'e'], 204), (['I', 'c', 'i', 'r', 'c'], 206),
   (['I', 'u', 'm', 'l'], 207), (['E', 'T', 'H'], 208), (['N', 't', 'i', 'l', 'd', 'e'], 209),
   (['O', 'g', 'r', 'a', 'v', 'e'], 210), (['O', 'a', 'c', 'u', 't', 'e'], 211), (['O', 'c', 'i', 'r', 'c'], 212),
   (['O', 't', 'i', 'l', 'd', 'e'], 213), (['O', 'u', 'm', 'l'], 214), (['t', 'i', 'm', 'e', 's'], 215),
   (['O', 's', 'l', 'a', 's', 'h'], 216), (['U', 'g', 'r', 'a', 'v', 'e'], 217),
   (['U', 'a', 'c', 'u', 't', 'e'], 218), (['U', 'c', 'i', 'r', 'c'], 219), (['U', 'u', 'm', 'l'], 220),
   (['Y', 'a', 'c', 'u', 't', 'e'], 221), (['T', 'H', 'O', 'R', 'N'], 222), (['s', 'z', 'l', 'i', 'g'], 223),
   (['a', 'g', 'r', 'a', 'v', 'e'], 224), (['a', 'a', 'c', 'u', 't', 'e'], 225), (['a', 'c', 'i', 'r', 'c'], 226),
   (['a', 't', 'i', 'l', 'd', 'e'], 227), (['a', 'u', 'm', 'l'], 228), (['a', 'r', 'i', 'n', 'g'], 229),
   (['a', 'e', 'l', 'i', 'g'], 230), (['c', 'c', 'e', 'd', 'i', 'l'], 231), (['e', 'g', 'r', 'a', 'v', 'e'], 232),
   (['e', 'a', 'c', 'u', 't', 'e'], 233), (['e', 'c', 'i', 'r', 'c'], 234), (['e', 'u', 'm', 'l'], 235),
   (['i', 'g', 'r', 'a', 'v', 'e'], 236), (['i', 'a', 'c', 'u', 't', 'e'], 237), (['i', 'c', 'i', 'r', 'c'], 238),
   (['i', 'u', 'm', 'l'], 239), (['e', 't', 'h'], 240), (['n', 't', 'i', 'l', 'd', 'e'], 241),
   (['o', 'g', 'r', 'a', 'v', 'e'], 242), (['o', 'a', 'c', 'u', 't', 'e'], 243), (['o', 'c', 'i', 'r', 'c'], 244),
   (['o', 't', 'i', 'l', 'd', 'e'], 245), (['o', 'u', 'm', 'l'], 246), (['d', 'i', 'v', 'i', 'd', 'e'], 247),
   (['o', 's', 'l', 'a', 's', 'h'], 248), (['u', 'g', 'r', 'a', 'v', 'e'], 249),
   (['u', 'a', 'c', 'u', 't', 'e'], 250), (['u', 'c', 'i', 'r', 'c'], 251), (['u', 'u', 'm', 'l'], 252),
   (['y', 'a', 'c', 'u', 't', 'e'], 253), (['t', 'h', 'o', 'r', 'n'], 254), (['y', 'u', 'm', 'l'], 255),
   (['O', 'E', 'l', 'i', 'g'], 338), (['o', 'e', 'l', 'i', 'g'], 339), (['S', 'c', 'a', 'r', 'o', 'n'], 352),
   (['s', 'c', 'a', 'r', 'o', 'n'], 353), (['Y', 'u', 'm', 'l'], 376), (['f', 'n', 'o', 'f'], 402),
   (['c', 'i', 'r', 'c'], 710), (['t', 'i', 'l', 'd', 'e'], 732), (['A', 'l', 'p', 'h', 'a'], 913),
   (['B', 'e', 't', 'a'], 914), (['G', 'a', 'm', 'm', 'a'], 915), (['D', 'e', 'l', 't', 'a'], 916),
   (['E', 'p', 's', 'i', 'l', 'o', 'n'], 917), (['Z', 'e', 't', 'a'], 918), (['E', 't', 'a'], 919),
   (['T', 'h', 'e', 't', 'a'], 920), (['I', 'o', 't', 'a'], 921), (['K', 'a', 'p', 'p', 'a'], 922),
   (['L', 'a', 'm', 'b', 'd', 'a'], 923), (['M', 'u'], 924), (['N', 'u'], 925), (['X', 'i'], 926),
   (['O', 'm', 'i', 'c', 'r', 'o', 'n'], 927), (['P', 'i'], 928), (['R', 'h', 'o'], 929),
   (['S', 'i', 'g', 'm', 'a'], 931), (['T', 'a', 'u'], 932), (['U', 'p', 's', 'i', 'l', 'o', 'n'], 933),
   (['P', 'h', 'i'], 934), (['C', 'h', 'i'], 935), (['P', 's', 'i'], 936), (['O', 'm', 'e', 'g', 'a'], 937),
   (['a', 'l', 'p', 'h', 'a'], 945), (['b', 'e', 't', 'a'], 946), (['g', 'a', 'm', 'm', 'a'], 947),
   (['d', 'e', 'l', 't', 'a'], 948), (['e', 'p', 's', 'i', 'l', 'o', 'n'], 949), (['z', 'e', 't', 'a'], 950),
   (['e', 't', 'a'], 951), (['t', 'h', 'e', 't', 'a'], 952), (['i', 'o', 't', 'a'], 953),
   (['k', 'a', 'p', 'p', 'a'], 954), (['l', 'a', 'm', 'b', 'd', 'a'], 955), (['m', 'u'], 956), (['n', 'u'], 957),
   (['x', 'i'], 958), (['o', 'm', 'i', 'c', 'r', 'o', 'n'], 959), (['p', 'i'], 960), (['r', 'h', 'o'], 961),
   (['s', 'i', 'g', 'm', 'a', 'f'], 962), (['s', 'i', 'g', 'm', 'a'], 963), (['t', 'a', 'u'], 964),
   (['u', 'p', 's', 'i', 'l', 'o', 'n'], 965), (['p', 'h', 'i'], 966), (['c', 'h', 'i'], 967),
   (['p', 's', 'i'], 968), (['o', 'm', 'e', 'g', 'a'], 969), (['t', 'h', 'e', 't', 'a', 's', 'y', 'm'], 977),
   (['u', 'p', 's', 'i', 'h'], 978), (['p', 'i', 'v'], 982), (['e', 'n', 's', 'p'], 8194),
   (['e', 'm', 's', 'p'], 8195), (['t', 'h', 'i', 'n', 's', 'p'], 8201), (['z', 'w', 'n', 'j'], 8204),
   (['z', 'w', 'j'], 8205), (['l', 'r', 'm'], 8206), (['r', 'l', 'm'], 8207), (['n', 'd', 'a', 's', 'h'], 8211),
   (['m', 'd', 'a', 's', 'h'], 8212), (['l', 's', 'q', 'u', 'o'], 8216), (['r', 's', 'q', 'u', 'o'], 8217),
   (['s', 'b', 'q', 'u', 'o'], 8218), (['l', 'd', 'q', 'u', 'o'], 8220), (['r', 'd', 'q', 'u', 'o'], 8221),
   (['b', 'd', 'q', 'u', 'o'], 8222), (['d', 'a', 'g', 'g', 'e', 'r'], 8224),
   (['D', 'a', 'g', 'g', 'e', 'r'], 8225), (['b', 'u', 'l', 'l'], 8226), (['h', 'e', 'l', 'l', 'i', 'p'], 8230),
   (['p', 'e', 'r', 'm', 'i', 'l'], 8240), (['p', 'r', 'i', 'm', 'e'], 8242), (['P', 'r', 'i', 'm', 'e'], 8243),
   (['l', 's', 'a', 'q', 'u', 'o'], 8249), (['r', 's', 'a', 'q', 'u', 'o'], 8250),
   (['o', 'l', 'i', 'n', 'e'], 8254), (['f', 'r', 'a', 's', 'l'], 8260), (['e', 'u', 'r', 'o'], 8364),
   (['w', 'e', 'i', 'e', 'r', 'p'], 8472), (['i', 'm', 'a', 'g', 'e'], 8465), (['r', 'e', 'a', 'l'], 8476),
   (['t', 'r', 'a', 'd', 'e'], 8482), (['a', 'l', 'e', 'f', 's', 'y', 'm'], 8501), (['l', 'a', 'r', 'r'], 8592),
   (['u', 'a', 'r', 'r'], 8593), (['r', 'a', 'r', 'r'], 8594), (['d', 'a', 'r', 'r'], 8595),
   (['h', 'a', 'r', 'r'], 8596), (['c', 'r', 'a', 'r', 'r'], 8629), (['l', 'A', 'r', 'r'], 8656),
   (['u', 'A', 'r', 'r'], 8657), (['r', 'A', 'r', 'r'], 8658), (['d', 'A', 'r', 'r'], 8659),
   (['h', 'A', 'r', 'r'], 8660), (['f', 'o', 'r', 'a', 'l', 'l'], 8704), (['p', 'a', 'r', 't'], 8706),
   (['e', 'x', 'i', 's', 't'], 8707), (['e', 'm', 'p', 't', 'y'], 8709), (['n', 'a', 'b', 'l', 'a'], 8711),
   (['i', 's', 'i', 'n'], 8712), (['n', 'o', 't', 'i', 'n'], 8713), (['n', 'i'], 8715),
   (['p', 'r', 'o', 'd'], 8719), (['s', 'u', 'm'], 8721), (['m', 'i', 'n', 'u', 's'], 8722),
   (['l', 'o', 'w', 'a', 's', 't'], 8727), (['r', 'a', 'd', 'i', 'c'], 8730), (['p', 'r', 'o', 'p'], 8733),
   (['i', 'n', 'f', 'i', 'n'], 8734), (['a', 'n', 'g'], 8736), (['a', 'n', 'd'], 8743), (['o', 'r'], 8744),
   (['c', 'a', 'p'], 8745), (['c', 'u', 'p'], 8746), (['i', 'n', 't'], 8747),
   (['t', 'h', 'e', 'r', 'e', '4'], 8756), (['s', 'i', 'm'], 8764), (['c', 'o', 'n', 'g'], 8773),
   (['a', 's', 'y', 'm', 'p'], 8776), (['n', 'e'], 8800), (['e', 'q', 'u', 'i', 'v'], 8801), (['l', 'e'], 8804),
   (['g', 'e'], 8805), (['s', 'u', 'b'], 8834), (['s', 'u', 'p'], 8835), (['n', 's', 'u', 'b'], 8836),
   (['s', 'u', 'b', 'e'], 8838), (['s', 'u', 'p', 'e'], 8839), (['o', 'p', 'l', 'u', 's'], 8853),
   (['o', 't', 'i', 'm', 'e', 's'], 8855), (['p', 'e', 'r', 'p'], 8869), (['s', 'd', 'o', 't'], 8901),
   (['l', 'c', 'e', 'i', 'l'], 8968), (['r', 'c', 'e', 'i', 'l'], 8969), (['l', 'f', 'l', 'o', 'o', 'r'], 8970),
   (['r', 'f', 'l', 'o', 'o', 'r'], 8971), (['l', 'a', 'n', 'g'], 9001), (['r', 'a', 'n', 'g'], 9002),
   (['l', 'o', 'z'], 9674), (['s', 'p', 'a', 'd', 'e', 's'], 9824), (['c', 'l', 'u', 'b', 's'], 9827),
   (['h', 'e', 'a', 'r', 't', 's'], 9829), (['d', 'i', 'a', 'm', 's'], 9830)]

/-- `SGMLChars`. -/
def sgmlChars : List UdmSgmlChars := sgmlRows.map fun p => ⟨p.1.map fun c => c.toNat.toUInt8, p.2⟩

/-- A letter. -/
def isLetter (c : UInt8) : Bool := (0x61 ≤ c && c ≤ 0x7A) || (0x41 ≤ c && c ≤ 0x5A)

/-- A digit. -/
def isDigit (c : UInt8) : Bool := 0x30 ≤ c && c ≤ 0x39

variable {p : UdmSgmlChars} {n : List UInt8} {d : UInt8}

/-- The names have letters and digits, eight at most. No character has two names, and none is NUL. -/
theorem sgmlChars_wellFormed (h : p ∈ sgmlChars) :
    p.sgml ≠ [] ∧ p.sgml.length ≤ 8 ∧ (∀ c ∈ p.sgml, (isLetter c || isDigit c) = true) ∧ p.unicode ≠ 0 := by
  have hall : sgmlChars.all (fun p => p.sgml != [] && decide (p.sgml.length ≤ 8) &&
      p.sgml.all (fun c => isLetter c || isDigit c) && p.unicode != 0) = true := by
    decide +kernel
  have hp := List.all_eq_true.1 hall p h
  simp only [Bool.and_eq_true, bne_iff_ne, decide_eq_true_eq, List.all_eq_true] at hp
  exact ⟨hp.1.1.1, hp.1.1.2, hp.1.2, hp.2⟩

theorem nodup_unicode : (sgmlChars.map fun p => p.unicode).Nodup := by
  -- the table is nearly in order, so sorting it is quick
  have hsorted : ((sgmlRows.map fun p => p.2).insertionSort (· ≤ ·)).IsChain (· < ·) := by
    decide +kernel
  have hmap : (sgmlChars.map fun p => p.unicode) = sgmlRows.map fun p => p.2 := by
    rw [sgmlChars, List.map_map]
    rfl
  rw [hmap, ← (List.perm_insertionSort (· ≤ ·) _).nodup_iff]
  exact (List.isChain_iff_pairwise.1 hsorted).imp fun h => h.ne

/-! ## The search -/

/-- The loop over `s` and `t`, up to where they differ: what is left of `t`, `none` if it reads behind one of them. -/
def compareLoop : List UInt8 → List UInt8 → Option (List UInt8)
  | c :: s, d :: t => if c = d then compareLoop s t else some (d :: t)
  | _, _ => none

/-- The loop of `UdmSgmlToUni` over the table. -/
def sgmlToUniLoop (sgml : List UInt8) : List UdmSgmlChars → Option ℕ
  | [] => some 0
  | p :: ps =>
    (compareLoop sgml (p.sgml ++ [0])).bind fun t =>
      if t.head? = some 0 then some p.unicode else sgmlToUniLoop sgml ps

/-- `UdmSgmlToUni` of what is in the memory from `sgml` on. -/
def udmSgmlToUni (sgml : List UInt8) : Option ℕ := sgmlToUniLoop sgml sgmlChars

/-- The first entry whose name a text starts with. -/
def firstPrefix (n : List UInt8) : Option UdmSgmlChars := sgmlChars.find? fun p => p.sgml.isPrefixOf n

/-- The entry of a name. -/
def entry (n : List UInt8) : Option UdmSgmlChars := sgmlChars.find? fun p => p.sgml == n

/-- The loop stops at the end of the name exactly if the text starts with it, and does not stop if the text is cut
behind the name. -/
theorem compareLoop_append {u : List UInt8} (hu : 0 ∉ u) (hd : d ∉ u) (hn : 0 ∉ n)
    (rest : List UInt8) :
    if u = n ∧ d = 0 then compareLoop (n ++ d :: rest) (u ++ [0]) = none
    else ∃ c t, compareLoop (n ++ d :: rest) (u ++ [0]) = some (c :: t) ∧ (c = 0 ↔ u <+: n) := by
  induction u generalizing n with
  | nil =>
    cases n with
    | nil =>
      by_cases h : d = 0
      · simp [compareLoop, h]
      · simp [compareLoop, h]
    | cons a n =>
      have ha : a ≠ 0 := fun h => hn (by simp [h])
      simp [compareLoop, ha]
  | cons b u ih =>
    have hb : b ≠ 0 := fun h => hu (by simp [h])
    cases n with
    | nil =>
      have hdb : d ≠ b := fun h => hd (by simp [h])
      simp [compareLoop, hdb, hb]
    | cons a n =>
      rw [List.mem_cons, not_or] at hu hd hn
      by_cases hab : a = b
      · subst hab
        simpa [compareLoop] using ih hu.2 hd.2 hn.2
      · simp [compareLoop, hab, hb, Ne.symm hab]

theorem sgmlToUniLoop_append (hn : 0 ∉ n) (rest : List UInt8) {ps : List UdmSgmlChars}
    (hps : ∀ p ∈ ps, 0 ∉ p.sgml ∧ d ∉ p.sgml) :
    sgmlToUniLoop (n ++ d :: rest) ps =
      match ps.find? fun p => p.sgml.isPrefixOf n with
      | none => some 0
      | some p => if p.sgml = n ∧ d = 0 then none else some p.unicode := by
  induction ps with
  | nil => rfl
  | cons p ps ih =>
    rw [List.forall_mem_cons] at hps
    have hloop := compareLoop_append hps.1.1 hps.1.2 hn rest
    rw [sgmlToUniLoop]
    by_cases hcut : p.sgml = n ∧ d = 0
    · rw [if_pos hcut] at hloop
      have hfind : (p :: ps).find? (fun p => p.sgml.isPrefixOf n) = some p :=
        List.find?_cons_of_pos (by simp [hcut.1])
      rw [hloop, hfind]
      exact (if_pos hcut).symm
    · rw [if_neg hcut] at hloop
      obtain ⟨c, t, heq, hc⟩ := hloop
      rw [heq, Option.bind_some, List.head?_cons]
      by_cases hpre : p.sgml <+: n
      · have hfind : (p :: ps).find? (fun p => p.sgml.isPrefixOf n) = some p :=
          List.find?_cons_of_pos (by simpa using hpre)
        rw [if_pos (by rw [hc.2 hpre]), hfind]
        exact (if_neg hcut).symm
      · have hfind : (p :: ps).find? (fun p => p.sgml.isPrefixOf n) = ps.find? fun p => p.sgml.isPrefixOf n :=
          List.find?_cons_of_neg (by simpa using hpre)
        rw [if_neg (fun h => hpre (hc.1 (Option.some.inj h))), hfind]
        exact ih hps.2

/-- A byte that is neither NUL, nor a letter or a digit. -/
def IsDelim (d : UInt8) : Prop := d ≠ 0 ∧ (isLetter d || isDigit d) = false

theorem not_mem_sgml (hd : (isLetter d || isDigit d) = false) (h : p ∈ sgmlChars) : d ∉ p.sgml := by
  intro hmem
  rw [(sgmlChars_wellFormed h).2.2.1 d hmem] at hd
  exact Bool.noConfusion hd

theorem udmSgmlToUni_append (hn : 0 ∉ n) (hd : IsDelim d) (rest : List UInt8) :
    udmSgmlToUni (n ++ d :: rest) = some ((firstPrefix n).elim 0 fun p => p.unicode) := by
  have hps : ∀ p ∈ sgmlChars, (0 : UInt8) ∉ p.sgml ∧ d ∉ p.sgml := fun p hp =>
    ⟨not_mem_sgml (by decide) hp, not_mem_sgml hd.2 hp⟩
  rw [udmSgmlToUni, sgmlToUniLoop_append hn rest hps, firstPrefix]
  cases sgmlChars.find? fun p => p.sgml.isPrefixOf n with
  | none => rfl
  | some p => exact if_neg fun h => hd.1 h.2

/-- In a text that is cut behind the name, a name of the table that no entry before it begins is not found. -/
theorem udmSgmlToUni_cut (hn : 0 ∉ n) (rest : List UInt8) :
    udmSgmlToUni (n ++ 0 :: rest) =
      match firstPrefix n with
      | none => some 0
      | some p => if p.sgml = n then none else some p.unicode := by
  have hps : ∀ p ∈ sgmlChars, (0 : UInt8) ∉ p.sgml ∧ (0 : UInt8) ∉ p.sgml := fun p hp =>
    ⟨not_mem_sgml (by decide) hp, not_mem_sgml (by decide) hp⟩
  rw [udmSgmlToUni, sgmlToUniLoop_append hn rest hps, firstPrefix]
  cases sgmlChars.find? fun p => p.sgml.isPrefixOf n with
  | none => rfl
  | some p => simp only [and_true]

/-! ## Entries -/

theorem mem_of_firstPrefix (h : firstPrefix n = some p) : p ∈ sgmlChars ∧ p.sgml <+: n :=
  ⟨List.mem_of_find?_eq_some h, by simpa using List.find?_some h⟩

theorem mem_of_entry (h : entry n = some p) : p ∈ sgmlChars ∧ p.sgml = n :=
  ⟨List.mem_of_find?_eq_some h, by simpa using List.find?_some h⟩

theorem exists_firstPrefix (h : entry n = some p) : ∃ q, firstPrefix n = some q := by
  have hp := mem_of_entry h
  cases hq : firstPrefix n with
  | some q => exact ⟨q, rfl⟩
  | none =>
    have hnot := List.find?_eq_none.1 hq p hp.1
    exact absurd (by simp [hp.2]) hnot

theorem eq_of_unicode_eq {q : UdmSgmlChars} (hp : p ∈ sgmlChars) (hq : q ∈ sgmlChars) (h : p.unicode = q.unicode) :
    p = q :=
  List.inj_on_of_nodup_map nodup_unicode hp hq h

end MnoGoSearch.Sgml
