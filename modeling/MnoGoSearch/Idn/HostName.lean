import MnoGoSearch.Idn.Punycode
import MnoGoSearch.Uconv.Utf8

/-!
# International host names

`UdmIDNEncode` and `UdmIDNDecode` (`idn.c`). The buffers of a label hold 252 of whatever they hold: code points, characters
of the encoded label, and bytes of the decoded one. The last of them cuts a label that is longer, and `UdmPunyDecode` does
not see it. A name comes back where no label of it is (`idnRight_iff`).
-/

namespace MnoGoSearch.Idn

open Highlight Template Uconv Url

/-! ## The source -/

/-- UTF-8, in a conversion without flags. -/
def utf8 (sgml : SgmlChars) : UdmCharset := ⟨udmMbWcUtf8With noFlags sgml, udmWcMbUtf8With noFlags⟩

/-- `UdmConv` from `sys_int` without flags, into `dlen` bytes. -/
def udmConvOutPlain (cs : UdmCharset) : ℕ → List ℤ → List UInt8
  | _, [] => []
  | dlen, wc :: s =>
    if dlen = 0 then []
    else
      match cs.wcMb wc dlen with
      | .bytes r => r ++ udmConvOutPlain cs (dlen - r.length) s
      | .toosmall => []
      | .iluni =>
        -- the question mark is written, but `d` stays where it is
        match cs.wcMb 0x3F dlen with
        | .bytes _ => udmConvOutPlain cs dlen s
        | _ => []

/-- `%s`: a string up to its NUL. -/
def cstr (s : List UInt8) : List UInt8 := s.takeWhile (· ≠ 0)

section Source

variable (P : Punycode) (cs : UdmCharset)

/-- `UdmPunyEncode`: what is in the buffer of a label, nothing if it fails. -/
def udmPunyEncode (src : List UInt8) : List UInt8 :=
  let input := udmConvIn cs (labelLen + 1) 0 src
  if labelLen ≤ input.length then [] else (P.encode (input.map fun wc => (wc % 0x100000000).toNat)).getD []

/-- `UdmPunyDecode`: what is in the buffer of a label, nothing if it fails. -/
def udmPunyDecode (src : List UInt8) : List UInt8 :=
  match P.decode src with
  | none => []
  | some output => udmConvOutPlain cs labelLen (output.map fun (cp : ℕ) => (cp : ℤ).bmod 0x100000000)

/-- `UDM_ACE_PREFIX`. -/
def acePrefix : List UInt8 := bytes "xn--"

/-- What `UdmIDNEncode` writes for a label, if it is not the end. -/
def encodeLabel (label : List UInt8) : Option (List UInt8) :=
  if udmPunyEncode P cs label = [] then none
  else if label.any (0x80 ≤ ·) then some (acePrefix ++ cstr (udmPunyEncode P cs label))
  else some label

/-- What `UdmIDNDecode` writes for a label, if it is not the end. -/
def decodeLabel (label : List UInt8) : Option (List UInt8) :=
  if acePrefix.isPrefixOf label then
    if udmPunyDecode P cs (label.drop 4) = [] then none else some (cstr (udmPunyDecode P cs (label.drop 4)))
  else some label

/-- The loop of both over the labels: `dstlen` bytes are left, `dst` has been written. -/
def labelLoop (f : List UInt8 → Option (List UInt8)) : ℕ → List UInt8 → List (List UInt8) → Option (List UInt8)
  | _, dst, [] => some dst
  | dstlen, dst, label :: labels =>
    (f label).bind fun text =>
      let piece := (if dst = [] then [] else [0x2E]) ++ text
      if dstlen ≤ piece.length then none else labelLoop f (dstlen - piece.length) (dst ++ piece) labels

/-- `UdmIDNEncode`: what is in the destination, nothing where it returns 0. -/
def udmIDNEncode (dstlen : ℕ) (src : List UInt8) : List UInt8 :=
  (labelLoop (encodeLabel P cs) dstlen [] (src.splitOn 0x2E)).getD []

/-- `UdmIDNDecode`: what is in the destination, nothing where it returns 0. -/
def udmIDNDecode (dstlen : ℕ) (src : List UInt8) : List UInt8 :=
  (labelLoop (decodeLabel P cs) dstlen [] (src.splitOn 0x2E)).getD []

end Source

/-! ## Host names -/

/-- The bytes of a character. -/
def charBytes (u : ℕ) : List UInt8 := if u < 0x80 then [UInt8.ofNat u] else utf8Bytes (utf8Count u) u

/-- The bytes of a label. -/
def labelBytes (l : List ℕ) : List UInt8 := l.flatMap charBytes

/-- A host name in UTF-8. -/
structure HostName where
  /-- The labels, as code points. -/
  labels : List (List ℕ)
  ne_nil : labels ≠ []
  label_ne_nil : ∀ l ∈ labels, l ≠ []
  /-- The code points are those of UTF-8. -/
  valid : ∀ l ∈ labels, ∀ u ∈ l, 0 < u ∧ u < 0x80000000
  /-- No dot is inside of a label. -/
  no_dot : ∀ l ∈ labels, 0x2E ∉ l
  /-- No label is an encoded one already. -/
  not_ace : ∀ l ∈ labels, ¬acePrefix <+: labelBytes l

/-- The text of a host name. -/
def HostName.text (n : HostName) : List UInt8 := [0x2E].intercalate (n.labels.map labelBytes)

/-- A label is converted as it would be with more room. -/
def ConvertedIn (cs : UdmCharset) (label : List UInt8) : Prop :=
  ∀ room, labelLen + 1 ≤ room → udmConvIn cs (labelLen + 1) 0 label = udmConvIn cs room 0 label

/-- Code points are converted as they would be with more room. -/
def ConvertedOut (cs : UdmCharset) (output : List ℕ) : Prop :=
  ∀ room, labelLen ≤ room →
    udmConvOutPlain cs labelLen (output.map fun (cp : ℕ) => (cp : ℤ).bmod 0x100000000) =
      udmConvOutPlain cs room (output.map fun (cp : ℕ) => (cp : ℤ).bmod 0x100000000)

/-- **A name comes back, and where a label is not converted in full the functions return 0.** -/
structure IdnRight (P : Punycode) (cs : UdmCharset) (n : HostName) (enclen declen : ℕ) : Prop where
  /-- What has been encoded is decoded. -/
  back : udmIDNDecode P cs declen (udmIDNEncode P cs enclen n.text) = n.text
  /-- No shortened label is encoded. -/
  encodeFull : (∃ label ∈ n.text.splitOn 0x2E, ¬ConvertedIn cs label) → udmIDNEncode P cs enclen n.text = []
  /-- No shortened label is decoded. -/
  decodeFull :
    (∃ label ∈ (udmIDNEncode P cs enclen n.text).splitOn 0x2E, acePrefix <+: label ∧
      ∃ output, P.decode (label.drop 4) = some output ∧ ¬ConvertedOut cs output) →
    udmIDNDecode P cs declen (udmIDNEncode P cs enclen n.text) = []

/-- Every label that is not ASCII has at most 252 bytes. -/
def HostName.Fits (n : HostName) : Prop :=
  ∀ l ∈ n.labels, (∃ u ∈ l, 0x80 ≤ u) → (labelBytes l).length ≤ labelLen

instance (n : HostName) : Decidable n.Fits :=
  inferInstanceAs (Decidable (∀ l ∈ n.labels, (∃ u ∈ l, 0x80 ≤ u) → (labelBytes l).length ≤ labelLen))

/-! ## Conversion of a label -/

section Conversion

variable {sgml : SgmlChars}

theorem wcMb_eq (wc : ℤ) (room : ℕ) : (utf8 sgml).wcMb wc room = udmWcMbUtf8With noFlags wc room := rfl

theorem mbWc_eq (istate : ℕ) (s : List UInt8) : (utf8 sgml).mbWc istate s = udmMbWcUtf8With noFlags sgml istate s := rfl

theorem wcMb_utf8 {u : ℕ} (hu : u < 0x80000000) {room : ℕ} (hroom : 0 < room) :
    (utf8 sgml).wcMb u room = if room < (charBytes u).length then .toosmall else .bytes (charBytes u) := by
  rw [wcMb_eq, udmWcMbUtf8With_noFlags hu room, charBytes]
  by_cases hlow : u < 0x80
  · rw [if_pos hlow, if_pos hlow, List.length_singleton, if_neg (by omega)]
  · rw [if_neg hlow, if_neg hlow, length_utf8Bytes]

theorem charBytes_ne_nil (u : ℕ) : charBytes u ≠ [] := by
  rw [charBytes]
  by_cases hlow : u < 0x80
  · rw [if_pos hlow]
    exact List.cons_ne_nil _ _
  · rw [if_neg hlow]
    exact List.ne_nil_of_length_pos (by rw [length_utf8Bytes]; omega)

theorem mbWc_utf8 {u : ℕ} (hu : u < 0x80000000) (istate : ℕ) (rest : List UInt8) :
    (utf8 sgml).mbWc istate (charBytes u ++ rest) = .char (charBytes u).length istate u := by
  have hroom : 0 < (charBytes u).length := List.length_pos_of_ne_nil (charBytes_ne_nil u)
  have hwrite := @wcMb_utf8 sgml u hu _ hroom
  rw [if_neg (lt_irrefl _), wcMb_eq] at hwrite
  rw [mbWc_eq]
  exact (read_written hu hwrite sgml istate rest).2

/-- **A label is converted to its code points**, as many as there is room for. -/
theorem udmConvIn_labelBytes {l : List ℕ} (hl : ∀ u ∈ l, u < 0x80000000) (room : ℕ) :
    udmConvIn (utf8 sgml) room 0 (labelBytes l) = (l.take room).map fun (u : ℕ) => (u : ℤ) := by
  induction l generalizing room with
  | nil => cases room <;> simp [labelBytes, udmConvIn]
  | cons u l ih =>
    rw [List.forall_mem_cons] at hl
    cases room with
    | zero => rw [List.take_zero, List.map_nil, udmConvIn]
    | succ room =>
      have hne : charBytes u ++ labelBytes l ≠ [] := List.append_ne_nil_of_left_ne_nil (charBytes_ne_nil u) _
      rw [labelBytes, List.flatMap_cons, ← labelBytes, udmConvIn, if_neg hne, mbWc_utf8 hl.1]
      simp only [List.drop_left, ih hl.2, List.take_succ_cons, List.map_cons]

/-- **Code points are converted to a beginning of their bytes.** -/
theorem udmConvOutPlain_isPrefix {l : List ℕ} (hl : ∀ u ∈ l, u < 0x80000000) (room : ℕ) :
    udmConvOutPlain (utf8 sgml) room (l.map fun (u : ℕ) => (u : ℤ)) <+: labelBytes l ∧
      (udmConvOutPlain (utf8 sgml) room (l.map fun (u : ℕ) => (u : ℤ))).length ≤ room ∧
      ((labelBytes l).length ≤ room → udmConvOutPlain (utf8 sgml) room (l.map fun (u : ℕ) => (u : ℤ)) = labelBytes l) := by
  induction l generalizing room with
  | nil => simp [labelBytes, udmConvOutPlain]
  | cons u l ih =>
    rw [List.forall_mem_cons] at hl
    have hpos : 0 < (charBytes u).length := List.length_pos_of_ne_nil (charBytes_ne_nil u)
    rw [labelBytes, List.flatMap_cons, ← labelBytes, List.map_cons, udmConvOutPlain, List.length_append]
    by_cases hzero : room = 0
    · rw [if_pos hzero]
      exact ⟨List.nil_prefix, Nat.zero_le _, fun h => by omega⟩
    rw [if_neg hzero, wcMb_utf8 hl.1 (Nat.pos_of_ne_zero hzero)]
    by_cases hsmall : room < (charBytes u).length
    · rw [if_pos hsmall]
      exact ⟨List.nil_prefix, Nat.zero_le _, fun h => by omega⟩
    · obtain ⟨hpre, hlen, hfull⟩ := ih hl.2 (room - (charBytes u).length)
      rw [if_neg hsmall]
      simp only [List.length_append]
      exact ⟨(List.prefix_append_right_inj _).2 hpre, by omega, fun h => by rw [hfull (by omega)]⟩

end Conversion

/-! ## The loop -/

section Loop

variable {f : List UInt8 → Option (List UInt8)} {texts labels : List (List UInt8)} {dstlen : ℕ}
variable {dst : List UInt8}

/-- Texts behind what has been written, with a dot in front of each but the first. -/
def joined : List UInt8 → List (List UInt8) → List UInt8
  | dst, [] => dst
  | dst, text :: texts => joined (dst ++ ((if dst = [] then [] else [0x2E]) ++ text)) texts

theorem length_le_joined (dst : List UInt8) (texts : List (List UInt8)) : dst.length ≤ (joined dst texts).length := by
  induction texts generalizing dst with
  | nil => rfl
  | cons text texts ih =>
    refine le_trans ?_ (ih _)
    rw [List.length_append]
    omega

theorem eq_joined_of_labelLoop {r : List UInt8} (h : labelLoop f dstlen dst labels = some r) :
    ∃ texts, List.Forall₂ (fun label text => f label = some text) labels texts ∧ r = joined dst texts := by
  induction labels generalizing dstlen dst with
  | nil =>
    rw [labelLoop, Option.some.injEq] at h
    exact ⟨[], List.Forall₂.nil, h.symm⟩
  | cons label labels ih =>
    rw [labelLoop, Option.bind_eq_some_iff] at h
    obtain ⟨text, htext, h⟩ := h
    by_cases hroom : dstlen ≤ ((if dst = [] then [] else [0x2E]) ++ text).length
    · rw [if_pos hroom] at h
      exact nomatch h
    · rw [if_neg hroom] at h
      obtain ⟨texts, hall, hr⟩ := ih h
      exact ⟨text :: texts, List.Forall₂.cons htext hall, hr⟩

theorem labelLoop_eq_joined (hall : List.Forall₂ (fun label text => f label = some text) labels texts)
    (hroom : (joined dst texts).length < dstlen + dst.length) : labelLoop f dstlen dst labels = some (joined dst texts) := by
  induction hall generalizing dstlen dst with
  | nil => rfl
  | cons htext _ ih =>
    rename_i label text labels texts _
    rw [joined] at hroom ⊢
    rw [labelLoop, htext, Option.bind_some]
    generalize (if dst = [] then [] else [0x2E]) ++ text = piece at hroom ⊢
    have hlen := length_le_joined (dst ++ piece) texts
    rw [List.length_append] at hlen
    have hpiece : ¬dstlen ≤ piece.length := by omega
    simp only [if_neg hpiece]
    apply ih
    rw [List.length_append]
    omega

theorem joined_of_ne_nil (hdst : dst ≠ []) (texts : List (List UInt8)) :
    joined dst texts = dst ++ texts.flatMap (0x2E :: ·) := by
  induction texts generalizing dst with
  | nil => rw [joined, List.flatMap_nil, List.append_nil]
  | cons text texts ih =>
    rw [joined, if_neg hdst, ih (List.append_ne_nil_of_left_ne_nil hdst _), List.flatMap_cons, List.append_assoc]
    rfl

theorem joined_nil (h : ∀ text ∈ texts, text ≠ []) : joined [] texts = [0x2E].intercalate texts := by
  cases texts with
  | nil => rfl
  | cons text texts =>
    rw [joined, if_pos rfl, List.nil_append, List.nil_append, joined_of_ne_nil (h text List.mem_cons_self)]
    clear h
    induction texts generalizing text with
    | nil => simp
    | cons text' texts ih =>
      rw [List.intercalate_cons_cons, ← ih text', List.flatMap_cons]
      simp

end Loop

/-! ## Labels -/

section Labels

variable {P : Punycode} {sgml : SgmlChars} {l : List ℕ}

theorem le_of_mem_charBytes {u : ℕ} (hu : 0x80 ≤ u) : ∀ c ∈ charBytes u, 0x80 ≤ c := by
  obtain ⟨k, hk⟩ := exists_utf8Count u
  rw [charBytes, if_neg (not_lt.2 hu), hk]
  exact le_of_mem_utf8Bytes u

theorem mem_labelBytes {c : UInt8} (hc : c < 0x80) : c ∈ labelBytes l ↔ c.toNat ∈ l := by
  rw [labelBytes, List.mem_flatMap]
  constructor
  · rintro ⟨u, hu, hmem⟩
    by_cases hlow : u < 0x80
    · rw [charBytes, if_pos hlow, List.mem_singleton] at hmem
      rw [hmem, UInt8.toNat_ofNat', Nat.mod_eq_of_lt (by omega)]
      exact hu
    · exact absurd (le_of_mem_charBytes (not_lt.1 hlow) c hmem) (not_le.2 hc)
  · intro hmem
    refine ⟨c.toNat, hmem, ?_⟩
    have hlow : c.toNat < 0x80 := UInt8.lt_iff_toNat_lt.1 hc
    rw [charBytes, if_pos hlow, UInt8.ofNat_toNat]
    exact List.mem_singleton_self c

theorem any_labelBytes : (labelBytes l).any (0x80 ≤ ·) = true ↔ ∃ u ∈ l, 0x80 ≤ u := by
  rw [List.any_eq_true]
  constructor
  · rintro ⟨c, hc, hle⟩
    rw [labelBytes, List.mem_flatMap] at hc
    obtain ⟨u, hu, hmem⟩ := hc
    refine ⟨u, hu, not_lt.1 fun hlow => ?_⟩
    rw [charBytes, if_pos hlow, List.mem_singleton] at hmem
    rw [hmem, decide_eq_true_eq, UInt8.le_iff_toNat_le, UInt8.toNat_ofNat'] at hle
    have hmod : u % 2 ^ 8 = u := Nat.mod_eq_of_lt (by omega)
    rw [hmod] at hle
    exact absurd hle (not_le.2 hlow)
  · rintro ⟨u, hu, hle⟩
    obtain ⟨c, s, hcs⟩ := List.exists_cons_of_ne_nil (charBytes_ne_nil u)
    have hc : c ∈ charBytes u := by simp [hcs]
    exact ⟨c, List.mem_flatMap.2 ⟨u, hu, hc⟩, decide_eq_true (le_of_mem_charBytes hle c hc)⟩

/-- A label as `UdmIDNEncode` writes it. -/
def aceText (l : List ℕ) (output : List UInt8) : List UInt8 :=
  if (labelBytes l).any (0x80 ≤ ·) then acePrefix ++ output else labelBytes l

/-- A label as `UdmIDNDecode` writes it. -/
def backText (sgml : SgmlChars) (l : List ℕ) : List UInt8 :=
  if (labelBytes l).any (0x80 ≤ ·) then udmConvOutPlain (utf8 sgml) labelLen (l.map fun (u : ℕ) => (u : ℤ))
  else labelBytes l

theorem cstr_eq_self {s : List UInt8} (h : 0 ∉ s) : cstr s = s :=
  List.takeWhile_eq_self_iff.2 fun _ hc => decide_eq_true fun h0 => h (h0 ▸ hc)

theorem map_bmod (hl : ∀ u ∈ l, u < 0x80000000) :
    (l.map fun (cp : ℕ) => (cp : ℤ).bmod 0x100000000) = l.map fun (u : ℕ) => (u : ℤ) := by
  refine List.map_congr_left fun u hu => ?_
  have hlt := hl u hu
  rw [Int.bmod_def]
  omega

/-- **What is written for a label**: it has 251 code points at most, and its encoding. -/
theorem encodeLabel_labelBytes (hl : ∀ u ∈ l, 0 < u ∧ u < 0x80000000) {text : List UInt8}
    (h : encodeLabel P (utf8 sgml) (labelBytes l) = some text) :
    l.length < labelLen ∧ ∃ output, P.encode l = some output ∧ text = aceText l output := by
  have hconv := @udmConvIn_labelBytes sgml l (fun u hu => (hl u hu).2) (labelLen + 1)
  have hpoints : ((l.take (labelLen + 1)).map fun (u : ℕ) => (u : ℤ)).map (fun wc => (wc % 0x100000000).toNat) =
      l.take (labelLen + 1) := by
    rw [List.map_map]
    refine (List.map_congr_left fun u hu => ?_).trans (List.map_id _)
    have hlt := (hl u (List.mem_of_mem_take hu)).2
    rw [Function.comp_apply, id_eq]
    omega
  rw [encodeLabel, udmPunyEncode, hconv] at h
  simp only [List.length_map, List.length_take, hpoints] at h
  by_cases hlen : labelLen ≤ min (labelLen + 1) l.length
  · rw [if_pos hlen, if_pos rfl] at h
    exact nomatch h
  · have hlt : l.length < labelLen := by omega
    rw [if_neg hlen, List.take_of_length_le (by omega)] at h
    refine ⟨hlt, ?_⟩
    cases henc : P.encode l with
    | none =>
      rw [henc, Option.getD_none, if_pos rfl] at h
      exact nomatch h
    | some output =>
      rw [henc, Option.getD_some] at h
      have hzero : 0 ∉ output := by
        intro hmem
        rcases P.mem_encode henc 0 hmem with hmem | hpuny
        · exact lt_irrefl 0 (hl 0 hmem).1
        · exact Bool.noConfusion hpuny
      refine ⟨output, rfl, ?_⟩
      by_cases hempty : output = []
      · rw [if_pos hempty] at h
        exact nomatch h
      · rw [if_neg hempty, cstr_eq_self hzero] at h
        rw [aceText]
        split_ifs at h ⊢ <;> exact (Option.some.inj h).symm

theorem acePrefix_isPrefix (output : List UInt8) : acePrefix <+: acePrefix ++ output := List.prefix_append _ _

theorem backText_spec (sgml : SgmlChars) (hne : l ≠ []) (hl : ∀ u ∈ l, u < 0x80000000) :
    backText sgml l <+: labelBytes l ∧ backText sgml l ≠ [] := by
  obtain ⟨hpre, -, -⟩ := @udmConvOutPlain_isPrefix sgml l hl labelLen
  have hbytes : labelBytes l ≠ [] := by
    obtain ⟨u, s, rfl⟩ := List.exists_cons_of_ne_nil hne
    exact List.append_ne_nil_of_left_ne_nil (charBytes_ne_nil u) _
  rw [backText]
  split_ifs
  · refine ⟨hpre, ?_⟩
    obtain ⟨u, s, rfl⟩ := List.exists_cons_of_ne_nil hne
    rw [List.forall_mem_cons] at hl
    have hlen : (charBytes u).length ≤ 6 := by
      rw [charBytes]
      split_ifs
      · rw [List.length_singleton]
        omega
      · rw [length_utf8Bytes]
        have hcount := utf8Count_le u
        omega
    rw [List.map_cons, udmConvOutPlain, if_neg (by decide), wcMb_utf8 hl.1 (by decide),
      if_neg (not_lt.2 (hlen.trans (by decide)))]
    exact List.append_ne_nil_of_left_ne_nil (charBytes_ne_nil u) _
  · exact ⟨List.prefix_rfl, hbytes⟩

/-- **What is read back of a label.** -/
theorem decodeLabel_aceText (hne : l ≠ []) (hl : ∀ u ∈ l, 0 < u ∧ u < 0x80000000)
    (hace : ¬acePrefix <+: labelBytes l) (hlen : l.length < labelLen) {output : List UInt8}
    (henc : P.encode l = some output) : decodeLabel P (utf8 sgml) (aceText l output) = some (backText sgml l) := by
  obtain ⟨hpre, hback⟩ := backText_spec sgml hne fun u hu => (hl u hu).2
  rw [aceText]
  rw [backText] at hpre hback ⊢
  by_cases hany : (labelBytes l).any (0x80 ≤ ·) = true
  · rw [if_pos hany] at hpre hback
    rw [if_pos hany, if_pos hany]
    have hdec := P.decode_encode henc (by omega)
    have hpoints := map_bmod fun u hu => (hl u hu).2
    have hpuny : udmPunyDecode P (utf8 sgml) ((acePrefix ++ output).drop 4) =
        udmConvOutPlain (utf8 sgml) labelLen (l.map fun (u : ℕ) => (u : ℤ)) := by
      have hdrop : (acePrefix ++ output).drop 4 = output := rfl
      rw [udmPunyDecode, hdrop, hdec, ← hpoints]
    have hzero : 0 ∉ udmConvOutPlain (utf8 sgml) labelLen (l.map fun (u : ℕ) => (u : ℤ)) := by
      intro hmem
      have hmem' := (mem_labelBytes (by decide)).1 (hpre.subset hmem)
      exact lt_irrefl 0 (hl 0 hmem').1
    rw [decodeLabel, if_pos (List.isPrefixOf_iff_prefix.2 (acePrefix_isPrefix output)), hpuny, if_neg hback,
      cstr_eq_self hzero]
  · rw [if_neg hany, if_neg hany, decodeLabel, if_neg fun h => hace (List.isPrefixOf_iff_prefix.1 h)]

end Labels

/-! ## Names -/

section Names

variable {P : Punycode} {sgml : SgmlChars} {n : HostName} {enclen : ℕ} {l : List ℕ}

/-- What `punycode_encode` gives for a label. -/
def aceOf (P : Punycode) (l : List ℕ) : List UInt8 := (P.encode l).getD []

theorem dot_not_mem_labelBytes (hl : l ∈ n.labels) : 0x2E ∉ labelBytes l := fun hmem =>
  n.no_dot l hl ((mem_labelBytes (by decide)).1 hmem)

theorem splitOn_text (n : HostName) : n.text.splitOn 0x2E = n.labels.map labelBytes := by
  refine List.splitOn_intercalate 0x2E (fun s hs => ?_) fun h => n.ne_nil (List.map_eq_nil_iff.1 h)
  obtain ⟨l, hl, rfl⟩ := List.mem_map.1 hs
  exact dot_not_mem_labelBytes hl

theorem eq_map_of_forall₂ {ls : List (List ℕ)} (hls : ∀ l ∈ ls, ∀ u ∈ l, 0 < u ∧ u < 0x80000000)
    {texts : List (List UInt8)}
    (h : List.Forall₂ (fun label text => encodeLabel P (utf8 sgml) label = some text) (ls.map labelBytes) texts) :
    texts = ls.map (fun l => aceText l (aceOf P l)) ∧ ∀ l ∈ ls, P.encode l = some (aceOf P l) ∧ l.length < labelLen := by
  induction ls generalizing texts with
  | nil =>
    rw [List.map_nil, List.forall₂_nil_left_iff] at h
    exact ⟨h, by simp⟩
  | cons l ls ih =>
    rw [List.forall_mem_cons] at hls
    rw [List.map_cons, List.forall₂_cons_left_iff] at h
    obtain ⟨text, rest, htext, hrest, rfl⟩ := h
    obtain ⟨hlen, output, henc, rfl⟩ := encodeLabel_labelBytes hls.1 htext
    obtain ⟨hmap, hall⟩ := ih hls.2 hrest
    have hace : aceOf P l = output := by rw [aceOf, henc, Option.getD_some]
    refine ⟨by rw [List.map_cons, ← hmap, hace], fun l' hl' => ?_⟩
    rcases List.mem_cons.1 hl' with rfl | hl'
    · exact ⟨by rw [hace, henc], hlen⟩
    · exact hall l' hl'

theorem aceText_spec (hl : l ∈ n.labels) (henc : P.encode l = some (aceOf P l)) :
    aceText l (aceOf P l) ≠ [] ∧ 0x2E ∉ aceText l (aceOf P l) := by
  rw [aceText]
  split_ifs
  · refine ⟨List.append_ne_nil_of_left_ne_nil (by decide) _, fun hmem => ?_⟩
    rcases List.mem_append.1 hmem with hmem | hmem
    · exact absurd hmem (by decide)
    · rcases P.mem_encode henc _ hmem with hmem | hpuny
      · exact n.no_dot l hl hmem
      · exact Bool.noConfusion hpuny
  · refine ⟨?_, dot_not_mem_labelBytes hl⟩
    obtain ⟨u, s, rfl⟩ := List.exists_cons_of_ne_nil (n.label_ne_nil l hl)
    exact List.append_ne_nil_of_left_ne_nil (charBytes_ne_nil u) _

/-- **A name that is encoded**: the texts of its labels with dots between them. -/
theorem udmIDNEncode_text (h : udmIDNEncode P (utf8 sgml) enclen n.text ≠ []) :
    udmIDNEncode P (utf8 sgml) enclen n.text = [0x2E].intercalate (n.labels.map fun l => aceText l (aceOf P l)) ∧
      ∀ l ∈ n.labels, P.encode l = some (aceOf P l) ∧ l.length < labelLen := by
  rw [udmIDNEncode, splitOn_text] at h ⊢
  cases hloop : labelLoop (encodeLabel P (utf8 sgml)) enclen [] (n.labels.map labelBytes) with
  | none =>
    rw [hloop] at h
    exact absurd rfl h
  | some r =>
    obtain ⟨texts, hall, rfl⟩ := eq_joined_of_labelLoop hloop
    obtain ⟨rfl, hmem⟩ := eq_map_of_forall₂ n.valid hall
    refine ⟨?_, hmem⟩
    rw [Option.getD_some, joined_nil]
    intro text htext
    obtain ⟨l, hl, rfl⟩ := List.mem_map.1 htext
    exact (aceText_spec hl (hmem l hl).1).1

theorem splitOn_udmIDNEncode (h : udmIDNEncode P (utf8 sgml) enclen n.text ≠ []) :
    (udmIDNEncode P (utf8 sgml) enclen n.text).splitOn 0x2E = n.labels.map fun l => aceText l (aceOf P l) := by
  obtain ⟨htext, hmem⟩ := udmIDNEncode_text h
  rw [htext]
  refine List.splitOn_intercalate 0x2E (fun s hs => ?_) fun h => n.ne_nil (List.map_eq_nil_iff.1 h)
  obtain ⟨l, hl, rfl⟩ := List.mem_map.1 hs
  exact (aceText_spec hl (hmem l hl).1).2

theorem length_intercalate_le {α : Type} {ls : List α} {f g : α → List UInt8}
    (h : ∀ l ∈ ls, (f l).length ≤ (g l).length) :
    ([0x2E].intercalate (ls.map f)).length ≤ ([0x2E].intercalate (ls.map g)).length := by
  induction ls with
  | nil => rfl
  | cons l ls ih =>
    rw [List.forall_mem_cons] at h
    cases ls with
    | nil => simpa using h.1
    | cons l' ls =>
      have hrest := ih h.2
      rw [List.map_cons, List.map_cons] at hrest ⊢
      rw [List.map_cons, List.map_cons, List.intercalate_cons_cons, List.intercalate_cons_cons]
      simp only [List.length_append]
      exact Nat.add_le_add (Nat.add_le_add h.1 le_rfl) hrest

/-- **What is read back of a name.** -/
theorem udmIDNDecode_encode {declen : ℕ} (h : udmIDNEncode P (utf8 sgml) enclen n.text ≠ [])
    (hroom : n.text.length < declen) :
    udmIDNDecode P (utf8 sgml) declen (udmIDNEncode P (utf8 sgml) enclen n.text) =
      [0x2E].intercalate (n.labels.map (backText sgml)) := by
  obtain ⟨-, hmem⟩ := udmIDNEncode_text h
  have hback : ∀ l ∈ n.labels, backText sgml l <+: labelBytes l ∧ backText sgml l ≠ [] := fun l hl =>
    backText_spec sgml (n.label_ne_nil l hl) fun u hu => (n.valid l hl u hu).2
  have hall : List.Forall₂ (fun label text => decodeLabel P (utf8 sgml) label = some text)
      (n.labels.map fun l => aceText l (aceOf P l)) (n.labels.map (backText sgml)) := by
    rw [List.forall₂_map_left_iff, List.forall₂_map_right_iff, List.forall₂_same]
    exact fun l hl =>
      decodeLabel_aceText (n.label_ne_nil l hl) (n.valid l hl) (n.not_ace l hl) (hmem l hl).2 (hmem l hl).1
  have hjoined : joined [] (n.labels.map (backText sgml)) = [0x2E].intercalate (n.labels.map (backText sgml)) := by
    apply joined_nil
    intro text htext
    obtain ⟨l, hl, rfl⟩ := List.mem_map.1 htext
    exact (hback l hl).2
  have hlen : (joined [] (n.labels.map (backText sgml))).length < declen + ([] : List UInt8).length := by
    rw [hjoined, List.length_nil, Nat.add_zero]
    exact (length_intercalate_le fun l hl => (hback l hl).1.length_le).trans_lt hroom
  rw [udmIDNDecode, splitOn_udmIDNEncode h, labelLoop_eq_joined hall hlen, Option.getD_some, hjoined]

theorem backText_eq_iff (hl : ∀ u ∈ l, u < 0x80000000) :
    backText sgml l = labelBytes l ↔ ((∃ u ∈ l, 0x80 ≤ u) → (labelBytes l).length ≤ labelLen) := by
  obtain ⟨-, hlen, hfull⟩ := @udmConvOutPlain_isPrefix sgml l hl labelLen
  rw [backText, ← any_labelBytes]
  by_cases hany : (labelBytes l).any (0x80 ≤ ·) = true
  · rw [if_pos hany]
    exact ⟨fun h _ => h ▸ hlen, fun h => hfull (h hany)⟩
  · rw [if_neg hany]
    exact iff_of_true rfl fun h => absurd h hany

/-- **A name comes back exactly if its labels fit.** -/
theorem intercalate_backText_iff (n : HostName) :
    [0x2E].intercalate (n.labels.map (backText sgml)) = n.text ↔ n.Fits := by
  have hlabel : ∀ l ∈ n.labels, backText sgml l = labelBytes l ↔
      ((∃ u ∈ l, 0x80 ≤ u) → (labelBytes l).length ≤ labelLen) := fun l hl =>
    backText_eq_iff fun u hu => (n.valid l hl u hu).2
  constructor
  · intro h l hl
    have hsplit := congrArg (fun s : List UInt8 => s.splitOn 0x2E) h
    simp only [splitOn_text] at hsplit
    rw [List.splitOn_intercalate] at hsplit
    · exact (hlabel l hl).1 (List.map_inj_left.1 hsplit l hl)
    · intro s hs
      obtain ⟨l', hl', rfl⟩ := List.mem_map.1 hs
      have hpre := (backText_spec sgml (n.label_ne_nil l' hl') fun u hu => (n.valid l' hl' u hu).2).1
      exact fun hmem => dot_not_mem_labelBytes hl' (hpre.subset hmem)
    · exact fun h => n.ne_nil (List.map_eq_nil_iff.1 h)
  · intro h
    rw [HostName.text, List.map_congr_left fun l hl => (hlabel l hl).2 (h l hl)]

theorem convertedIn_of_encode (h : udmIDNEncode P (utf8 sgml) enclen n.text ≠ []) :
    ∀ label ∈ n.text.splitOn 0x2E, ConvertedIn (utf8 sgml) label := by
  obtain ⟨-, hmem⟩ := udmIDNEncode_text h
  intro label hlabel room hroom
  rw [splitOn_text] at hlabel
  obtain ⟨l, hl, rfl⟩ := List.mem_map.1 hlabel
  have hlen := (hmem l hl).2
  have hvalid : ∀ u ∈ l, u < 0x80000000 := fun u hu => (n.valid l hl u hu).2
  rw [udmConvIn_labelBytes hvalid, udmConvIn_labelBytes hvalid, List.take_of_length_le (by omega),
    List.take_of_length_le (by omega)]

theorem convertedOut_of_fits (h : udmIDNEncode P (utf8 sgml) enclen n.text ≠ []) (hfits : n.Fits)
    {label : List UInt8} (hlabel : label ∈ (udmIDNEncode P (utf8 sgml) enclen n.text).splitOn 0x2E)
    (hace : acePrefix <+: label) {output : List ℕ} (hdec : P.decode (label.drop 4) = some output) :
    ConvertedOut (utf8 sgml) output := by
  obtain ⟨-, hmem⟩ := udmIDNEncode_text h
  rw [splitOn_udmIDNEncode h] at hlabel
  obtain ⟨l, hl, rfl⟩ := List.mem_map.1 hlabel
  obtain ⟨henc, hlen⟩ := hmem l hl
  have hvalid : ∀ u ∈ l, u < 0x80000000 := fun u hu => (n.valid l hl u hu).2
  rw [aceText] at hace hdec
  by_cases hany : (labelBytes l).any (0x80 ≤ ·) = true
  · rw [if_pos hany] at hdec
    have hback := P.decode_encode henc (by omega)
    have hdrop : (acePrefix ++ aceOf P l).drop 4 = aceOf P l := rfl
    rw [hdrop, hback, Option.some.injEq] at hdec
    subst hdec
    have hshort := hfits l hl (any_labelBytes.1 hany)
    intro room hroom
    rw [map_bmod hvalid, ((udmConvOutPlain_isPrefix hvalid _).2.2 hshort),
      ((udmConvOutPlain_isPrefix hvalid _).2.2 (hshort.trans hroom))]
  · rw [if_neg hany] at hace
    exact absurd hace (n.not_ace l hl)

end Names

/-- **International names come back, with no label shortened, exactly if every label that is not ASCII has at most 252
bytes.** -/
theorem idnRight_iff (P : Punycode) (sgml : SgmlChars) (n : HostName) (enclen declen : ℕ)
    (henc : udmIDNEncode P (utf8 sgml) enclen n.text ≠ []) (hroom : n.text.length < declen) :
    IdnRight P (utf8 sgml) n enclen declen ↔ n.Fits := by
  constructor
  · intro h
    have hback := h.back
    rw [udmIDNDecode_encode henc hroom] at hback
    exact (intercalate_backText_iff n).1 hback
  · intro hfits
    refine ⟨?_, ?_, ?_⟩
    · rw [udmIDNDecode_encode henc hroom]
      exact (intercalate_backText_iff n).2 hfits
    · rintro ⟨label, hlabel, hnot⟩
      exact absurd (convertedIn_of_encode henc label hlabel) hnot
    · rintro ⟨label, hlabel, hace, output, hdec, hnot⟩
      exact absurd (convertedOut_of_fits henc hfits hlabel hace hdec) hnot

/-- A name with a label that is not ASCII, and one that is. -/
def cafe : HostName where
  labels := [[0x63, 0x61, 0x66, 0xE9], [0x6F, 0x72, 0x67]]
  ne_nil := by decide
  label_ne_nil := by decide
  valid := by decide
  no_dot := by decide
  not_ace := by decide

theorem idnRight_cafe : IdnRight rfc3492 (utf8 noNames) cafe 64 64 :=
  (idnRight_iff rfc3492 noNames cafe 64 64 (by decide +kernel) (by decide)).2 (by decide)

/-- A label with 85 characters of three bytes each. -/
def longName : HostName where
  labels := [List.replicate 85 0x4E00]
  ne_nil := by decide
  label_ne_nil := by decide
  valid := by decide
  no_dot := by decide
  not_ace := by decide +kernel

/-- One that has 255 bytes is shortened. -/
theorem not_forall_idnRight :
    ¬∀ (P : Punycode) (sgml : SgmlChars) (n : HostName) (enclen declen : ℕ),
      udmIDNEncode P (utf8 sgml) enclen n.text ≠ [] → n.text.length < declen → IdnRight P (utf8 sgml) n enclen declen := by
  intro h
  have henc : udmIDNEncode rfc3492 (utf8 noNames) 1024 longName.text ≠ [] := by decide +kernel
  have hroom : longName.text.length < 1024 := by decide +kernel
  have hback := (h rfc3492 noNames longName 1024 1024 henc hroom).back
  rw [udmIDNDecode_encode henc hroom] at hback
  have hfits := (intercalate_backText_iff longName).1 hback (List.replicate 85 0x4E00) (by decide)
    ⟨0x4E00, by decide, by decide⟩
  exact absurd hfits (by decide +kernel)

end MnoGoSearch.Idn
