import MnoGoSearch.Http.Response
import MnoGoSearch.Spell.SpellList

/-!
# Affix files

`UdmAffixListLoad` (`spell.c`) reads the rules for the endings and the beginnings of words, one in a line: a regular
expression for the words that a rule is for, what is taken away from such a word, and what is added to it.
-/

namespace MnoGoSearch.Spell

open Words
open Url (bytes strcaseeq)
open Http (udmTrim)

/-- `type` of a rule. -/
inductive AffixType where
  | s
  | p
  deriving DecidableEq

/-- `UDM_AFFIX`: a rule. -/
structure UdmAffix where
  /-- The letter of the rule. -/
  flag : UInt8
  /-- Where it changes a word. -/
  type : AffixType
  find : CString
  repl : CString
  /-- The regular expression of the words. -/
  mask : CString
  deriving DecidableEq

/-- `findlen`. -/
def UdmAffix.findlen (Ab : UdmAffix) : ℕ := Ab.find.val.length

/-- `replen`. -/
def UdmAffix.replen (Ab : UdmAffix) : ℕ := Ab.repl.val.length

/-! ## Reading a file -/

/-- What `fgets` gives, call after call, from a buffer that has room for `size` bytes and a NUL; `room` bytes can be added to
what is read of a line. -/
def fgets (size : ℕ) : ℕ → List UInt8 → List UInt8 → List (List UInt8)
  | _, line, [] => if line = [] then [] else [line]
  | room, line, c :: file =>
    if c = 0x0A ∨ room ≤ 1 then (line ++ [c]) :: fgets size size [] file else fgets size (room - 1) (line ++ [c]) file

/-- `rmsp`: spaces, hyphens and tabs are removed. -/
def rmsp (s : List UInt8) : List UInt8 := s.filter fun c => !(bytes " -\t").contains c

/-- What `sscanf` finds in a line, `"%[^>\n]>%[^,\n],%[^\n]"`: the mask, `find` and, if it is there, `repl`. -/
def sscanfRule (str : List UInt8) : Option (List UInt8 × List UInt8 × Option (List UInt8)) :=
  let mask := str.takeWhile fun c => c ≠ 0x3E ∧ c ≠ 0x0A
  if mask = [] then none
  else
    match str.drop mask.length with
    | 0x3E :: rest =>
      let find := rest.takeWhile fun c => c ≠ 0x2C ∧ c ≠ 0x0A
      if find = [] then none
      else
        match rest.drop find.length with
        | 0x2C :: rest =>
          let repl := rest.takeWhile (· ≠ 0x0A)
          some (mask, find, if repl = [] then none else some repl)
        | _ => some (mask, find, none)
    | _ => none

/-- What `UdmAffixListLoad` keeps from line to line. -/
structure AffixReader where
  /-- `suffixes` and `prefixes`. -/
  type : Option AffixType
  /-- The letter of the rules that follow. -/
  flag : UInt8
  items : List UdmAffix

section Load

/- `lower` is `UdmStrToLower`, which keeps the length, and `regcomp` says whether an expression is well-formed. -/
variable (noPrefixes : Bool) (lower : CString → CString) (regcomp : CString → Bool)

/-- The rule in a line. -/
def readRule (type : AffixType) (flag : UInt8) (str : List UInt8) : Option UdmAffix :=
  (sscanfRule str).map fun (mask, find, repl) =>
    let find := lower (CString.take (rmsp find))
    let mask := (lower (CString.take (rmsp mask))).val
    let mask := match type with
      | .s => mask ++ bytes "$"
      | .p => bytes "^" ++ mask
    match repl with
    | some repl => ⟨flag, type, find, lower (CString.take (rmsp repl)), CString.take mask⟩
    -- without a comma the one text is what is added
    | none => ⟨flag, type, CString.empty, find, CString.take mask⟩

/-- A round of the loop in `UdmAffixListLoad`. It is `none` when a mask is refused; also when a line ends before its flag:
the loop then goes on behind the NUL, and nothing is said here about what stands there. -/
def readAffixLine (st : AffixReader) (strbuf : List UInt8) : Option AffixReader :=
  let str := udmTrim (bytes "\t ") (CString.take strbuf).val
  if strcaseeq (str.take 8) (bytes "suffixes") then some { st with type := some .s }
  else if strcaseeq (str.take 8) (bytes "prefixes") then some { st with type := some .p }
  else if strcaseeq (str.take 5) (bytes "flag ") then
    ((str.drop 5).dropWhile fun c => (bytes "* ").contains c).head?.map fun flag => { st with flag }
  else
    match st.type with
    | none => some st
    | some type =>
      if type = .p ∧ noPrefixes then some st
      else
        match readRule lower type st.flag (str.takeWhile (· ≠ 0x23)) with
        | none => some st
        | some A => if regcomp A.mask then some { st with items := st.items ++ [A] } else none

/-- `UdmAffixListLoad`, with the bytes of the file; `noPrefixes` is the flag `UDM_SPELL_NOPREFIX`. -/
def udmAffixListLoad (file : List UInt8) : Option (List UdmAffix) :=
  ((fgets 127 127 [] file).foldlM (readAffixLine noPrefixes lower regcomp) ⟨none, 0, []⟩).map AffixReader.items

end Load

/-- A rule as an ispell file writes it. -/
example : udmAffixListLoad true id (fun _ => true) (bytes "suffixes\nflag *D:\n  [^e] > -y,ied # carry\n") =
    some [⟨0x44, .s, CString.take (bytes "y"), CString.take (bytes "ied"), CString.take (bytes "[^e]$")⟩] := by
  decide +kernel

end MnoGoSearch.Spell
