import MnoGoSearch.Lib.Machine
import MnoGoSearch.Template.Program
import MnoGoSearch.Template.Text
import Mathlib

/-!
# Templates that are printed into memory

`UdmTemplatePrint` with a buffer and no stream. A text or a tag is printed behind the last one, and
the other commands print their arguments into memory of their own, whose size is taken from the length
of the argument. A character is written with a NUL behind it, so that the last byte must not be a
character; the value of a variable is written as far as there is room, but counted with its length.
-/

namespace MnoGoSearch.Template

open MnoGoSearch.Lib (Buffer)
open Lib.Machine

variable {V : Type}

/-! ### Commands -/

/-- What templates are printed with. -/
structure TmplAgent (V : Type) extends Agent V where
  /-- A tag, with the attribute `selected` if its variable has its value: the text that
  `PrintTagTemplate` prints. -/
  tagText : V → List UInt8 → List UInt8
  /-- What a command does with an argument that it has printed. -/
  useArg : PrgItem → ℕ → List UInt8 → V → V
  /-- What a command does besides. -/
  effect : PrgItem → V → V
  malloc : (size : ℕ) → { bytes : List UInt8 // bytes.length = size }
  Float : Type
  atof : List UInt8 → Float
  /-- `<=`. -/
  le : Float → Float → Bool
  /-- `<`. -/
  lt : Float → Float → Bool

/-- `UDM_TEMPLATE`, and what has gone wrong. -/
structure TmplState (V : Type) where
  vars : V
  buf : Buffer
  dst : ℕ
  dstlen : ℕ
  /-- `dstlen` was below zero. -/
  wrapped : Bool
  /-- A command wrote behind its own memory, or had no string in it. -/
  strayed : Bool

/-- An argument is printed into memory of some size. -/
def printArg (A : TmplAgent V) (size : ℕ) (arg : List UInt8) (s : TmplState V) : List UInt8 × TmplState V :=
  let r := printTextTemplate A.toAgent false ⟨(A.malloc size).val, false⟩ 0 size s.vars arg
  (r.buf.str, { s with vars := r.vars, strayed := s.strayed || r.buf.overflow || !r.buf.bytes.contains 0 })

/-- The sizes and the arguments that a command prints. -/
def printedArgs (e : Exec) (it : PrgItem) : List (ℕ × List UInt8) :=
  let arg1 := it.arg1.getD []
  match e with
  | .copy | .setOrPut | .include | .num2 | .func2 => [(256 + 4 * arg1.length, arg1)]
  | .method => (it.arg1.toList ++ it.arg2.toList).map fun arg => (4 * 256 + 4 * arg.length, arg)
  | _ => []

/-- A command prints its arguments, from the `j`-th on. -/
def printArgs (A : TmplAgent V) (it : PrgItem) (s : TmplState V) : ℕ → List (ℕ × List UInt8) → TmplState V
  | _, [] => s
  | j, (size, arg) :: args =>
    let (str, s') := printArg A size arg s
    printArgs A it { s' with vars := A.useArg it j str s'.vars } (j + 1) args

/-- The text of an item: `it->arg[0]`, or the tag. -/
def itemText (A : TmplAgent V) (it : PrgItem) (vars : V) : List UInt8 :=
  if it.cmdnum = .tmplTag then A.tagText vars (it.arg0.getD []) else it.arg0.getD []

/-- `TemplateTagOrText`. -/
def templateTagOrText (A : TmplAgent V) (it : PrgItem) (s : TmplState V) : TmplState V :=
  let r := printTextTemplate A.toAgent true s.buf s.dst s.dstlen s.vars (itemText A it s.vars)
  { s with
    vars := r.vars
    buf := r.buf
    dst := s.dst + r.dlen
    dstlen := if r.dlen ≤ s.dstlen then s.dstlen - r.dlen else 2 ^ 64 + s.dstlen - r.dlen
    wrapped := s.wrapped || decide (s.dstlen < r.dlen) }

/-- The commands on memory. -/
def TmplAgent.host (A : TmplAgent V) : Host (TmplState V) where
  varListFindStr s name := udmRemoveHiLightDup (((A.varListFind s.vars name).bind TmplVar.val).getD [])
  printTextTemplate s size arg := printArg A size arg s
  Float := A.Float
  atof := A.atof
  le := A.le
  lt := A.lt
  exec e it s :=
    if e = .tagOrText then templateTagOrText A it s
    else
      let s' := printArgs A it s 0 (printedArgs e it)
      { s' with vars := A.effect it s'.vars }

/-- The state of `UdmTemplatePrint` before the program runs. -/
def startPrint (vars : V) (dst : List UInt8) : RunState (TmplState V) :=
  ⟨0, false, vars, (Buffer.mk dst false).write 0 0, 0, dst.length, false, false⟩

/-- A state that a template is in while it is printed into memory. -/
def Reached (A : TmplAgent V) (prg : Prg) (vars : V) (dst : List UInt8) (c : RunState (TmplState V)) : Prop :=
  ∃ k T, Steps (printHtmlTemplateStep A.host prg.items) k (startPrint vars dst) T c

/-- **Nothing has gone wrong**: every write was in its buffer, `dstlen` has not been below zero, and
the buffers had strings. -/
structure InBuffer (s : TmplState V) : Prop where
  /-- The writes to the buffer of the caller. -/
  within : s.buf.overflow = false
  /-- A NUL is in the buffer of the caller. -/
  terminated : 0 ∈ s.buf.bytes
  not_wrapped : s.wrapped = false
  not_strayed : s.strayed = false

/-! ### What fits -/

/-- What a piece of a text is printed as. -/
inductive Chunk
  | char
  | value (len : ℕ)

/-- How long it is. -/
def Chunk.len : Chunk → ℕ
  | .char => 1
  | .value len => len

/-- The lengths of what pieces are printed as. -/
def chunks (A : Agent V) (autoEscape : Bool) : V → List Piece → List Chunk
  | _, [] => []
  | vars, .char _ :: ps => .char :: chunks A autoEscape vars ps
  | vars, .var ref :: ps =>
    .value (printRef A autoEscape (countNdocs A ref.name vars) ref).length ::
      chunks A autoEscape (countNdocs A ref.name vars) ps

/-- The length of all. -/
def total (cs : List Chunk) : ℕ := (cs.map Chunk.len).sum

/-- No character takes the last byte of memory of some size, of which `d` bytes are printed. -/
def CharsFit (size d : ℕ) (cs : List Chunk) : Prop :=
  ∀ pre post, cs = pre ++ .char :: post → d + total pre + 1 ≠ size

/-- No value begins in the memory and ends behind it. -/
def ValuesFit (size d : ℕ) (cs : List Chunk) : Prop :=
  ∀ pre len post, cs = pre ++ .value len :: post → d + total pre < size → d + total pre + len ≤ size

@[simp] theorem total_nil : total [] = 0 := rfl

@[simp] theorem total_cons (ch : Chunk) (cs : List Chunk) : total (ch :: cs) = ch.len + total cs := by simp [total]

theorem charsFit_nil (size d : ℕ) : CharsFit size d [] := by
  intro pre post h
  simp at h

variable {size d : ℕ} {cs : List Chunk}

theorem charsFit_char : CharsFit size d (.char :: cs) ↔ d + 1 ≠ size ∧ CharsFit size (d + 1) cs := by
  constructor
  · intro h
    refine ⟨h [] cs rfl, fun pre post heq => ?_⟩
    have := h (.char :: pre) post (by rw [heq]; rfl)
    simp only [total_cons, Chunk.len] at this
    omega
  · rintro ⟨hne, h⟩ pre post heq
    cases pre with
    | nil => exact hne
    | cons ch pre =>
      obtain ⟨rfl, rfl⟩ := List.cons.inj heq
      have := h pre post rfl
      simp only [total_cons, Chunk.len]
      omega

variable {len : ℕ}

theorem charsFit_value : CharsFit size d (.value len :: cs) ↔ CharsFit size (d + len) cs := by
  constructor
  · intro h pre post heq
    have := h (.value len :: pre) post (by rw [heq]; rfl)
    simp only [total_cons, Chunk.len] at this
    omega
  · intro h pre post heq
    cases pre with
    | nil => cases heq
    | cons ch pre =>
      obtain ⟨rfl, rfl⟩ := List.cons.inj heq
      have := h pre post rfl
      simp only [total_cons, Chunk.len]
      omega

theorem charsFit_of_le (h : size ≤ d) (cs : List Chunk) : CharsFit size d cs :=
  fun pre post _ => by omega

theorem valuesFit_nil (size d : ℕ) : ValuesFit size d [] := by
  intro pre len post h
  simp at h

theorem valuesFit_char : ValuesFit size d (.char :: cs) ↔ ValuesFit size (d + 1) cs := by
  constructor
  · intro h pre len post heq
    have := h (.char :: pre) len post (by rw [heq]; rfl)
    simp only [total_cons, Chunk.len] at this
    omega
  · intro h pre len post heq
    cases pre with
    | nil => cases heq
    | cons ch pre =>
      obtain ⟨rfl, rfl⟩ := List.cons.inj heq
      have := h pre len post rfl
      simp only [total_cons, Chunk.len]
      omega

theorem valuesFit_value :
    ValuesFit size d (.value len :: cs) ↔ (d < size → d + len ≤ size) ∧ ValuesFit size (d + len) cs := by
  constructor
  · intro h
    refine ⟨h [] len cs rfl, fun pre len' post heq => ?_⟩
    have := h (.value len :: pre) len' post (by rw [heq]; rfl)
    simp only [total_cons, Chunk.len] at this
    omega
  · rintro ⟨hle, h⟩ pre len' post heq
    cases pre with
    | nil =>
      cases heq
      exact hle
    | cons ch pre =>
      obtain ⟨rfl, rfl⟩ := List.cons.inj heq
      have := h pre len' post rfl
      simp only [total_cons, Chunk.len]
      omega

theorem valuesFit_of_le (h : size ≤ d) (cs : List Chunk) : ValuesFit size d cs :=
  fun pre len post _ hlt => by omega

/-! ### One text -/

/-- The string of the buffer ends where the next piece goes, or with the last byte of the room. -/
def EndsAt (buf : Buffer) (dst dstLen dlen : ℕ) : Prop :=
  (dlen < dstLen → buf.NulAt (dst + dlen)) ∧ (dstLen ≤ dlen → buf.NulAt (dst + dstLen - 1))

variable {dstLen : ℕ}

theorem printPieces_of_le (A : Agent V) (autoEscape : Bool) (dst : ℕ) (ps : List Piece) {s : PrintState V}
    (h : dstLen ≤ s.dlen) : printPieces A autoEscape dst dstLen s ps = s := by
  cases ps with
  | nil => rfl
  | cons p ps => cases p <;> simp only [printPieces, if_neg (Nat.not_lt.2 h)]

/-- **The loop** of `PrintTextTemplate`, when there is room left: what is written is in the memory if
and only if the characters fit, and what is counted is not more than the room if and only if the
values fit. -/
theorem printPieces_spec (A : Agent V) (autoEscape : Bool) {dst : ℕ} (ps : List Piece) (s : PrintState V)
    (hsize : dst + dstLen = s.buf.bytes.length) (hlt : s.dlen < dstLen) (hnul : s.buf.NulAt (dst + s.dlen))
    (hover : s.buf.overflow = false) :
    let r := printPieces A autoEscape dst dstLen s ps
    r.buf.bytes.length = s.buf.bytes.length ∧
      (r.buf.overflow = false ↔ CharsFit dstLen s.dlen (chunks A autoEscape s.vars ps)) ∧
      (r.dlen ≤ dstLen ↔ ValuesFit dstLen s.dlen (chunks A autoEscape s.vars ps)) ∧
      (r.buf.overflow = false → EndsAt r.buf dst dstLen r.dlen) := by
  induction ps generalizing s with
  | nil =>
    refine ⟨rfl, ?_, ?_, fun _ => ⟨fun _ => hnul, fun h => absurd h (Nat.not_le.2 hlt)⟩⟩
    · simp [printPieces, chunks, hover, charsFit_nil]
    · simp [printPieces, chunks, valuesFit_nil, hlt.le]
  | cons p ps ih =>
    simp only [printPieces, if_pos hlt]
    have hlen := hnul.lt
    cases p with
    | char c =>
      simp only [chunks, charsFit_char, valuesFit_char]
      rcases Nat.lt_or_ge (s.dlen + 1) dstLen with hroom | hfull
      · have hover' : ((s.buf.write (dst + s.dlen) c).write (dst + s.dlen + 1) 0).overflow = false := by
          simp only [Buffer.overflow_write, hover, Buffer.length_write, Bool.false_or, Bool.or_eq_false_iff,
            decide_eq_false_iff_not]
          omega
        have hnul' := Buffer.nulAt_write (b := s.buf.write (dst + s.dlen) c) (i := dst + s.dlen + 1) (by simp; omega)
        obtain ⟨h1, h2, h3, h4⟩ := ih ⟨(s.buf.write (dst + s.dlen) c).write (dst + s.dlen + 1) 0, s.dlen + 1, s.vars⟩
          (by simpa using hsize) hroom hnul' hover'
        exact ⟨by simpa using h1, h2.trans (by simp [hroom.ne]), h3, h4⟩
      · -- the character takes the last byte, and the NUL is written behind the memory
        have hover' : ((s.buf.write (dst + s.dlen) c).write (dst + s.dlen + 1) 0).overflow = true := by
          simp only [Buffer.overflow_write, Buffer.length_write, Bool.or_eq_true, decide_eq_true_eq]
          omega
        have heq : s.dlen + 1 = dstLen := by omega
        rw [printPieces_of_le A autoEscape dst ps hfull]
        refine ⟨by simp, ?_, ?_, fun h => nomatch hover'.symm.trans h⟩
        · simp [hover', heq]
        · simp [heq, valuesFit_of_le le_rfl]
    | var ref =>
      simp only [chunks, charsFit_value, valuesFit_value]
      generalize printRef A autoEscape (countNdocs A ref.name s.vars) ref = text
      have hle : dst + s.dlen + (dstLen - s.dlen - 1) < s.buf.bytes.length := by omega
      have hover' := (Buffer.overflow_strncat (s := text) hnul hle).trans hover
      have hnul' := Buffer.nulAt_strncat (s := text) hnul hle
      rcases Nat.lt_or_ge (s.dlen + text.length) dstLen with hroom | hfull
      · rw [Nat.min_eq_right (by omega), Nat.add_assoc] at hnul'
        obtain ⟨h1, h2, h3, h4⟩ := ih ⟨s.buf.strncat (dst + s.dlen) text (dstLen - s.dlen - 1), s.dlen + text.length,
          countNdocs A ref.name s.vars⟩ (by simpa using hsize) hroom hnul' hover'
        refine ⟨by simpa using h1, h2, ?_, h4⟩
        rw [h3]
        exact ⟨fun h => ⟨fun _ => hroom.le, h⟩, And.right⟩
      · rw [Nat.min_eq_left (by omega)] at hnul'
        rw [printPieces_of_le A autoEscape dst ps hfull]
        refine ⟨by simp, ?_, ?_, fun _ => ⟨fun h => absurd hfull (Nat.not_le.2 h), fun _ => ?_⟩⟩
        · simp [hover', charsFit_of_le hfull]
        · simp [hlt, valuesFit_of_le hfull]
        · rwa [show dst + s.dlen + (dstLen - s.dlen - 1) = dst + dstLen - 1 by omega] at hnul'

/-- **A text** that is printed into memory with room for a byte. -/
theorem printTextTemplate_spec (A : Agent V) (autoEscape : Bool) (buf : Buffer) (dst : ℕ) (vars : V)
    (templ : List UInt8) (hsize : dst + dstLen = buf.bytes.length) (hpos : 0 < dstLen) (hover : buf.overflow = false) :
    let r := printTextTemplate A autoEscape buf dst dstLen vars templ
    r.buf.bytes.length = buf.bytes.length ∧
      (r.buf.overflow = false ↔ CharsFit dstLen 0 (chunks A autoEscape vars (pieces templ))) ∧
      (r.dlen ≤ dstLen ↔ ValuesFit dstLen 0 (chunks A autoEscape vars (pieces templ))) ∧
      (r.buf.overflow = false → EndsAt r.buf dst dstLen r.dlen) := by
  have hspec := printPieces_spec A autoEscape (pieces templ) ⟨buf.write dst 0, 0, vars⟩ (by simpa using hsize) hpos
    (Buffer.nulAt_write (by omega)) (by
      simp only [Buffer.overflow_write, hover, Bool.false_or, decide_eq_false_iff_not]
      omega)
  simp only [Buffer.length_write] at hspec
  exact hspec

/-! ### Runs -/

/-- A text fits in what is left of the buffer: there is room for a byte, no character takes the last
one, and no value begins in the buffer and ends behind it. -/
def TextFits (A : TmplAgent V) (it : PrgItem) (s : TmplState V) : Prop :=
  0 < s.dstlen ∧ CharsFit s.dstlen 0 (chunks A.toAgent true s.vars (pieces (itemText A it s.vars))) ∧
    ValuesFit s.dstlen 0 (chunks A.toAgent true s.vars (pieces (itemText A it s.vars)))

/-- An argument fits in its memory: no character takes the last byte. -/
def ArgFits (A : TmplAgent V) (size : ℕ) (arg : List UInt8) (s : TmplState V) : Prop :=
  CharsFit size 0 (chunks A.toAgent false s.vars (pieces arg))

/-- The arguments of a command fit, each with the variables at its time. -/
def ArgsFit (A : TmplAgent V) (it : PrgItem) (s : TmplState V) : ℕ → List (ℕ × List UInt8) → Prop
  | _, [] => True
  | j, (size, arg) :: args =>
    ArgFits A size arg s ∧
      ArgsFit A it { (printArg A size arg s).2 with
        vars := A.useArg it j (printArg A size arg s).1 (printArg A size arg s).2.vars } (j + 1) args

/-- What a command prints fits. -/
def CommandFits (A : TmplAgent V) (it : PrgItem) (s : TmplState V) (e : Exec) : Prop :=
  if e = .tagOrText then TextFits A it s
  else if e = .compare then ArgFits A (256 + 4 * (it.arg1.getD []).length) (it.arg1.getD []) s
  else ArgsFit A it s 0 (printedArgs e it)

/-- What the next item prints fits. -/
def StepFits (A : TmplAgent V) (items : List PrgItem) (c : RunState (TmplState V)) : Prop :=
  ∀ it e, items[c.curr]? = some it → it.cmdnum.isJump = false → it.cmd.bind TmplCmd.exec = some e →
    CommandFits A it c.vars e

/-- The invariant of a run into a buffer of some size: the text that is printed ends where the next
one goes, and `dst` and `dstlen` are of the buffer. -/
structure Inv (size : ℕ) (s : TmplState V) : Prop where
  /-- Nothing has gone wrong. -/
  ok : InBuffer s
  length : s.buf.bytes.length = size
  room : s.dst + s.dstlen = size

theorem mem_of_nulAt {buf : Buffer} {i : ℕ} (h : buf.NulAt i) : 0 ∈ buf.bytes := List.mem_of_getElem? h

theorem printArg_strayed (A : TmplAgent V) (hpos : 0 < size) (arg : List UInt8) (s : TmplState V)
    (hs : s.strayed = false) : (printArg A size arg s).2.strayed = false ↔ ArgFits A size arg s := by
  obtain ⟨-, hover, -, hend⟩ := printTextTemplate_spec A.toAgent false ⟨(A.malloc size).val, false⟩ 0
    s.vars arg (by simp [(A.malloc size).property]) hpos rfl
  simp only [printArg, hs, Bool.false_or, Bool.or_eq_false_iff, Bool.not_eq_false', List.contains_iff_mem]
  rw [ArgFits, ← hover]
  refine ⟨And.left, fun h => ⟨h, ?_⟩⟩
  rcases Nat.lt_or_ge (printTextTemplate A.toAgent false ⟨(A.malloc size).val, false⟩ 0 size s.vars arg).dlen size with
    hlt | hge
  · exact mem_of_nulAt ((hend h).1 hlt)
  · exact mem_of_nulAt ((hend h).2 hge)

theorem printArgs_of_strayed (A : TmplAgent V) (it : PrgItem) (args : List (ℕ × List UInt8)) (s : TmplState V) (j : ℕ)
    (h : s.strayed = true) : (printArgs A it s j args).strayed = true := by
  induction args generalizing s j with
  | nil => exact h
  | cons sa args ih =>
    obtain ⟨size, arg⟩ := sa
    exact ih _ _ (by simp [h])

theorem printArgs_strayed (A : TmplAgent V) (it : PrgItem) {args : List (ℕ × List UInt8)} (hargs : ∀ a ∈ args, 0 < a.1)
    (s : TmplState V) (j : ℕ) (hs : s.strayed = false) :
    (printArgs A it s j args).strayed = false ↔ ArgsFit A it s j args := by
  induction args generalizing s j with
  | nil => simp [printArgs, ArgsFit, hs]
  | cons sa args ih =>
    obtain ⟨size, arg⟩ := sa
    have hone := printArg_strayed A (hargs _ (List.mem_cons_self ..)) arg s hs
    simp only [printArgs, ArgsFit, ← hone]
    by_cases hstrayed : (printArg A size arg s).2.strayed = false
    · refine (ih (fun a ha => hargs a (List.mem_cons_of_mem _ ha)) _ _ ?_).trans ⟨fun h => ⟨hstrayed, h⟩, And.right⟩
      exact hstrayed
    · refine iff_of_false (fun h => ?_) fun h => hstrayed h.1
      exact nomatch h.symm.trans (printArgs_of_strayed A it args _ _ (Bool.eq_true_of_not_eq_false hstrayed))

theorem printArgs_frame (A : TmplAgent V) (it : PrgItem) (args : List (ℕ × List UInt8)) (s : TmplState V) (j : ℕ) :
    (printArgs A it s j args).buf = s.buf ∧ (printArgs A it s j args).dst = s.dst ∧
      (printArgs A it s j args).dstlen = s.dstlen ∧ (printArgs A it s j args).wrapped = s.wrapped := by
  induction args generalizing s j with
  | nil => exact ⟨rfl, rfl, rfl, rfl⟩
  | cons sa args ih => exact ih _ _

theorem printedArgs_pos (e : Exec) (it : PrgItem) : ∀ a ∈ printedArgs e it, 0 < a.1 := by
  intro a ha
  cases e <;> simp only [printedArgs, List.mem_singleton, List.mem_map, List.not_mem_nil] at ha
  case method =>
    obtain ⟨arg, -, rfl⟩ := ha
    exact Nat.add_pos_left (by decide) _
  all_goals
    subst ha
    exact Nat.add_pos_left (by decide) _

variable {s : TmplState V}

theorem Inv.of_frame {s' : TmplState V} (h : Inv size s) (hbuf : s'.buf = s.buf) (hdst : s'.dst = s.dst)
    (hdstlen : s'.dstlen = s.dstlen) (hwrapped : s'.wrapped = s.wrapped) (hstrayed : s'.strayed = false) : Inv size s' where
  ok := ⟨hbuf ▸ h.ok.within, hbuf ▸ h.ok.terminated, hwrapped ▸ h.ok.not_wrapped, hstrayed⟩
  length := hbuf ▸ h.length
  room := by rw [hdst, hdstlen, h.room]

/-- **A text or a tag** is in the buffer if and only if it fits. -/
theorem templateTagOrText_inv (A : TmplAgent V) (it : PrgItem) (h : Inv size s) :
    (TextFits A it s → Inv size (templateTagOrText A it s)) ∧
      (InBuffer (templateTagOrText A it s) → TextFits A it s) := by
  rcases Nat.eq_zero_or_pos s.dstlen with hzero | hpos
  · refine ⟨fun hfits => absurd hfits.1 (by omega), fun hin => ?_⟩
    have hwithin := hin.within
    have hfull : s.buf.bytes.length ≤ s.dst := by
      have := h.room
      rw [h.length]
      omega
    simp only [templateTagOrText, printTextTemplate, hzero, printPieces_of_le _ _ _ _ (Nat.zero_le _),
      Buffer.overflow_write, Bool.or_eq_false_iff, decide_eq_false_iff_not] at hwithin
    exact absurd hfull hwithin.2
  · obtain ⟨hlen, hover, hdlen, hend⟩ := printTextTemplate_spec A.toAgent true _ _ s.vars (itemText A it s.vars)
      (h.room.trans h.length.symm) hpos h.ok.within
    constructor
    · rintro ⟨-, hchars, hvalues⟩
      have hle := hdlen.2 hvalues
      have hend := hend (hover.2 hchars)
      refine ⟨⟨hover.2 hchars, ?_, ?_, h.ok.not_strayed⟩, hlen.trans h.length, ?_⟩
      · rcases hle.lt_or_eq with hlt | heq
        · exact mem_of_nulAt (hend.1 hlt)
        · exact mem_of_nulAt (hend.2 heq.ge)
      · simp [templateTagOrText, h.ok.not_wrapped, hle]
      · have := h.room
        simp only [templateTagOrText, if_pos hle]
        omega
    · intro hin
      have hwrapped := hin.not_wrapped
      simp only [templateTagOrText, h.ok.not_wrapped, Bool.false_or, decide_eq_false_iff_not, Nat.not_lt] at hwrapped
      exact ⟨hpos, hover.1 hin.within, hdlen.1 hwrapped⟩

variable {items : List PrgItem}

/-- **A step** of a program: a jump, a comparison, or another command. -/
theorem step_eq {σ : Type*} (host : Host σ) {c : RunState σ} {it : PrgItem}
    (hit : items[c.curr]? = some it) :
    if it.cmdnum.isJump then ∃ curr, printHtmlTemplateStep host items c = some (none, { c with curr := curr })
    else match it.cmd.bind TmplCmd.exec with
      | none => printHtmlTemplateStep host items c = none
      | some e => ∃ c', printHtmlTemplateStep host items c = some (some (it, c.vars), c') ∧
        c'.vars = if e = .compare then (templateCompare host it c.vars).1 else host.exec e it c.vars := by
  simp only [printHtmlTemplateStep, hit]
  cases hnum : it.cmdnum
  case tmplJne | tmplJe | tmplJmp => exact ⟨_, rfl⟩
  all_goals
    simp only [Cmdnum.isJump, reduceCtorEq, or_self, decide_false, Bool.false_eq_true, if_false]
    cases it.cmd.bind TmplCmd.exec with
    | none => rfl
    | some e => cases e <;> exact ⟨_, rfl, rfl⟩

/-- **A command** keeps the invariant if and only if what it prints fits. -/
theorem command_inv (A : TmplAgent V) (it : PrgItem) (e : Exec) (h : Inv size s) :
    (CommandFits A it s e → Inv size (if e = .compare then (templateCompare A.host it s).1 else A.host.exec e it s)) ∧
      (InBuffer (if e = .compare then (templateCompare A.host it s).1 else A.host.exec e it s) → CommandFits A it s e) := by
  by_cases htext : e = .tagOrText
  · subst htext
    exact templateTagOrText_inv A it h
  · rw [CommandFits, if_neg htext]
    by_cases hcompare : e = .compare
    · rw [if_pos hcompare, if_pos hcompare]
      have hfit := printArg_strayed A (show 0 < 256 + 4 * (it.arg1.getD []).length by omega) (it.arg1.getD []) s
        h.ok.not_strayed
      exact ⟨fun hfits => h.of_frame rfl rfl rfl rfl (hfit.2 hfits), fun hin => hfit.1 hin.not_strayed⟩
    · have hfit := printArgs_strayed A it (printedArgs_pos e it) s 0 h.ok.not_strayed
      obtain ⟨hbuf, hdst, hdstlen, hwrapped⟩ := printArgs_frame A it (printedArgs e it) s 0
      have hexec : A.host.exec e it s = { printArgs A it s 0 (printedArgs e it) with
          vars := A.effect it (printArgs A it s 0 (printedArgs e it)).vars } := if_neg htext
      rw [if_neg hcompare, if_neg hcompare, hexec, ← hfit]
      exact ⟨fun hfits => h.of_frame hbuf hdst hdstlen hwrapped hfits, fun hin => hin.not_strayed⟩

variable {c : RunState (TmplState V)}

/-- **A step** keeps the invariant if and only if what it prints fits. -/
theorem step_inv (A : TmplAgent V) {c' : RunState (TmplState V)}
    {ev : Option (PrgItem × TmplState V)} (h : printHtmlTemplateStep A.host items c = some (ev, c'))
    (hinv : Inv size c.vars) : (StepFits A items c → Inv size c'.vars) ∧ (InBuffer c'.vars → StepFits A items c) := by
  cases hit : items[c.curr]? with
  | none => simp [printHtmlTemplateStep, hit] at h
  | some it =>
    have hstep := step_eq A.host hit
    cases hjump : it.cmdnum.isJump with
    | true =>
      rw [hjump, if_pos rfl] at hstep
      obtain ⟨curr, hstep⟩ := hstep
      obtain ⟨-, rfl⟩ := Prod.mk.inj (Option.some.inj (h.symm.trans hstep))
      refine ⟨fun _ => hinv, fun _ it' e hit' hjump' => ?_⟩
      obtain rfl := Option.some.inj (hit.symm.trans hit')
      exact absurd hjump (by simp [hjump'])
    | false =>
      rw [hjump, if_neg Bool.false_ne_true] at hstep
      cases he : it.cmd.bind TmplCmd.exec with
      | none =>
        simp only [he] at hstep
        exact nomatch h.symm.trans hstep
      | some e =>
        simp only [he] at hstep
        obtain ⟨c'', hstep, hvars⟩ := hstep
        obtain ⟨-, rfl⟩ := Prod.mk.inj (Option.some.inj (h.symm.trans hstep))
        obtain ⟨hkeeps, hfits⟩ := command_inv A it e hinv
        rw [hvars]
        refine ⟨fun hfit => hkeeps (hfit it e hit hjump he), fun hin it' e' hit' _ he' => ?_⟩
        obtain rfl := Option.some.inj (hit.symm.trans hit')
        obtain rfl := Option.some.inj (he.symm.trans he')
        exact hfits hin

theorem stepFits_of_none (A : TmplAgent V)
    (h : printHtmlTemplateStep A.host items c = none) : StepFits A items c := by
  intro it e hit hjump he
  have hstep := step_eq A.host hit
  rw [hjump, if_neg Bool.false_ne_true, he] at hstep
  obtain ⟨c', hstep, -⟩ := hstep
  exact nomatch h.symm.trans hstep

variable {dst : List UInt8}

theorem inv_startPrint (vars : V) (hdst : dst ≠ []) : Inv dst.length (startPrint vars dst).vars where
  ok := ⟨by
    simp only [startPrint, Buffer.overflow_write, Bool.false_or, decide_eq_false_iff_not, Nat.not_le]
    exact List.length_pos_of_ne_nil hdst, mem_of_nulAt (Buffer.nulAt_write (List.length_pos_of_ne_nil hdst)), rfl, rfl⟩
  length := Buffer.length_write ..
  room := Nat.zero_add _

/-- **A run** keeps the invariant, if all that it prints fits, or if nothing goes wrong. -/
theorem inv_of_reached {A : TmplAgent V} {prg : Prg} {vars : V} (hdst : dst ≠ [])
    (hall : ∀ c c' ev, Reached A prg vars dst c → Reached A prg vars dst c' →
      printHtmlTemplateStep A.host prg.items c = some (ev, c') → StepFits A prg.items c ∨ InBuffer c'.vars)
    (hc : Reached A prg vars dst c) : Inv dst.length c.vars := by
  -- the invariant goes from any state that is reached to the last one
  suffices hrun : ∀ c1 m T1, Steps (printHtmlTemplateStep A.host prg.items) m (startPrint vars dst) T1 c1 →
      Inv dst.length c1.vars → ∀ k T, Steps (printHtmlTemplateStep A.host prg.items) k c1 T c → Inv dst.length c.vars by
    obtain ⟨k, T, hk⟩ := hc
    exact hrun _ 0 [] (.zero _) (inv_startPrint vars hdst) k T hk
  clear hc
  intro c1 m T1 hm hinv k T hk
  induction hk generalizing m T1 with
  | zero c1 => exact hinv
  | succ hstep hrest ih =>
    have hnext := hm.trans (.succ hstep (.zero _))
    refine ih _ _ hnext ?_
    rcases hall _ _ _ ⟨m, T1, hm⟩ ⟨_, _, hnext⟩ hstep with hfits | hin
    · exact (step_inv A hstep hinv).1 hfits
    · exact (step_inv A hstep hinv).1 ((step_inv A hstep hinv).2 hin)

/-- **A template** is printed into a buffer of any size with nothing going wrong, if and only if
whatever is printed fits. -/
theorem inBuffer_iff (A : TmplAgent V) (prg : Prg) (vars : V) (dst : List UInt8) (hdst : dst ≠ []) :
    (∀ c, Reached A prg vars dst c → InBuffer c.vars) ↔ ∀ c, Reached A prg vars dst c → StepFits A prg.items c := by
  constructor
  · intro hall c hc
    have hinv := inv_of_reached hdst (fun _ c' _ _ hc' _ => .inr (hall c' hc')) hc
    obtain ⟨k, T, hk⟩ := hc
    cases hstep : printHtmlTemplateStep A.host prg.items c with
    | none => exact stepFits_of_none A hstep
    | some next =>
      obtain ⟨ev, c'⟩ := next
      exact (step_inv A hstep hinv).2 (hall c' ⟨k + 1, _, hk.trans (.succ hstep (.zero c'))⟩)
  · intro hall c hc
    exact (inv_of_reached hdst (fun c _ _ hc _ _ => .inl (hall c hc)) hc).ok

/-- An agent without variables. -/
def noVars : TmplAgent Unit where
  varListFind _ _ := none
  doccount _ := 1
  countDocs := id
  convDup := id
  hlBeg := []
  hlEnd := []
  tagText _ tag := tag
  useArg _ _ _ vars := vars
  effect _ vars := vars
  malloc size := ⟨List.replicate size 0x55, List.length_replicate⟩
  Float := ℤ
  atof := Url.numberAt
  le x y := x ≤ y
  lt x y := x < y

/-- The template `ab`. -/
def abTemplate : List Token := [⟨Url.bytes "ab", ⟨[]⟩⟩]

/-- Its program. -/
def abPrg : Prg := .mk [arg1Item udmTmplTxt (Url.bytes "ab")] 64

theorem inBuffer_abPrg : (∀ c, Reached noVars abPrg () [0x55, 0x55, 0x55] c → InBuffer c.vars) ↔
    ∀ c, Reached noVars abPrg () [0x55, 0x55, 0x55] c → StepFits noVars abPrg.items c :=
  inBuffer_iff noVars abPrg () [0x55, 0x55, 0x55] (List.cons_ne_nil _ _)

/-- The template `ab` in a buffer of two bytes: the NUL behind `b` is behind the buffer. -/
theorem not_inBuffer : ¬∀ (V : Type) (A : TmplAgent V) (tokens : List Token) (prg : Prg) (vars : V) (dst : List UInt8),
    htmlTemplateCompile tokens = .ok prg → dst ≠ [] → ∀ c, Reached A prg vars dst c → InBuffer c.vars := by
  intro hall
  have hin := hall Unit noVars abTemplate abPrg () [0x55, 0x55] rfl (List.cons_ne_nil _ _) _ ⟨1, _, .succ rfl (.zero _)⟩
  exact nomatch hin.within

end MnoGoSearch.Template
