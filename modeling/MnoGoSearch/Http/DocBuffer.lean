import MnoGoSearch.Http.Response
import MnoGoSearch.Http.TransferDecode
import Mathlib

/-!
# The buffer of a document

The functions that fill and rewrite `Doc.Buf`: downloads (`proto.c`, `mirror.c`), responses, content
encodings (`contentencoding.c`), transfer encodings (`message.c`) and responses within responses
(`indexer.c`). Beside the buffer runs the payload, what the content is. `inv_of_sound` says when all
of them keep the buffer as its readers need it.
-/

namespace MnoGoSearch.Http

open Url Vars Words
open MnoGoSearch.Lib (Buffer)
open MnoGoSearch.Lib.Sorting

/-! ## Downloads -/

/-- A text at the beginning of the buffer: `sprintf`. -/
def printBuf (buf : Buffer) (text : List UInt8) : Buffer := (buf.writes 0 text).write text.length 0

/-- `UDM_NET_BUF_SIZE`. -/
def netBufSize : ℕ := 10240

/-- The loop of `UdmHTTPGet` and `UdmHTTPSGet`; each chunk is what `recv` could give. -/
def recvLoop (d : DocBuf) (bufSize : ℕ) : List (List UInt8) → DocBuf
  | [] => d
  | chunk :: chunks =>
    let bufSize := if d.maxsize < d.size + bufSize then d.maxsize - d.size else netBufSize
    let data := chunk.take bufSize
    if data = [] then d
    else
      let d := { d with buf := d.buf.writes d.size data, size := d.size + data.length }
      if d.size = d.maxsize then d else recvLoop d bufSize chunks

/-- The headers of a document in the mirror, with an empty line. -/
def mirrorText (maxsize : ℕ) : Option (List UInt8) → List UInt8
  | some header => header.take maxsize ++ bytes "\r\n\r\n"
  | none => bytes "HTTP/1.0 200 OK\r\n\r\n"

/-- The content of a document in the mirror, as far as there is room. -/
def mirrorBody (d : DocBuf) (content : ℕ) (body : List UInt8) : List UInt8 :=
  if content ≤ d.maxsize then body.take (d.maxsize - content) else body

/-- `UdmMirrorGET`, when the document is in the mirror. -/
def udmMirrorGET (d : DocBuf) (header : Option (List UInt8)) (body : List UInt8) : DocBuf :=
  let buf := printBuf d.buf (mirrorText d.maxsize header)
  let content := buf.strlen 0
  let size := content + (mirrorBody d content body).length
  { d with
    buf := (buf.writes content (mirrorBody d content body)).write (content + size) 0
    size := size
    content := some content }

/-- `UdmRealloc` of the buffer of a directory, to 65536 bytes more than `maxsize`. -/
def growBuf (d : DocBuf) : DocBuf :=
  { d with
    buf := { d.buf with bytes := (d.buf.bytes ++ List.replicate 65536 0).take (d.maxsize + 65536) }
    maxsize := d.maxsize + 65536 }

/-- The loop of `UdmFILEGet` over the links to the files of a directory, behind `pos` bytes; the buffer grows when
it is almost full. -/
def dirLoop (d : DocBuf) (pos : ℕ) : List (List UInt8) → DocBuf × ℕ
  | [] => (d, pos)
  | line :: lines =>
    let d := { d with buf := (d.buf.writes pos line).write (pos + line.length) 0 }
    let pos := pos + line.length
    if 2048 ≤ d.maxsize ∧ d.maxsize - 2048 < pos then dirLoop (growBuf d) pos lines else dirLoop d pos lines

/-- What a directory begins with. -/
def dirHead : List UInt8 := bytes "HTTP/1.0 200 OK\r\nContent-type: text/html\r\n\r\n<HTML><BODY>\n"

/-- What it ends with. -/
def dirTail : List UInt8 := bytes "</BODY><HTML>\n"

/-- `UdmFILEGet`, for a directory. -/
def dirGet (d : DocBuf) (lines : List (List UInt8)) : DocBuf :=
  let r := dirLoop { d with buf := printBuf d.buf dirHead } dirHead.length lines
  { r.1 with
    buf := (r.1.buf.writes r.2 dirTail).write (r.2 + dirTail.length) 0
    size := r.2 + dirTail.length }

/-- Where a document is from. -/
inductive Fetch
  /-- `UdmHTTPGet` or `UdmHTTPSGet`. -/
  | http (chunks : List (List UInt8))
  /-- `UdmMirrorGET`. -/
  | mirror (header : Option (List UInt8)) (body : List UInt8)
  /-- `UdmHTTPSGet`, without a connection. -/
  | nothing
  /-- `UdmFILEGet`, for a directory with these links. -/
  | directory (lines : List (List UInt8))
  /-- Another protocol leaves this in the buffer. -/
  | handler (data : List UInt8)

/-- The document is fetched. -/
def fetched (d : DocBuf) : Fetch → DocBuf
  | .http chunks => recvLoop { d with size := 0 } netBufSize chunks
  | .mirror header body => udmMirrorGET d header body
  | .nothing => d
  | .directory lines => dirGet d lines
  | .handler data => { d with buf := d.buf.writes 0 data, size := data.length }

/-- The status that stands for an error of the network. -/
def errorCode (res : ℤ) : Option ℕ :=
  if res = -5 then some 505 else if res = -2 then some 504 else if res < 0 then some 503 else none

/-- `UdmHTTPErrMsg`, for these. -/
def udmHTTPErrMsg (code : ℕ) : List UInt8 :=
  if code = 505 then bytes "Protocol Version Not Supported"
  else if code = 504 then bytes "Gateway Timeout"
  else bytes "Service Unavailable"

/-- The response for an error. -/
def errorText (code : ℕ) : List UInt8 :=
  bytes "HTTP/1.0 " ++ decText code ++ 0x20 :: udmHTTPErrMsg code ++ bytes "\r\n\r\n"

/-- `udm_snprintf` into the whole buffer; its value is the length of all of the text. -/
def udmSnprintf (d : DocBuf) (text : List UInt8) : DocBuf :=
  { d with
    buf :=
      if d.maxsize = 0 then { d.buf with overflow := true }
      else (printBuf d.buf (text.take (d.maxsize - 1))).write (d.maxsize - 1) 0
    size := text.length }

/-- `UdmGetURL`: the request is made in the buffer, and the response is read into it. -/
def udmGetURL (d : DocBuf) (request : List UInt8) (fetch : Fetch) (res : ℤ) : DocBuf :=
  let d := fetched { d with buf := printBuf d.buf request } fetch
  let d := { d with buf := d.buf.write d.size 0 }
  match errorCode res with
  | some code => udmSnprintf d (errorText code)
  | none => d

/-- What `UdmParseHTTPResponse` does with the buffer. -/
def parseBuf (d : DocBuf) : DocBuf :=
  match cutHeaders d.buf.str with
  | none => { d with content := some d.size }
  | some (headers, n) => { d with buf := d.buf.write headers.length 0, content := some (headers.length + n) }

/-! ## Content encodings -/

/-- `inflate` with `Z_FINISH`, and `uncompress`, with so much room for their output. -/
structure Zlib where
  /-- The output of `inflate`. -/
  inflate : List UInt8 → ℕ → List UInt8
  length_inflate_le : ∀ s n, (inflate s n).length ≤ n
  /-- Whether `uncompress` succeeds, and its output. -/
  uncompress : List UInt8 → ℕ → Bool × List UInt8
  length_uncompress_le : ∀ s n, (uncompress s n).2.length ≤ n

/-- What decoding comes to. -/
inductive Decoded
  /-- The behaviour of the code is not defined. -/
  | undefined
  | failed (d : DocBuf)
  /-- It is 0, and this is the content. -/
  | ok (d : DocBuf) (payload : List UInt8)

/-- A new content in the place of the old one. -/
def putContent (d : DocBuf) (content : ℕ) (payload : List UInt8) : DocBuf :=
  { d with
    buf := (d.buf.writes content payload).write (content + payload.length) 0
    size := content + payload.length }

/-- `FLG.FEXTRA`. -/
def skipExtra (flags : UInt8) (s : List UInt8) : Option (List UInt8) :=
  if flags &&& 4 ≠ 0 then
    let xlen := (s.getD 1 0).toNat * 256 + (s.getD 0 0).toNat
    if xlen + 2 ≤ s.length then some (s.drop (xlen + 2)) else none
  else some s

/-- `FLG.FNAME` or `FLG.FCOMMENT`: a string. -/
def skipString (flags mask : UInt8) (s : List UInt8) : Option (List UInt8) :=
  if flags &&& mask ≠ 0 then if 0 ∈ s then some (s.dropWhile (· ≠ 0)).tail else none else some s

/-- `FLG.FHCRC`. -/
def skipCrc (flags : UInt8) (s : List UInt8) : Option (List UInt8) :=
  if flags &&& 2 ≠ 0 then if 2 ≤ s.length then some (s.drop 2) else none else some s

/-- What is between the header and the trailer of a content in gzip format. -/
def gzData (s : List UInt8) : Option (List UInt8) :=
  let flags := s.getD 3 0
  (((skipExtra flags (s.drop 10)).bind (skipString flags 8)).bind (skipString flags 16)).bind (skipCrc flags)
    |>.bind fun s => if 8 ≤ s.length then some (s.take (s.length - 8)) else none

/-- The content of a document. -/
def DocBuf.payloadAt (d : DocBuf) (content : ℕ) : List UInt8 := d.buf.slice content (d.size - content)

variable (z : Zlib)

/-- `UdmDocUnGzip`. -/
def udmDocUnGzip (d : DocBuf) (content : ℕ) : Decoded :=
  if d.size ≤ content + 10 then .failed d
  else if (d.payloadAt content).take 2 ≠ [0x1F, 0x8B] then .failed d
  else
    match gzData (d.payloadAt content) with
    | none => .undefined
    | some data =>
      let out := z.inflate data (d.maxsize - content - 1)
      .ok (putContent d content out) out

/-- `UdmDocInflate`. -/
def udmDocInflate (d : DocBuf) (content : ℕ) : Decoded :=
  if d.size ≤ content + 6 then .failed d
  else
    let s := d.payloadAt content
    let data := if s.take 2 = [0x1F, 0x8B] then (s.drop 2).take (s.length - 6) else s
    let out := z.inflate data (d.maxsize - content - 1)
    if out = [] then .failed d else .ok (putContent d content out) out

/-- `UdmDocUncompress`. -/
def udmDocUncompress (d : DocBuf) (content : ℕ) : Decoded :=
  if d.size ≤ content then .failed d
  else
    let r := z.uncompress (d.payloadAt content) (d.maxsize - content - 1)
    if r.1 then .ok (putContent d content r.2) r.2 else .failed { d with buf := d.buf.writes content r.2 }

/-- `Content-Encoding`. -/
inductive ContentEncoding
  | gzip
  | deflate
  | compress
  /-- Nothing to decode, or an encoding that is not supported. -/
  | other
  deriving DecidableEq

/-- The content is decoded. -/
def decoded (d : DocBuf) (content : ℕ) : ContentEncoding → Decoded
  | .gzip => udmDocUnGzip z d content
  | .deflate => udmDocInflate z d content
  | .compress => udmDocUncompress z d content
  | .other => .ok d (d.payloadAt content)

/-- `UdmDocContentDecode`: without success there is no content. -/
def udmDocContentDecode (d : DocBuf) (content : ℕ) (ce : ContentEncoding) : Option (DocBuf × List UInt8) :=
  match decoded z d content ce with
  | .undefined => none
  | .ok d payload => some (d, payload)
  | .failed d => some ({ d with buf := d.buf.write content 0, size := content }, [])

/-- The end of `UdmGetURLSimple`: without success the content is what is there. -/
def simpleDecode (d : DocBuf) (content : ℕ) (ce : ContentEncoding) : Option (DocBuf × List UInt8) :=
  match decoded z d content ce with
  | .undefined => none
  | .ok d payload => some (d, payload)
  | .failed d => some (d, d.payloadAt content)

/-! ## Messages -/

/-- `Content-Transfer-Encoding`. -/
inductive TransferEncoding
  | base64
  | quotedPrintable
  /-- Nothing to decode, or an encoding that is not supported. -/
  | other
  deriving DecidableEq

/-- `UdmDocBase64Decode`. -/
def udmDocBase64Decode (d : DocBuf) (content : ℕ) : DocBuf × List UInt8 :=
  let r := udmBase64Decode (d.buf.slice content d.contentLength)
  let buf := (d.buf.write (content + d.contentLength) 0).writes content r.1
  let n := r.2.getD 0
  ({ d with buf := buf.write (content + n) 0, size := content + n, contentLength := n }, r.1.take n)

/-- `UdmDocQuotedPrintableDecode`. -/
def udmDocQuotedPrintableDecode (d : DocBuf) (content : ℕ) : DocBuf × List UInt8 :=
  let out := udmQuotedPrintableDecode (d.buf.slice content d.contentLength) d.contentLength
  ({ d with
      buf := (d.buf.writes content out).write (content + out.length) 0
      size := out.length
      contentLength := out.length }, out)

/-- `UdmContentTransferEncodingDecode`. -/
def udmContentTransferEncodingDecode (d : DocBuf) (content : ℕ) : TransferEncoding → DocBuf × List UInt8
  | .base64 => udmDocBase64Decode d content
  | .quotedPrintable => udmDocQuotedPrintableDecode d content
  | .other => (d, d.buf.slice content d.contentLength)

/-! ## Runs -/

/-- A buffer, and the payload: what its content is. -/
structure BufState where
  doc : DocBuf
  payload : List UInt8

/-- Where buffers are allocated. -/
inductive BufStart
  /-- `UdmIndexNextURL` and `UdmGetAndParseRobotFile`: one byte more than `maxsize`, whatever they are. -/
  | indexer (byte : UInt8) (mem : List UInt8)
  /-- `UdmGetURLSimple`: `maxsize` bytes. -/
  | simple (mem : List UInt8)
  /-- `UdmMessageRFC822ParseInternal`: a message, and its NUL. -/
  | message (content : List UInt8)
  /-- `content_handler`, for a part of a message. -/
  | part (val : List UInt8)

/-- The buffer as it is allocated. -/
def BufStart.state : BufStart → BufState
  | .indexer byte mem => ⟨⟨(Buffer.mk (byte :: mem) false).write 0 0, 0, mem.length, none, 0⟩, []⟩
  | .simple mem => ⟨⟨⟨mem, false⟩, 0, mem.length, none, 0⟩, []⟩
  | .message content =>
    ⟨⟨⟨content ++ [0], false⟩, content.length, content.length + 1, some 0, content.length⟩, content⟩
  | .part val => ⟨⟨⟨val ++ [0], false⟩, val.length, val.length, some 0, val.length⟩, val⟩

/-- The operations on a buffer. -/
inductive BufOp
  /-- `UdmGetURL`, with the text of the request and its result, and `UdmParseHTTPResponse`. -/
  | getURL (request : List UInt8) (fetch : Fetch) (res : ℤ)
  /-- `UdmDocContentDecode`. -/
  | contentDecode (ce : ContentEncoding)
  /-- The end of `UdmGetURLSimple`. -/
  | simpleDecode (ce : ContentEncoding)
  /-- `content_handler`: the content of the message itself, and its transfer encoding. -/
  | own (offset length : ℕ) (cte : TransferEncoding)
  /-- The transfer encoding of a part. -/
  | transferDecode (cte : TransferEncoding)
  /-- The content is a response. -/
  | reparse

/-- The content of a buffer is a response: it is moved to the beginning and parsed. -/
def reparseBuf (d : DocBuf) (content : ℕ) : DocBuf :=
  let n := d.size - content
  parseBuf
    { d with
      buf := (d.buf.writes 0 (d.payloadAt content)).write n 0
      content := some 0
      contentLength := 0
      size := n }

/-- A parsed response, with its content. -/
def parsed (d : DocBuf) : BufState := ⟨d, d.payloadAt (d.content.getD 0)⟩

/-- One operation, if the behaviour of the code is defined. -/
def bufStep (s : BufState) : BufOp → Option BufState
  | .getURL request fetch res => some (parsed (parseBuf (udmGetURL s.doc request fetch res)))
  | .contentDecode ce =>
    s.doc.content.bind fun content => (udmDocContentDecode z s.doc content ce).map fun r => ⟨r.1, r.2⟩
  | .simpleDecode ce => s.doc.content.bind fun content => (simpleDecode z s.doc content ce).map fun r => ⟨r.1, r.2⟩
  | .own offset length cte =>
    let r := udmContentTransferEncodingDecode { s.doc with content := some offset, contentLength := length } offset cte
    some ⟨r.1, r.2⟩
  | .transferDecode cte =>
    s.doc.content.map fun content =>
      let r := udmContentTransferEncodingDecode s.doc content cte
      ⟨r.1, r.2⟩
  | .reparse => s.doc.content.map fun content => parsed (reparseBuf s.doc content)

/-- Some operations. -/
def bufRun (s : BufState) : List BufOp → Option BufState
  | [] => some s
  | op :: ops => (bufStep z s op).bind fun s => bufRun s ops

/-! ## The invariant -/

/-- The buffer as its readers need it, and its payload. -/
structure Inv (s : BufState) : Prop where
  /-- There is room for `maxsize` bytes and a NUL. -/
  room : s.doc.maxsize + 1 ≤ s.doc.buf.bytes.length
  /-- Nothing was written outside of the memory. -/
  overflow : s.doc.buf.overflow = false
  /-- No more bytes are used than may be. -/
  size_le : s.doc.size ≤ s.doc.maxsize
  /-- There is a NUL behind them. -/
  nul : s.doc.buf.NulAt s.doc.size
  /-- The content is in the buffer, as long as it seems, and is the payload; there is none before the first
  response. -/
  content : (s.doc.content = none ∧ s.payload = []) ∨ ∃ content, s.doc.content = some content ∧
    content ≤ s.doc.size ∧ s.doc.size - content = s.payload.length ∧ s.doc.payloadAt content = s.payload

/-- The mirror's headers and its NUL are in the buffer. The NUL is written `content` bytes behind the end. -/
def MirrorFits (maxsize : ℕ) (header : Option (List UInt8)) (body : List UInt8) : Prop :=
  let text := mirrorText maxsize header
  let content := (text.takeWhile (· ≠ 0)).length
  text.length ≤ maxsize ∧ content + (content + (body.take (maxsize - content)).length) ≤ maxsize

/-- The condition on what is fetched. -/
def FetchSound (maxsize : ℕ) : Fetch → Prop
  | .http _ => True
  | .mirror header body => MirrorFits maxsize header body
  | .nothing => True
  | .directory lines => dirHead.length + lines.flatten.length + 2048 ≤ maxsize
  | .handler data => data.length ≤ maxsize

/-- A content that looks like one in gzip format has all of its header, and its trailer. -/
def GzipWhole (s : List UInt8) : Prop := 10 < s.length → s.take 2 = [0x1F, 0x8B] → gzData s ≠ none

/-- `uncompress` writes no more than there was, if it fails. -/
def UncompressKeeps (d : DocBuf) (payload : List UInt8) : Prop :=
  ∀ content, d.content = some content → (z.uncompress payload (d.maxsize - content - 1)).1 = false →
    (z.uncompress payload (d.maxsize - content - 1)).2.length ≤ payload.length

/-- The condition on an operation. -/
def BufSound (s : BufState) : BufOp → Prop
  | .getURL request fetch res =>
    request.length ≤ s.doc.maxsize ∧ FetchSound s.doc.maxsize fetch ∧
      ∀ code, errorCode res = some code → (errorText code).length < s.doc.maxsize
  | .contentDecode ce => s.doc.content ≠ none ∧ (ce = .gzip → GzipWhole s.payload)
  | .simpleDecode ce =>
    s.doc.content ≠ none ∧ (ce = .gzip → GzipWhole s.payload) ∧ (ce = .compress → UncompressKeeps z s.doc s.payload)
  | .own offset length cte =>
    offset + length ≤ s.doc.size ∧ (cte = .quotedPrintable → offset = 0) ∧
      (cte = .other → offset + length = s.doc.size)
  | .transferDecode cte =>
    s.doc.content ≠ none ∧ s.doc.contentLength = s.payload.length ∧
      (cte = .quotedPrintable → s.doc.content = some 0)
  | .reparse => s.doc.content ≠ none

/-- The condition on the allocation. -/
def StartSound : BufStart → Prop
  | .indexer _ _ => True
  | .simple _ => False
  | .message _ => False
  | .part _ => True

/-- Every operation of a run meets its condition. -/
def SoundRun (s : BufState) : List BufOp → Prop
  | [] => True
  | op :: ops => BufSound z s op ∧ ∀ s', bufStep z s op = some s' → SoundRun s' ops

/-! ## Downloads keep the buffer -/

/-- The buffer without regard to its content. -/
structure Ready (d : DocBuf) : Prop where
  /-- There is room for `maxsize` bytes and a NUL. -/
  room : d.maxsize + 1 ≤ d.buf.bytes.length
  /-- Nothing was written outside of the memory. -/
  overflow : d.buf.overflow = false
  /-- No more bytes are used than may be. -/
  size_le : d.size ≤ d.maxsize

variable {s : BufState} {ce : ContentEncoding} {content i n : ℕ} {fetch : Fetch} {lines : List (List UInt8)}
variable {t text : List UInt8} {d : DocBuf} {buf : Buffer}

theorem Inv.ready (h : Inv s) : Ready s.doc := ⟨h.room, h.overflow, h.size_le⟩

theorem length_printBuf (buf : Buffer) (text : List UInt8) : (printBuf buf text).bytes.length = buf.bytes.length := by
  simp [printBuf]

theorem overflow_printBuf (h : text.length < buf.bytes.length) : (printBuf buf text).overflow = buf.overflow := by
  rw [printBuf, Buffer.overflow_write, Buffer.overflow_writes_of_le (by omega)]
  simp [h]

theorem nulAt_printBuf (h : text.length < buf.bytes.length) :
    (printBuf buf text).NulAt text.length := Buffer.nulAt_write (by simpa using h)

theorem Ready.printBuf (hd : Ready d) (h : t.length ≤ d.maxsize) : Ready { d with buf := printBuf d.buf t } := by
  have hroom := hd.room
  refine ⟨?_, ?_, hd.size_le⟩
  · rw [length_printBuf]
    exact hroom
  · rw [overflow_printBuf (by omega)]
    exact hd.overflow

theorem Ready.writes (hd : Ready d) (hle : i + t.length ≤ d.maxsize + 1)
    (hn : n ≤ d.maxsize) : Ready { d with buf := d.buf.writes i t, size := n } := by
  have hroom := hd.room
  refine ⟨?_, ?_, hn⟩
  · simpa using hroom
  · rw [Buffer.overflow_writes_of_le (by omega)]
    exact hd.overflow

theorem Ready.write (hd : Ready d) (hi : i ≤ d.maxsize) : Ready { d with buf := d.buf.write i 0 } := by
  have hroom := hd.room
  refine ⟨?_, ?_, hd.size_le⟩
  · simpa using hroom
  · rw [Buffer.overflow_write, hd.overflow]
    simp
    omega

/-- **The loop of the download** reads no more than there is room for: a size of a read that is not
`UDM_NET_BUF_SIZE` was all the room that there was. -/
theorem Ready.recvLoop (hd : Ready d) {bufSize : ℕ} (chunks : List (List UInt8))
    (hbuf : bufSize = netBufSize ∨ d.maxsize < d.size + bufSize) :
    Ready (recvLoop d bufSize chunks) ∧ (Http.recvLoop d bufSize chunks).maxsize = d.maxsize := by
  induction chunks generalizing d bufSize with
  | nil => exact ⟨hd, rfl⟩
  | cons chunk chunks ih =>
    have hsize := hd.size_le
    rw [Http.recvLoop]
    simp only
    generalize hread : (if d.maxsize < d.size + bufSize then d.maxsize - d.size else netBufSize) = n
    have hn : d.size + n ≤ d.maxsize ∧ (n = netBufSize ∨ n = d.maxsize - d.size) := by
      subst hread
      split_ifs with hlt
      · exact ⟨by omega, .inr rfl⟩
      · exact ⟨by omega, .inl rfl⟩
    have hlen : (chunk.take n).length ≤ n := List.length_take_le n chunk
    generalize chunk.take n = data at hlen
    split_ifs with hdata hfull
    · exact ⟨hd, rfl⟩
    · exact ⟨hd.writes (by omega) (by omega), rfl⟩
    · have hpos : 0 < data.length := List.length_pos_iff.2 hdata
      refine ih (hd.writes (by omega) (by omega)) ?_
      simp only
      omega

theorem takeWhile_append_nul (text rest : List UInt8) :
    (text ++ 0 :: rest).takeWhile (· ≠ 0) = text.takeWhile (· ≠ 0) := by
  induction text with
  | nil => rfl
  | cons c text ih =>
    rw [List.cons_append, List.takeWhile_cons, List.takeWhile_cons, ih]

theorem bytes_printBuf (h : text.length < buf.bytes.length) :
    (printBuf buf text).bytes = text ++ 0 :: (printBuf buf text).bytes.drop (text.length + 1) := by
  have hslice : (printBuf buf text).slice 0 text.length = text := by
    rw [printBuf, Buffer.slice_write_of_le (by omega), Buffer.slice_writes (by omega)]
  obtain ⟨hlt, hb⟩ := List.getElem?_eq_some_iff.1 (nulAt_printBuf h)
  rw [Buffer.slice, List.drop_zero] at hslice
  have hsplit := List.take_append_drop text.length (printBuf buf text).bytes
  rw [hslice, List.drop_eq_getElem_cons hlt, hb] at hsplit
  exact hsplit.symm

theorem str_printBuf (h : text.length < buf.bytes.length) : (printBuf buf text).str = text.takeWhile (· ≠ 0) := by
  rw [Buffer.str, bytes_printBuf h, takeWhile_append_nul]

theorem strlen_printBuf (h : text.length < buf.bytes.length) :
    (printBuf buf text).strlen 0 = (text.takeWhile (· ≠ 0)).length := by
  rw [Buffer.strlen, List.drop_zero, bytes_printBuf h, takeWhile_append_nul]

theorem Ready.mirror (hd : Ready d) {header : Option (List UInt8)} {body : List UInt8}
    (hfits : MirrorFits d.maxsize header body) :
    Ready (udmMirrorGET d header body) ∧ (udmMirrorGET d header body).maxsize = d.maxsize := by
  obtain ⟨htext, hend⟩ := hfits
  have hroom := hd.room
  have hle : ((mirrorText d.maxsize header).takeWhile (· ≠ 0)).length ≤ d.maxsize := by omega
  unfold udmMirrorGET
  simp only
  rw [strlen_printBuf (by omega), mirrorBody, if_pos hle]
  generalize ((mirrorText d.maxsize header).takeWhile (· ≠ 0)).length = content at hend hle
  generalize body.take (d.maxsize - content) = data at hend
  have hwrites := (hd.printBuf htext).writes (i := content) (n := content + data.length) (t := data)
    (by simp only; omega) (by simp only; omega)
  have hwrite := hwrites.write hend
  exact ⟨⟨hwrite.room, hwrite.overflow, hwrite.size_le⟩, trivial⟩

theorem Ready.dirLoop (hd : Ready d) {pos : ℕ}
    (hle : pos + lines.flatten.length + 2048 ≤ d.maxsize) :
    Ready (dirLoop d pos lines).1 ∧ (Http.dirLoop d pos lines).1.maxsize = d.maxsize ∧
      (Http.dirLoop d pos lines).2 = pos + lines.flatten.length := by
  induction lines generalizing d pos with
  | nil => exact ⟨hd, rfl, rfl⟩
  | cons line lines ih =>
    rw [List.flatten_cons, List.length_append] at hle
    have hwrites := hd.writes (i := pos) (n := d.size) (t := line) (by omega) hd.size_le
    have hwrite := hwrites.write (i := pos + line.length) (by simp only; omega)
    obtain ⟨hready, hmax, hpos⟩ := ih hwrite
      (show pos + line.length + lines.flatten.length + 2048 ≤ d.maxsize by omega)
    rw [Http.dirLoop]
    simp only
    rw [if_neg (by omega), List.flatten_cons, List.length_append, ← Nat.add_assoc]
    exact ⟨hready, hmax, hpos⟩

theorem Ready.dirGet (hd : Ready d) (hle : dirHead.length + lines.flatten.length + 2048 ≤ d.maxsize) :
    Ready (dirGet d lines) ∧ (Http.dirGet d lines).maxsize = d.maxsize := by
  have htail : dirTail.length = 14 := rfl
  have hhead : dirHead.length ≤ d.maxsize := by omega
  unfold Http.dirGet
  generalize dirTail = tail at htail ⊢
  generalize dirHead = head at hle hhead ⊢
  obtain ⟨hready, hmax, hpos⟩ := (hd.printBuf hhead).dirLoop hle
  simp only at hmax ⊢
  have hwrites := hready.writes (i := head.length + lines.flatten.length) (t := tail)
    (n := head.length + lines.flatten.length + tail.length) (by omega) (by omega)
  rw [hpos]
  exact ⟨hwrites.write (by simp only; omega), hmax⟩

/-- **What is fetched** is in the buffer. -/
theorem Ready.fetched (hd : Ready d) (h : FetchSound d.maxsize fetch) :
    Ready (fetched d fetch) ∧ (Http.fetched d fetch).maxsize = d.maxsize := by
  cases fetch with
  | http chunks =>
    have hzero : Ready { d with size := 0 } := ⟨hd.room, hd.overflow, Nat.zero_le _⟩
    exact hzero.recvLoop chunks (.inl rfl)
  | mirror header body => exact hd.mirror h
  | nothing => exact ⟨hd, rfl⟩
  | directory lines => exact hd.dirGet h
  | handler data =>
    have hlen : data.length ≤ d.maxsize := h
    exact ⟨hd.writes (by omega) hlen, rfl⟩

theorem Ready.udmSnprintf (hd : Ready d) (h : text.length < d.maxsize) :
    Ready (udmSnprintf d text) ∧ (Http.udmSnprintf d text).buf.NulAt (Http.udmSnprintf d text).size := by
  have hroom := hd.room
  unfold Http.udmSnprintf
  rw [if_neg (by omega), List.take_of_length_le (by omega)]
  have hwrite := (hd.printBuf (t := text) (by omega)).write (i := d.maxsize - 1) (by simp only; omega)
  refine ⟨⟨hwrite.room, hwrite.overflow, ?_⟩, ?_⟩
  · simp only
    omega
  · exact (nulAt_printBuf (by omega)).write_zero _

/-- **A download** leaves the buffer ready for parsing. -/
theorem Ready.udmGetURL (hd : Ready d) {request : List UInt8} {res : ℤ}
    (hrequest : request.length ≤ d.maxsize) (hfetch : FetchSound d.maxsize fetch)
    (herror : ∀ code, errorCode res = some code → (errorText code).length < d.maxsize) :
    Ready (udmGetURL d request fetch res) ∧
      (Http.udmGetURL d request fetch res).buf.NulAt (Http.udmGetURL d request fetch res).size := by
  obtain ⟨hready, hmax⟩ := (hd.printBuf hrequest).fetched hfetch
  unfold Http.udmGetURL
  simp only
  generalize Http.fetched { d with buf := Http.printBuf d.buf request } fetch = d' at hready hmax
  have hwrite := hready.write hready.size_le
  cases hcode : errorCode res with
  | some code =>
    refine hwrite.udmSnprintf ?_
    simp only at hmax ⊢
    rw [hmax]
    exact herror code hcode
  | none =>
    have hroom := hready.room
    have hsize := hready.size_le
    exact ⟨hwrite, Buffer.nulAt_write (by omega)⟩

/-! ## Responses and decoders keep the buffer -/

theorem cutHeaders_le {s headers : List UInt8} (h : cutHeaders s = some (headers, n)) :
    headers.length + n ≤ s.length ∧ 0 < n := by
  induction s generalizing headers with
  | nil => cases h
  | cons c s ih =>
    rw [cutHeaders] at h
    split_ifs at h with h4 h2
    · obtain ⟨rfl, rfl⟩ := Prod.mk.inj (Option.some.inj h)
      have hlen := congrArg List.length h4
      rw [List.length_take, show (bytes "\r\n\r\n").length = 4 from rfl] at hlen
      exact ⟨by simp only [List.length_nil]; omega, by decide⟩
    · obtain ⟨rfl, rfl⟩ := Prod.mk.inj (Option.some.inj h)
      have hlen := congrArg List.length h2
      rw [List.length_take, show (bytes "\n\n").length = 2 from rfl] at hlen
      exact ⟨by simp only [List.length_nil]; omega, by decide⟩
    · obtain ⟨⟨headers', n'⟩, hcut, heq⟩ := Option.map_eq_some_iff.1 h
      obtain ⟨rfl, rfl⟩ := Prod.mk.inj heq
      obtain ⟨hle, hpos⟩ := ih hcut
      simp only [List.length_cons]
      exact ⟨by omega, hpos⟩

theorem length_payloadAt (hd : Ready d) (hle : content ≤ d.size) : (d.payloadAt content).length = d.size - content := by
  have hroom := hd.room
  have hsize := hd.size_le
  exact Buffer.length_slice (by omega)

theorem Ready.inv (hd : Ready d) (hnul : d.buf.NulAt d.size)
    (hcontent : d.content = some content) (hle : content ≤ d.size) {payload : List UInt8}
    (hpayload : d.payloadAt content = payload) : Inv ⟨d, payload⟩ := by
  refine ⟨hd.room, hd.overflow, hd.size_le, hnul, .inr ⟨content, hcontent, hle, ?_, hpayload⟩⟩
  rw [← hpayload, length_payloadAt hd hle]

/-- **A response** is parsed: its content is in the buffer. -/
theorem Ready.parse {d : DocBuf} (hd : Ready d) (hnul : d.buf.NulAt d.size) : Inv (parsed (parseBuf d)) := by
  have hstr := Buffer.length_str_le hnul
  have hsize := hd.size_le
  unfold parseBuf
  cases hcut : cutHeaders d.buf.str with
  | none =>
    have hd' : Ready { d with content := some d.size } := ⟨hd.room, hd.overflow, hd.size_le⟩
    exact hd'.inv hnul rfl le_rfl rfl
  | some x =>
    obtain ⟨headers, n⟩ := x
    obtain ⟨hle, -⟩ := cutHeaders_le hcut
    have hwrite := hd.write (i := headers.length) (by omega)
    have hd' : Ready { d with buf := d.buf.write headers.length 0, content := some (headers.length + n) } :=
      ⟨hwrite.room, hwrite.overflow, hwrite.size_le⟩
    exact hd'.inv (hnul.write_zero _) rfl (by simp only; omega) rfl

/-- **A new content**, for which there is room. -/
theorem Ready.putContent (hd : Ready d) (hcontent : d.content = some content) (hle : content + t.length ≤ d.maxsize) :
    Inv ⟨Http.putContent d content t, t⟩ := by
  have hroom := hd.room
  have hwrites := hd.writes (i := content) (n := content + t.length) (t := t) (by omega) hle
  have hready : Ready (Http.putContent d content t) := hwrites.write hle
  refine hready.inv ?_ hcontent (by simp [Http.putContent]) ?_
  · exact Buffer.nulAt_write (by simp; omega)
  · rw [DocBuf.payloadAt]
    simp only [Http.putContent, Nat.add_sub_cancel_left]
    rw [Buffer.slice_write_of_le le_rfl, Buffer.slice_writes (by omega)]

theorem Inv.payload_eq (h : Inv s) (hcontent : s.doc.content = some content) :
    content ≤ s.doc.size ∧ s.doc.size - content = s.payload.length ∧ s.doc.payloadAt content = s.payload := by
  rcases h.content with ⟨hnone, -⟩ | ⟨content', hsome, hle, hlen, hpayload⟩
  · rw [hnone] at hcontent
    cases hcontent
  · obtain rfl := Option.some.inj (hsome.symm.trans hcontent)
    exact ⟨hle, hlen, hpayload⟩

/-- What decoding does with a buffer: there is a new content, or some output has been written over the old
one by `uncompress`. -/
def Decoded.Keeps (s : BufState) (content : ℕ) (ce : ContentEncoding) : Decoded → Prop
  | .undefined => False
  | .ok d payload => Inv ⟨d, payload⟩
  | .failed d => ∃ out, d = { s.doc with buf := s.doc.buf.writes content out } ∧ content + out.length ≤ s.doc.maxsize ∧
      (out = [] ∨ (ce = .compress ∧ (z.uncompress s.payload (s.doc.maxsize - content - 1)).1 = false ∧
        out = (z.uncompress s.payload (s.doc.maxsize - content - 1)).2))

variable {z}

theorem keeps_failed (h : Inv s) (hle : content ≤ s.doc.size) (ce : ContentEncoding) :
    Decoded.Keeps z s content ce (.failed s.doc) :=
  ⟨[], rfl, hle.trans h.size_le, .inl rfl⟩

theorem keeps_udmDocUnGzip (h : Inv s) (hcontent : s.doc.content = some content)
    (hwhole : GzipWhole s.payload) : Decoded.Keeps z s content .gzip (udmDocUnGzip z s.doc content) := by
  obtain ⟨hle, hlen, hpayload⟩ := h.payload_eq hcontent
  have hsize := h.size_le
  unfold udmDocUnGzip
  rw [hpayload]
  split_ifs with hshort hmagic
  · exact keeps_failed h hle _
  · exact keeps_failed h hle _
  · cases hdata : gzData s.payload with
    | none => exact hwhole (by omega) (not_not.1 hmagic) hdata
    | some data =>
      have hout := z.length_inflate_le data (s.doc.maxsize - content - 1)
      exact h.ready.putContent hcontent (by omega)

theorem keeps_udmDocInflate (h : Inv s) (hcontent : s.doc.content = some content) :
    Decoded.Keeps z s content .deflate (udmDocInflate z s.doc content) := by
  obtain ⟨hle, -, -⟩ := h.payload_eq hcontent
  have hsize := h.size_le
  unfold udmDocInflate
  simp only
  split_ifs with hshort hgzip hempty hempty
  · exact keeps_failed h hle _
  · exact keeps_failed h hle _
  · refine h.ready.putContent hcontent ?_
    exact (Nat.add_le_add_left (z.length_inflate_le _ _) _).trans (by omega)
  · exact keeps_failed h hle _
  · refine h.ready.putContent hcontent ?_
    exact (Nat.add_le_add_left (z.length_inflate_le _ _) _).trans (by omega)

theorem keeps_udmDocUncompress (h : Inv s) (hcontent : s.doc.content = some content) :
    Decoded.Keeps z s content .compress (udmDocUncompress z s.doc content) := by
  obtain ⟨hle, -, hpayload⟩ := h.payload_eq hcontent
  have hsize := h.size_le
  have hout := z.length_uncompress_le s.payload (s.doc.maxsize - content - 1)
  unfold udmDocUncompress
  rw [hpayload]
  simp only
  split_ifs with hempty hok
  · exact keeps_failed h hle _
  · exact h.ready.putContent hcontent (by omega)
  · exact ⟨_, rfl, by omega, .inr ⟨rfl, by simpa using hok, rfl⟩⟩

/-- **Decoding**, by any encoding. -/
theorem keeps_decoded (h : Inv s) (hcontent : s.doc.content = some content)
    (hwhole : ce = .gzip → GzipWhole s.payload) : Decoded.Keeps z s content ce (decoded z s.doc content ce) := by
  cases ce with
  | gzip => exact keeps_udmDocUnGzip h hcontent (hwhole rfl)
  | deflate => exact keeps_udmDocInflate h hcontent
  | compress => exact keeps_udmDocUncompress h hcontent
  | other =>
    obtain ⟨hle, -, -⟩ := h.payload_eq hcontent
    exact h.ready.inv h.nul hcontent hle rfl

theorem Inv.contentDecode (h : Inv s) (hcontent : s.doc.content = some content)
    (hwhole : ce = .gzip → GzipWhole s.payload) :
    ∃ r, udmDocContentDecode z s.doc content ce = some r ∧ Inv ⟨r.1, r.2⟩ := by
  obtain ⟨hle, -, -⟩ := h.payload_eq hcontent
  have hsize := h.size_le
  have hroom := h.room
  have hkeeps := keeps_decoded (z := z) h hcontent hwhole
  unfold udmDocContentDecode
  cases hdec : decoded z s.doc content ce with
  | undefined =>
    rw [hdec] at hkeeps
    exact hkeeps.elim
  | ok d payload =>
    rw [hdec] at hkeeps
    exact ⟨_, rfl, hkeeps⟩
  | failed d =>
    rw [hdec] at hkeeps
    obtain ⟨out, rfl, hout, -⟩ := hkeeps
    have hwrites := h.ready.writes (i := content) (n := content) (t := out) (by omega) (by omega)
    refine ⟨_, rfl, (hwrites.write (by simp only; omega)).inv ?_ hcontent le_rfl ?_⟩
    · exact Buffer.nulAt_write (by simp; omega)
    · simp [DocBuf.payloadAt, Buffer.slice]

theorem Inv.simpleDecode (h : Inv s) (hcontent : s.doc.content = some content)
    (hwhole : ce = .gzip → GzipWhole s.payload) (huncompress : ce = .compress → UncompressKeeps z s.doc s.payload) :
    ∃ r, simpleDecode z s.doc content ce = some r ∧ Inv ⟨r.1, r.2⟩ := by
  obtain ⟨hle, hlen, -⟩ := h.payload_eq hcontent
  have hsize := h.size_le
  have hkeeps := keeps_decoded (z := z) h hcontent hwhole
  unfold Http.simpleDecode
  cases hdec : decoded z s.doc content ce with
  | undefined =>
    rw [hdec] at hkeeps
    exact hkeeps.elim
  | ok d payload =>
    rw [hdec] at hkeeps
    exact ⟨_, rfl, hkeeps⟩
  | failed d =>
    rw [hdec] at hkeeps
    obtain ⟨out, rfl, hout, hfew⟩ := hkeeps
    have hshort : out.length ≤ s.payload.length := by
      rcases hfew with rfl | ⟨hce, hfail, rfl⟩
      · exact Nat.zero_le _
      · exact huncompress hce content hcontent hfail
    have hwrites := h.ready.writes (i := content) (t := out) (by omega) hsize
    exact ⟨_, rfl, hwrites.inv (h.nul.writes_of_le (by omega)) hcontent hle rfl⟩

/-! ## Messages keep the buffer -/

theorem inv_udmDocBase64Decode (hd : Ready d) (hcontent : d.content = some content)
    (hle : content + d.contentLength ≤ d.size) :
    Inv ⟨(udmDocBase64Decode d content).1, (udmDocBase64Decode d content).2⟩ := by
  have hroom := hd.room
  have hsize := hd.size_le
  have hsrc : (d.buf.slice content d.contentLength).length = d.contentLength := Buffer.length_slice (by omega)
  have hwritten := length_udmBase64Decode_le (d.buf.slice content d.contentLength)
  have hn : (udmBase64Decode (d.buf.slice content d.contentLength)).2.getD 0 ≤
      (udmBase64Decode (d.buf.slice content d.contentLength)).1.length := by
    cases hres : (udmBase64Decode (d.buf.slice content d.contentLength)).2 with
    | none => exact Nat.zero_le _
    | some n => exact le_of_udmBase64Decode hres
  unfold udmDocBase64Decode
  simp only
  generalize (udmBase64Decode (d.buf.slice content d.contentLength)).2.getD 0 = n at hn ⊢
  generalize (udmBase64Decode (d.buf.slice content d.contentLength)).1 = out at hwritten hn ⊢
  have hfirst := hd.write (i := content + d.contentLength) (by omega)
  have hwrites := hfirst.writes (i := content) (n := content + n) (t := out) (by simp only; omega) (by simp only; omega)
  have hlast := hwrites.write (i := content + n) (by simp only; omega)
  have hready : Ready { d with
      buf := ((d.buf.write (content + d.contentLength) 0).writes content out).write (content + n) 0
      size := content + n
      contentLength := n } := ⟨hlast.room, hlast.overflow, hlast.size_le⟩
  refine hready.inv ?_ hcontent (by simp only; omega) ?_
  · exact Buffer.nulAt_write (by simp; omega)
  · -- the first bytes of what was written
    have hout := Buffer.slice_writes (b := d.buf.write (content + d.contentLength) 0) (i := content) (s := out)
      (by simp; omega)
    simp only [DocBuf.payloadAt, Nat.add_sub_cancel_left]
    rw [Buffer.slice_write_of_le le_rfl, ← Buffer.take_slice hn, hout]

theorem inv_udmDocQuotedPrintableDecode (hd : Ready d) (hcontent : d.content = some 0)
    (hle : d.contentLength ≤ d.size) :
    Inv ⟨(udmDocQuotedPrintableDecode d 0).1, (udmDocQuotedPrintableDecode d 0).2⟩ := by
  have hroom := hd.room
  have hsize := hd.size_le
  have hsrc : (d.buf.slice 0 d.contentLength).length = d.contentLength := Buffer.length_slice (by omega)
  have hout := length_udmQuotedPrintableDecode_le (d.buf.slice 0 d.contentLength) d.contentLength
  unfold udmDocQuotedPrintableDecode
  simp only
  generalize udmQuotedPrintableDecode (d.buf.slice 0 d.contentLength) d.contentLength = out at hout ⊢
  have hput := hd.putContent hcontent (t := out) (by omega)
  have hready : Ready { d with
      buf := (d.buf.writes 0 out).write (0 + out.length) 0
      size := out.length
      contentLength := out.length } := by
    refine ⟨hput.room, hput.overflow, ?_⟩
    simp only
    omega
  refine hready.inv ?_ hcontent (Nat.zero_le _) ?_
  · have hnul := hput.nul
    simp only [putContent, Nat.zero_add] at hnul ⊢
    exact hnul
  · simp only [DocBuf.payloadAt, Nat.sub_zero]
    rw [Buffer.slice_write_of_le le_rfl, Buffer.slice_writes (by omega)]

/-- **Transfer encodings** of a content in the buffer. -/
theorem inv_udmContentTransferEncodingDecode (hd : Ready d) (hnul : d.buf.NulAt d.size)
    (hcontent : d.content = some content) (hle : content + d.contentLength ≤ d.size) {cte : TransferEncoding}
    (hqp : cte = .quotedPrintable → content = 0) (hother : cte = .other → content + d.contentLength = d.size) :
    Inv ⟨(udmContentTransferEncodingDecode d content cte).1, (udmContentTransferEncodingDecode d content cte).2⟩ := by
  cases cte with
  | base64 => exact inv_udmDocBase64Decode hd hcontent hle
  | quotedPrintable =>
    obtain rfl := hqp rfl
    exact inv_udmDocQuotedPrintableDecode hd hcontent (by omega)
  | other =>
    refine hd.inv hnul hcontent (by omega) ?_
    rw [DocBuf.payloadAt, ← hother rfl, Nat.add_sub_cancel_left]
    rfl

theorem Inv.reparse (h : Inv s) (hcontent : s.doc.content = some content) :
    Inv (parsed (reparseBuf s.doc content)) := by
  obtain ⟨hle, hlen, hpayload⟩ := h.payload_eq hcontent
  have hroom := h.room
  have hsize := h.size_le
  have hwrites := h.ready.writes (i := 0) (n := s.doc.size - content) (t := s.doc.payloadAt content)
    (by rw [hpayload]; omega) (by omega)
  have hwrite := hwrites.write (i := s.doc.size - content) (by simp only; omega)
  unfold reparseBuf
  refine Ready.parse ⟨hwrite.room, hwrite.overflow, hwrite.size_le⟩ ?_
  exact Buffer.nulAt_write (by simp; omega)

/-! ## Runs -/

variable (z) in
/-- **One operation** that meets its condition is defined and keeps the buffer. -/
theorem Inv.step {s : BufState} (h : Inv s) {op : BufOp} (hop : BufSound z s op) :
    ∃ s', bufStep z s op = some s' ∧ Inv s' := by
  cases op with
  | getURL request fetch res =>
    obtain ⟨hrequest, hfetch, herror⟩ := hop
    obtain ⟨hready, hnul⟩ := h.ready.udmGetURL hrequest hfetch herror
    exact ⟨_, rfl, hready.parse hnul⟩
  | contentDecode ce =>
    obtain ⟨hsome, hwhole⟩ := hop
    obtain ⟨content, hcontent⟩ := Option.ne_none_iff_exists'.1 hsome
    obtain ⟨r, hr, hinv⟩ := h.contentDecode (z := z) hcontent hwhole
    exact ⟨⟨r.1, r.2⟩, by rw [bufStep, hcontent, Option.bind_some, hr, Option.map_some], hinv⟩
  | simpleDecode ce =>
    obtain ⟨hsome, hwhole, huncompress⟩ := hop
    obtain ⟨content, hcontent⟩ := Option.ne_none_iff_exists'.1 hsome
    obtain ⟨r, hr, hinv⟩ := h.simpleDecode hcontent hwhole huncompress
    exact ⟨⟨r.1, r.2⟩, by rw [bufStep, hcontent, Option.bind_some, hr, Option.map_some], hinv⟩
  | own offset length cte =>
    obtain ⟨hle, hqp, hother⟩ := hop
    have hd : Ready { s.doc with content := some offset, contentLength := length } := ⟨h.room, h.overflow, h.size_le⟩
    exact ⟨_, rfl, inv_udmContentTransferEncodingDecode hd h.nul rfl hle hqp hother⟩
  | transferDecode cte =>
    obtain ⟨hsome, hlength, hqp⟩ := hop
    obtain ⟨content, hcontent⟩ := Option.ne_none_iff_exists'.1 hsome
    obtain ⟨hle, hlen, -⟩ := h.payload_eq hcontent
    refine ⟨_, by rw [bufStep, hcontent, Option.map_some], ?_⟩
    refine inv_udmContentTransferEncodingDecode h.ready h.nul hcontent (by omega) (fun hcte => ?_) fun _ => by omega
    exact Option.some.inj (hcontent.symm.trans (hqp hcte))
  | reparse =>
    obtain ⟨content, hcontent⟩ := Option.ne_none_iff_exists'.1 hop
    exact ⟨_, by rw [bufStep, hcontent, Option.map_some], h.reparse hcontent⟩

theorem inv_start {st : BufStart} (h : StartSound st) : Inv st.state := by
  cases st with
  | indexer byte mem =>
    refine ⟨?_, ?_, Nat.zero_le _, Buffer.nulAt_write (by simp), .inl ⟨rfl, rfl⟩⟩
    · simp [BufStart.state]
    · simp [BufStart.state, Buffer.overflow_write]
  | simple mem => exact h.elim
  | message content => exact h.elim
  | part val =>
    have hd : Ready (BufStart.part val).state.doc := ⟨by simp [BufStart.state], rfl, le_rfl⟩
    refine hd.inv ?_ rfl (Nat.zero_le _) ?_
    · simp [BufStart.state, Buffer.NulAt]
    · simp [BufStart.state, DocBuf.payloadAt, Buffer.slice]

variable (z) in
theorem inv_of_soundRun (h : Inv s) {ops : List BufOp} (hops : SoundRun z s ops) :
    ∃ s', bufRun z s ops = some s' ∧ Inv s' := by
  induction ops generalizing s with
  | nil => exact ⟨s, rfl, h⟩
  | cons op ops ih =>
    obtain ⟨hop, hrest⟩ := hops
    obtain ⟨s', hs', hinv⟩ := h.step z hop
    rw [bufRun, hs', Option.bind_some]
    exact ih hinv (hrest s' hs')

/-- `inflate` that finds nothing in its input, and `uncompress` that fails. -/
def noZlib : Zlib := ⟨fun _ _ => [], fun _ _ => Nat.zero_le _, fun _ _ => (false, []), fun _ _ => Nat.zero_le _⟩

end MnoGoSearch.Http
