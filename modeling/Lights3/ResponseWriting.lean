import Lights3.Http
import Lights3.Lib.HttpMessage

/-!
# Writing a response

`render_response_head` (`http/drivers/common.h`) gives the head of a response, `write_response`
sends it with the body, and the end of `serve_one` decides whether the connection stays open
(`http/drivers/builtin/builtin_server.cc`). A send may fail anywhere, and so may a read of the body.

A response that leaves the connection open is one message, and the right one, with three exceptions:
the head of a stream of unknown length says that the connection closes, but it does not; the length
that was set for a small body is not compared with it; and a status of more than three digits is
written as it is.

The date is a parameter. Counts of bytes are unbounded. The counters and the logs are left out, and
so are interim responses, which are sent while the handler runs.
-/
namespace Lights3
open ByteString HttpSyntax

/-! ## Responses -/

structure FileSpan where
  /-- The file. -/
  content : Bytes
  offset : Nat
  length : Nat

def FileSpan.range (f : FileSpan) : Bytes := (f.content.drop f.offset).take f.length

/-- The pieces of a body before a read that gets nothing or throws. -/
def chunksRead : List (Option Bytes) → List Bytes
  | [] => []
  | none :: _ => []
  | some c :: reads => if c = [] then [] else c :: chunksRead reads

/-- `BodyReader`, by what its reads return; a read that throws returns nothing. The file of
`try_as_file` has the same bytes. -/
structure BodyReader where
  reads : List (Option Bytes)
  file : Option FileSpan := none
  file_range : ∀ f ∈ file, f.range = (chunksRead reads).flatten

def BodyReader.bytes (b : BodyReader) : Bytes := (chunksRead b.reads).flatten

structure HttpResponse where
  status : Nat := 200
  headers : HeaderMap := []
  smallBody : Bytes := []
  streamBody : Option BodyReader := none
  contentLength : Option UInt64 := none

/-- What `http_date` gives. -/
structure HttpDate where
  text : Bytes
  plain : ∀ c ∈ text, lineByte c = true
  trimmed : trim text = text

/-! ## The head -/

def headerEmittable (k v : Bytes) : Bool :=
  k ≠ [] && k.all (fun c => c ≠ 13 && c ≠ 10 && c ≠ 58 && c ≠ 32 && c ≠ 9) &&
    v.all (fun c => c ≠ 13 && c ≠ 10)

/-- The headers that the driver writes itself. -/
def driverHeader (k : Bytes) : Bool :=
  ieq k (ascii "Content-Length") || ieq k (ascii "Transfer-Encoding") ||
    ieq k (ascii "Connection") || ieq k (ascii "Keep-Alive")

/-- `emit_headers`. -/
def emitHeaders (headers : HeaderMap) : HeaderMap :=
  headers.filter fun e => !driverHeader e.1 && headerEmittable e.1 e.2

def reasonPhrase (status : Nat) : String :=
  match status with
  | 100 => "Continue"
  | 200 => "OK"
  | 204 => "No Content"
  | 206 => "Partial Content"
  | 304 => "Not Modified"
  | 400 => "Bad Request"
  | 403 => "Forbidden"
  | 404 => "Not Found"
  | 405 => "Method Not Allowed"
  | 409 => "Conflict"
  | 412 => "Precondition Failed"
  | 416 => "Range Not Satisfiable"
  | 500 => "Internal Server Error"
  | 501 => "Not Implemented"
  | 503 => "Service Unavailable"
  | _ => "Unknown"

namespace HttpResponse

variable (r : HttpResponse) (date : HttpDate) (keepAlive headRequest : Bool)

def noBodyStatus : Bool := r.status = 204 || r.status = 304 || r.status < 200

/-- `head_length_known`. -/
def headLengthKnown : Bool := r.contentLength.isSome || r.streamBody.isNone

def chunked : Bool :=
  !r.noBodyStatus && !headRequest && r.streamBody.isSome && r.contentLength.isNone

def lengthHeader : Bytes × Bytes :=
  (ascii "Content-Length",
    Decimal.render ((r.contentLength.map UInt64.toNat).getD r.smallBody.length))

def dateHeaders : HeaderMap :=
  if r.headers.any (fun e => ieq e.1 (ascii "Date")) then [] else [(ascii "Date", date.text)]

def framingHeaders : HeaderMap :=
  if r.noBodyStatus then []
  else if headRequest then if r.headLengthKnown then [r.lengthHeader] else []
  else if r.streamBody.isSome && r.contentLength.isNone then
    [(ascii "Transfer-Encoding", ascii "chunked")]
  else [r.lengthHeader]

def connectionHeader : Bytes × Bytes :=
  let keepAlive := if headRequest && !r.headLengthKnown then false else keepAlive
  (ascii "Connection", if keepAlive then ascii "keep-alive" else ascii "close")

/-- All headers of a response, in the order of the message. -/
def headHeaders : HeaderMap :=
  emitHeaders r.headers ++ r.dateHeaders date ++ r.framingHeaders headRequest ++
    [r.connectionHeader keepAlive headRequest]

/-- The text of `render_response_head`. -/
def renderHead : Bytes :=
  ascii "HTTP/1.1 " ++ Decimal.render r.status ++ ascii " " ++
    ascii (reasonPhrase r.status) ++ crlf ++
    (r.headHeaders date keepAlive headRequest).flatMap fieldLine ++ crlf

end HttpResponse

/-! ## Sending -/

/-- What was sent on a connection, and how many bytes the peer still takes; there is no bound if it
takes all. -/
structure Io where
  sent : Bytes := []
  room : Option Nat := none
  ssl : Bool := false

namespace Io

/-- `send_all`. -/
def sendAll (io : Io) (p : Bytes) : Io × Bool :=
  match io.room with
  | none => ({ io with sent := io.sent ++ p }, true)
  | some n =>
      if p.length ≤ n then ({ io with sent := io.sent ++ p, room := some (n - p.length) }, true)
      else ({ io with sent := io.sent ++ p.take n, room := some 0 }, false)

/-- What comes next after a success. -/
def next (x : Io × Bool) (f : Io → Io × Bool) : Io × Bool := if x.2 then f x.1 else x

end Io

/-- What a call of `sendfile` comes to. -/
inductive SendfileCall where
  | moved (n : Nat)
  | interrupted
  /-- `EINVAL` or `ENOSYS`. -/
  | refused
  | failed

/-- The loop of `sendfile_body`; there is no result if `read` has to do it. No further call returns
after the last one, until the time is up. -/
def sendfileLoop (f : FileSpan) : List SendfileCall → Nat → Nat → Io → Option (Io × Bool)
  | [], left, _, io => some (io, left = 0)
  | call :: calls, left, off, io =>
      if left = 0 then some (io, true)
      else
        match call with
        | .interrupted => sendfileLoop f calls left off io
        | .refused => if left = f.length then none else some (io, false)
        | .failed => some (io, false)
        | .moved n =>
            let piece := (f.content.drop off).take (min n (min left (2 ^ 30)))
            if piece = [] then some (io, false)
            else
              sendfileLoop f calls (left - piece.length) (off + piece.length)
                { io with sent := io.sent ++ piece }

def sendfileBody (b : BodyReader) (contentLength : Option UInt64) (chunked enabled : Bool)
    (calls : List SendfileCall) (io : Io) : Option (Io × Bool) :=
  match contentLength, b.file with
  | some n, some f =>
      if !enabled || io.ssl || chunked || f.length ≠ n.toNat then none
      else sendfileLoop f calls f.length f.offset io
  | _, _ => none

/-- One piece of a stream. -/
def sendChunk (chunked : Bool) (c : Bytes) (io : Io) : Io × Bool :=
  if chunked then
    Io.next (io.sendAll (hex c.length ++ crlf)) fun io => Io.next (io.sendAll c) fun io =>
      io.sendAll crlf
  else io.sendAll c

def endStream (chunked : Bool) (contentLength : Option UInt64) (written : Nat) (io : Io) :
    Io × Bool :=
  if chunked then io.sendAll lastChunk
  else if contentLength.any (fun n => written ≠ n.toNat) then (io, false)
  else (io, true)

/-- `stream_body`. -/
def streamBody (chunked : Bool) (contentLength : Option UInt64) :
    List (Option Bytes) → Nat → Io → Io × Bool
  | [], written, io => endStream chunked contentLength written io
  | none :: _, _, io => (io, false)
  | some c :: reads, written, io =>
      if c = [] then endStream chunked contentLength written io
      else if !chunked && contentLength.any (fun n => n.toNat < written + c.length) then (io, false)
      else Io.next (sendChunk chunked c io)
        (streamBody chunked contentLength reads (written + c.length))

/-- How files are sent: whether `sendfile` is on, and what its calls return. -/
structure SendfileMode where
  enabled : Bool := true
  calls : List SendfileCall := []

/-- `write_response`. -/
def writeResponse (r : HttpResponse) (date : HttpDate) (keepAlive headRequest : Bool)
    (mode : SendfileMode) (io : Io) : Io × Bool :=
  Io.next (io.sendAll (r.renderHead date keepAlive headRequest)) fun io =>
    if headRequest || r.noBodyStatus then (io, true)
    else
      match r.streamBody with
      | none => io.sendAll r.smallBody
      | some b =>
          match sendfileBody b r.contentLength
            (r.chunked headRequest) mode.enabled mode.calls io with
          | some x => x
          | none => streamBody (r.chunked headRequest) r.contentLength b.reads 0 io

/-- The end of `serve_one`; the connection stays open if the result is true. -/
def serveResponse (r : HttpResponse) (date : HttpDate) (keepAlive headRequest : Bool)
    (mode : SendfileMode) (io : Io) : Io × Bool :=
  let x := writeResponse r date keepAlive headRequest mode io
  if x.2 then (x.1, keepAlive) else (x.1, false)

/-! ## What is sent -/

/-- The bytes `p` were sent, or a first part of them before a failure. -/
def Sends (io : Io) (p : Bytes) (x : Io × Bool) : Prop :=
  ∃ q, x.1.sent = io.sent ++ q ∧ q <+: p ∧ (x.2 = true → q = p)

theorem Sends.failed (io : Io) (p : Bytes) : Sends io p (io, false) :=
  ⟨[], (List.append_nil _).symm, List.nil_prefix, nofun⟩

theorem sends_sendAll (io : Io) (p : Bytes) : Sends io p (io.sendAll p) := by
  unfold Io.sendAll
  split
  · exact ⟨p, rfl, List.prefix_rfl, fun _ => rfl⟩
  · next n _ =>
      split_ifs
      · exact ⟨p, rfl, List.prefix_rfl, fun _ => rfl⟩
      · exact ⟨p.take n, rfl, List.take_prefix n p, nofun⟩

variable {io : Io} {x : Io × Bool}

theorem Sends.next {p q : Bytes} {f : Io → Io × Bool} (hx : Sends io p x)
    (hf : ∀ io', Sends io' q (f io')) : Sends io (p ++ q) (Io.next x f) := by
  obtain ⟨p', hsent, hprefix, hall⟩ := hx
  unfold Io.next
  split_ifs with hok
  · obtain ⟨q', hsent', hprefix', hall'⟩ := hf x.1
    rw [hsent, hall hok] at hsent'
    refine ⟨p ++ q', by rw [hsent', List.append_assoc],
      (List.prefix_append_right_inj p).mpr hprefix', fun h => ?_⟩
    rw [hall' h]
  · exact ⟨p', hsent, hprefix.trans (List.prefix_append p q), fun h => absurd h hok⟩

theorem Io.next_ok {f : Io → Io × Bool} (h : (Io.next x f).2 = true) : (f x.1).2 = true := by
  unfold Io.next at h
  split_ifs at h with hok
  · exact h
  · exact absurd h hok

/-- The bytes of a stream on the wire. -/
def streamPayload (chunked : Bool) (reads : List (Option Bytes)) : Bytes :=
  if chunked then (chunksRead reads).flatMap chunk ++ lastChunk else (chunksRead reads).flatten

theorem sends_endStream (chunked : Bool) (contentLength : Option UInt64) (written : Nat) (io : Io) :
    Sends io (streamPayload chunked []) (endStream chunked contentLength written io) := by
  unfold endStream streamPayload
  split_ifs
  · exact sends_sendAll io lastChunk
  · exact .failed io _
  · exact ⟨[], (List.append_nil _).symm, List.nil_prefix, fun _ => rfl⟩

theorem sends_sendChunk (chunked : Bool) (c : Bytes) (io : Io) :
    Sends io (if chunked then chunk c else c) (sendChunk chunked c io) := by
  unfold sendChunk
  split_ifs
  · have hall :=
      (sends_sendAll io (hex c.length ++ crlf)).next fun io => (sends_sendAll io c).next fun io =>
      sends_sendAll io crlf
    simpa only [chunk, List.append_assoc] using hall
  · exact sends_sendAll io c

theorem sends_streamBody (chunked : Bool) (contentLength : Option UInt64)
    (reads : List (Option Bytes)) (written : Nat) (io : Io) :
    Sends io (streamPayload chunked reads) (streamBody chunked contentLength reads written io) := by
  induction reads generalizing written io with
  | nil => exact sends_endStream chunked contentLength written io
  | cons read reads ih =>
      cases read with
      | none => exact .failed io _
      | some c =>
          rw [streamBody]
          by_cases hc : c = []
          · have hend : streamPayload chunked (some c :: reads) = streamPayload chunked [] := by
              simp [streamPayload, chunksRead, hc]
            rw [if_pos hc, hend]
            exact sends_endStream chunked contentLength written io
          · have hmore : streamPayload chunked (some c :: reads) =
                (if chunked then chunk c else c) ++ streamPayload chunked reads := by
              cases chunked <;> simp [streamPayload, chunksRead, hc]
            rw [if_neg hc]
            split_ifs
            · exact .failed io _
            · rw [hmore]
              exact (sends_sendChunk chunked c io).next fun io => ih (written + c.length) io

/-- A stream of a fixed length ends well only if it has that length. -/
theorem streamBody_length {contentLength : UInt64} {reads : List (Option Bytes)} {written : Nat}
    (h : (streamBody false (some contentLength) reads written io).2 = true) :
    written + (chunksRead reads).flatten.length = contentLength.toNat := by
  have hend {written : Nat} {io : Io}
      (h : (endStream false (some contentLength) written io).2 = true) :
      written = contentLength.toNat := by
    by_contra hne
    simp [endStream, hne] at h
  induction reads generalizing written io with
  | nil => simpa [chunksRead] using hend h
  | cons read reads ih =>
      cases read with
      | none => cases h
      | some c =>
          rw [streamBody] at h
          by_cases hc : c = []
          · rw [if_pos hc] at h
            simpa [chunksRead, hc] using hend h
          · rw [if_neg hc] at h
            split_ifs at h
            have htotal := ih (Io.next_ok h)
            simp only [chunksRead, if_neg hc, List.flatten_cons, List.length_append]
            omega

theorem take_split (s : Bytes) (k left : Nat) (hk : k ≤ left) :
    s.take left = s.take k ++ (s.drop (s.take k).length).take (left - (s.take k).length) := by
  have hshort : (s.take k).length ≤ left := (List.length_take_le k s).trans hk
  have hsame : s.take k = s.take (s.take k).length := by
    rw [List.take_eq_take_iff, List.length_take]
    omega
  conv_lhs => rw [← Nat.add_sub_of_le hshort, List.take_add, ← hsame]

theorem sendfileLoop_spec {f : FileSpan} {calls : List SendfileCall} {left off : Nat}
    (h : sendfileLoop f calls left off io = some x) :
    Sends io ((f.content.drop off).take left) x ∧
    (x.2 = true → left ≤ (f.content.drop off).length) := by
  have hdone {io : Io} {off : Nat} {ok : Bool} : Sends io ((f.content.drop off).take 0) (io, ok) :=
    ⟨[], (List.append_nil _).symm, List.nil_prefix, fun _ => by simp⟩
  have hfailed {io : Io} {left off : Nat} : Sends io ((f.content.drop off).take left) (io, false) ∧
      ((io, false).2 = true → left ≤ (f.content.drop off).length) := ⟨.failed io _, nofun⟩
  induction calls generalizing left off io with
  | nil =>
      cases h
      by_cases hleft : left = 0
      · subst hleft
        exact ⟨hdone, fun _ => Nat.zero_le _⟩
      · rw [decide_eq_false hleft]
        exact hfailed
  | cons call calls ih =>
      unfold sendfileLoop at h
      by_cases hleft : left = 0
      · subst hleft
        rw [if_pos rfl] at h
        cases h
        exact ⟨hdone, fun _ => Nat.zero_le _⟩
      rw [if_neg hleft] at h
      cases call with
      | interrupted => exact ih h
      | refused =>
          dsimp only at h
          split_ifs at h
          cases h
          exact hfailed
      | failed =>
          cases h
          exact hfailed
      | moved n =>
          dsimp only at h
          split_ifs at h with hempty
          · cases h
            exact hfailed
          · obtain ⟨⟨q, hsent, hprefix, hall⟩, hlong⟩ := ih h
            have hsplit :=
              take_split (f.content.drop off) (min n (min left (2 ^ 30))) left (by omega)
            have hpiece := List.length_take_le' (min n (min left (2 ^ 30))) (f.content.drop off)
            rw [List.drop_drop] at hsplit
            generalize (f.content.drop off).take (min n (min left (2 ^ 30))) = piece at *
            rw [hsplit]
            refine ⟨⟨piece ++ q, ?_, (List.prefix_append_right_inj piece).mpr hprefix,
              fun hok => ?_⟩, fun hok => ?_⟩
            · rw [hsent, List.append_assoc]
            · rw [hall hok]
            · have hrest := hlong hok
              simp only [List.length_drop] at hpiece hrest ⊢
              omega

/-! ## The bytes of a response -/

namespace HttpResponse

variable (r : HttpResponse) (date : HttpDate) (keepAlive headRequest : Bool)

/-- The bytes that follow the head. -/
def payload : Bytes :=
  if headRequest || r.noBodyStatus then []
  else
    match r.streamBody with
    | none => r.smallBody
    | some b => streamPayload r.contentLength.isNone b.reads

end HttpResponse

theorem sends_sendfileBody {b : BodyReader} {contentLength : Option UInt64} {chunked enabled : Bool}
    {calls : List SendfileCall}
    (h : sendfileBody b contentLength chunked enabled calls io = some x) :
    Sends io b.bytes x ∧ chunked = false ∧
      ∃ n, contentLength = some n ∧ (x.2 = true → b.bytes.length = n.toNat) := by
  unfold sendfileBody at h
  split at h
  · next n f hfile =>
      split_ifs at h with hskip
      simp only [Bool.or_eq_true, Bool.not_eq_true', decide_eq_true_eq, not_or, not_not,
        Bool.not_eq_true] at hskip
      obtain ⟨hsends, hlong⟩ := sendfileLoop_spec h
      have hrange : (f.content.drop f.offset).take f.length = b.bytes := b.file_range f hfile
      rw [hrange] at hsends
      refine ⟨hsends, hskip.1.2, n, rfl, fun hok => ?_⟩
      rw [← hrange, List.length_take, Nat.min_eq_left (hlong hok), hskip.2]
  · cases h

theorem sends_writeResponse (r : HttpResponse) (date : HttpDate) (keepAlive headRequest : Bool)
    (mode : SendfileMode) (io : Io) :
    Sends io (r.renderHead date keepAlive headRequest ++ r.payload headRequest)
      (writeResponse r date keepAlive headRequest mode io) := by
  refine (sends_sendAll io _).next fun io => ?_
  unfold HttpResponse.payload
  by_cases hbody : (headRequest || r.noBodyStatus) = true
  · rw [if_pos hbody, if_pos hbody]
    exact ⟨[], (List.append_nil _).symm, List.nil_prefix, fun _ => rfl⟩
  · rw [if_neg hbody, if_neg hbody]
    obtain ⟨hhead, hstatus⟩ : headRequest = false ∧ r.noBodyStatus = false := by simpa using hbody
    cases hstream : r.streamBody with
    | none => exact sends_sendAll io r.smallBody
    | some b =>
        have hchunked : r.chunked headRequest = r.contentLength.isNone := by
          simp [HttpResponse.chunked, hhead, hstatus, hstream]
        dsimp only
        rw [hchunked]
        cases hfile : sendfileBody b r.contentLength r.contentLength.isNone mode.enabled
          mode.calls io with
        | some x =>
            obtain ⟨hsends, hfixed, -⟩ := sends_sendfileBody hfile
            rw [hfixed]
            exact hsends
        | none => exact sends_streamBody _ _ _ _ io

/-- A stream with a length is all sent only if it has that length. -/
theorem writeResponse_length {r : HttpResponse} {date : HttpDate} {keepAlive headRequest : Bool}
    {mode : SendfileMode} (h : (writeResponse r date keepAlive headRequest mode io).2 = true)
    (hbody : (headRequest || r.noBodyStatus) = false) {b : BodyReader}
    (hstream : r.streamBody = some b) {n : UInt64} (hn : r.contentLength = some n) :
    b.bytes.length = n.toNat := by
  have hchunked : r.chunked headRequest = false := by
    simp [HttpResponse.chunked, hn]
  have hsent := Io.next_ok h
  simp only [hbody, hstream, Bool.false_eq_true, if_false] at hsent
  split at hsent
  · next x hfile =>
      obtain ⟨-, -, k, hk, hlength⟩ := sends_sendfileBody hfile
      rw [hn] at hk
      cases hk
      exact hlength hsent
  · rw [hchunked, hn] at hsent
    simpa [BodyReader.bytes] using streamBody_length hsent

/-! ## What is read -/

theorem noBodyStatus_eq (r : HttpResponse) : r.noBodyStatus = bodyless r.status := by
  simp only [HttpResponse.noBodyStatus, bodyless]
  grind

theorem lineByte_render {n : Nat} {c : UInt8} (h : c ∈ Decimal.render n) :
    lineByte c = true ∧ blank c = false := by
  have hdigit := Decimal.isDigit_of_mem_render h
  have hall : ∀ k < 256, Decimal.isDigit (UInt8.ofNat k) = true →
      lineByte (UInt8.ofNat k) = true ∧ blank (UInt8.ofNat k) = false := by decide +kernel
  have hc := hall c.toNat c.toNat_lt
  rw [UInt8.ofNat_toNat] at hc
  exact hc hdigit

theorem trim_eq_self {v : Bytes} (h : ∀ c ∈ v, blank c = false) : trim v = v := by
  have hdrop : v.dropWhile blank = v := by
    cases v with
    | nil => rfl
    | cons c v => simp [h c List.mem_cons_self]
  rw [trim, hdrop, List.rdropWhile_eq_self_iff]
  exact fun hne => by simp [h _ (List.getLast_mem hne)]

theorem fits_emitHeaders {headers : HeaderMap} : ∀ e ∈ emitHeaders headers, FieldFits e := by
  intro e he
  obtain ⟨-, hemit⟩ := List.mem_filter.mp he
  simp only [headerEmittable, Bool.and_eq_true, decide_eq_true_eq, List.all_eq_true] at hemit
  obtain ⟨-, ⟨hne, hname⟩, hvalue⟩ := hemit
  refine ⟨hne, fun c hc => ?_, fun c hc => ?_⟩
  · have := hname c hc
    simp_all [lineByte, blank]
  · simpa [lineByte] using hvalue c hc

namespace HttpResponse

variable (r : HttpResponse) (date : HttpDate) (keepAlive headRequest : Bool)

/-- The headers that the driver adds. -/
def ownHeaders : HeaderMap :=
  r.dateHeaders date ++ r.framingHeaders headRequest ++ [r.connectionHeader keepAlive headRequest]

/-- A header as it is read. -/
def readBack (e : Bytes × Bytes) : Bytes × Bytes := (e.1, trim e.2)

/-- The names of the headers that the driver adds. -/
theorem framingHeaders_cases :
    r.framingHeaders headRequest = [] ∨ r.framingHeaders headRequest = [r.lengthHeader] ∨
      r.framingHeaders headRequest = [(ascii "Transfer-Encoding", ascii "chunked")] := by
  unfold framingHeaders
  split_ifs <;> simp

theorem ownHeaders_fit :
    ∀ e ∈ r.ownHeaders date keepAlive headRequest, FieldFits e ∧ readBack e = e := by
  have hnamed {k v : Bytes} (hk : k ≠ [] ∧ ∀ c ∈ k, lineByte c = true ∧ c ≠ 58 ∧ blank c = false)
      (hv : ∀ c ∈ v, lineByte c = true) (htrim : trim v = v) : FieldFits (k, v) ∧
      readBack (k, v) = (k, v) :=
    ⟨⟨hk.1, hk.2, hv⟩, by rw [readBack, htrim]⟩
  have hdate : ∀ e ∈ r.dateHeaders date, FieldFits e ∧ readBack e = e := by
    intro e he
    unfold dateHeaders at he
    split_ifs at he
    · simp at he
    · rw [List.mem_singleton.mp he]
      exact hnamed (by decide) date.plain date.trimmed
  have hframing : ∀ e ∈ r.framingHeaders headRequest, FieldFits e ∧ readBack e = e := by
    obtain h | h | h := r.framingHeaders_cases headRequest <;> rw [h]
    · simp
    · simp only [List.mem_singleton, forall_eq]
      exact hnamed (by decide) (fun c hc => (lineByte_render hc).1)
        (trim_eq_self fun c hc => (lineByte_render hc).2)
    · simp only [List.mem_singleton, forall_eq]
      exact hnamed (by decide) (by decide) (by decide)
  have hconnection : FieldFits (r.connectionHeader keepAlive headRequest) ∧
      readBack (r.connectionHeader keepAlive headRequest) =
        r.connectionHeader keepAlive headRequest := by
    unfold connectionHeader
    generalize (if headRequest && !r.headLengthKnown then false else keepAlive) = keep
    cases keep
    · exact hnamed (by decide) (by decide) (by decide)
    · exact hnamed (by decide) (by decide) (by decide)
  unfold ownHeaders
  simp only [List.forall_mem_append, List.mem_singleton, forall_eq]
  exact ⟨⟨hdate, hframing⟩, hconnection⟩

/-- The headers of a response as they are read. -/
def fieldsRead : HeaderMap :=
  (emitHeaders r.headers).map readBack ++ r.ownHeaders date keepAlive headRequest

/-- The status line. -/
def statusLine : Bytes :=
  ascii "HTTP/1.1 " ++ Decimal.render r.status ++ ascii " " ++ ascii (reasonPhrase r.status)

theorem lineByte_statusLine : ∀ c ∈ r.statusLine, lineByte c = true := by
  have hversion : ∀ c ∈ ascii "HTTP/1.1 ", lineByte c = true := by decide
  have hspace : ∀ c ∈ ascii " ", lineByte c = true := by decide
  have hreason : ∀ c ∈ ascii (reasonPhrase r.status), lineByte c = true := by
    unfold reasonPhrase
    split <;> decide
  simp only [statusLine, List.forall_mem_append]
  exact ⟨⟨⟨hversion, fun c hc => (lineByte_render hc).1⟩, hspace⟩, hreason⟩

/-- Whatever follows a head, its lines are the status line and one line for each header. -/
theorem read_head (rest : Bytes) :
    ∃ s, takeLine (r.renderHead date keepAlive headRequest ++ rest) = some (r.statusLine, s) ∧
      readFields (s.length + 1) s = some (r.fieldsRead date keepAlive headRequest, rest) := by
  have hall : r.headHeaders date keepAlive headRequest =
      emitHeaders r.headers ++ r.ownHeaders date keepAlive headRequest := by
    simp only [headHeaders, ownHeaders, List.append_assoc]
  have hfits : ∀ e ∈ r.headHeaders date keepAlive headRequest, FieldFits e := by
    rw [hall, List.forall_mem_append]
    exact ⟨fits_emitHeaders, fun e he => (r.ownHeaders_fit date keepAlive headRequest e he).1⟩
  have hread : (r.headHeaders date keepAlive headRequest).map readBack =
      r.fieldsRead date keepAlive headRequest := by
    rw [hall, List.map_append, fieldsRead]
    congr 1
    exact (List.map_congr_left fun e he =>
      (r.ownHeaders_fit date keepAlive headRequest e he).2).trans (List.map_id _)
  have hline := takeLine_append r.statusLine r.lineByte_statusLine
    ((r.headHeaders date keepAlive headRequest).flatMap fieldLine ++ crlf ++ rest)
  refine ⟨_, ?_, (readFields_append hfits ?_ rest).trans ?_⟩
  · rw [← hline]
    simp only [renderHead, statusLine, List.append_assoc]
  · have hlen := length_le_flatMap (f := fieldLine) (by simp [fieldLine, crlf])
      (r.headHeaders date keepAlive headRequest)
    simp only [List.length_append]
    omega
  · exact congrArg (fun fs => some (fs, rest)) hread

theorem readResponse_head (hstatus : 100 ≤ r.status) (p : Bytes) :
    readResponse headRequest (r.renderHead date keepAlive headRequest ++ p) =
      if r.status < 1000 then
        (readBody headRequest r.status (r.fieldsRead date keepAlive headRequest) p).map
          (fun x => (⟨r.status, r.fieldsRead date keepAlive headRequest, x.1⟩, x.2))
      else none := by
  obtain ⟨s, hline, hfields⟩ := r.read_head date keepAlive headRequest p
  have hread : readStatusLine r.statusLine = if r.status < 1000 then some r.status else none :=
    readStatusLine_append hstatus _
  unfold readResponse
  simp only [hline, Option.bind_eq_bind, Option.bind_some, hread]
  split_ifs
  · simp only [Option.bind_some, hfields, Option.map_eq_bind]
    rfl
  · rfl

/-! ## Headers by name -/

/-- Of the names that the driver writes itself, only its own headers are found. -/
theorem fieldsNamed_read {name : String}
    (hname : ∀ k, ieq k (ascii name) = true → driverHeader k = true)
    (hdate : sameName (ascii "Date") (ascii name) = false) :
    fieldsNamed name (r.fieldsRead date keepAlive headRequest) =
      fieldsNamed name (r.framingHeaders headRequest) ++
        fieldsNamed name [r.connectionHeader keepAlive headRequest] := by
  have hemitted : fieldsNamed name ((emitHeaders r.headers).map readBack) = [] := by
    refine List.filter_eq_nil_iff.mpr fun e he hsame => ?_
    obtain ⟨e', he', rfl⟩ := List.mem_map.mp he
    have hdriver := (Bool.and_eq_true_iff.mp (List.mem_filter.mp he').2).1
    rw [hname e'.1 hsame] at hdriver
    cases hdriver
  have hdated : fieldsNamed name (r.dateHeaders date) = [] := by
    refine List.filter_eq_nil_iff.mpr fun e he hsame => ?_
    unfold dateHeaders at he
    split_ifs at he
    · simp at he
    · rw [List.mem_singleton.mp he, hdate] at hsame
      cases hsame
  unfold fieldsNamed at *
  rw [fieldsRead, ownHeaders, List.filter_append, List.filter_append, List.filter_append,
    hemitted, hdated, List.nil_append, List.nil_append]

theorem connection_read : fieldsNamed "Connection" (r.fieldsRead date keepAlive headRequest) =
    [r.connectionHeader keepAlive headRequest] := by
  rw [r.fieldsNamed_read date keepAlive headRequest (fun k hk => by simp [driverHeader, hk])
    (by decide)]
  obtain h | h | h := r.framingHeaders_cases headRequest <;> rw [h] <;> rfl

theorem codings_read : fieldsNamed "Transfer-Encoding" (r.fieldsRead date keepAlive headRequest) =
    fieldsNamed "Transfer-Encoding" (r.framingHeaders headRequest) := by
  rw [r.fieldsNamed_read date keepAlive headRequest (fun k hk => by simp [driverHeader, hk])
    (by decide)]
  exact List.append_nil _

theorem lengths_read : fieldsNamed "Content-Length" (r.fieldsRead date keepAlive headRequest) =
    fieldsNamed "Content-Length" (r.framingHeaders headRequest) := by
  rw [r.fieldsNamed_read date keepAlive headRequest (fun k hk => by simp [driverHeader, hk])
    (by decide)]
  exact List.append_nil _

/-- The other headers are those that were emitted, and the date. -/
theorem others_read :
    (r.fieldsRead date keepAlive headRequest).filter (fun e => !driverHeader e.1) =
    (emitHeaders r.headers).map readBack ++ r.dateHeaders date := by
  have hemitted : ((emitHeaders r.headers).map readBack).filter (fun e => !driverHeader e.1) =
      (emitHeaders r.headers).map readBack := by
    refine List.filter_eq_self.mpr fun e he => ?_
    obtain ⟨e', he', rfl⟩ := List.mem_map.mp he
    exact (Bool.and_eq_true_iff.mp (List.mem_filter.mp he').2).1
  have hdated : (r.dateHeaders date).filter (fun e => !driverHeader e.1) = r.dateHeaders date := by
    unfold dateHeaders
    split_ifs <;> rfl
  have hframing : (r.framingHeaders headRequest).filter (fun e => !driverHeader e.1) = [] := by
    obtain h | h | h := r.framingHeaders_cases headRequest <;> rw [h] <;> rfl
  rw [fieldsRead, ownHeaders, List.filter_append, List.filter_append, List.filter_append,
    hemitted, hdated, hframing, List.append_nil]
  exact congrArg _ (List.append_nil _)

/-! ## One message -/

/-- The body of a response. There is none for a request with the method HEAD or a status without a
body. -/
def body : Bytes :=
  if headRequest || bodyless r.status then []
  else
    match r.streamBody with
    | none => r.smallBody
    | some b => b.bytes

/-- The message is the response: its status, the headers that may be written and no others but the
date and those of the driver, exactly one framing unless the status has no body, the body, and a
connection that is kept. -/
structure ReadAs (m : Response) : Prop where
  status : m.status = r.status
  headers : m.fields.filter (fun e => !driverHeader e.1) =
    (r.headers.filter fun e => !driverHeader e.1 && headerEmittable e.1 e.2).map readBack ++
      if r.headers.any (fun e => sameName e.1 (ascii "Date")) then [] else
        [(ascii "Date", date.text)]
  framing : (fieldsNamed "Transfer-Encoding" m.fields ++
    fieldsNamed "Content-Length" m.fields).length =
    if bodyless r.status then 0 else 1
  body : m.body = r.body headRequest
  connection : fieldsNamed "Connection" m.fields = [(ascii "Connection", ascii "keep-alive")]

/-- The status has three digits, the length of a body that is not sent is known, and a small body
has the length that is set for it. -/
structure Sound : Prop where
  status : r.status < 1000
  known : headRequest = true → r.headLengthKnown = true
  length : (headRequest || bodyless r.status) = false → r.streamBody = none →
    ∀ n, r.contentLength = some n → n.toNat = r.smallBody.length

theorem readFraming_length (h : r.framingHeaders headRequest = [r.lengthHeader]) :
    readFraming (r.fieldsRead date keepAlive headRequest) =
      some (.length ((r.contentLength.map UInt64.toNat).getD r.smallBody.length)) := by
  have hcodings : fieldsNamed "Transfer-Encoding" [r.lengthHeader] = [] := rfl
  have hlengths : fieldsNamed "Content-Length" [r.lengthHeader] = [r.lengthHeader] := rfl
  rw [readFraming, codings_read, lengths_read, h, hcodings, hlengths]
  exact congrArg (Option.map Framing.length) (Decimal.parse_render _)

theorem readFraming_chunked
    (h : r.framingHeaders headRequest = [(ascii "Transfer-Encoding", ascii "chunked")]) :
    readFraming (r.fieldsRead date keepAlive headRequest) = some .chunked := by
  rw [readFraming, codings_read, lengths_read, h]
  rfl

theorem chunksRead_ne_nil (reads : List (Option Bytes)) : ∀ c ∈ chunksRead reads, c ≠ [] := by
  induction reads with
  | nil => simp [chunksRead]
  | cons read reads ih =>
      cases read with
      | none => simp [chunksRead]
      | some c =>
          rw [chunksRead]
          split_ifs with hc
          · simp
          · exact List.forall_mem_cons.mpr ⟨hc, ih⟩

/-- The framing of a response with a body. -/
theorem framingHeaders_body {r : HttpResponse} (hstatus : bodyless r.status = false) :
    r.framingHeaders false =
      if r.streamBody.isSome && r.contentLength.isNone then
        [(ascii "Transfer-Encoding", ascii "chunked")]
      else [r.lengthHeader] := by
  simp [framingHeaders, noBodyStatus_eq, hstatus]

theorem readBody_payload (hsound : r.Sound headRequest)
    (hstream : (headRequest || bodyless r.status) = false → ∀ b, r.streamBody = some b →
      ∀ n, r.contentLength = some n → b.bytes.length = n.toNat) :
    readBody headRequest r.status (r.fieldsRead date keepAlive headRequest)
      (r.payload headRequest) =
      some (r.body headRequest, []) := by
  have hall {s : Bytes} {n : Nat} (hn : n = s.length) :
      (if s.length < n then none else some (s.take n, s.drop n)) = some (s, []) := by
    simp [hn]
  unfold readBody payload body
  rw [noBodyStatus_eq]
  by_cases hbody : (headRequest || bodyless r.status) = true
  · simp only [hbody, if_true]
  · simp only [Bool.not_eq_true] at hbody
    simp only [hbody, Bool.false_eq_true, if_false]
    obtain ⟨rfl, hstatus⟩ := Bool.or_eq_false_iff.mp hbody
    have hframing := framingHeaders_body hstatus
    cases hb : r.streamBody with
    | none =>
        rw [hb] at hframing
        rw [r.readFraming_length date keepAlive false hframing]
        refine hall ?_
        cases hn : r.contentLength with
        | none => rfl
        | some n => exact hsound.length hbody hb n hn
    | some b =>
        cases hn : r.contentLength with
        | none =>
            rw [hb, hn] at hframing
            rw [r.readFraming_chunked date keepAlive false hframing]
            have hfuel : (chunksRead b.reads).length < (streamPayload true b.reads).length + 1 := by
              have hlen :=
                length_le_flatMap (f := chunk) (by simp [chunk, crlf]) (chunksRead b.reads)
              simp only [streamPayload, if_true, List.length_append]
              omega
            have hchunks := readChunks_append (chunksRead_ne_nil b.reads) hfuel []
            rw [List.append_nil] at hchunks
            exact hchunks
        | some n =>
            rw [hb, hn] at hframing
            rw [r.readFraming_length date keepAlive false hframing, hn]
            exact hall (hstream hbody b hb n hn).symm

theorem smallBody_length {r : HttpResponse} {x : Bytes}
    (hread : readBody headRequest r.status (r.fieldsRead date keepAlive headRequest)
      (r.payload headRequest) = some (x, []))
    (hbody : (headRequest || bodyless r.status) = false) (hnone : r.streamBody = none) {n : UInt64}
    (hn : r.contentLength = some n) : n.toNat = r.smallBody.length := by
  obtain ⟨rfl, hstatus⟩ := Bool.or_eq_false_iff.mp hbody
  have hframing := framingHeaders_body hstatus
  rw [hnone] at hframing
  have hpayload : r.payload false = r.smallBody := by
    simp [payload, noBodyStatus_eq, hstatus, hnone]
  rw [readBody, hpayload, hbody, r.readFraming_length date keepAlive false hframing, hn] at hread
  simp only [Bool.false_eq_true, if_false, Option.map_some, Option.getD_some] at hread
  split_ifs at hread with hshort
  have hrest : r.smallBody.drop n.toNat = [] :=
    congrArg (fun x => (Prod.snd x)) (Option.some.inj hread)
  have hlong := List.drop_eq_nil_iff.mp hrest
  omega

theorem framing_count (hknown : headRequest = true → r.headLengthKnown = true) :
    (fieldsNamed "Transfer-Encoding" (r.fieldsRead date keepAlive headRequest) ++
      fieldsNamed "Content-Length" (r.fieldsRead date keepAlive headRequest)).length =
      if bodyless r.status then 0 else 1 := by
  rw [codings_read, lengths_read]
  unfold framingHeaders
  rw [noBodyStatus_eq]
  split_ifs with hstatus hhead hlength hchunked
  · rfl
  · rfl
  · exact absurd (hknown hhead) hlength
  · rfl
  · rfl

theorem connectionHeader_kept :
    r.connectionHeader true headRequest = (ascii "Connection", ascii "keep-alive") ↔
    (headRequest = true → r.headLengthKnown = true) := by
  unfold connectionHeader
  cases headRequest <;> cases r.headLengthKnown <;> decide

end HttpResponse

/-- A response that leaves the connection open is one message, and is read as the response, exactly
if it is sound. In no case do the values of the headers make another line: whatever follows the
head, its lines are the status line and one for each header, and what follows it is the body, of
which a part may be missing. -/
theorem response_one_message (r : HttpResponse) (date : HttpDate) (keepAlive headRequest : Bool)
    (mode : SendfileMode) (io : Io) (hstatus : 200 ≤ r.status) :
    ((serveResponse r date keepAlive headRequest mode io).2 = true →
      ((∃ w m, (serveResponse r date keepAlive headRequest mode io).1.sent = io.sent ++ w ∧
        readResponse headRequest w = some (m, []) ∧ r.ReadAs date headRequest m) ↔
        r.Sound headRequest)) ∧
    (∃ w, (serveResponse r date keepAlive headRequest mode io).1.sent = io.sent ++ w ∧
      w <+: r.renderHead date keepAlive headRequest ++ r.payload headRequest) ∧
    ∀ rest, ∃ s, takeLine (r.renderHead date keepAlive headRequest ++ rest) =
      some (r.statusLine, s) ∧ readFields (s.length + 1) s =
        some ((emitHeaders r.headers).map HttpResponse.readBack ++
          r.ownHeaders date keepAlive headRequest, rest) := by
  obtain ⟨w, hsent, hprefix, hall⟩ := sends_writeResponse r date keepAlive headRequest mode io
  have hserve : (serveResponse r date keepAlive headRequest mode io).1 =
      (writeResponse r date keepAlive headRequest mode io).1 := by
    unfold serveResponse
    dsimp only
    split_ifs <;> rfl
  rw [hserve]
  refine ⟨fun hkept => ?_, ⟨w, hsent, hprefix⟩, r.read_head date keepAlive headRequest⟩
  obtain ⟨hwrite, rfl⟩ : (writeResponse r date keepAlive headRequest mode io).2 = true ∧
      keepAlive = true := by
    unfold serveResponse at hkept
    dsimp only at hkept
    split_ifs at hkept with hwrite
    exact ⟨hwrite, hkept⟩
  have hread := r.readResponse_head date true headRequest (by omega) (r.payload headRequest)
  rw [← hall hwrite] at hread
  constructor
  · rintro ⟨w', m, hsent', hm, hback⟩
    obtain rfl : w = w' := List.append_cancel_left (hsent.symm.trans hsent')
    rw [hread] at hm
    split_ifs at hm with hdigits
    obtain ⟨⟨body, rest⟩, hbody, hm⟩ := Option.map_eq_some_iff.mp hm
    cases hm
    refine ⟨hdigits, r.connectionHeader_kept headRequest |>.mp ?_, fun hsent hnone n hn => ?_⟩
    · have hconnection := hback.connection
      rw [HttpResponse.connection_read] at hconnection
      exact List.singleton_inj.mp hconnection
    · exact HttpResponse.smallBody_length date true headRequest hbody hsent hnone hn
  · intro hsound
    have hbody := r.readBody_payload date true headRequest hsound fun hbody b hb n hn =>
      writeResponse_length hwrite (by rwa [noBodyStatus_eq]) hb hn
    rw [hbody, if_pos hsound.status] at hread
    exact ⟨w, _, hsent, hread, rfl, r.others_read date true headRequest,
      r.framing_count date true headRequest hsound.known, rfl,
      (r.connection_read date true headRequest).trans
        (congrArg (fun e => [e]) ((r.connectionHeader_kept headRequest).mpr hsound.known))⟩

def sampleDate : HttpDate where
  text := ascii "Tue, 14 Jul 2026 08:00:00 GMT"
  plain := by decide
  trimmed := by decide

/-- A stream of two pieces and no set length. -/
def twoPieces : HttpResponse where
  headers := [(ascii "x-amz-meta-a", ascii " b "),
    (ascii "x-amz-meta-c", ascii "d\r\nSet-Cookie: e")]
  streamBody := some { reads := [some (ascii "he"), some (ascii "llo")], file_range := by simp }

theorem response_one_message_pieces :
    200 ≤ twoPieces.status ∧ (serveResponse twoPieces sampleDate true false {} {}).2 = true ∧
      ∃ w m, (serveResponse twoPieces sampleDate true false {} {}).1.sent = w ∧
        readResponse false w = some (m, []) ∧ twoPieces.ReadAs sampleDate false m ∧
        m.body = ascii "hello" := by
  have hstatus : 200 ≤ twoPieces.status := by decide
  have hkept : (serveResponse twoPieces sampleDate true false {} {}).2 = true := rfl
  have hsound : twoPieces.Sound false := ⟨by decide, by decide, nofun⟩
  obtain ⟨w, m, hw, hread, hback⟩ :=
    ((response_one_message twoPieces sampleDate true false {} {} hstatus).1 hkept).mpr hsound
  exact ⟨hstatus, hkept, w, m, hw, hread, hback, hback.body⟩

/-- For a request with the method HEAD, a stream of unknown length is answered with a head that
closes the connection, and it stays open. A small body goes out under any length that was set for
it. -/
theorem kept_after_close :
    (serveResponse twoPieces sampleDate true true {} {}).2 = true ∧
    (¬ ∃ w m, (serveResponse twoPieces sampleDate true true {} {}).1.sent = w ∧
      readResponse true w = some (m, []) ∧ twoPieces.ReadAs sampleDate true m) ∧
    (serveResponse { smallBody := ascii "hello", contentLength := some 2 } sampleDate true false {}
      {}).2 = true ∧
    ¬ ∃ w m, (serveResponse { smallBody := ascii "hello", contentLength := some 2 }
      sampleDate true false {} {}).1.sent = w ∧ readResponse false w = some (m, []) := by
  have hclose : ∃ m, readResponse true (serveResponse twoPieces sampleDate true true {} {}).1.sent =
      some (m, []) ∧
      fieldsNamed "Connection" m.fields = [(ascii "Connection", ascii "close")] := ⟨_, rfl, rfl⟩
  have hrest : ∃ m, readResponse false
      (serveResponse { smallBody := ascii "hello", contentLength := some 2 } sampleDate
      true false {} {}).1.sent = some (m, ascii "llo") := ⟨_, rfl⟩
  refine ⟨rfl, ?_, rfl, ?_⟩
  · rintro ⟨w, m, rfl, hread, hback⟩
    obtain ⟨m', hread', hconnection⟩ := hclose
    obtain rfl : m = m' := by
      rw [hread'] at hread
      cases hread
      rfl
    exact absurd (hconnection.symm.trans hback.connection) (by decide)
  · rintro ⟨w, m, rfl, hread⟩
    obtain ⟨m', hread'⟩ := hrest
    rw [hread'] at hread
    cases hread

end Lights3
