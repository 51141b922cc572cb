import Lights3.Http

/-!
# The builtin HTTP server

The head of a request on a connection of `http/drivers/builtin/builtin_server.cc`, with the helpers
of `http/drivers/common.h`: lines are taken from a buffer that is filled from the socket, and the
headers decide how the body is framed. Timeouts and the counters are left out.
-/
namespace Lights3
open ByteString HttpSyntax

structure HttpConfig where
  maxHeaderSize : Nat := 16 * 1024

/-- `kScratchBytes`. -/
def scratchBytes : Nat := 16 * 1024

/-! ## The connection -/

structure ConnReader where
  /-- What is in the buffer. -/
  buffered : Bytes := []
  /-- What arrives at the socket, piece by piece. -/
  incoming : List Bytes

namespace ConnReader

/-- `recv`; nothing is received when the client has closed. -/
def recv (len : Nat) : List Bytes → Bytes × List Bytes
  | [] => ([], [])
  | piece :: pieces =>
      (piece.take len, if piece.drop len = [] then pieces else piece.drop len :: pieces)

inductive LineScan where
  | found (line rest : Bytes)
  | tooLong
  | more (line : Bytes)

/-- The bytes of the buffer up to the end of the line. -/
def scanLine (maxLen : Nat) : Bytes → Bytes → LineScan
  | line, [] => .more line
  | line, c :: buf =>
      if c = 10 then .found (chomp line) buf
      else if maxLen ≤ line.length then .tooLong
      else scanLine maxLen (line ++ [c]) buf

def readLineLoop (maxLen : Nat) : Nat → Bytes → ConnReader → Option (Bytes × ConnReader)
  | 0, _, _ => none
  | fuel + 1, line, r =>
      match scanLine maxLen line r.buffered with
      | .found line rest => some (line, { r with buffered := rest })
      | .tooLong => none
      | .more line =>
          let (piece, pieces) := recv scratchBytes r.incoming
          if piece = [] then none else readLineLoop maxLen fuel line ⟨piece, pieces⟩

/-- `read_line`. -/
def readLine (r : ConnReader) (maxLen : Nat) : Option (Bytes × ConnReader) :=
  readLineLoop maxLen (r.incoming.flatten.length + 1) [] r

/-- All bytes that are still to be read. -/
def rest (r : ConnReader) : Bytes := r.buffered ++ r.incoming.flatten

theorem recv_append (len : Nat) (pieces : List Bytes) :
    (recv len pieces).1 ++ (recv len pieces).2.flatten = pieces.flatten := by
  cases pieces with
  | nil => rfl
  | cons piece pieces =>
      rw [recv]
      split_ifs with hdrop
      · rw [List.take_of_length_le (List.drop_eq_nil_iff.mp hdrop), List.flatten_cons]
      · rw [List.flatten_cons, ← List.append_assoc, List.take_append_drop, List.flatten_cons]

theorem scanLine_eq (maxLen : Nat) (line buf : Bytes) :
    match scanLine maxLen line buf with
    | .found l after => ∃ raw, 10 ∉ raw ∧ l = chomp (line ++ raw) ∧ buf = raw ++ 10 :: after
    | .tooLong => True
    | .more l => l = line ++ buf ∧ 10 ∉ buf := by
  induction buf generalizing line with
  | nil => exact ⟨(List.append_nil line).symm, List.not_mem_nil⟩
  | cons c buf ih =>
      rw [scanLine]
      split_ifs with hc
      · exact ⟨[], List.not_mem_nil, by rw [List.append_nil], by rw [hc]; rfl⟩
      · trivial
      · have htail := ih (line ++ [c])
        split at htail
        · obtain ⟨raw, hraw, rfl, rfl⟩ := htail
          exact ⟨c :: raw, by simp [hraw, Ne.symm hc], by simp, rfl⟩
        · trivial
        · obtain ⟨rfl, hbuf⟩ := htail
          exact ⟨by simp, by simp [hbuf, Ne.symm hc]⟩

theorem readLineLoop_eq {maxLen fuel : Nat} {line l : Bytes} {r r' : ConnReader}
    (h : readLineLoop maxLen fuel line r = some (l, r')) :
    ∃ raw, 10 ∉ raw ∧ l = chomp (line ++ raw) ∧ r.rest = raw ++ 10 :: r'.rest := by
  induction fuel generalizing line r with
  | zero => simp [readLineLoop] at h
  | succ fuel ih =>
      have hscan := scanLine_eq maxLen line r.buffered
      rw [readLineLoop] at h
      cases hfound : scanLine maxLen line r.buffered with
      | found l₁ after =>
          rw [hfound] at h hscan
          cases h
          obtain ⟨raw, hraw, rfl, hbuf⟩ := hscan
          exact ⟨raw, hraw, rfl, by simp [rest, hbuf]⟩
      | tooLong =>
          rw [hfound] at h
          cases h
      | more l₁ =>
          rw [hfound] at h hscan
          dsimp only at h hscan
          split_ifs at h
          obtain ⟨raw, hraw, rfl, hrest⟩ := ih h
          obtain ⟨rfl, hbuf⟩ := hscan
          refine ⟨r.buffered ++ raw, by simp [hbuf, hraw], by simp, ?_⟩
          rw [rest, ← recv_append scratchBytes]
          exact (congrArg (r.buffered ++ ·) hrest).trans (List.append_assoc ..).symm

/-- A line that is read is the first one of the bytes that are still to be read. -/
theorem readLine_eq {maxLen : Nat} {l : Bytes} {r r' : ConnReader}
    (h : r.readLine maxLen = some (l, r')) : 10 ∉ l ∧ lines r.rest = l :: lines r'.rest := by
  obtain ⟨raw, hraw, rfl, hrest⟩ := readLineLoop_eq h
  rw [hrest, lines_append hraw]
  refine ⟨fun hmem => hraw ?_, rfl⟩
  unfold chomp at hmem
  split_ifs at hmem
  · exact List.mem_of_mem_dropLast hmem
  · exact hmem

end ConnReader

/-! ## Framing -/

/-- `parse_content_length`. -/
def parseContentLength (s : Bytes) : Option Nat :=
  if s = [] then none else s.foldlM (shiftDigitBelow 10 (2 ^ 64)) 0

structure BodyFraming where
  chunked : Bool := false
  contentLength : Option Nat := none
  deriving DecidableEq

structure FramingScan where
  te : Option Bytes := none
  teCount : Nat := 0
  cl : Option Bytes := none

/-- One header in `parse_body_framing`. -/
def FramingScan.header (f : FramingScan) (e : Bytes × Bytes) : Option FramingScan :=
  if ieq e.1 (ascii "Transfer-Encoding") then
    some { f with te := some e.2, teCount := f.teCount + 1 }
  else if ieq e.1 (ascii "Content-Length") then
    if f.cl.any (· ≠ e.2) then none else some { f with cl := some e.2 }
  else some f

/-- `parse_body_framing`; the framing is not valid if there is no result. -/
def parseBodyFraming (headers : HeaderMap) : Option BodyFraming :=
  match headers.foldlM FramingScan.header {} with
  | none => none
  | some f =>
      match f.te, f.cl with
      | some _, some _ => none
      | some te, none =>
          if 1 < f.teCount ∨ ieq te (ascii "chunked") = false then none else
            some { chunked := true }
      | none, some cl => (parseContentLength cl).map (fun n => { contentLength := some n })
      | none, none => some {}

/-! ## Requests -/

/-- What the handler gets of a request besides its body. -/
structure RequestHead where
  method : Bytes
  rawPath : Bytes
  rawQuery : Bytes
  path : Bytes
  query : List (Bytes × Bytes)
  headers : HeaderMap

/-- `percent_decode_query`; a plus sign is a space. -/
def percentDecodeQuery : Bytes → Bytes
  | [] => []
  | [c] => [plus c]
  | [c, d] => [plus c, plus d]
  | c :: h :: l :: s =>
      match (if c = 37 then hexVal h else none), hexVal l with
      | some hi, some lo => (hi * 16 + lo) :: percentDecodeQuery s
      | _, _ => plus c :: percentDecodeQuery (h :: l :: s)
where
  plus (c : UInt8) : UInt8 := if c = 43 then 32 else c

/-- `parse_target`. -/
def parseTarget (method target : Bytes) (headers : HeaderMap) : RequestHead where
  method := method
  rawPath := target.takeWhile (· ≠ 63)
  rawQuery := (target.dropWhile (· ≠ 63)).tail
  path := percentDecode (target.takeWhile (· ≠ 63))
  query := (((target.dropWhile (· ≠ 63)).tail.splitOn 38).filter (· ≠ [])).map (fun kv =>
    (percentDecodeQuery (kv.takeWhile (· ≠ 61)), percentDecodeQuery (kv.dropWhile (· ≠ 61)).tail))
  headers := headers

/-- The method, the target and the version of a request line. -/
def parseRequestLine (line : Bytes) : Option (Bytes × Bytes × Bytes) :=
  let rest := (line.dropWhile (· ≠ 32)).tail
  if 32 ∉ rest then none
  else some (line.takeWhile (· ≠ 32), (rest.rdropWhile (· ≠ 32)).dropLast, rest.rtakeWhile (· ≠ 32))

/-- The name and the value of a header line. -/
def parseHeaderLine (line : Bytes) : Option (Bytes × Bytes) :=
  if 13 ∈ line ∨ 58 ∉ line ∨ line.head? = some 58 then none
  else some (line.takeWhile (· ≠ 58), trim (line.dropWhile (· ≠ 58)).tail)

/-- Why a connection ends before a request: the text of the answer with status 400, if there is one.
-/
abbrev Rejection := Option String

def parseHeaders (cfg : HttpConfig) : Nat → Nat → HeaderMap → ConnReader →
    Except Rejection (HeaderMap × ConnReader)
  | 0, _, _, _ => .error none
  | fuel + 1, total, headers, r =>
      match r.readLine cfg.maxHeaderSize with
      | none => .error none
      | some (line, r) =>
          if line = [] then .ok (headers, r)
          else if line.head?.any blank then
            .error (some "Obsolete line folding is not supported.")
          else if cfg.maxHeaderSize < total + line.length then .error none
          else
            match parseHeaderLine line with
            | none => .error none
            | some h => parseHeaders cfg fuel (total + line.length) (headers ++ [h]) r

/-- The head of a request with its framing. -/
structure ReadHead where
  head : RequestHead
  framing : BodyFraming
  http10 : Bool

/-- `serve_one` up to the framing of the body. -/
def readHead (cfg : HttpConfig) (r : ConnReader) : Except Rejection (ReadHead × ConnReader) :=
  match r.readLine cfg.maxHeaderSize with
  | none => .error none
  | some (line, r) =>
      match parseRequestLine line with
      | none => .error none
      | some (method, target, version) => do
          let (headers, r) ←
            parseHeaders cfg (r.buffered.length + r.incoming.flatten.length + 1) 0 [] r
          match parseBodyFraming headers with
          | none => .error (some "Invalid message framing.")
          | some framing =>
              .ok (⟨parseTarget method target headers, framing, version = ascii "HTTP/1.0"⟩, r)

/-! ## The lines of a head -/

/-- What is known of a field line in a head that was accepted. -/
structure FieldLine (line : Bytes) : Prop where
  oneLine : 10 ∉ line
  unfolded : line.head?.any blank = false
  named : line.head? ≠ some 58 ∧ 58 ∈ line

theorem parseHeaders_lines {cfg : HttpConfig} {fuel total : Nat} {headers headers' : HeaderMap}
    {r r' : ConnReader} (h : parseHeaders cfg fuel total headers r = .ok (headers', r')) :
    headers' = headers ++ ((lines r.rest).takeWhile (· ≠ [])).map fieldOf ∧
      ∀ line ∈ (lines r.rest).takeWhile (· ≠ []), FieldLine line := by
  induction fuel generalizing total headers r with
  | zero => simp [parseHeaders] at h
  | succ fuel ih =>
      rw [parseHeaders] at h
      split at h
      · simp at h
      · next line r₁ hline =>
          obtain ⟨hone, hlines⟩ := ConnReader.readLine_eq hline
          rw [hlines]
          split_ifs at h with hempty hfold htotal
          · cases h
            simp [hempty]
          · rw [List.takeWhile_cons_of_pos (by simpa using hempty)]
            unfold parseHeaderLine at h
            split at h
            · simp at h
            · next e hparse =>
                split_ifs at hparse with hbad
                cases hparse
                obtain ⟨hheaders, hrest⟩ := ih h
                rw [not_or, not_or, not_not] at hbad
                refine ⟨by rw [hheaders, List.append_assoc]; rfl, ?_⟩
                exact List.forall_mem_cons.mpr
                  ⟨⟨hone, by simpa using hfold, hbad.2.2, hbad.2.1⟩, hrest⟩

/-- The headers of a head that was accepted are its field lines. -/
theorem readHead_lines {cfg : HttpConfig} {r r' : ConnReader} {x : ReadHead}
    (h : readHead cfg r = .ok (x, r')) :
    x.head.headers = (fieldLines r.rest).map fieldOf ∧
      (∀ line ∈ fieldLines r.rest, FieldLine line) ∧
      parseBodyFraming x.head.headers = some x.framing := by
  unfold readHead at h
  split at h
  · simp at h
  · next line r₁ hline =>
      rw [fieldLines, (ConnReader.readLine_eq hline).2, List.tail_cons]
      split at h
      · simp at h
      · obtain ⟨⟨headers, r₂⟩, hread, h⟩ := of_bind_ok h
        obtain ⟨hheaders, hlines⟩ := parseHeaders_lines hread
        dsimp only at h
        split at h
        · simp at h
        · next framing hframing =>
            cases h
            exact ⟨hheaders, hlines, hframing⟩

end Lights3
