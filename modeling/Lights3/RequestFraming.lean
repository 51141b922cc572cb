import Lights3.BuiltinServer

/-!
# Headers that frame a body

The bytes of a head that is accepted are read by others as well, who may take white space off the
names of fields and who may choose among the framing lines. The server looks for a framing header
under its exact name, so it is of one mind with them unless white space follows such a name.
-/
namespace Lights3
open ByteString HttpSyntax

/-! ## Heads -/

theorem dropWhile_last {p : UInt8 → Bool} {x v : Bytes} {c : UInt8} (hv : ∀ d ∈ v, p d = true)
    (hc : p c = false) :
    (x ++ c :: v).rdropWhile p = x ++ [c] ∧ (x ++ c :: v).rtakeWhile p = v := by
  have hspan := span_append (x := v.reverse) (r := c :: x.reverse) (p := p)
    (fun d hd => hv d (List.mem_reverse.mp hd)) (by simpa using hc)
  have hreverse : (x ++ c :: v).reverse = v.reverse ++ c :: x.reverse := by simp
  constructor
  · rw [List.rdropWhile, hreverse, hspan.2]
    simp
  · rw [List.rtakeWhile, hreverse, hspan.1]
    simp

theorem trim_append {before value after : Bytes} (hbefore : before.all blank = true)
    (hafter : after.all blank = true)
    (htrimmed : ∀ c, (value.head? = some c ∨ value.getLast? = some c) → blank c = false) :
    trim (before ++ (value ++ after)) = value := by
  rw [List.all_eq_true] at hbefore hafter
  unfold trim
  cases hvalue : value with
  | nil =>
      have hall : ∀ c ∈ before ++ ([] ++ after), blank c = true := by
        intro c hc
        rw [List.nil_append, List.mem_append] at hc
        exact hc.elim (hbefore c) (hafter c)
      rw [List.dropWhile_eq_nil_iff.mpr hall]
      rfl
  | cons c cs =>
      have hhead : blank c = false := htrimmed c (Or.inl (by simp [hvalue]))
      have hspan := span_append hbefore (r := c :: cs ++ after) (by simpa using hhead)
      rw [hspan.2, ← hvalue]
      obtain ⟨xs, l, hlast⟩ := (List.eq_nil_or_concat value).resolve_left (by simp [hvalue])
      rw [List.concat_eq_append] at hlast
      have hl : blank l = false := htrimmed l (Or.inr (by simp [hlast]))
      rw [hlast, List.append_assoc]
      exact (dropWhile_last (x := xs) hafter hl).1

/-! ## Names -/

def FramingName (n : Bytes) : Prop :=
  ieq n (ascii "Transfer-Encoding") = true ∨ ieq n (ascii "Content-Length") = true

instance (n : Bytes) : Decidable (FramingName n) := inferInstanceAs (Decidable (_ ∨ _))

variable {line n : Bytes}

theorem blank_of_ieq {w : Bytes} (h : ieq n w = true)
    (hw : ∀ c ∈ w, blank (lowerLetter c) = false) : ∀ c ∈ n, blank c = false := by
  intro c hc
  have hmem : lowerLetter c ∈ w.map lowerLetter := by
    have heq : n.map lowerLetter = w.map lowerLetter := of_decide_eq_true h
    rw [← heq]
    exact List.mem_map_of_mem hc
  obtain ⟨d, hd, hdc⟩ := List.mem_map.mp hmem
  by_contra hblank
  have hlower : lowerLetter c = c := by
    simp only [blank, Bool.or_eq_true, decide_eq_true_eq, Bool.not_eq_false] at hblank
    rcases hblank with rfl | rfl <;> rfl
  rw [← hlower, ← hdc] at hblank
  exact hblank (hw d hd)

theorem FramingName.no_blank (h : FramingName n) : ∀ c ∈ n, blank c = false := by
  rcases h with h | h
  · exact blank_of_ieq h (by decide +kernel)
  · exact blank_of_ieq h (by decide +kernel)

/-- White space around a framing name is what is taken off. -/
theorem FramingName.trim_eq {before after : Bytes} (h : FramingName n)
    (hbefore : before.all blank = true) (hafter : after.all blank = true) :
    trim (before ++ (n ++ after)) = n := by
  refine trim_append hbefore hafter fun c hc => h.no_blank c ?_
  rcases hc with hc | hc
  · exact List.mem_of_mem_head? hc
  · exact List.mem_of_mem_getLast? hc

/-- The line is one of the headers, and the framing is not decided without it. -/
def TakesPart (headers : HeaderMap) (line : Bytes) : Prop :=
  fieldOf line ∈ headers ∧ ∃ f : FramingScan, f.header (fieldOf line) ≠ some f

theorem takesPart_iff {headers : HeaderMap} (hmem : fieldOf line ∈ headers) :
    TakesPart headers line ↔ FramingName (fieldOf line).1 := by
  constructor
  · rintro ⟨-, f, hf⟩
    by_contra hname
    obtain ⟨hte, hcl⟩ := not_or.mp hname
    exact hf (by rw [FramingScan.header, if_neg hte, if_neg hcl])
  · intro hname
    refine ⟨hmem, {}, fun hf => ?_⟩
    by_cases hte : ieq (fieldOf line).1 (ascii "Transfer-Encoding") = true
    · rw [FramingScan.header, if_pos hte] at hf
      cases hf
    · rw [FramingScan.header, if_neg hte, if_pos (hname.resolve_left hte)] at hf
      cases hf

/-! ## Other recipients -/

/-- What can be made of framing headers with these values. -/
inductive Chosen (codings lengths : List Bytes) : BodyFraming → Prop where
  | unframed (hcodings : codings = []) (hlengths : lengths = []) : Chosen codings lengths {}
  | coding {te : Bytes} (hmem : te ∈ codings) (hte : ieq te (ascii "chunked") = true) :
      Chosen codings lengths { chunked := true }
  | length {cl : Bytes} {n : Nat} (hmem : cl ∈ lengths) (hcl : parseContentLength cl = some n) :
      Chosen codings lengths { contentLength := some n }

/-- A recipient of requests that takes some white space off names and makes one choice among the
framing lines, or rejects the request. -/
structure Recipient where
  name : Bytes → Bytes
  choose : List Bytes → List Bytes → Option BodyFraming
  name_blanks : ∀ n, ∃ before after, n = before ++ (name n ++ after) ∧ before.all blank = true ∧
    after.all blank = true
  choose_chosen : ∀ codings lengths f, choose codings lengths = some f → Chosen codings lengths f

/-- The values of the headers with a name, where names are read this way. -/
def valuesOf (name : Bytes → Bytes) (word : String) (headers : HeaderMap) : List Bytes :=
  (headers.filter (fun e => ieq (name e.1) (ascii word))).map (·.2)

/-- What the recipient makes of the bytes. -/
def Recipient.framing (p : Recipient) (message : Bytes) : Option BodyFraming :=
  let fields := (fieldLines message).map fieldOf
  p.choose (valuesOf p.name "Transfer-Encoding" fields) (valuesOf p.name "Content-Length" fields)

/-- The bodies end at the same place. -/
def SameEnd (f g : BodyFraming) : Prop :=
  f.chunked = g.chunked ∧ (f.chunked = false → f.contentLength.getD 0 = g.contentLength.getD 0)

/-! ## The framing headers -/

theorem valuesOf_append (name : Bytes → Bytes) (word : String) (xs ys : HeaderMap) :
    valuesOf name word (xs ++ ys) = valuesOf name word xs ++ valuesOf name word ys := by
  simp [valuesOf]

theorem valuesOf_singleton (name : Bytes → Bytes) (word : String) (e : Bytes × Bytes) :
    valuesOf name word [e] = if ieq (name e.1) (ascii word) then [e.2] else [] := by
  by_cases h : ieq (name e.1) (ascii word) = true
  · simp [valuesOf, h]
  · simp [valuesOf, h]

theorem not_length_of_coding (h : ieq n (ascii "Transfer-Encoding") = true) :
    ieq n (ascii "Content-Length") = false := by
  have hne : ieq (ascii "Transfer-Encoding") (ascii "Content-Length") = false := by decide
  simp only [sameName, decide_eq_true_eq, decide_eq_false_iff_not] at h hne ⊢
  rwa [h]

/-- What the server knows of the framing headers that it has seen. -/
structure Scanned (seen : HeaderMap) (f : FramingScan) : Prop where
  te : f.te = (valuesOf id "Transfer-Encoding" seen).getLast?
  cl : f.cl = (valuesOf id "Content-Length" seen).getLast?
  equal : ∀ v ∈ valuesOf id "Content-Length" seen, f.cl = some v

theorem Scanned.header {seen : HeaderMap} {f g : FramingScan} {e : Bytes × Bytes}
    (h : Scanned seen f) (hstep : f.header e = some g) : Scanned (seen ++ [e]) g := by
  obtain ⟨hte, hcl, hequal⟩ := h
  unfold FramingScan.header at hstep
  split_ifs at hstep with hcoding hlength hdiffer
  · cases hstep
    have hnot := not_length_of_coding hcoding
    refine ⟨?_, ?_, ?_⟩
    · simp [valuesOf_append, valuesOf_singleton, hcoding]
    · simp [valuesOf_append, valuesOf_singleton, hnot, hcl]
    · simpa [valuesOf_append, valuesOf_singleton, hnot] using hequal
  · cases hstep
    refine ⟨?_, ?_, ?_⟩
    · simp [valuesOf_append, valuesOf_singleton, hcoding, hte]
    · simp [valuesOf_append, valuesOf_singleton, hlength]
    · intro v hv
      simp only [valuesOf_append, valuesOf_singleton, id_eq, hlength, if_true, List.mem_append,
        List.mem_singleton] at hv
      rcases hv with hv | rfl
      · have hsame : v = e.2 := by simpa [hequal v hv] using hdiffer
        rw [hsame]
      · rfl
  · cases hstep
    refine ⟨?_, ?_, ?_⟩
    · simp [valuesOf_append, valuesOf_singleton, hcoding, hte]
    · simp [valuesOf_append, valuesOf_singleton, hlength, hcl]
    · simpa [valuesOf_append, valuesOf_singleton, hlength] using hequal

theorem Scanned.foldlM {s headers : HeaderMap} {f g : FramingScan} (h : Scanned s f)
    (hrun : headers.foldlM FramingScan.header f = some g) : Scanned (s ++ headers) g := by
  induction headers generalizing s f with
  | nil =>
      cases hrun
      simpa using h
  | cons e headers ih =>
      rw [List.foldlM_cons] at hrun
      obtain ⟨f', hstep, hrun⟩ := Option.bind_eq_some_iff.mp hrun
      simpa using ih (h.header hstep) hrun

/-- If the framing is valid, there is one choice. -/
theorem parseBodyFraming_chosen {headers : HeaderMap} {f g : BodyFraming}
    (h : parseBodyFraming headers = some f)
    (hg : Chosen (valuesOf id "Transfer-Encoding" headers)
      (valuesOf id "Content-Length" headers) g) :
    SameEnd g f := by
  unfold parseBodyFraming at h
  split at h
  · simp at h
  · next scan hscan =>
      obtain ⟨hte, hcl, hequal⟩ := Scanned.foldlM (s := []) ⟨rfl, rfl, by simp [valuesOf]⟩ hscan
      rw [List.nil_append] at hte hcl hequal
      split at h
      · simp at h
      · next te hsome hnone =>
          split_ifs at h with hbad
          cases h
          rw [hnone] at hcl
          rw [List.getLast?_eq_none_iff.mp hcl.symm] at hg
          rw [hsome] at hte
          cases hg with
          | unframed hcodings => simp [hcodings] at hte
          | coding => exact ⟨rfl, fun _ => rfl⟩
          | length hmem => simp at hmem
      · next cl hnone hsome =>
          obtain ⟨n, hn, rfl⟩ := Option.map_eq_some_iff.mp h
          rw [hnone] at hte
          rw [List.getLast?_eq_none_iff.mp hte.symm] at hg
          rw [hsome] at hcl hequal
          cases hg with
          | unframed _ hlengths => simp [hlengths] at hcl
          | coding hmem => simp at hmem
          | length hmem hlength =>
              obtain rfl := Option.some.inj (hequal _ hmem)
              exact ⟨rfl, fun _ => by rw [hlength] at hn; rw [hn]⟩
      · next hnone hnone' =>
          cases h
          rw [hnone] at hte
          rw [hnone'] at hcl
          rw [List.getLast?_eq_none_iff.mp hte.symm, List.getLast?_eq_none_iff.mp hcl.symm] at hg
          cases hg with
          | unframed => exact ⟨rfl, fun _ => rfl⟩
          | coding hmem => simp at hmem
          | length hmem => simp at hmem

/-! ## Agreement -/

/-- No line of the bytes that frames the body for others is overlooked, and all of them see the body
end where the server does. -/
structure FramedFully (message : Bytes) (headers : HeaderMap) (framing : BodyFraming) : Prop where
  tokens : ∀ line ∈ fieldLines message, IsToken (fieldOf line).1
  takesPart : ∀ line ∈ fieldLines message, FramingName (trim (fieldOf line).1) →
    TakesPart headers line
  agreed : ∀ (p : Recipient) (f : BodyFraming), p.framing message = some f → SameEnd f framing

/-- There is white space between the name of a framing line and the colon. -/
def Spaced (line : Bytes) : Prop :=
  FramingName (trim (fieldOf line).1) ∧ (fieldOf line).1.getLast?.any blank = true

theorem Recipient.name_eq (p : Recipient) (h : FramingName (trim n) → FramingName n)
    (hn : FramingName (p.name n) ∨ FramingName n) : p.name n = n := by
  obtain ⟨before, after, heq, hbefore, hafter⟩ := p.name_blanks n
  have hname : FramingName n := by
    rcases hn with hn | hn
    · have htrim := hn.trim_eq hbefore hafter
      rw [← heq] at htrim
      exact h (by rwa [htrim])
    · exact hn
  have hnil (blanks : Bytes) (hblanks : blanks.all blank = true) (hsub : ∀ c ∈ blanks, c ∈ n) :
      blanks = [] := by
    refine List.eq_nil_iff_forall_not_mem.mpr fun c hc => ?_
    have hblank := List.all_eq_true.mp hblanks c hc
    rw [hname.no_blank c (hsub c hc)] at hblank
    cases hblank
  rw [hnil before hbefore fun c hc => by rw [heq]; simp [hc],
    hnil after hafter fun c hc => by rw [heq]; simp [hc]] at heq
  simpa using heq.symm

theorem Recipient.valuesOf_eq (p : Recipient) {headers : HeaderMap} {word : String}
    (hword : ∀ n, ieq n (ascii word) = true → FramingName n)
    (h : ∀ e ∈ headers, FramingName (trim e.1) → FramingName e.1) :
    valuesOf p.name word headers = valuesOf id word headers := by
  unfold valuesOf
  congr 1
  refine List.filter_congr fun e he => ?_
  rw [Bool.eq_iff_iff]
  constructor
  · intro hname
    rwa [p.name_eq (h e he) (Or.inl (hword _ hname))] at hname
  · intro hname
    rwa [p.name_eq (h e he) (Or.inr (hword _ hname))]

theorem FieldLine.name (h : FieldLine line) :
    (fieldOf line).1 ≠ [] ∧ (fieldOf line).1.head?.any blank = false := by
  cases line with
  | nil => exact absurd h.named.2 List.not_mem_nil
  | cons c line =>
      have hc : c ≠ 58 := fun hc => h.named.1 (by simp [hc])
      have hfold := h.unfolded
      simp only [fieldOf, ne_eq, hc, not_false_eq_true, decide_true, List.takeWhile_cons_of_pos]
      exact ⟨by simp, by simpa using hfold⟩

/-- A line takes part unless white space follows its name. -/
theorem takesPart_iff_not_spaced {headers : HeaderMap} (h : FieldLine line)
    (hmem : fieldOf line ∈ headers) :
    (FramingName (trim (fieldOf line).1) → TakesPart headers line) ↔ ¬ Spaced line := by
  rw [takesPart_iff hmem, Spaced, not_and]
  refine imp_congr_right fun htrim => ⟨fun hname => ?_, fun hlast => ?_⟩
  · cases hlast : (fieldOf line).1.getLast? with
    | none => simp
    | some c => simp [hname.no_blank c (List.mem_of_mem_getLast? hlast)]
  · have hself : trim ([] ++ ((fieldOf line).1 ++ [])) = (fieldOf line).1 := by
      refine trim_append rfl rfl ?_
      rintro c (hc | hc)
      · simpa [hc] using h.name.2
      · simpa [hc] using hlast
    rw [List.nil_append, List.append_nil] at hself
    rwa [hself] at htrim

theorem not_spaced_of_tokens (h : (fieldOf line).1.all tokenByte = true) : ¬ Spaced line := by
  rintro ⟨-, hlast⟩
  obtain ⟨c, hc, hblank⟩ := (Option.any_eq_true ..).mp hlast
  have htoken := List.all_eq_true.mp h c (List.mem_of_mem_getLast? hc)
  simp only [blank, Bool.or_eq_true, decide_eq_true_eq] at hblank
  rcases hblank with rfl | rfl
  · exact absurd htoken (by decide)
  · exact absurd htoken (by decide)

/-- For the bytes of a head that was accepted: all framing lines take part if and only if there is
no white space between a framing name and its colon, and then all recipients agree. The head is
framed fully if and only if there is no byte but those of tokens before the colons. -/
theorem framedFully_iff {cfg : HttpConfig} {r r' : ConnReader} {x : ReadHead}
    (h : readHead cfg r = .ok (x, r')) :
    (FramedFully r.rest x.head.headers x.framing ↔
      ∀ line ∈ fieldLines r.rest, ∀ c ∈ line.takeWhile (· ≠ 58), tokenByte c = true) ∧
    ((∀ line ∈ fieldLines r.rest, FramingName (trim (fieldOf line).1) →
        TakesPart x.head.headers line) ↔ ∀ line ∈ fieldLines r.rest, ¬ Spaced line) ∧
    ((∀ line ∈ fieldLines r.rest, ¬ Spaced line) →
      ∀ (p : Recipient) (f : BodyFraming), p.framing r.rest = some f → SameEnd f x.framing) := by
  obtain ⟨hheaders, hlines, hframing⟩ := readHead_lines h
  have hmem : ∀ line ∈ fieldLines r.rest, fieldOf line ∈ x.head.headers :=
    fun line hline => hheaders ▸ List.mem_map_of_mem hline
  have hpart : (∀ line ∈ fieldLines r.rest, FramingName (trim (fieldOf line).1) →
      TakesPart x.head.headers line) ↔ ∀ line ∈ fieldLines r.rest, ¬ Spaced line :=
    forall₂_congr fun line hline => takesPart_iff_not_spaced (hlines line hline) (hmem line hline)
  have hagreed (hnot : ∀ line ∈ fieldLines r.rest, ¬ Spaced line) (p : Recipient)
      (f : BodyFraming) (hf : p.framing r.rest = some f) : SameEnd f x.framing := by
    have hchosen := p.choose_chosen _ _ _ hf
    have hexact : ∀ e ∈ x.head.headers, FramingName (trim e.1) → FramingName e.1 := by
      intro e he htrim
      rw [hheaders] at he
      obtain ⟨line, hline, rfl⟩ := List.mem_map.mp he
      exact (takesPart_iff (hmem line hline)).mp (hpart.mpr hnot line hline htrim)
    rw [← hheaders, p.valuesOf_eq (fun _ => Or.inl) hexact,
      p.valuesOf_eq (fun _ => Or.inr) hexact] at hchosen
    exact parseBodyFraming_chosen hframing hchosen
  refine ⟨⟨fun hfull line hline => ?_, fun htokens => ?_⟩, hpart, hagreed⟩
  · exact List.all_eq_true.mp (hfull.tokens line hline).2
  · have hall : ∀ line ∈ fieldLines r.rest, (fieldOf line).1.all tokenByte = true :=
      fun line hline => List.all_eq_true.mpr (htokens line hline)
    have hnot : ∀ line ∈ fieldLines r.rest, ¬ Spaced line :=
      fun line hline => not_spaced_of_tokens (hall line hline)
    exact ⟨fun line hline => ⟨(hlines line hline).name.1, hall line hline⟩, hpart.mpr hnot,
      hagreed hnot⟩

/-- A request with these header lines and the body `hello`. -/
def helloRequest (lines : List String) : ConnReader where
  incoming := [ascii "PUT /b/k HTTP/1.1", crlf] ++ lines.flatMap (fun l => [ascii l, crlf]) ++
    [crlf, ascii "hello"]

theorem framedFully_iff_hello :
    ∃ x r', readHead {} (helloRequest ["Host: h", "content-length: 5"]) = .ok (x, r') ∧
      FramedFully (helloRequest ["Host: h", "content-length: 5"]).rest x.head.headers x.framing ∧
      x.framing.contentLength = some 5 := by
  have hread : ∃ x r', readHead {} (helloRequest ["Host: h", "content-length: 5"]) = .ok (x, r') ∧
      x.framing.contentLength = some 5 := ⟨_, _, rfl, by decide⟩
  obtain ⟨x, r', hx, hlength⟩ := hread
  exact ⟨x, r', hx, (framedFully_iff hx).1.mpr (by decide +kernel), hlength⟩

/-- It takes all white space off names and goes by the first line. -/
def trimming : Recipient where
  name := trim
  choose
    | te :: _, _ => if ieq te (ascii "chunked") then some { chunked := true } else none
    | [], cl :: _ => (parseContentLength cl).map (fun n => { contentLength := some n })
    | [], [] => some {}
  name_blanks n := by
    refine ⟨n.takeWhile blank, (n.dropWhile blank).rtakeWhile blank, ?_,
      List.all_takeWhile, List.all_eq_true.mpr fun c hc => List.mem_rtakeWhile_imp hc⟩
    rw [trim, List.rdropWhile_append_rtakeWhile, List.takeWhile_append_dropWhile]
  choose_chosen codings lengths f h := by
    split at h
    · split_ifs at h with hte
      cases h
      exact .coding List.mem_cons_self hte
    · obtain ⟨n, hn, rfl⟩ := Option.map_eq_some_iff.mp h
      exact .length List.mem_cons_self hn
    · cases h
      exact .unframed rfl rfl

/-- A length is overlooked because a space follows its name. Others read a body of five bytes, and
the server takes them for the next request. -/
theorem framing_overlooked :
    ∃ x r', readHead {} (helloRequest ["Content-Length : 5"]) = .ok (x, r') ∧
      ¬ FramedFully (helloRequest ["Content-Length : 5"]).rest x.head.headers x.framing ∧
      x.framing = {} ∧ r'.rest = ascii "hello" ∧
      (∃ line ∈ fieldLines (helloRequest ["Content-Length : 5"]).rest,
        ¬ IsToken (fieldOf line).1 ∧ FramingName (trim (fieldOf line).1) ∧
          ¬ TakesPart x.head.headers line) ∧
      trimming.framing (helloRequest ["Content-Length : 5"]).rest =
        some { contentLength := some 5 } := by
  have hline :
      ascii "Content-Length : 5" ∈ fieldLines (helloRequest ["Content-Length : 5"]).rest := by
    decide +kernel
  refine ⟨_, _, rfl, ?_, by decide, by decide, ⟨_, hline, by decide, by decide, ?_⟩,
    by decide +kernel⟩
  · exact fun h => absurd (h.tokens _ hline) (by decide)
  · rw [takesPart_iff (by decide)]
    decide

end Lights3
