import AdlServer.ParseHalts
import AdlServer.ParseThrows

/-! Which complete requests get no verdict: those whose line breaks off before its version,
those `parse` throws or never ends on, a POST with no byte behind its head, and those whose line
the search for CR LF has run past. -/
namespace AdlServer.Http
open Program Memory Cpp
variable {buf : Mem} {len : Int}

def linesText (lines : List Bytes) : Bytes := lines.flatMap (·++[CR,LF])

def Carries (headers : List Bytes) (v : Int) : Prop :=
  ∃ (hs : List RawHeader) (kv : Bytes×Bytes), headers = hs.map RawHeader.line ∧
    (addHeaders {} hs).find contentLength = some kv ∧ (stoi kv.2).Returns v

/-- A complete request: its line, its header lines, the empty line, each terminated by CR LF,
and as many bytes as it says. -/
structure Whole (data line : Bytes) (headers : List Bytes) (rest : Bytes) : Prop where
  data : data = line++CR::LF::(linesText headers++CR::LF::rest)
  one_line : ¬ [CR,LF]<:+:line
  headers_ne : ∀ h∈headers, h ≠ []
  headers_no_cr : ∀ h∈headers, CR∉h
  body : ∀ v, Carries headers v → 0 ≤ v → v ≤ rest.length

def Decided (buf : Mem) (len : Int) : Prop :=
  ∃ p, (parse buf len).Returns p ∧ (p.finalState = .success ∨ p.finalState = .failed)

/-- Data without a verdict. The last three take a request line that holds a CR LF: the search
steps over the byte behind a CR, so it runs past a line that ends in an unpaired one. -/
inductive Undecided (data : Bytes) : Prop where
  | noVersion (line t : Bytes) (m : Method) (h : LineIn data line) (hl : line = m.text++t)
    (ht : NoVersion t)
  | spaceFirst (h : SpaceFirstInHead data)
  | noBody (l : RawLine) (hs : List RawHeader) (hm : l.method = .POST) (h : data = headText l hs)
  | badLength (h : LengthUnreadable data)
  | notPositive (h : LengthNotPositive data)
  | openHead (l : RawLine) (hs : List RawHeader) (tail : Bytes)
    (h : data = l.text++(headersText hs++tail)) (ho : OpenEnd tail) (hrun : [CR,LF]<:+:l.line)
  | loneCr (l : RawLine) (hs : List RawHeader) (seg rest : Bytes) (c d : UInt8)
    (h : data = l.text++(headersText hs++(seg++CR::c::d::rest))) (hcr : CR∉seg) (hc : c ≠ LF)
    (hrun : [CR,LF]<:+:l.line)
  | shortBody (l : RawLine) (hs : List RawHeader) (rest : Bytes) (kv : Bytes×Bytes) (v : Int)
    (h : Posted data l hs rest kv) (hv : (stoi kv.2).Returns v) (hlt : rest.length < v)
    (hsum : (headText l hs).length+v < 2^31) (hrun : [CR,LF]<:+:l.line)

theorem Decided.outcome (h : Decided buf len) :
    ∃ state request, (Outcome.verdict state request).Holds buf len ∧ state ≠ .incomplete := by
  obtain ⟨p,hp,hs⟩ := h
  refine ⟨p.finalState,p.request,⟨p,hp,rfl,rfl⟩,?_⟩
  cases hs with
  | inl hs => simp [hs]
  | inr hs => simp [hs]

theorem not_decided_of_incomplete {request : HttpRequest}
    (h : (Outcome.verdict .incomplete request).Holds buf len) : ¬ Decided buf len := by
  intro hd
  obtain ⟨state,request',hh,hn⟩ := hd.outcome
  cases h.unique hh
  exact hn rfl

theorem not_decided_of_throws {e : Fault} (h : (parse buf len).Ends (.error e)) :
    ¬ Decided buf len := by
  intro hd
  obtain ⟨p,hp,_⟩ := hd
  cases Prog.Ends.unique h hp

theorem not_decided_of_endless (h : ¬ (parse buf len).Halts) : ¬ Decided buf len := by
  intro hd
  obtain ⟨p,hp,_⟩ := hd
  exact h hp.halts

theorem Undecided.not_decided (h0 : 0 ≤ len) (h : Undecided (slice buf 0 len)) :
    ¬ Decided buf len := by
  cases h with
  | noVersion line t m h hl ht => exact not_decided_of_incomplete (holds_noVersion h0 h hl ht)
  | spaceFirst h => exact not_decided_of_throws (parse_spaceFirst h)
  | noBody l hs hm h => exact not_decided_of_incomplete (holds_noBody hm h)
  | badLength h =>
    obtain ⟨e,he⟩ := parse_lengthUnreadable h
    exact not_decided_of_throws he
  | notPositive h => exact not_decided_of_endless (parse_lengthNotPositive h)
  | openHead l hs tail h ho _ => exact not_decided_of_incomplete (holds_openHead h ho)
  | loneCr l hs seg rest c d h hcr hc _ => exact not_decided_of_endless (holds_loneCr h hcr hc)
  | shortBody l hs rest kv v h hv hlt hsum _ =>
    have hl := congrArg List.length h.data
    simp only [length_slice,List.length_append] at hl
    have hw : wrapInt ((headText l hs).length+v) = (headText l hs).length+v :=
      wrapInt_of_range (by omega) hsum
    exact not_decided_of_incomplete (holds_shortBody h hv (by omega) (by rw [hw]; omega))

/-! The parser's own cut of a complete request. -/

section
variable {seg rest tail x y : Bytes}

theorem found_not_free (hs : crlfFree seg = true) : crlfFree (seg++CR::LF::rest) = false := by
  rw [crlfFree_append hs]
  simp [crlfFree]

theorem found_not_lastCr (hs : crlfFree seg = true) (hx : crlfFree x = true) :
    seg++CR::LF::rest ≠ x++[CR] := by
  intro h
  cases List.eq_nil_or_concat' rest with
  | inl hnil =>
    have he : (seg++[CR])++[LF] = x++[CR] := by simpa [hnil] using h
    have hlast := (List.append_inj' he rfl).2
    exact absurd (List.cons.inj hlast).1 (by decide)
  | inr hrest =>
    obtain ⟨r,c,hr⟩ := hrest
    have he : (seg++CR::LF::r)++[c] = x++[CR] := by simpa [hr] using h
    rw [← (List.append_inj' he rfl).1,found_not_free hs] at hx
    cases hx

end

section
variable {data line rest : Bytes} {headers : List Bytes}

theorem Whole.found (h : Whole data line headers rest) :
    ∃ seg rest', data = seg++CR::LF::rest' ∧ crlfFree seg = true := by
  cases crlf_cases line with
  | none hs => exact ⟨line,_,h.data,hs⟩
  | found seg r he hs =>
    refine absurd ⟨seg,r,?_⟩ h.one_line
    rw [he]
    simp
  | lastCr s he hs =>
    have hdata := h.data
    cases headers with
    | nil =>
      refine ⟨s++[CR,CR,LF],rest,by simp [hdata,he,linesText],?_⟩
      rw [crlfFree_append hs]
      decide
    | cons a headers =>
      have ha := h.headers_no_cr a List.mem_cons_self
      refine ⟨s++CR::CR::LF::a,linesText headers++CR::LF::rest,
        by simp [hdata,he,linesText],?_⟩
      rw [crlfFree_append hs]
      have hne : CR ≠ LF := by decide
      have hlf : CR∉LF::a := by simp [ha,hne]
      simpa [crlfFree,hne] using crlfFree_of_no_cr hlf

theorem taken_headers {tail : Bytes} (hs : List RawHeader) (hcr : ∀ h∈headers, CR∉h)
    (h : headersText hs++tail = linesText headers++CR::LF::rest) :
    ∃ more, headers = hs.map RawHeader.line++more ∧ tail = linesText more++CR::LF::rest := by
  induction hs generalizing headers with
  | nil => exact ⟨headers,rfl,h⟩
  | cons a hs ih =>
    have ha : headersText (a::hs)++tail = a.line++CR::LF::(headersText hs++tail) := by
      simp [headersText,RawHeader.text]
    rw [ha] at h
    cases headers with
    | nil =>
      have hempty : a.line++CR::LF::(headersText hs++tail) = []++CR::LF::rest := h
      obtain ⟨hnil,_⟩ := before_unique a.line_no_cr List.not_mem_nil hempty
      simp [RawHeader.line] at hnil
    | cons b headers =>
      have hb : linesText (b::headers)++CR::LF::rest =
          b++CR::LF::(linesText headers++CR::LF::rest) := by simp [linesText]
      rw [hb] at h
      obtain ⟨he,htail⟩ := before_unique a.line_no_cr (hcr b List.mem_cons_self) h
      obtain ⟨more,hm,ht⟩ := ih (fun c hc => hcr c (List.mem_cons_of_mem b hc))
        (List.cons.inj htail).2
      exact ⟨more,by rw [hm,← he]; rfl,ht⟩

theorem tail_line {more : List Bytes} (hcr : ∀ h∈more, CR∉h) :
    ∃ seg x, linesText more++CR::LF::rest = seg++CR::LF::x ∧ CR∉seg := by
  cases more with
  | nil => exact ⟨[],rest,rfl,List.not_mem_nil⟩
  | cons a more =>
    exact ⟨a,linesText more++CR::LF::rest,by simp [linesText],hcr a List.mem_cons_self⟩

theorem Whole.head (h : Whole data line headers rest) {l : RawLine} {hs : List RawHeader}
    {tail : Bytes} (hd : data = l.text++(headersText hs++tail)) (hl : ¬ [CR,LF]<:+:l.line) :
    ∃ more, headers = hs.map RawHeader.line++more ∧ tail = linesText more++CR::LF::rest := by
  have hlines : l.line++CR::LF::(headersText hs++tail) =
      line++CR::LF::(linesText headers++CR::LF::rest) := by
    rw [← h.data,hd]
    simp [RawLine.text]
  exact taken_headers hs h.headers_no_cr (line_unique hl h.one_line hlines).2

theorem Whole.next (h : Whole data line headers rest) {l : RawLine} {hs : List RawHeader}
    {tail : Bytes} (hd : data = l.text++(headersText hs++tail)) (hl : ¬ [CR,LF]<:+:l.line) :
    ∃ seg x, tail = seg++CR::LF::x ∧ CR∉seg := by
  obtain ⟨more,hm,ht⟩ := h.head hd hl
  rw [ht]
  exact tail_line fun c hc => h.headers_no_cr c (hm ▸ List.mem_append_right _ hc)

theorem not_open {tail seg x : Bytes} (h : tail = seg++CR::LF::x) (hseg : CR∉seg) :
    ¬ OpenEnd tail := by
  intro ho
  cases ho with
  | noCr hn => exact hn (by simp [h])
  | lastCr s he hs =>
    have hx := (before_unique hs hseg (he.symm.trans h)).2
    cases hx
  | cutPair s c he hs hc =>
    have hx := (before_unique hs hseg (he.symm.trans h)).2
    exact hc (List.cons.inj hx).1

theorem Whole.complete (h : Whole data line headers rest) {l : RawLine} {hs : List RawHeader}
    {rest' : Bytes} (hd : data = headText l hs++rest') (hl : ¬ [CR,LF]<:+:l.line) :
    headers = hs.map RawHeader.line ∧ rest' = rest := by
  have hd' : data = l.text++(headersText hs++CR::LF::rest') := by simp [hd,headText]
  obtain ⟨more,hm,ht⟩ := h.head hd' hl
  cases more with
  | nil => exact ⟨by rw [hm,List.append_nil],(List.cons.inj (List.cons.inj ht).2).2⟩
  | cons a more =>
    have ha : a∈headers := hm ▸ List.mem_append_right _ List.mem_cons_self
    have hline : []++CR::LF::rest' = a++CR::LF::(linesText more++CR::LF::rest) := by
      simpa [linesText] using ht
    have hnil := (before_unique List.not_mem_nil (h.headers_no_cr a ha) hline).1
    exact absurd hnil.symm (h.headers_ne a ha)

end

theorem decided_of_failed {request : HttpRequest}
    (h : (Outcome.verdict .failed request).Holds buf len) : Decided buf len := by
  obtain ⟨p,hp,hs,_⟩ := h
  exact ⟨p,hp,.inr hs⟩

theorem decided_of_success {request : HttpRequest}
    (h : (Outcome.verdict .success request).Holds buf len) : Decided buf len := by
  obtain ⟨p,hp,hs,_⟩ := h
  exact ⟨p,hp,.inl hs⟩

section
variable {line rest : Bytes} {headers : List Bytes}

theorem Whole.short (h : Whole (slice buf 0 len) line headers rest) (hlen : len < 2^31)
    {l : RawLine} {hs : List RawHeader} {rest' : Bytes} {kv : Bytes×Bytes} {v : Int}
    (hp : Posted (slice buf 0 len) l hs rest' kv) (hv : (stoi kv.2).Returns v) (hpos : 0 < v)
    (hw : len < wrapInt ((headText l hs).length+v)) : Undecided (slice buf 0 len) := by
  have hl := congrArg List.length hp.data
  simp only [length_slice,List.length_append] at hl
  have hrange := stoi_range hv
  have hsum : (headText l hs).length+v < 2^31 := by
    by_contra hge
    rw [wrapInt_of_overflow (Int.not_lt.mp hge) (by omega)] at hw
    omega
  rw [wrapInt_of_range (by omega) hsum] at hw
  have hlt : rest'.length < v := by omega
  by_cases hrun : [CR,LF]<:+:l.line
  · exact .shortBody l hs rest' kv v hp hv hlt hsum hrun
  · obtain ⟨hhs,hrest⟩ := h.complete hp.data hrun
    have hle := h.body v ⟨hs,kv,hhs,hp.length,hv⟩ (Int.le_of_lt hpos)
    rw [hrest] at hlt
    exact absurd hle (Int.not_le.mpr hlt)

theorem Whole.decided_or (h0 : 0 ≤ len) (hlen : len < 2^31)
    (h : Whole (slice buf 0 len) line headers rest) :
    Decided buf len ∨ Undecided (slice buf 0 len) := by
  obtain ⟨seg,rest',hfound,hseg⟩ := h.found
  obtain ⟨o,ho⟩ := answer_exists buf len
  have hh := ho.holds h0
  cases ho with
  | nothing hd =>
    rw [hd] at hfound
    simp at hfound
  | lastCr x hd hx => exact absurd (hfound.symm.trans hd) (found_not_lastCr hseg hx)
  | badMethod | badVersion | noSpace | noLength => exact .inl (decided_of_failed hh)
  | noVersion line t m hd hl ht => exact .inr (.noVersion line t m hd hl ht)
  | lineOnly url t m hs =>
    rw [hfound,found_not_free hseg] at hs
    cases hs
  | openHead l hs tail hd ho =>
    by_cases hrun : [CR,LF]<:+:l.line
    · exact .inr (.openHead l hs tail hd ho hrun)
    · obtain ⟨s,x,ht,hs⟩ := h.next hd hrun
      exact absurd ho (not_open ht hs)
  | spaceFirst l hs s x hd hcr => exact .inr (.spaceFirst ⟨l,hs,s,x,hd,hcr⟩)
  | loneCr l hs s x c d hd hcr hc =>
    by_cases hrun : [CR,LF]<:+:l.line
    · exact .inr (.loneCr l hs s x c d hd hcr hc hrun)
    · obtain ⟨s',x',ht,hs'⟩ := h.next hd hrun
      exact absurd (List.cons.inj (before_unique hcr hs' ht).2).1 hc
  | get | body => exact .inl (decided_of_success hh)
  | noBody l hs hm hd => exact .inr (.noBody l hs hm hd)
  | badLength l hs x kv e hp hv =>
    exact .inr (.badLength ⟨l,hs,x,kv,hp,(stoi_throws_iff kv.2).mp ⟨e,hv⟩⟩)
  | notPositive l hs x kv v hp hv hneg =>
    exact .inr (.notPositive ⟨l,hs,x,kv,v,hp.data,hp.more,hp.post,hp.length,hv,hneg⟩)
  | shortBody l hs x kv v hp hv hpos hw => exact .inr (h.short hlen hp hv hpos hw)

end

/-- A complete request gets a verdict exactly if it is none of these. -/
theorem parse_decides_iff (buf : Mem) (len : Nat) (hlen : (len:Int) < 2^31) (line : Bytes)
    (headers : List Bytes) (rest : Bytes) (h : Whole (slice buf 0 len) line headers rest) :
    Decided buf len ↔ ¬ Undecided (slice buf 0 len) := by
  constructor
  · intro hd hu
    exact hu.not_decided (by omega) hd
  · exact (h.decided_or (by omega) hlen).resolve_right

def strangeLine : Bytes := Method.GET.text++[88,32,47,32]++http11

def strangeGet : Bytes := strangeLine++[13,10,13,10]

theorem strangeGet_data : slice (ofBytes strangeGet fun _ => 0) 0 (strangeGet.length:Nat) =
    strangeGet := slice_ofBytes _ _

theorem no_length {v : Int} : ¬ Carries [] v := by
  intro h
  obtain ⟨hs,kv,hnil,hf,_⟩ := h
  rw [List.map_eq_nil_iff.mp hnil.symm] at hf
  cases hf

theorem strangeGet_whole :
    Whole (slice (ofBytes strangeGet fun _ => 0) 0 (strangeGet.length:Nat)) strangeLine [] [] :=
  ⟨strangeGet_data,by decide,by simp,by simp,fun _ h => absurd h no_length⟩

theorem strangeGet_waits : ¬ ∀ (buf : Mem) (len : Nat) (line : Bytes) (headers : List Bytes)
    (rest : Bytes), (len:Int) < 2^31 → Whole (slice buf 0 len) line headers rest →
    Decided buf len := by
  intro h
  have hdecided := h _ _ _ _ _ (by decide) strangeGet_whole
  refine Undecided.not_decided (by omega) ?_ hdecided
  rw [strangeGet_data]
  exact .noVersion (strangeLine++[CR,LF]) ([88,32,47,32]++http11++[CR,LF]) .GET
    (.ended strangeLine [13,10] rfl (by decide)) rfl (.inl (by decide))

theorem parse_decides_iff_strangeGet :
    Decided (ofBytes strangeGet fun _ => 0) strangeGet.length ↔
      ¬ Undecided (slice (ofBytes strangeGet fun _ => 0) 0 (strangeGet.length:Nat)) :=
  parse_decides_iff _ strangeGet.length (by decide) strangeLine [] [] strangeGet_whole

end AdlServer.Http
