import AdlServer.RequestParse

/-! What `parse` answers, rule by rule over the received bytes. Only two rules look at the
memory behind them: the version of a line without CR LF, and a body whose end has wrapped. -/
namespace AdlServer.Http
open Program Memory Cpp
variable {buf : Mem} {len : Int}

/-- What a call of `parse` comes to. -/
inductive Outcome where
  | verdict (state : FinnalState) (request : HttpRequest)
  | throws (e : Fault)
  | endless

def Outcome.Holds (buf : Mem) (len : Int) : Outcome → Prop
  | .verdict state request =>
    ∃ p, (parse buf len).Returns p ∧ p.finalState = state ∧ p.request = request
  | .throws e => (parse buf len).Ends (.error e)
  | .endless => ¬ (parse buf len).Halts

theorem Outcome.Holds.unique {o o' : Outcome} (h : o.Holds buf len) (h' : o'.Holds buf len) :
    o = o' := by
  cases o with
  | verdict state request =>
    obtain ⟨p,hp,hs,hr⟩ := h
    cases o' with
    | verdict state' request' =>
      obtain ⟨p',hp',hs',hr'⟩ := h'
      cases hp.unique hp'
      rw [← hs,← hr,hs',hr']
    | throws e => cases Prog.Ends.unique hp h'
    | endless => exact absurd hp.halts h'
  | throws e =>
    cases o' with
    | verdict state' request' =>
      obtain ⟨p',hp',_⟩ := h'
      cases Prog.Ends.unique h hp'
    | throws e' => cases Prog.Ends.unique h h'; rfl
    | endless => exact absurd ⟨_,h⟩ h'
  | endless =>
    cases o' with
    | verdict state' request' =>
      obtain ⟨p',hp',_⟩ := h'
      exact absurd hp'.halts h
    | throws e' => exact absurd ⟨_,h'⟩ h
    | endless => rfl

/-- The bytes the request line is read from: all up to the first CR LF, or without one all
data. -/
inductive LineIn (data : Bytes) : Bytes → Prop where
  | ended (seg rest : Bytes) (h : data = seg++CR::LF::rest) (hs : crlfFree seg = true) :
    LineIn data (seg++[CR,LF])
  | cut (hs : crlfFree data = true) (hne : data ≠ []) : LineIn data data

def NoVersion (t : Bytes) : Prop :=
  t.head? ≠ some SP ∨ ∃ u, t = SP::u ∧ (SP∉u ∨ ∃ url, u = url++[SP] ∧ SP∉url)

def versionAt (m : Method) (url : Bytes) : Int := m.text.length+1+url.length+1

def versionBytes (buf : Mem) (m : Method) (url : Bytes) : Bytes :=
  slice buf (versionAt m url) (versionAt m url+8)

/-- A complete POST head with a length header and more data. -/
structure Posted (data : Bytes) (l : RawLine) (hs : List RawHeader) (rest : Bytes)
    (kv : Bytes×Bytes) : Prop where
  data : data = headText l hs++rest
  more : rest ≠ []
  post : l.method = .POST
  length : (addHeaders {} hs).find contentLength = some kv

inductive Answer (buf : Mem) (len : Int) : Outcome → Prop where
  | nothing (h : slice buf 0 len = []) : Answer buf len (.verdict .incomplete {})
  | lastCr (seg : Bytes) (h : slice buf 0 len = seg++[CR]) (hs : crlfFree seg = true) :
    Answer buf len (.verdict .incomplete {})
  | badMethod (line : Bytes) (h : LineIn (slice buf 0 len) line)
    (hg : ¬ Method.GET.text<+:line) (hp : ¬ Method.POST.text<+:line) :
    Answer buf len (.verdict .failed {})
  | noVersion (line t : Bytes) (m : Method) (h : LineIn (slice buf 0 len) line)
    (hl : line = m.text++t) (ht : NoVersion t) :
    Answer buf len (.verdict .incomplete { line := { method := some m } })
  | badVersion (line url t : Bytes) (m : Method) (h : LineIn (slice buf 0 len) line)
    (hl : line = m.text++SP::(url++SP::t)) (hu : SP∉url) (ht : t ≠ [])
    (hk : ¬ knownVersion (versionBytes buf m url)) :
    Answer buf len (.verdict .failed { line := { url := url, method := some m } })
  | lineOnly (url t : Bytes) (m : Method) (hs : crlfFree (slice buf 0 len) = true)
    (hl : slice buf 0 len = m.text++SP::(url++SP::t)) (hu : SP∉url) (ht : t ≠ [])
    (hk : knownVersion (versionBytes buf m url)) :
    Answer buf len (.verdict .incomplete { line := ⟨versionBytes buf m url,url,some m⟩ })
  | openHead (l : RawLine) (hs : List RawHeader) (tail : Bytes)
    (h : slice buf 0 len = l.text++(headersText hs++tail)) (ho : OpenEnd tail) :
    Answer buf len (.verdict .incomplete (headRequest l hs))
  | noSpace (l : RawLine) (hs : List RawHeader) (seg rest : Bytes)
    (h : slice buf 0 len = l.text++(headersText hs++(seg++CR::LF::rest))) (hne : seg ≠ [])
    (hcr : CR∉seg) (hsp : SP∉seg) : Answer buf len (.verdict .failed (headRequest l hs))
  | spaceFirst (l : RawLine) (hs : List RawHeader) (seg rest : Bytes)
    (h : slice buf 0 len = l.text++(headersText hs++SP::(seg++CR::LF::rest))) (hcr : CR∉seg) :
    Answer buf len (.throws .lengthError)
  | loneCr (l : RawLine) (hs : List RawHeader) (seg rest : Bytes) (c d : UInt8)
    (h : slice buf 0 len = l.text++(headersText hs++(seg++CR::c::d::rest))) (hcr : CR∉seg)
    (hc : c ≠ LF) : Answer buf len .endless
  | get (l : RawLine) (hs : List RawHeader) (rest : Bytes) (hm : l.method = .GET)
    (h : slice buf 0 len = headText l hs++rest) :
    Answer buf len
      (.verdict .success { headRequest l hs with parseSize := (headText l hs).length })
  | noBody (l : RawLine) (hs : List RawHeader) (hm : l.method = .POST)
    (h : slice buf 0 len = headText l hs) :
    Answer buf len (.verdict .incomplete (headRequest l hs))
  | noLength (l : RawLine) (hs : List RawHeader) (rest : Bytes) (hm : l.method = .POST)
    (h : slice buf 0 len = headText l hs++rest) (hne : rest ≠ [])
    (hf : (addHeaders {} hs).find contentLength = none) :
    Answer buf len (.verdict .failed (headRequest l hs))
  | badLength (l : RawLine) (hs : List RawHeader) (rest : Bytes) (kv : Bytes×Bytes) (e : Fault)
    (h : Posted (slice buf 0 len) l hs rest kv) (hv : (stoi kv.2).Ends (.error e)) :
    Answer buf len (.throws e)
  | notPositive (l : RawLine) (hs : List RawHeader) (rest : Bytes) (kv : Bytes×Bytes) (v : Int)
    (h : Posted (slice buf 0 len) l hs rest kv) (hv : (stoi kv.2).Returns v) (hneg : v ≤ 0) :
    Answer buf len .endless
  | shortBody (l : RawLine) (hs : List RawHeader) (rest : Bytes) (kv : Bytes×Bytes) (v : Int)
    (h : Posted (slice buf 0 len) l hs rest kv) (hv : (stoi kv.2).Returns v) (hpos : 0 < v)
    (hw : len < wrapInt ((headText l hs).length+v)) :
    Answer buf len (.verdict .incomplete (headRequest l hs))
  | body (l : RawLine) (hs : List RawHeader) (rest : Bytes) (kv : Bytes×Bytes) (v : Int)
    (h : Posted (slice buf 0 len) l hs rest kv) (hv : (stoi kv.2).Returns v) (hpos : 0 < v)
    (hw : wrapInt ((headText l hs).length+v) ≤ len) :
    Answer buf len (.verdict .success { headRequest l hs with
      parseSize := wrapInt ((headText l hs).length+v)
      body := slice buf (headText l hs).length ((headText l hs).length+v) })

section
variable {line : Bytes} {q : HttpParser}

theorem line_failed (hlen : 0 < len) (h : (requestLineParse buf len {}).Returns q)
    (hs : q.lineState = .bad) : (Outcome.verdict .failed q.request).Holds buf len :=
  ⟨_,parse_line_stops hlen h (by simp [hs]),by simp [hs],rfl⟩

theorem line_waits (hlen : 0 < len) (h : (requestLineParse buf len {}).Returns q)
    (hs : q.lineState = .incomplete) : (Outcome.verdict .incomplete q.request).Holds buf len :=
  ⟨_,parse_line_stops hlen h (by simp [hs]),by simp [hs],rfl⟩

theorem requestLineParse_lineIn (h0 : 0 ≤ len) (h : LineIn (slice buf 0 len) line) :
    0 < len ∧ ∃ lEnd, 0 < lEnd ∧ slice buf 0 lEnd = line ∧
      ∀ q, (requestLineLoop buf { lEnd := lEnd }).Returns q →
        (requestLineParse buf len {}).Returns q := by
  cases h with
  | ended seg rest h hs =>
    have h' : slice buf 0 len = (seg++[CR,LF])++rest := by simp [h]
    have hlen := congrArg List.length h
    simp only [length_slice,List.length_append,List.length_cons] at hlen
    refine ⟨by omega,0+seg.length+2,by omega,?_,fun q hq => (findLineEnd_found h hs).bind hq⟩
    rw [← (slice_split h').1]
    congr 1
    simp only [List.length_append,List.length_cons,List.length_nil]
    omega
  | cut hs hne =>
    have hlen := List.length_pos_iff.mpr hne
    rw [length_slice] at hlen
    exact ⟨by omega,len,by omega,rfl,fun q hq => requestLineParse_noEnd h0 hs hq⟩

theorem holds_badMethod (h0 : 0 ≤ len) (h : LineIn (slice buf 0 len) line)
    (hg : ¬ Method.GET.text<+:line) (hp : ¬ Method.POST.text<+:line) :
    (Outcome.verdict .failed {}).Holds buf len := by
  obtain ⟨hlen,lEnd,hpos,hline,hrun⟩ := requestLineParse_lineIn h0 h
  rw [← hline] at hg hp
  exact line_failed hlen (hrun _ (requestLine_badMethod rfl hpos hg hp)) rfl

theorem holds_noVersion {t : Bytes} {m : Method} (h0 : 0 ≤ len)
    (h : LineIn (slice buf 0 len) line) (hl : line = m.text++t) (ht : NoVersion t) :
    (Outcome.verdict .incomplete { line := { method := some m } }).Holds buf len := by
  obtain ⟨hlen,lEnd,hpos,hline,hrun⟩ := requestLineParse_lineIn h0 h
  rw [← hline] at hl
  cases ht with
  | inl ht =>
    obtain ⟨cur,hr⟩ := requestLine_methodOnly (p := { lEnd := lEnd }) m rfl hl ht
    exact line_waits hlen (hrun _ hr) rfl
  | inr ht =>
    obtain ⟨u,hu,hsp⟩ := ht
    rw [hu] at hl
    exact line_waits hlen (hrun _ (requestLine_urlOnly (p := { lEnd := lEnd }) m rfl hl hsp)) rfl

theorem version_inLine {url t : Bytes} {m : Method} {lEnd : Int}
    (hl : slice buf 0 lEnd = m.text++SP::(url++SP::t)) (ht : t ≠ []) :
    versionAt m url = 0+m.text.length+1+url.length+1 ∧ versionAt m url < lEnd := by
  have hlen := congrArg List.length hl
  have hpos := List.length_pos_iff.mpr ht
  simp only [length_slice,List.length_append,List.length_cons] at hlen
  rw [versionAt]
  omega

theorem holds_badVersion {url t : Bytes} {m : Method} (h0 : 0 ≤ len)
    (h : LineIn (slice buf 0 len) line) (hl : line = m.text++SP::(url++SP::t)) (hu : SP∉url)
    (ht : t ≠ []) (hk : ¬ knownVersion (versionBytes buf m url)) :
    (Outcome.verdict .failed { line := { url := url, method := some m } }).Holds buf len := by
  obtain ⟨hlen,lEnd,hpos,hline,hrun⟩ := requestLineParse_lineIn h0 h
  rw [← hline] at hl
  obtain ⟨hv,hlt⟩ := version_inLine hl ht
  have hr := requestLine_badVersion (p := { lEnd := lEnd }) m rfl hl hu hv hlt hk
  exact line_failed hlen (hrun _ hr) rfl

theorem holds_lineOnly {url t : Bytes} {m : Method} (h0 : 0 ≤ len)
    (hs : crlfFree (slice buf 0 len) = true)
    (hl : slice buf 0 len = m.text++SP::(url++SP::t)) (hu : SP∉url) (ht : t ≠ [])
    (hk : knownVersion (versionBytes buf m url)) :
    (Outcome.verdict .incomplete { line := ⟨versionBytes buf m url,url,some m⟩ }).Holds
      buf len := by
  obtain ⟨hv,hlt⟩ := version_inLine hl ht
  have hr := requestLine_good (p := { lEnd := len }) m rfl hl hu hv hlt rfl hk
  have hp := requestLineParse_noEnd h0 hs hr
  have hpos : 0 < len := by
    rw [versionAt] at hlt
    omega
  exact ⟨_,(parse_line_ok hpos hp rfl _).mpr (parseLoop_end rfl),rfl,rfl⟩

end

section
variable {l : RawLine} {hs : List RawHeader} {tail : Bytes}

section
variable {p q : HttpParser}

theorem AtTail.returns (hp : AtTail buf len l hs tail p) (h : slice buf 0 len = l.text++
    (headersText hs++tail)) (hq : (requestHeadParse buf len p).Returns q)
    (hn : q.lineState ≠ .ok) :
    (parse buf len).Returns { q with
      finalState := if q.lineState = .bad then .failed else .incomplete } :=
  (parse_toHead l h _).mpr (parse_head_stops l hp.begun ((hp.goesOn _).mpr hq) hn)

theorem AtTail.throws {e : Fault} (hp : AtTail buf len l hs tail p) (h : slice buf 0 len =
    l.text++(headersText hs++tail)) (he : (requestHeadParse buf len p).Ends (.error e)) :
    (parse buf len).Ends (.error e) :=
  (parse_toHead l h _).mpr (parse_head_throws l hp.begun ((hp.goesOn _).mpr he))

theorem AtTail.endless (hp : AtTail buf len l hs tail p) (h : slice buf 0 len = l.text++
    (headersText hs++tail)) (hno : ¬ (requestHeadParse buf len p).Halts) :
    ¬ (parse buf len).Halts := by
  intro hh
  obtain ⟨o,ho⟩ := hh
  refine parse_head_endless l hp.begun ?_ ⟨o,(parse_toHead l h o).mp ho⟩
  intro hh
  obtain ⟨o,ho⟩ := hh
  exact hno ⟨o,(hp.goesOn o).mp ho⟩

end

theorem holds_openHead (h : slice buf 0 len = l.text++(headersText hs++tail))
    (ho : OpenEnd tail) : (Outcome.verdict .incomplete (headRequest l hs)).Holds buf len := by
  by_cases hne : headersText hs++tail = []
  · -- the data end with the line
    have hnil : hs = [] := by
      cases hs with
      | nil => rfl
      | cons a hs => simp [headersText,RawHeader.text] at hne
    rw [hne,List.append_nil] at h
    have hlen := congrArg List.length h
    have hcur : (atHead l).cur = len := by
      have hpos := l.text_pos
      rw [length_slice] at hlen
      dsimp only [atHead,afterLine]
      omega
    have h' : slice buf 0 len = l.text++[] := by rw [h,List.append_nil]
    refine ⟨_,(parse_toHead l h' _).mpr (parseLoop_end hcur),rfl,?_⟩
    rw [hnil]
    rfl
  · obtain ⟨p,hp⟩ := parse_toTail h hne
    obtain ⟨q,hq,hn,_,hr⟩ := requestHeadParse_open hp.more hp.inside hp.tail ho
    exact ⟨_,hp.returns h hq (by simp [hn]),by simp [hn],hr.trans hp.request⟩

variable {seg rest : Bytes}

theorem holds_noSpace (h : slice buf 0 len = l.text++(headersText hs++(seg++CR::LF::rest)))
    (hne : seg ≠ []) (hcr : CR∉seg) (hsp : SP∉seg) :
    (Outcome.verdict .failed (headRequest l hs)).Holds buf len := by
  obtain ⟨p,hp⟩ := parse_toTail h (by simp)
  obtain ⟨q,hq,hn,hr⟩ := requestHeadParse_noSpace hp.more hp.tail hne hcr hsp
  exact ⟨_,hp.returns h hq (by simp [hn]),by simp [hn],hr.trans hp.request⟩

theorem holds_spaceFirst
    (h : slice buf 0 len = l.text++(headersText hs++SP::(seg++CR::LF::rest))) (hcr : CR∉seg) :
    (Outcome.throws .lengthError).Holds buf len := by
  obtain ⟨p,hp⟩ := parse_toTail h (by simp)
  exact hp.throws h (requestHeadParse_spaceFirst hp.more hp.tail hcr)

theorem holds_loneCr {c d : UInt8}
    (h : slice buf 0 len = l.text++(headersText hs++(seg++CR::c::d::rest))) (hcr : CR∉seg)
    (hc : c ≠ LF) : Outcome.endless.Holds buf len := by
  obtain ⟨p,hp⟩ := parse_toTail h (by simp)
  exact hp.endless h (requestHeadParse_loneCr hp.more hp.tail hcr hc)

end

section
variable {l : RawLine} {hs : List RawHeader} {rest : Bytes} {kv : Bytes×Bytes} {v : Int}

theorem holds_get (hm : l.method = .GET) (h : slice buf 0 len = headText l hs++rest) :
    (Outcome.verdict .success { headRequest l hs with
      parseSize := (headText l hs).length }).Holds buf len :=
  parse_get l hs hm h

theorem holds_noBody (hm : l.method = .POST) (h : slice buf 0 len = headText l hs) :
    (Outcome.verdict .incomplete (headRequest l hs)).Holds buf len := by
  have h' : slice buf 0 len = headText l hs++[] := by rw [h,List.append_nil]
  obtain ⟨p,hp,ho⟩ := parse_toBody l hs hm h'
  have hlen := congrArg List.length h
  have hpos := l.text_pos
  have hcur : p.cur = len := by
    rw [hp.cur]
    rw [length_slice] at hlen
    simp only [headText,List.length_append] at hlen ⊢
    omega
  exact ⟨p,(ho _).mpr (parseLoop_end hcur),hp.finalState,hp.request⟩

theorem head_before (h : slice buf 0 len = headText l hs++rest) (hne : rest ≠ []) :
    ((headText l hs).length:Int) < len := by
  have hlen := congrArg List.length h
  have hpos := List.length_pos_iff.mpr hne
  simp only [length_slice,List.length_append] at hlen
  omega

theorem holds_noLength (hm : l.method = .POST) (h : slice buf 0 len = headText l hs++rest)
    (hne : rest ≠ []) (hf : (addHeaders {} hs).find contentLength = none) :
    (Outcome.verdict .failed (headRequest l hs)).Holds buf len := by
  obtain ⟨p,hp,ho⟩ := parse_toBody l hs hm h
  exact ⟨_,(ho _).mpr (body_noLength hp (head_before h hne) hf),rfl,hp.request⟩

theorem Posted.toBody (h : Posted (slice buf 0 len) l hs rest kv) :
    ∃ p, AtBody p (headRequest l hs) (headText l hs).length ∧
      ∀ o, (parse buf len).Ends o ↔ (Prog.loop (parseTurn buf len) p).Ends o :=
  parse_toBody l hs h.post h.data

theorem Posted.before (h : Posted (slice buf 0 len) l hs rest kv) :
    ((headText l hs).length:Int) < len := head_before h.data h.more

theorem holds_badLength {e : Fault} (h : Posted (slice buf 0 len) l hs rest kv)
    (hv : (stoi kv.2).Ends (.error e)) : (Outcome.throws e).Holds buf len := by
  obtain ⟨p,hp,ho⟩ := h.toBody
  exact (ho _).mpr (body_throws hp h.before h.post h.length hv)

theorem holds_notPositive (h : Posted (slice buf 0 len) l hs rest kv)
    (hv : (stoi kv.2).Returns v) (hneg : v ≤ 0) : Outcome.endless.Holds buf len := by
  obtain ⟨p,hp,ho⟩ := h.toBody
  intro hh
  obtain ⟨o,hend⟩ := hh
  exact body_endless hp h.before h.post h.length hv hneg ⟨o,(ho o).mp hend⟩

theorem holds_shortBody (h : Posted (slice buf 0 len) l hs rest kv)
    (hv : (stoi kv.2).Returns v) (hpos : 0 < v)
    (hw : len < wrapInt ((headText l hs).length+v)) :
    (Outcome.verdict .incomplete (headRequest l hs)).Holds buf len := by
  obtain ⟨p,hp,ho⟩ := h.toBody
  exact ⟨_,(ho _).mpr (body_short hp h.before h.post h.length hv hpos hw),hp.finalState,
    hp.request⟩

theorem holds_body (h : Posted (slice buf 0 len) l hs rest kv) (hv : (stoi kv.2).Returns v)
    (hpos : 0 < v) (hw : wrapInt ((headText l hs).length+v) ≤ len) :
    (Outcome.verdict .success { headRequest l hs with
      parseSize := wrapInt ((headText l hs).length+v)
      body := slice buf (headText l hs).length ((headText l hs).length+v) }).Holds buf len := by
  obtain ⟨p,hp,ho⟩ := h.toBody
  obtain ⟨q,hq,hs',hr⟩ := body_read hp h.before h.post h.length hv hpos hw
  exact ⟨q,(ho _).mpr hq,hs',hr⟩

end

theorem Answer.holds {o : Outcome} (h0 : 0 ≤ len) (h : Answer buf len o) : o.Holds buf len := by
  cases h with
  | nothing h =>
    have hlen := slice_end h0 h
    have hcur : ({} : HttpParser).cur = len := by simp [hlen]
    exact ⟨{},parseLoop_end hcur,rfl,rfl⟩
  | lastCr seg h hs =>
    have hlen := congrArg List.length h
    simp only [length_slice,List.length_append,List.length_cons] at hlen
    have hp : (requestLineParse buf len {}).Returns { cur := len } :=
      (findLineEnd_lastCr h hs).bind (Prog.returns_self _)
    exact line_waits (by omega) hp rfl
  | badMethod line h hg hp => exact holds_badMethod h0 h hg hp
  | noVersion line t m h hl ht => exact holds_noVersion h0 h hl ht
  | badVersion line url t m h hl hu ht hk => exact holds_badVersion h0 h hl hu ht hk
  | lineOnly url t m hs hl hu ht hk => exact holds_lineOnly h0 hs hl hu ht hk
  | openHead l hs tail h ho => exact holds_openHead h ho
  | noSpace l hs seg rest h hne hcr hsp => exact holds_noSpace h hne hcr hsp
  | spaceFirst l hs seg rest h hcr => exact holds_spaceFirst h hcr
  | loneCr l hs seg rest c d h hcr hc => exact holds_loneCr h hcr hc
  | get l hs rest hm h => exact holds_get hm h
  | noBody l hs hm h => exact holds_noBody hm h
  | noLength l hs rest hm h hne hf => exact holds_noLength hm h hne hf
  | badLength l hs rest kv e h hv => exact holds_badLength h hv
  | notPositive l hs rest kv v h hv hneg => exact holds_notPositive h hv hneg
  | shortBody l hs rest kv v h hv hpos hw => exact holds_shortBody h hv hpos hw
  | body l hs rest kv v h hv hpos hw => exact holds_body h hv hpos hw

/-! Some rule applies to all received data. -/

theorem version_line {seg rest url t : Bytes} {m : Method}
    (h : slice buf 0 len = seg++CR::LF::rest) (hl : seg++[CR,LF] = m.text++SP::(url++SP::t))
    (ht : t ≠ []) (hk : knownVersion (versionBytes buf m url)) :
    ∃ junk, seg = m.text++SP::(url++SP::(versionBytes buf m url++junk)) := by
  have h' : slice buf 0 len = (seg++[CR,LF])++rest := by simp [h]
  have hseg := (slice_split h').1
  rw [versionBytes,versionAt,← Int.zero_add (m.text.length:Int)] at hk ⊢
  exact version_before_crlf m hseg (hseg.trans hl) ht hk

theorem answer_complete (l : RawLine) (hs : List RawHeader) {rest : Bytes}
    (h : slice buf 0 len = headText l hs++rest) : ∃ o, Answer buf len o := by
  cases hm : l.method with
  | GET => exact ⟨_,.get l hs rest hm h⟩
  | POST =>
    by_cases hne : rest = []
    · exact ⟨_,.noBody l hs hm (by rw [h,hne,List.append_nil])⟩
    cases hf : (addHeaders {} hs).find contentLength with
    | none => exact ⟨_,.noLength l hs rest hm h hne hf⟩
    | some kv =>
      have hpost : Posted (slice buf 0 len) l hs rest kv := ⟨h,hne,hm,hf⟩
      obtain ⟨o,hv⟩ := stoi_halts kv.2
      cases o with
      | error e => exact ⟨_,.badLength l hs rest kv e hpost hv⟩
      | ok v =>
        by_cases hpos : 0 < v
        · by_cases hw : wrapInt ((headText l hs).length+v) ≤ len
          · exact ⟨_,.body l hs rest kv v hpost hv hpos hw⟩
          · exact ⟨_,.shortBody l hs rest kv v hpost hv hpos (Int.not_le.mp hw)⟩
        · exact ⟨_,.notPositive l hs rest kv v hpost hv (Int.not_lt.mp hpos)⟩

theorem answer_head (l : RawLine) {rest : Bytes} (h : slice buf 0 len = l.text++rest) :
    ∃ o, Answer buf len o := by
  obtain ⟨hs,tail,hrest,hend⟩ := head_split rest
  rw [hrest] at h
  cases hend with
  | blank rest =>
    have h' : slice buf 0 len = headText l hs++rest := by simp [h,headText]
    exact answer_complete l hs h'
  | noCr _ hcr => exact ⟨_,.openHead l hs tail h (.noCr hcr)⟩
  | lastCr seg hcr => exact ⟨_,.openHead l hs _ h (.lastCr seg rfl hcr)⟩
  | cutPair seg c hcr hc => exact ⟨_,.openHead l hs _ h (.cutPair seg c rfl hcr hc)⟩
  | loneCr seg c d rest hcr hc => exact ⟨_,.loneCr l hs seg rest c d h hcr hc⟩
  | noSpace seg rest hne hcr hsp => exact ⟨_,.noSpace l hs seg rest h hne hcr hsp⟩
  | spaceFirst seg rest hcr => exact ⟨_,.spaceFirst l hs seg rest h hcr⟩

theorem answer_line {line : Bytes} (h : LineIn (slice buf 0 len) line) :
    (∃ o, Answer buf len o) ∨ ∃ (m : Method) (url t : Bytes),
      line = m.text++SP::(url++SP::t) ∧ SP∉url ∧ t ≠ [] ∧
        knownVersion (versionBytes buf m url) := by
  cases line_shape line with
  | badMethod hg hp => exact .inl ⟨_,.badMethod line h hg hp⟩
  | methodOnly m t hl ht => exact .inl ⟨_,.noVersion line t m h hl (.inl ht)⟩
  | urlOnly m u hl hu => exact .inl ⟨_,.noVersion line (SP::u) m h hl (.inr ⟨u,rfl,hu⟩)⟩
  | toVersion m url t hl hu ht =>
    by_cases hk : knownVersion (versionBytes buf m url)
    · exact .inr ⟨m,url,t,hl,hu,ht,hk⟩
    · exact .inl ⟨_,.badVersion line url t m h hl hu ht hk⟩

theorem answer_exists (buf : Mem) (len : Int) : ∃ o, Answer buf len o := by
  by_cases hnil : slice buf 0 len = []
  · exact ⟨_,.nothing hnil⟩
  cases crlf_cases (slice buf 0 len) with
  | none hs =>
    cases answer_line (.cut hs hnil) with
    | inl ho => exact ho
    | inr hv =>
      obtain ⟨m,url,t,hl,hu,ht,hk⟩ := hv
      exact ⟨_,.lineOnly url t m hs hl hu ht hk⟩
  | lastCr seg h hs => exact ⟨_,.lastCr seg h hs⟩
  | found seg rest h hs =>
    cases answer_line (.ended seg rest h hs) with
    | inl ho => exact ho
    | inr hv =>
      obtain ⟨m,url,t,hl,hu,ht,hk⟩ := hv
      obtain ⟨junk,hj⟩ := version_line h hl ht hk
      rw [hj] at h hs
      have h' : slice buf 0 len = RawLine.text ⟨m,url,_,junk,hu,hk,hs⟩++rest := by
        simp [h,RawLine.text,RawLine.line]
      exact answer_head _ h'

/-- What `parse` comes to is exactly what the rules say. -/
theorem holds_iff_answer (h0 : 0 ≤ len) (o : Outcome) : o.Holds buf len ↔ Answer buf len o := by
  constructor
  · intro h
    obtain ⟨o',ho⟩ := answer_exists buf len
    rwa [h.unique (ho.holds h0)]
  · exact Answer.holds h0

inductive ParseCase (buf : Mem) (len : Int) : Prop where
  | stops (p : HttpParser) (h : (parse buf len).Returns p) (hn : p.finalState ≠ .success)
  | throws (h : (parse buf len).Ends (.error .lengthError))
  | endless (h : ¬ (parse buf len).Halts) (l : RawLine) (hs : List RawHeader) (seg rest : Bytes)
    (c d : UInt8) (hdata : slice buf 0 len = l.text++(headersText hs++(seg++CR::c::d::rest)))
    (hcr : CR∉seg) (hc : c ≠ LF)
  | complete (l : RawLine) (hs : List RawHeader) (rest : Bytes)
    (hdata : slice buf 0 len = headText l hs++rest)

theorem ParseCase.verdict {state : FinnalState} {request : HttpRequest}
    (h : (Outcome.verdict state request).Holds buf len) (hn : state ≠ .success) :
    ParseCase buf len := by
  obtain ⟨p,hp,hs,_⟩ := h
  exact .stops p hp (hs ▸ hn)

theorem parse_cases (hlen : 0 ≤ len) : ParseCase buf len := by
  obtain ⟨o,ho⟩ := answer_exists buf len
  have hh := ho.holds hlen
  cases ho with
  | nothing | lastCr | badMethod | noVersion | badVersion | lineOnly | openHead | noSpace =>
    exact .verdict hh (by decide)
  | spaceFirst => exact .throws hh
  | loneCr l hs seg rest c d h hcr hc => exact .endless hh l hs seg rest c d h hcr hc
  | get l hs rest _ h | noLength l hs rest _ h => exact .complete l hs rest h
  | noBody l hs _ h => exact .complete l hs [] (by rw [h,List.append_nil])
  | badLength l hs rest _ _ h | notPositive l hs rest _ _ h | shortBody l hs rest _ _ h
  | body l hs rest _ _ h => exact .complete l hs rest h.data

end AdlServer.Http
