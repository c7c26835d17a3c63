import AdlServer.ParseOutcome

/-! The requests `parse` accepts, as texts, and that acceptance reads nothing
behind them. -/
namespace AdlServer.Http
open Program Memory Cpp
variable {buf : Mem} {len : Int}

/-- A text that `parse` takes for one whole request. -/
structure RawRequest where
  line : RawLine
  headers : List RawHeader
  body : Bytes
  framed : match line.method with
    | .GET => body = []
    | .POST => body ≠ [] ∧ ∃ kv, (addHeaders {} headers).find contentLength = some kv ∧
        (stoi kv.2).Returns body.length

namespace RawRequest

def text (r : RawRequest) : Bytes := headText r.line r.headers++r.body

def request (r : RawRequest) : HttpRequest :=
  { headRequest r.line r.headers with parseSize := r.text.length, body := r.body }

end RawRequest

theorem RawRequest.get_body (r : RawRequest) (hm : r.line.method = .GET) : r.body = [] := by
  have := r.framed
  rwa [hm] at this

theorem RawRequest.post_body (r : RawRequest) (hm : r.line.method = .POST) :
    r.body ≠ [] ∧ ∃ kv, (addHeaders {} r.headers).find contentLength = some kv ∧
      (stoi kv.2).Returns r.body.length := by
  have := r.framed
  rwa [hm] at this

theorem parse_accepts (r : RawRequest) {rest : Bytes} (hlen : (r.text.length:Int) < 2^31)
    (h : slice buf 0 len = r.text++rest) :
    ∃ p, (parse buf len).Returns p ∧ p.finalState = .success ∧ p.request = r.request := by
  have hh : slice buf 0 len = headText r.line r.headers++(r.body++rest) := by
    simp [h,RawRequest.text]
  cases hm : r.line.method with
  | GET =>
    obtain ⟨p,hp,hs,hreq⟩ := parse_get r.line r.headers hm hh
    have hb := r.get_body hm
    refine ⟨p,hp,hs,?_⟩
    rw [hreq]
    simp [RawRequest.request,RawRequest.text,hb,headRequest]
  | POST =>
    obtain ⟨hne,kv,hf,hv⟩ := r.post_body hm
    have hpos := List.length_pos_iff.mpr hne
    have hl := congrArg List.length hh
    simp only [length_slice,List.length_append] at hl
    simp only [RawRequest.text,List.length_append] at hlen
    have hw : wrapInt ((headText r.line r.headers).length+r.body.length) =
        (headText r.line r.headers).length+r.body.length :=
      wrapInt_of_range (by omega) (by omega)
    have hpost : Posted (slice buf 0 len) r.line r.headers (r.body++rest) kv :=
      ⟨hh,List.append_ne_nil_of_left_ne_nil hne rest,hm,hf⟩
    obtain ⟨p,hp,hs,hreq⟩ := holds_body hpost hv (by omega) (by rw [hw]; omega)
    refine ⟨p,hp,hs,?_⟩
    have hbody := (slice_split (slice_split hh).2).1
    simp only [Int.zero_add] at hbody
    rw [hreq,hw,hbody]
    simp [RawRequest.request,RawRequest.text]

theorem parse_success_of_head {p : HttpParser} {l : RawLine} {hds : List RawHeader}
    {rest : Bytes} (h : slice buf 0 len = headText l hds++rest)
    (hr : (parse buf len).Returns p) (hs : p.finalState = .success) :
    (l.method = .GET ∧
        p.request = { headRequest l hds with parseSize := (headText l hds).length }) ∨
      (l.method = .POST ∧ rest ≠ [] ∧ ∃ kv v,
        (addHeaders {} hds).find contentLength = some kv ∧ (stoi kv.2).Returns v ∧ 0 < v ∧
        wrapInt ((headText l hds).length+v) ≤ len ∧
        p.request = { headRequest l hds with
          parseSize := wrapInt ((headText l hds).length+v)
          body := slice buf (headText l hds).length ((headText l hds).length+v) }) := by
  have hh : (Outcome.verdict .success p.request).Holds buf len := ⟨p,hr,hs,rfl⟩
  cases hm : l.method with
  | GET => exact .inl ⟨rfl,(Outcome.verdict.inj (hh.unique (holds_get hm h))).2⟩
  | POST =>
    right
    have hne : rest ≠ [] := by
      intro hnil
      rw [hnil,List.append_nil] at h
      cases hh.unique (holds_noBody hm h)
    refine ⟨rfl,hne,?_⟩
    cases hf : (addHeaders {} hds).find contentLength with
    | none => cases hh.unique (holds_noLength hm h hne hf)
    | some kv =>
      have hpost : Posted (slice buf 0 len) l hds rest kv := ⟨h,hne,hm,hf⟩
      obtain ⟨o,hv⟩ := stoi_halts kv.2
      cases o with
      | error e => cases hh.unique (holds_badLength hpost hv)
      | ok v =>
        by_cases hpos : 0 < v
        · by_cases hw : wrapInt ((headText l hds).length+v) ≤ len
          · have hreq := (Outcome.verdict.inj (hh.unique (holds_body hpost hv hpos hw))).2
            exact ⟨kv,v,rfl,hv,hpos,hw,hreq⟩
          · cases hh.unique (holds_shortBody hpost hv hpos (Int.not_le.mp hw))
        · cases hh.unique (holds_notPositive hpost hv (Int.not_lt.mp hpos))

theorem parse_success_inv {p : HttpParser} (h0 : 0 ≤ len)
    (hr : (parse buf len).Returns p) (hs : p.finalState = .success) :
    ∃ (l : RawLine) (hs : List RawHeader) (rest : Bytes),
      slice buf 0 len = headText l hs++rest ∧
      ((l.method = .GET ∧
          p.request = { headRequest l hs with parseSize := (headText l hs).length }) ∨
        (l.method = .POST ∧ rest ≠ [] ∧ ∃ kv v,
          (addHeaders {} hs).find contentLength = some kv ∧ (stoi kv.2).Returns v ∧ 0 < v ∧
          wrapInt ((headText l hs).length+v) ≤ len ∧
          p.request = { headRequest l hs with
            parseSize := wrapInt ((headText l hs).length+v)
            body := slice buf (headText l hs).length ((headText l hs).length+v) })) := by
  cases parse_cases h0 with
  | stops q hq hn => exact absurd (hq.unique hr ▸ hs) hn
  | throws he => cases Prog.Ends.unique he hr
  | endless hn => exact absurd hr.halts hn
  | complete l hds rest h => exact ⟨l,hds,rest,h,parse_success_of_head h hr hs⟩

theorem parse_accepted_of_head {p : HttpParser} {n : Nat} {l : RawLine}
    {hds : List RawHeader} {rest : Bytes} (hlen : len < 2^31)
    (h : slice buf 0 len = headText l hds++rest)
    (hr : (parse buf len).Returns p) (hs : p.finalState = .success)
    (hn : p.request.parseSize = n) :
    ∃ (r : RawRequest) (rest' : Bytes), r.line = l ∧ r.headers = hds ∧
      slice buf 0 len = r.text++rest' ∧ p.request = r.request := by
  obtain ⟨hm,hreq⟩ | ⟨hm,hne,kv,v,hf,hv,hpos,hw,hreq⟩ := parse_success_of_head h hr hs
  · refine ⟨⟨l,hds,[],by rw [hm]⟩,rest,rfl,rfl,by simp [h,RawRequest.text],?_⟩
    rw [hreq]
    simp [RawRequest.request,RawRequest.text,headRequest]
  · have hl := congrArg List.length h
    simp only [length_slice,List.length_append] at hl
    have hrange := stoi_range hv
    have hsize : wrapInt ((headText l hds).length+v) = n := by rw [← hn,hreq]
    have hsum : (headText l hds).length+v < 2^31 := by
      by_contra hge
      rw [wrapInt_of_overflow (by omega) (by omega)] at hsize
      omega
    rw [wrapInt_of_range (by omega) hsum] at hw hreq
    have hrest := (slice_split h).2
    rw [Int.zero_add,slice_append buf (by omega) hw] at hrest
    generalize hb : slice buf (headText l hds).length ((headText l hds).length+v) = body
      at hrest hreq
    have hbl : (body.length:Int) = v := by
      rw [← hb,length_slice]
      omega
    have hframed : body ≠ [] ∧ ∃ kv, (addHeaders {} hds).find contentLength = some kv ∧
        (stoi kv.2).Returns body.length := by
      refine ⟨?_,kv,hf,by rwa [hbl]⟩
      intro hnil
      simp [hnil] at hbl
      omega
    refine ⟨⟨l,hds,body,by rw [hm]; exact hframed⟩,_,rfl,rfl,
      by rw [h,← hrest,RawRequest.text,List.append_assoc],?_⟩
    rw [hreq]
    simp [RawRequest.request,RawRequest.text,hbl]

theorem parse_accepted {p : HttpParser} {n : Nat} (h0 : 0 ≤ len) (hlen : len < 2^31)
    (hr : (parse buf len).Returns p) (hs : p.finalState = .success)
    (hn : p.request.parseSize = n) :
    ∃ (r : RawRequest) (rest : Bytes), slice buf 0 len = r.text++rest ∧
      p.request = r.request := by
  obtain ⟨l,hds,rest,h,-⟩ := parse_success_inv h0 hr hs
  obtain ⟨r,rest',-,-,hr'⟩ := parse_accepted_of_head hlen h hr hs hn
  exact ⟨r,rest',hr'⟩

/-- A success depends only on the bytes it consumes, whatever follows them and
wherever the data end. That `parseSize` is a natural number says that head and
body together did not wrap. -/
theorem parse_consumed {buf' : Mem} {p : HttpParser} {len n : Nat} (hlen : (len:Int) < 2^31)
    (h : (parse buf len).Returns p) (hs : p.finalState = .success)
    (hn : p.request.parseSize = n) (q : Bytes)
    (hbuf : slice buf' 0 (n+q.length) = slice buf 0 n++q) :
    ∃ p', (parse buf' (n+q.length)).Returns p' ∧ p'.finalState = .success ∧
      p'.request = p.request := by
  obtain ⟨r,rest,hr,hreq⟩ := parse_accepted (by omega) hlen h hs hn
  have hsize : (r.text.length:Int) = n := by
    rw [hreq] at hn
    exact hn
  have htext : slice buf 0 n = r.text := by
    have := (slice_split hr).1
    rwa [Int.zero_add,hsize] at this
  have hle := congrArg List.length hr
  simp only [length_slice,List.length_append] at hle
  rw [htext] at hbuf
  obtain ⟨p',hp',hs',hreq'⟩ := parse_accepts r (by omega) hbuf
  exact ⟨p',hp',hs',hreq'.trans hreq.symm⟩

def getRoot : Bytes := Method.GET.text++[32,47,32]++http11++[13,10,13,10]

def getRootParsed : HttpParser where
  finalState := .success
  lineState := .ok
  processState := .head
  request := { parseSize := 18, line := ⟨http11,[47],some .GET⟩ }
  lBeg := 16
  lEnd := 18
  cur := 18

theorem parse_getRoot_consumed :
    ∃ p', (parse (ofBytes (getRoot++[71]) fun _ => 0) (18+1)).Returns p' ∧
      p'.finalState = .success ∧ p'.request = getRootParsed.request :=
  @parse_consumed (ofBytes getRoot fun _ => 0) _ getRootParsed 18 18 (by decide) ⟨25,by rfl⟩
    rfl rfl [71] (by decide)

end AdlServer.Http
