import AdlServer.AcceptedRequest

/-! Requests in the supported format, written out and parsed back. -/
namespace AdlServer.Http
open Program Memory Cpp
variable {buf : Mem} {len : Int}

theorem noBody : ([] : Bytes) = [] := rfl

/-- A request in the supported format. -/
structure Request where
  method : Method
  url : Bytes
  version : Bytes
  headers : List (Bytes×Bytes)
  body : Bytes
  url_no_space : SP∉url
  url_no_cr : CR∉url
  version_known : knownVersion version
  key_no_space : ∀ kv∈headers, SP∉kv.1
  key_no_cr : ∀ kv∈headers, CR∉kv.1
  value_no_cr : ∀ kv∈headers, CR∉kv.2
  framed : match method with
    | .GET => body = []
    | .POST => body ≠ [] ∧
        headers.find? (fun kv => kv.1 = contentLength) = some (contentLength,Cpp.toString body.length)

def serialiseHeader (kv : Bytes×Bytes) : Bytes := kv.1++[58,SP]++kv.2++[CR,LF]

def Request.serialise (q : Request) : Bytes :=
  q.method.text++[SP]++q.url++[SP]++q.version++[CR,LF]++
    q.headers.flatMap serialiseHeader++[CR,LF]++q.body

def Request.rawLine (q : Request) : RawLine where
  method := q.method
  url := q.url
  version := q.version
  junk := []
  url_no_space := q.url_no_space
  version_known := q.version_known
  clean := by
    have hsp : CR ≠ SP := by decide
    apply crlfFree_of_no_cr
    simp [q.method.text_no_cr,q.url_no_cr,q.version_known.no_cr,hsp]

def rawHeader (kv : Bytes×Bytes) (hk : SP∉kv.1) (hc : CR∉kv.1) (hv : CR∉kv.2) : RawHeader where
  key := kv.1
  sep := 58
  value := kv.2
  name_no_space := by
    have hsep : SP ≠ 58 := by decide
    simpa [hsep] using hk
  name_no_cr := by
    have hsep : CR ≠ 58 := by decide
    simpa [hsep] using hc
  value_no_cr := hv

def Request.rawHeaders (q : Request) : List RawHeader :=
  q.headers.attach.map fun kv => rawHeader kv.1 (q.key_no_space kv.1 kv.2)
    (q.key_no_cr kv.1 kv.2) (q.value_no_cr kv.1 kv.2)

theorem Request.rawHeaders_map (q : Request) :
    q.rawHeaders.map (fun h => (h.key,h.value)) = q.headers := by
  rw [rawHeaders,List.map_map]
  exact List.attach_map_subtype_val q.headers

theorem Request.rawHeaders_text (q : Request) :
    headersText q.rawHeaders = q.headers.flatMap serialiseHeader := by
  have htext (h : RawHeader) (hh : h∈q.rawHeaders) :
      h.text = serialiseHeader (h.key,h.value) := by
    obtain ⟨kv,-,rfl⟩ := List.mem_map.mp hh
    simp [RawHeader.text,RawHeader.line,rawHeader,serialiseHeader]
  calc headersText q.rawHeaders
      = q.rawHeaders.flatMap fun h => serialiseHeader (h.key,h.value) :=
        List.flatMap_congr htext
    _ = (q.rawHeaders.map fun h => (h.key,h.value)).flatMap serialiseHeader :=
        (List.flatMap_map _ _ _).symm
    _ = q.headers.flatMap serialiseHeader := by rw [q.rawHeaders_map]

theorem find_add (head : HttpRequestHead) (k v k' : Bytes) :
    (head.add k v).find k' =
      (head.find k').or (if k = k' then some (k,v) else none) := by
  rw [HttpRequestHead.add]
  split_ifs with hk he he
  · subst he
    obtain ⟨kv,hkv,he⟩ := List.mem_map.mp hk
    have hsome : (head.find k).isSome := by
      rw [HttpRequestHead.find]
      rw [List.find?_isSome]
      exact ⟨kv,hkv,by simp [he]⟩
    obtain ⟨x,hx⟩ := Option.isSome_iff_exists.mp hsome
    simp [hx]
  · simp
  · simp [HttpRequestHead.find,he]
  · simp [HttpRequestHead.find,he]

theorem find_addHeaders (hs : List RawHeader) (head : HttpRequestHead) (k : Bytes) :
    (addHeaders head hs).find k =
      (head.find k).or ((hs.map fun h => (h.key,h.value)).find? fun kv => kv.1 = k) := by
  induction hs generalizing head with
  | nil => simp [addHeaders]
  | cons h hs ih =>
    have hi := ih (head.add h.key h.value)
    rw [find_add] at hi
    change (addHeaders (head.add h.key h.value) hs).find k = _
    rw [hi,List.map_cons,List.find?_cons]
    by_cases hk : h.key = k
    · simp [hk]
    · simp [hk]

theorem Request.find_headers (q : Request) (k : Bytes) :
    (addHeaders {} q.rawHeaders).find k = q.headers.find? fun kv => kv.1 = k := by
  rw [find_addHeaders,q.rawHeaders_map]
  rfl

def Request.raw (q : Request) (hlen : (q.serialise.length:Int) < 2^31) : RawRequest where
  line := q.rawLine
  headers := q.rawHeaders
  body := q.body
  framed := by
    have hb : q.body.length < 2^31 := by
      simp only [serialise,List.length_append] at hlen
      omega
    have hf := q.framed
    change match q.method with
      | .GET => q.body = []
      | .POST => q.body ≠ [] ∧ ∃ kv, (addHeaders {} q.rawHeaders).find contentLength = some kv ∧
          (stoi kv.2).Returns q.body.length
    cases hm : q.method with
    | GET => simpa [hm] using hf
    | POST =>
      simp only [hm] at hf
      refine ⟨hf.1,(contentLength,Cpp.toString q.body.length),?_,stoi_toString hb⟩
      rw [q.find_headers,hf.2]

theorem Request.raw_text (q : Request) (hlen : (q.serialise.length:Int) < 2^31) :
    (q.raw hlen).text = q.serialise := by
  change headText q.rawLine q.rawHeaders++q.body = _
  simp [headText,q.rawHeaders_text,RawLine.text,RawLine.line,rawLine,serialise]

/-- Parsing undoes writing: the written request is found in front of any trailing
bytes, each key with its first value, and its size is that of its own text. -/
theorem parse_serialise (q : Request) (trailing : Bytes) (buf : Mem) (len : Nat)
    (hbuf : slice buf 0 len = q.serialise++trailing) (hlen : (len:Int) < 2^31) :
    ∃ p, (parse buf len).Returns p ∧ p.finalState = .success ∧
      p.request.line = ⟨q.version,q.url,some q.method⟩ ∧
      (∀ k, p.request.head.find k = q.headers.find? fun kv => kv.1 = k) ∧
      p.request.body = q.body ∧ p.request.parseSize = q.serialise.length := by
  have hl := congrArg List.length hbuf
  simp only [length_slice,List.length_append] at hl
  have hq : (q.serialise.length:Int) < 2^31 := by omega
  have htext := q.raw_text hq
  have hq' : ((q.raw hq).text.length:Int) < 2^31 := by rwa [htext]
  have hbuf' : slice buf 0 len = (q.raw hq).text++trailing := by rw [htext,hbuf]
  obtain ⟨p,hp,hs,hreq⟩ := parse_accepts (q.raw hq) hq' hbuf'
  refine ⟨p,hp,hs,by rw [hreq]; rfl,?_,by rw [hreq]; rfl,?_⟩
  · intro k
    rw [hreq]
    exact q.find_headers k
  · rw [hreq,← htext]
    rfl

def postTwice : Request where
  method := .POST
  url := [47]
  version := http10
  headers := [(contentLength,[50]),(contentLength,[55])]
  body := [120,13]
  url_no_space := slash_no_space
  url_no_cr := slash_no_cr
  version_known := .inr rfl
  key_no_space := by decide
  key_no_cr := by decide
  value_no_cr := by decide
  framed := by decide

theorem parse_serialise_postTwice :
    ∃ p, (parse (ofBytes (postTwice.serialise++[71]) fun _ => 0)
        (postTwice.serialise++[71]).length).Returns p ∧ p.finalState = .success ∧
      p.request.line = ⟨http10,[47],some .POST⟩ ∧
      (∀ k, p.request.head.find k = postTwice.headers.find? fun kv => kv.1 = k) ∧
      p.request.body = [120,13] ∧ p.request.parseSize = postTwice.serialise.length :=
  parse_serialise postTwice [71] _ (postTwice.serialise++[71]).length (slice_ofBytes _ _)
    (by decide)

end AdlServer.Http
