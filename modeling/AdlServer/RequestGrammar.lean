import AdlServer.RequestRoundTrip

/-! The grammar of requests beside the texts that `parse` accepts: where the parser
skips bytes unread, a text outside the grammar gets through. -/
namespace AdlServer.Http
open Program Memory Cpp
variable {buf : Mem} {len : Nat}

structure Sentence where
  method : Method
  url : Bytes
  version : Bytes
  headers : List (Bytes×Bytes)
  body : Bytes
  url_no_space : SP∉url
  version_known : knownVersion version
  key_no_space : ∀ kv∈headers, SP∉kv.1
  one_line : ∀ kv∈headers, ¬ [CR,LF]<:+:kv.1++[58,SP]++kv.2
  framed : match method with
    | .GET => body = []
    | .POST => ∃ kv, headers.find? (fun kv => kv.1 = contentLength) = some kv ∧
        (stoi kv.2).Returns body.length

namespace Sentence

def head (g : Sentence) : Bytes :=
  g.method.text++[SP]++g.url++[SP]++g.version++[CR,LF]++
    g.headers.flatMap serialiseHeader++[CR,LF]

def text (g : Sentence) : Bytes := g.head++g.body

structure Stored (g : Sentence) (r : HttpRequest) : Prop where
  line : r.line = ⟨g.version,g.url,some g.method⟩
  head : ∀ k, r.head.find k = g.headers.find? fun kv => kv.1 = k
  body : r.body = g.body

end Sentence

/-- The bytes taken are a request in the grammar, and its pieces are stored. -/
def Conforms (buf : Mem) (r : HttpRequest) : Prop :=
  ∃ g : Sentence, slice buf 0 r.parseSize = g.text ∧ g.Stored r

/-- Nothing stands between the version and its CR LF, the byte before the first space
of a header line is a colon, and head and body together have a length that is an `int`. -/
structure Strict (l : RawLine) (hs : List RawHeader) : Prop where
  noJunk : l.junk = []
  colons : ∀ h∈hs, h.sep = 58
  fits : l.method = .POST → ∀ kv v, (addHeaders {} hs).find contentLength = some kv →
    (stoi kv.2).Returns v → (headText l hs).length+v < 2^31

/-- Where the data begin with a head as the parser reads it, nothing in it is amiss. -/
def StrictHead (data : Bytes) : Prop :=
  ∀ l hs rest, data = headText l hs++rest → Strict l hs

section
variable {s t x y : Bytes}

theorem colon_unique {k k' v v' : Bytes} {b : UInt8} (hk : SP∉k++[b]) (hk' : SP∉k')
    (h : (k++[b])++SP::v = k'++[58,SP]++v') : b = 58 := by
  have hsp : SP ≠ 58 := by decide
  have hc : SP∉k'++[58] := by simpa [hsp] using hk'
  have he : k'++[58,SP]++v' = (k'++[58])++SP::v' := by simp
  obtain ⟨hkey,-⟩ := before_unique hk hc (h.trans he)
  simpa using (List.append_inj' hkey rfl).2

theorem headers_colons (kvs : List (Bytes×Bytes)) (hs : List RawHeader)
    (hkey : ∀ kv∈kvs, SP∉kv.1) (hline : ∀ kv∈kvs, ¬ [CR,LF]<:+:kv.1++[58,SP]++kv.2)
    (h : headersText hs++CR::LF::x = kvs.flatMap serialiseHeader++CR::LF::y) :
    ∀ h∈hs, h.sep = 58 := by
  induction hs generalizing kvs with
  | nil => simp
  | cons hd hs ih =>
    have hh : headersText (hd::hs)++CR::LF::x = hd.line++CR::LF::(headersText hs++CR::LF::x) := by
      simp [headersText,RawHeader.text]
    rw [hh] at h
    cases kvs with
    | nil =>
      have hempty : hd.line++CR::LF::(headersText hs++CR::LF::x) = []++CR::LF::y := h
      obtain ⟨hnil,-⟩ := before_unique hd.line_no_cr List.not_mem_nil hempty
      simp [RawHeader.line] at hnil
    | cons kv kvs =>
      have he : (kv::kvs).flatMap serialiseHeader++CR::LF::y =
          (kv.1++[58,SP]++kv.2)++CR::LF::(kvs.flatMap serialiseHeader++CR::LF::y) := by
        simp [serialiseHeader]
      rw [he] at h
      obtain ⟨hl,ht⟩ := line_unique (not_crlf_of_no_cr hd.line_no_cr) (hline kv List.mem_cons_self) h
      have hcolon := colon_unique hd.name_no_space (hkey kv List.mem_cons_self) hl
      have hrest := ih kvs (fun kv hm => hkey kv (List.mem_cons_of_mem _ hm))
        (fun kv hm => hline kv (List.mem_cons_of_mem _ hm)) ht
      intro h' hm
      cases List.mem_cons.mp hm with
      | inl he => rw [he,hcolon]
      | inr hm => exact hrest h' hm

theorem RawLine.noJunk (l : RawLine) (h : l.junk++CR::LF::x = CR::LF::y) : l.junk = [] := by
  have hfree : crlfFree l.junk = true := by
    have hpre : l.method.text++SP::(l.url++SP::(l.version++l.junk)) =
        ((l.method.text++SP::(l.url++[SP]))++l.version)++l.junk := by simp
    have hclean := l.clean
    rw [hpre] at hclean
    cases crlfFree_prefix hclean with
    | inl hp => rwa [crlfFree_append hp] at hclean
    | inr hp =>
      -- the part in front ends with the version, which holds no CR
      obtain ⟨s,he,-⟩ := hp
      have hne : l.version ≠ [] := by
        intro hnil
        simpa [hnil] using l.version_known.length
      exact absurd (cr_mem_of_end hne he) l.version_known.no_cr
  cases hj : l.junk with
  | nil => rfl
  | cons b t =>
    rw [hj] at h hfree
    obtain ⟨rfl,htail⟩ := List.cons.inj h
    cases t with
    | nil => simp [crlfFree] at hfree
    | cons d t =>
      obtain ⟨rfl,-⟩ := List.cons.inj htail
      simp [crlfFree] at hfree

end

theorem RawRequest.conforms (r : RawRequest) {req : HttpRequest} (hj : r.line.junk = [])
    (hc : ∀ h∈r.headers, h.sep = 58) (hreq : req = r.request)
    (htext : slice buf 0 req.parseSize = r.text) : Conforms buf req := by
  have hone (h : RawHeader) (hm : h∈r.headers) : h.key++[58,SP]++h.value = h.line := by
    simp [RawHeader.line,hc h hm]
  have hfind (k : Bytes) := find_addHeaders r.headers {} k
  refine ⟨{
      method := r.line.method
      url := r.line.url
      version := r.line.version
      headers := r.headers.map fun h => (h.key,h.value)
      body := r.body
      url_no_space := r.line.url_no_space
      version_known := r.line.version_known
      key_no_space := ?_
      one_line := ?_
      framed := ?_ },?_,?_⟩
  · intro kv hkv hm
    obtain ⟨h,-,rfl⟩ := List.mem_map.mp hkv
    exact h.name_no_space (List.mem_append_left _ hm)
  · rintro kv hkv ⟨u,v,he⟩
    obtain ⟨h,hm,rfl⟩ := List.mem_map.mp hkv
    rw [hone h hm] at he
    exact h.line_no_cr (by simp [← he])
  · have hf := r.framed
    cases hm : r.line.method with
    | GET => simpa [hm] using hf
    | POST =>
      obtain ⟨-,kv,hkv,hv⟩ := r.post_body hm
      exact ⟨kv,by rw [← hkv,hfind]; rfl,hv⟩
  · have hheads : headersText r.headers =
        (r.headers.map fun h => (h.key,h.value)).flatMap serialiseHeader := by
      rw [List.flatMap_map]
      refine List.flatMap_congr fun h hm => ?_
      simp [RawHeader.text,← hone h hm,serialiseHeader]
    rw [htext]
    simp [RawRequest.text,headText,hheads,RawLine.text,RawLine.line,hj,Sentence.text,Sentence.head]
  · rw [hreq]
    exact ⟨rfl,fun k => by rw [← Option.none_or (o := List.find? _ _)]; exact hfind k,rfl⟩

theorem Sentence.head_ne_nil (g : Sentence) : g.head ≠ [] := by simp [head]

theorem Conforms.size {r : HttpRequest} (h : Conforms buf r) : 0 < r.parseSize := by
  obtain ⟨g,hg,-⟩ := h
  by_contra hneg
  rw [slice_of_le buf (by omega)] at hg
  exact g.head_ne_nil (List.append_eq_nil_iff.mp hg.symm).1

theorem Conforms.strict {p : HttpParser} {l : RawLine} {hs : List RawHeader} {rest : Bytes}
    (hlen : (len:Int) < 2^31) (h : slice buf 0 len = headText l hs++rest)
    (hp : (parse buf len).Returns p) (hsucc : p.finalState = .success)
    (hc : Conforms buf p.request) : Strict l hs := by
  have hsize := hc.size
  obtain ⟨g,hg,hst⟩ := hc
  obtain ⟨n,hn⟩ : ∃ n : Nat, p.request.parseSize = n := ⟨p.request.parseSize.toNat,by omega⟩
  obtain ⟨r,rest',rfl,rfl,hr,hreq⟩ := parse_accepted_of_head hlen h hp hsucc hn
  have htext : r.text = g.text := by
    have hl : p.request.parseSize = r.text.length := by rw [hreq]; rfl
    rw [← hg,hl]
    simpa using (slice_split hr).1.symm
  have hline : r.line.requestLine = ⟨g.version,g.url,some g.method⟩ := by
    rw [← hst.line,hreq]
    rfl
  simp only [RawLine.requestLine,HttpRequestLine.mk.injEq,Option.some.injEq] at hline
  obtain ⟨hversion,hurl,hmethod⟩ := hline
  have hbehind : r.line.junk++CR::LF::(headersText r.headers++CR::LF::r.body) =
      CR::LF::(g.headers.flatMap serialiseHeader++CR::LF::g.body) := by
    simpa [RawRequest.text,headText,RawLine.text,RawLine.line,Sentence.text,Sentence.head,
      hversion,hurl,hmethod] using htext
  have hj := r.line.noJunk hbehind
  refine ⟨hj,?_,?_⟩
  · have hheads : headersText r.headers++CR::LF::r.body =
        g.headers.flatMap serialiseHeader++CR::LF::g.body := by
      simpa [hj] using hbehind
    exact headers_colons g.headers r.headers g.key_no_space g.one_line hheads
  · intro hm kv v hkv hv
    obtain ⟨-,kv',hkv',hv'⟩ := r.post_body hm
    obtain rfl := Option.some.inj (hkv.symm.trans hkv')
    have hlv := hv.unique hv'
    have hle := congrArg List.length hr
    simp only [length_slice,RawRequest.text,List.length_append] at hle
    omega

/-- A success is a request in the grammar, with its pieces stored, exactly when nothing
was skipped unread and the size did not wrap. -/
theorem parse_conforms_iff {p : HttpParser} (hlen : (len:Int) < 2^31)
    (hp : (parse buf len).Returns p) (hs : p.finalState = .success) :
    Conforms buf p.request ↔ StrictHead (slice buf 0 len) := by
  constructor
  · exact fun hc l hds rest h => hc.strict hlen h hp hs
  · intro hall
    obtain ⟨l,hds,rest,h,-⟩ := parse_success_inv (by omega) hp hs
    have hstrict := hall l hds rest h
    obtain ⟨n,hn⟩ : ∃ n : Nat, p.request.parseSize = n := by
      cases parse_success_of_head h hp hs with
      | inl hget => exact ⟨_,by rw [hget.2]⟩
      | inr hpost =>
        obtain ⟨hm,-,kv,v,hkv,hv,hpos,-,hreq⟩ := hpost
        have hfits := hstrict.fits hm kv v hkv hv
        have hsize : p.request.parseSize = (headText l hds).length+v := by
          rw [hreq]
          exact wrapInt_of_range (by omega) hfits
        exact ⟨((headText l hds).length+v).toNat,by omega⟩
    obtain ⟨r,rest',rfl,rfl,hr,hreq⟩ := parse_accepted_of_head hlen h hp hs hn
    have hl : p.request.parseSize = r.text.length := by rw [hreq]; rfl
    exact r.conforms hstrict.noJunk hstrict.colons hreq (by
      rw [hl]
      simpa using (slice_split hr).1)

def looseGet : Bytes := Method.GET.text++[32,47,32]++http11++[120,13,10,13,10]

def looseGetParsed : HttpParser where
  finalState := .success
  lineState := .ok
  processState := .head
  request := { parseSize := 19, line := ⟨http11,[47],some .GET⟩ }
  lBeg := 17
  lEnd := 19
  cur := 19

theorem parse_conforms_iff_looseGet :
    Conforms (ofBytes looseGet fun _ => 0) looseGetParsed.request ↔
      StrictHead (slice (ofBytes looseGet fun _ => 0) 0 (19:Nat)) :=
  parse_conforms_iff (p := looseGetParsed) (by decide) ⟨25,by rfl⟩ rfl

def looseLine : RawLine where
  method := .GET
  url := [47]
  version := http11
  junk := [120]
  url_no_space := slash_no_space
  version_known := http11_known
  clean := by decide

theorem looseGet_accepted :
    ∃ p, (parse (ofBytes looseGet fun _ => 0) (19:Nat)).Returns p ∧ p.finalState = .success ∧
      ¬ Conforms (ofBytes looseGet fun _ => 0) p.request := by
  refine ⟨looseGetParsed,⟨25,by rfl⟩,rfl,?_⟩
  intro hc
  have hdata : slice (ofBytes looseGet fun _ => 0) 0 (19:Nat) = headText looseLine []++[] := by
    decide
  have hstrict := hc.strict (by decide) hdata ⟨25,by rfl⟩ rfl
  exact absurd hstrict.noJunk (by decide)

end AdlServer.Http
