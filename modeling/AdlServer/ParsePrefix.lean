import AdlServer.AcceptedRequest

/-! What `parse` says to the first bytes of a request it accepts: at which cuts it
waits for more and at which it gives the request up. -/
namespace AdlServer.Http
open Program Memory Cpp
variable {buf : Mem} {len : Int}

def Waits (buf : Mem) (len : Int) : Prop :=
  ∃ p, (parse buf len).Returns p ∧ p.finalState = .incomplete

def Fails (buf : Mem) (len : Int) : Prop :=
  ∃ p, (parse buf len).Returns p ∧ p.finalState = .failed

theorem Waits.not_fails (h : Waits buf len) : ¬ Fails buf len := by
  obtain ⟨p,hp,hs⟩ := h
  intro ⟨q,hq,hf⟩
  rw [hp.unique hq,hf] at hs
  cases hs

/-- The first bytes `d` of `a`, `c` and `b` lie in `a`, or go on behind `c`. -/
inductive CutAt (d x a : Bytes) (c : UInt8) (b : Bytes) : Prop where
  | before (y : Bytes) (h : a = d++y)
  | behind (d' : Bytes) (h : d = a++c::d') (hb : b = d'++x)

theorem cut_at {d x a b : Bytes} {c : UInt8} (h : d++x = a++c::b) : CutAt d x a c b := by
  cases List.append_eq_append_iff.mp h with
  | inl h =>
    obtain ⟨y,hy,_⟩ := h
    exact .before y hy
  | inr h =>
    obtain ⟨y,hd,hb⟩ := h
    cases y with
    | nil => exact .before [] (by simp [hd])
    | cons e y =>
      obtain ⟨hc,hb'⟩ := List.cons.inj hb
      subst hc
      exact .behind y hd hb'

theorem waits_of {request : HttpRequest}
    (h : (Outcome.verdict .incomplete request).Holds buf len) : Waits buf len := by
  obtain ⟨p,hp,hs,_⟩ := h
  exact ⟨p,hp,hs⟩

theorem fails_of {request : HttpRequest}
    (h : (Outcome.verdict .failed request).Holds buf len) : Fails buf len := by
  obtain ⟨p,hp,hs,_⟩ := h
  exact ⟨p,hp,hs⟩

theorem waits_empty : Waits buf 0 := ⟨_,parseLoop_end rfl,rfl⟩

theorem Method.no_prefix {m m' : Method} {d x : Bytes} (h : m.text = d++x) (hx : x ≠ []) :
    ¬ m'.text<+:d := by
  intro ⟨t,ht⟩
  subst ht
  have hlen := congrArg List.length h
  have hpos := List.length_pos_iff.mpr hx
  simp only [List.length_append] at hlen
  cases m <;> cases m' <;> simp [Method.text] at h hlen <;> omega

theorem fails_method (m : Method) {d x : Bytes} (hd : slice buf 0 len = d) (h0 : 0 ≤ len)
    (hne : d ≠ []) (h : m.text = d++x) (hx : x ≠ []) : Fails buf len := by
  have hfree : crlfFree d = true := by
    have hcr : CR∉d := fun hm => m.text_no_cr (h ▸ List.mem_append_left x hm)
    exact crlfFree_of_no_cr hcr
  exact fails_of (holds_badMethod h0 (hd.symm ▸ .cut hfree hne) (Method.no_prefix h hx)
    (Method.no_prefix h hx))

theorem waits_lastCr {s : Bytes} (hd : slice buf 0 len = s++[CR]) (h0 : 0 ≤ len)
    (hs : crlfFree s = true) : Waits buf len :=
  waits_of ((Answer.lastCr s hd hs).holds h0)

section
variable {m : Method} {url : Bytes}

theorem waits_beforeVersion {d t x : Bytes} (hd : slice buf 0 len = d) (h0 : 0 ≤ len)
    (hfree : crlfFree (d++x) = true) (h : d = m.text++t)
    (ht : t = [] ∨ ∃ u, t = SP::u ∧ (SP∉u ∨ ∃ url, u = url++[SP] ∧ SP∉url)) :
    Waits buf len := by
  cases crlfFree_prefix hfree with
  | inl hs =>
    have hne : d ≠ [] := by
      rw [h]
      exact List.append_ne_nil_of_left_ne_nil m.text_ne_nil t
    have hnone : NoVersion t := ht.imp_left fun ht => by simp [ht]
    exact waits_of (holds_noVersion h0 (hd.symm ▸ .cut hs hne) h hnone)
  | inr hs =>
    obtain ⟨s,hs,hsf⟩ := hs
    exact waits_lastCr (hd.trans hs) h0 hsf

/-- A line cut behind the start of the version is judged by the eight bytes there,
wherever the data end. -/
theorem version_cut {d w : Bytes} (hd : slice buf 0 len = d) (h0 : 0 ≤ len)
    (hfree : crlfFree d = true) (h : d = m.text++SP::(url++SP::w)) (hu : SP∉url) (hw : w ≠ []) :
    (knownVersion (versionBytes buf m url) → Waits buf len) ∧
      (¬ knownVersion (versionBytes buf m url) → Fails buf len) := by
  have hne : d ≠ [] := by
    rw [h]
    exact List.append_ne_nil_of_left_ne_nil m.text_ne_nil _
  constructor
  · intro hk
    exact waits_of (holds_lineOnly h0 (hd.symm ▸ hfree) (hd.trans h) hu hw hk)
  · intro hk
    exact fails_of (holds_badVersion h0 (hd.symm ▸ .cut hfree hne) h hu hw hk)

end

namespace RawLine
variable (l : RawLine)

def versionStart : Int := l.method.text.length+1+l.url.length+1

/-- The cuts at which the line is given up: inside the method, and inside the
version unless the memory behind the data completes it. -/
def Refused (buf : Mem) (len : Int) : Prop :=
  (0 < len ∧ len < l.method.text.length) ∨
    (l.versionStart < len ∧ len < l.versionStart+8 ∧
      ¬ knownVersion (slice buf l.versionStart (l.versionStart+8)))

def Judged (buf : Mem) (len : Int) : Prop :=
  (Waits buf len ∧ ¬ l.Refused buf len) ∨ (Fails buf len ∧ l.Refused buf len)

variable {l}

theorem judged_method {d x : Bytes} (hd : slice buf 0 len = d) (h0 : 0 ≤ len)
    (h : l.method.text = d++x) : l.Judged buf len := by
  have hlen := congrArg List.length hd
  have hl := congrArg List.length h
  simp only [length_slice,List.length_append] at hlen hl
  by_cases hx : x = []
  · have hfree : crlfFree (d++[]) = true :=
      crlfFree_of_no_cr (by simpa [h,hx] using l.method.text_no_cr)
    have hm : d = l.method.text++[] := by simp [h,hx]
    refine .inl ⟨waits_beforeVersion hd h0 hfree hm (.inl rfl),?_⟩
    simp only [hx,List.length_nil] at hl
    rw [Refused,versionStart]
    omega
  · have hpos := List.length_pos_iff.mpr hx
    by_cases hne : d = []
    · have : len = 0 := by
        simp only [hne,List.length_nil] at hlen
        omega
      subst this
      refine .inl ⟨waits_empty,?_⟩
      rw [Refused,versionStart]
      omega
    · have := List.length_pos_iff.mpr hne
      exact .inr ⟨fails_method l.method hd h0 hne h hx,.inl (by omega)⟩

theorem judged_url {d u x : Bytes} (hd : slice buf 0 len = d) (h0 : 0 ≤ len)
    (hl : l.line = d++x) (h : d = l.method.text++SP::u) (hu : SP∉u ∨ ∃ url, u = url++[SP] ∧ SP∉url)
    (hle : u.length ≤ l.url.length+1) : l.Judged buf len := by
  have hlen := congrArg List.length (hd.trans h)
  simp only [length_slice,List.length_append,List.length_cons] at hlen
  have hfree : crlfFree (d++x) = true := hl ▸ l.clean
  refine .inl ⟨waits_beforeVersion hd h0 hfree h (.inr ⟨u,rfl,hu⟩),?_⟩
  rw [Refused,versionStart]
  omega

theorem judged_version {d w x : Bytes} (hd : slice buf 0 len = d) (h0 : 0 ≤ len)
    (hl : l.line = d++x) (h : d = l.method.text++SP::(l.url++SP::w)) (hw : l.version++l.junk = w++x)
    (hne : w ≠ []) : l.Judged buf len := by
  have hlen := congrArg List.length (hd.trans h)
  have hpos := List.length_pos_iff.mpr hne
  have hv := l.version_known.length
  simp only [length_slice,List.length_append,List.length_cons] at hlen
  have hfree : crlfFree (d++x) = true := hl ▸ l.clean
  cases crlfFree_prefix hfree with
  | inl hs =>
    obtain ⟨hgood,hbad⟩ := version_cut hd h0 hs h l.url_no_space hne
    by_cases hk : knownVersion (slice buf l.versionStart (l.versionStart+8))
    · refine .inl ⟨hgood hk,?_⟩
      rw [Refused]
      intro hr
      cases hr with
      | inl hr => omega
      | inr hr => exact hr.2.2 hk
    · refine .inr ⟨hbad hk,.inr ⟨by unfold versionStart; omega,?_,hk⟩⟩
      by_contra hge
      -- the whole version has been received
      have hle : l.version.length ≤ w.length := by
        rw [versionStart] at hge
        omega
      obtain ⟨t,rfl⟩ := List.prefix_of_prefix_length_le ⟨l.junk,hw⟩ ⟨x,rfl⟩ hle
      have hd' : slice buf 0 len = (l.method.text++SP::(l.url++[SP]))++(l.version++t) := by
        simp [hd,h]
      have hver := (slice_split (slice_split hd').2).1
      apply hk
      convert l.version_known using 1
      rw [← hver]
      simp only [hv,versionStart,List.length_append,List.length_cons,List.length_nil]
      congr 1
      · omega
      · omega
  | inr hs =>
    obtain ⟨s,hs,hsf⟩ := hs
    refine .inl ⟨waits_lastCr (hd.trans hs) h0 hsf,?_⟩
    intro hr
    cases hr with
    | inl hr => omega
    | inr hr =>
      -- what has been received of the version holds no CR
      have hle : w.length ≤ l.version.length := by
        have := hr.2.1
        rw [versionStart] at this
        omega
      have hpre := List.prefix_of_prefix_length_le ⟨x,rfl⟩ ⟨l.junk,hw⟩ hle
      have hend : (l.method.text++SP::(l.url++[SP]))++w = s++[CR] := by
        rw [← hs,h]
        simp
      have hcr := cr_mem_of_end hne hend
      exact l.version_known.no_cr (hpre.subset hcr)

theorem judged_line {d x : Bytes} (hd : slice buf 0 len = d) (h0 : 0 ≤ len)
    (h : l.line = d++x) : l.Judged buf len := by
  cases cut_at (h.symm.trans rfl) with
  | before y hm => exact judged_method hd h0 hm
  | behind u hm hu =>
    cases cut_at hu.symm with
    | before y hurl =>
      have hns : SP∉u := fun hs => l.url_no_space (hurl ▸ List.mem_append_left y hs)
      have hle := congrArg List.length hurl
      simp only [List.length_append] at hle
      exact judged_url hd h0 h hm (.inl hns) (by omega)
    | behind w hu' hw =>
      subst hu'
      by_cases hne : w = []
      · subst hne
        exact judged_url hd h0 h hm (.inr ⟨l.url,rfl,l.url_no_space⟩) (by simp)
      · exact judged_version hd h0 h hm hw hne

theorem not_refused (h : l.line.length ≤ len) : ¬ l.Refused buf len := by
  have hv := l.version_known.length
  simp only [line,List.length_append,List.length_cons] at h
  rw [Refused,versionStart]
  omega

end RawLine

theorem headersText_prefix (hs : List RawHeader) {d x : Bytes}
    (h : headersText hs++[CR,LF] = d++x) (hx : x ≠ []) :
    ∃ (hs' : List RawHeader) (seg : Bytes), d = headersText hs'++seg ∧ OpenEnd seg := by
  induction hs generalizing d with
  | nil =>
    refine ⟨[],d,rfl,?_⟩
    match d,h with
    | [],_ => exact .noCr (by simp)
    | [c],h => exact .lastCr [] (by simp [(List.cons.inj h).1]) (by simp)
    | [_,_],h => simp [headersText] at h; exact absurd h.2.2 hx
    | _::_::_::_,h => simp [headersText] at h
  | cons a hs ih =>
    have ha : d++x = a.line++CR::LF::(headersText hs++[CR,LF]) := by
      simpa [headersText,RawHeader.text] using h.symm
    cases cut_at ha with
    | before y hy =>
      exact ⟨[],d,rfl,.noCr fun hm => a.line_no_cr (hy ▸ List.mem_append_left y hm)⟩
    | behind t hd ht =>
      subst hd
      cases t with
      | nil => exact ⟨[],_,rfl,.lastCr a.line rfl a.line_no_cr⟩
      | cons c t =>
        obtain ⟨hc,ht'⟩ := List.cons.inj ht
        obtain ⟨hs',seg,he,hseg⟩ := ih ht'
        exact ⟨a::hs',seg,by simp [headersText,RawHeader.text,← hc,he],hseg⟩

theorem waits_head (l : RawLine) (hs : List RawHeader) {d x : Bytes}
    (hd : slice buf 0 len = l.text++d) (h : headersText hs++[CR,LF] = d++x) (hx : x ≠ []) :
    Waits buf len := by
  obtain ⟨hs',seg,he,hseg⟩ := headersText_prefix hs h hx
  rw [he] at hd
  exact waits_of (holds_openHead hd hseg)

theorem waits_body (r : RawRequest) {d x : Bytes} (hlen : (r.text.length:Int) < 2^31)
    (hd : slice buf 0 len = headText r.line r.headers++d) (h : r.body = d++x) (hx : x ≠ []) :
    Waits buf len := by
  cases hm : r.line.method with
  | GET =>
    rw [r.get_body hm] at h
    exact absurd (List.append_eq_nil_iff.mp h.symm).2 hx
  | POST =>
    obtain ⟨hne,kv,hf,hv⟩ := r.post_body hm
    by_cases hdn : d = []
    · rw [hdn,List.append_nil] at hd
      exact waits_of (holds_noBody hm hd)
    · have hl := congrArg List.length hd
      have hb := congrArg List.length h
      have hpos := List.length_pos_iff.mpr hx
      have hbpos := List.length_pos_iff.mpr hne
      simp only [length_slice,List.length_append] at hl hb
      simp only [RawRequest.text,List.length_append] at hlen
      have hw : wrapInt ((headText r.line r.headers).length+r.body.length) =
          (headText r.line r.headers).length+r.body.length :=
        wrapInt_of_range (by omega) (by omega)
      exact waits_of (holds_shortBody ⟨hd,hdn,hm,hf⟩ hv (by omega) (by rw [hw]; omega))

theorem RawRequest.judged (r : RawRequest) {d x : Bytes} (hlen : (r.text.length:Int) < 2^31)
    (h0 : 0 ≤ len) (hd : slice buf 0 len = d) (h : r.text = d++x) (hx : x ≠ []) :
    r.line.Judged buf len := by
  have hcut : d++x = r.line.line++CR::LF::(headersText r.headers++[CR,LF]++r.body) := by
    rw [← h]
    simp [text,headText,RawLine.text]
  have hl := congrArg List.length hd
  simp only [length_slice] at hl
  cases cut_at hcut with
  | before y hy => exact RawLine.judged_line hd h0 hy
  | behind t hdt ht =>
    subst hdt
    simp only [List.length_append,List.length_cons] at hl
    refine .inl ⟨?_,RawLine.not_refused (by omega)⟩
    cases t with
    | nil => exact waits_lastCr hd h0 r.line.clean
    | cons c t =>
      obtain ⟨hc,ht'⟩ := List.cons.inj ht
      have hd' : slice buf 0 len = r.line.text++t := by simp [hd,← hc,RawLine.text]
      cases List.append_eq_append_iff.mp ht' with
      | inl ht' =>
        obtain ⟨y,hy,hb⟩ := ht'
        refine waits_body r (d := y) hlen ?_ hb hx
        rw [hd',hy]
        simp [headText]
      | inr ht' =>
        obtain ⟨y,hy,hb⟩ := ht'
        by_cases hyn : y = []
        · refine waits_body r (d := []) hlen ?_ (by simp [hb,hyn]) hx
          rw [hd']
          simp [headText,hy,hyn]
        · exact waits_head r.line r.headers hd' hy hyn

def methodEnd (data : Bytes) : Nat := data.idxOf SP

def versionStart (data : Bytes) : Nat :=
  methodEnd data+1+(data.drop (methodEnd data+1)).idxOf SP+1

def CutsMethod (data : Bytes) (m : Nat) : Prop := 0 < m ∧ m < methodEnd data

/-- The cut lies in the version, and the memory behind it does not complete it. -/
def CutsVersion (data : Bytes) (m : Nat) (buf : Mem) : Prop :=
  versionStart data < m ∧ m < versionStart data+8 ∧
    ¬ knownVersion (slice buf (versionStart data) (versionStart data+8))

theorem RawLine.methodEnd_eq (l : RawLine) (rest : Bytes) :
    methodEnd (l.text++rest) = l.method.text.length := by
  have he : l.text++rest =
      l.method.text++SP::(l.url++SP::(l.version++l.junk)++[CR,LF]++rest) := by
    simp [text,line]
  rw [methodEnd,he,List.idxOf_append_of_notMem l.method.text_no_space,List.idxOf_cons_self]
  rfl

theorem RawLine.versionStart_eq (l : RawLine) (rest : Bytes) :
    (Http.versionStart (l.text++rest):Int) = l.versionStart := by
  have he : l.text++rest =
      (l.method.text++[SP])++(l.url++SP::((l.version++l.junk)++[CR,LF]++rest)) := by
    simp [text,line]
  have hd : (l.text++rest).drop (l.method.text.length+1) =
      l.url++SP::((l.version++l.junk)++[CR,LF]++rest) := by
    rw [he]
    exact List.drop_left' (by simp)
  rw [Http.versionStart,l.methodEnd_eq,hd,List.idxOf_append_of_notMem l.url_no_space,
    List.idxOf_cons_self]
  rw [versionStart]
  omega

theorem RawLine.refused_iff (l : RawLine) (rest : Bytes) (m : Nat) :
    l.Refused buf m ↔ CutsMethod (l.text++rest) m ∨ CutsVersion (l.text++rest) m buf := by
  have hv := l.versionStart_eq rest
  rw [CutsMethod,CutsVersion,Refused]
  rw [l.methodEnd_eq,hv]
  refine or_congr ?_ (and_congr ?_ (and_congr ?_ Iff.rfl))
  · omega
  · omega
  · omega

/-- The first `m` bytes of an accepted request are waited at, whatever memory lies
behind them, unless they end inside the method, or inside the version and the
memory behind them does not complete it. -/
theorem parse_prefix_waits_iff {buf' : Mem} {p : HttpParser} {len n m : Nat}
    (hlen : (len:Int) < 2^31) (h : (parse buf len).Returns p) (hs : p.finalState = .success)
    (hn : p.request.parseSize = n) (hm : m < n) (hbuf : slice buf' 0 m = slice buf 0 m) :
    Waits buf' m ↔
      ¬ CutsMethod (slice buf 0 len) m ∧ ¬ CutsVersion (slice buf 0 len) m buf' := by
  obtain ⟨r,rest,hr,hreq⟩ := parse_accepted (by omega) hlen h hs hn
  have hsize : (r.text.length:Int) = n := by
    rw [hreq] at hn
    exact hn
  have hle := congrArg List.length hr
  simp only [length_slice,List.length_append] at hle
  have htext : r.text = slice buf 0 m++slice buf m n := by
    rw [← slice_append buf (by omega) (by omega),← hsize]
    have := (slice_split hr).1
    rw [Int.zero_add] at this
    exact this.symm
  have hne : slice buf m n ≠ [] := by
    apply List.ne_nil_of_length_pos
    rw [length_slice]
    omega
  have hj := r.judged (by omega) (by omega) hbuf htext hne
  have hdata : slice buf 0 len =
      r.line.text++(headersText r.headers++[CR,LF]++r.body++rest) := by
    rw [hr]
    simp [RawRequest.text,headText]
  rw [← not_or,hdata,← r.line.refused_iff]
  constructor
  · intro hw
    cases hj with
    | inl hj => exact hj.2
    | inr hj => exact absurd hj.1 hw.not_fails
  · intro hno
    cases hj with
    | inl hj => exact hj.1
    | inr hj => exact absurd hj.2 hno

theorem parse_getRoot_waits :
    Waits (ofBytes getRoot fun _ => 0) (14:Nat) ↔
      ¬ CutsMethod (slice (ofBytes getRoot fun _ => 0) 0 (18:Nat)) 14 ∧
      ¬ CutsVersion (slice (ofBytes getRoot fun _ => 0) 0 (18:Nat)) 14
        (ofBytes getRoot fun _ => 0) :=
  parse_prefix_waits_iff (p := getRootParsed) (n := 18) (by decide) ⟨25,by rfl⟩ rfl rfl
    (by decide) rfl

theorem parse_getRoot_cut :
    ¬ ∀ (buf : Mem) (p : HttpParser) (len n m : Nat), (len:Int) < 2^31 →
      (parse buf len).Returns p → p.finalState = .success → p.request.parseSize = n →
      m < n → Waits buf m := by
  intro h
  have hw := h (ofBytes getRoot fun _ => 0) getRootParsed 18 18 2 (by decide)
    ⟨25,by rfl⟩ rfl rfl (by decide)
  refine hw.not_fails (@fails_method _ _ .GET [71,69] [84] (by decide) (by decide)
    (by decide) rfl (by decide))

end AdlServer.Http
