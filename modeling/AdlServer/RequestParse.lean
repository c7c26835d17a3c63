import AdlServer.RequestHead

/-! The main loop of `parse`: how the phases hand over, and what the body phase makes of the
length. -/
namespace AdlServer.Http
open Program Memory Cpp
variable {buf : Mem} {len : Int}

def atHead (l : RawLine) : HttpParser :=
  { afterLine {} l.requestLine l.text.length with processState := .head }

theorem requestLineParse_noEnd {q : HttpParser} (hlen : 0 ≤ len)
    (hfree : crlfFree (slice buf 0 len) = true) (h : (requestLineLoop buf { lEnd := len }).Returns q) :
    (requestLineParse buf len {}).Returns q :=
  (findLineEnd_none hlen hfree).bind h

theorem parse_line_stops {p : HttpParser} (hlen : 0 < len)
    (h : (requestLineParse buf len {}).Returns p) (hs : p.lineState ≠ .ok) :
    (parse buf len).Returns { p with
      finalState := if p.lineState = .bad then .failed else .incomplete } := by
  apply Prog.returns_loop_leave
  simp only [parseTurn,Int.ne_of_lt hlen,if_false]
  refine h.bind ?_
  cases hp : p.lineState with
  | ok => exact absurd hp hs
  | bad => simp
  | incomplete => simp

theorem parse_line_ok {p : HttpParser} (hlen : 0 < len)
    (h : (requestLineParse buf len {}).Returns p) (hs : p.lineState = .ok)
    (o : Except Fault HttpParser) :
    (parse buf len).Ends o ↔
      (Prog.loop (parseTurn buf len) { p with processState := .head }).Ends o := by
  apply Prog.ends_loop_again
  simp only [parseTurn,Int.ne_of_lt hlen,if_false]
  exact h.bind (by simp [hs])

theorem parseLoop_end {p : HttpParser} (h : p.cur = len) :
    (Prog.loop (parseTurn buf len) p).Returns p :=
  Prog.returns_loop_leave (by simp [parseTurn,h])

theorem RawLine.text_pos (l : RawLine) : 0 < (l.text.length:Int) := by
  simp only [RawLine.text,List.length_append,List.length_cons,List.length_nil]
  omega

theorem parse_toHead (l : RawLine) {rest : Bytes} (h : slice buf 0 len = l.text++rest)
    (o : Except Fault HttpParser) :
    (parse buf len).Ends o ↔ (Prog.loop (parseTurn buf len) (atHead l)).Ends o := by
  have hlen := congrArg List.length h
  have hpos := l.text_pos
  simp only [length_slice,List.length_append] at hlen
  have hl := requestLineParse_ok (p := {}) l rfl h
  simp only [Int.zero_add] at hl
  exact parse_line_ok (by omega) hl rfl o

theorem parse_head_stops (l : RawLine) {p : HttpParser} (hm : (atHead l).cur ≠ len)
    (h : (requestHeadParse buf len { atHead l with lineState := .incomplete }).Returns p)
    (hs : p.lineState ≠ .ok) :
    (Prog.loop (parseTurn buf len) (atHead l)).Returns { p with
      finalState := if p.lineState = .bad then .failed else .incomplete } := by
  apply Prog.returns_loop_leave
  simp only [parseTurn,hm,if_false]
  refine h.bind ?_
  cases hp : p.lineState with
  | ok => exact absurd hp hs
  | bad => simp
  | incomplete => simp

theorem parse_head_endless (l : RawLine) (hm : (atHead l).cur ≠ len)
    (h : ¬ (requestHeadParse buf len { atHead l with lineState := .incomplete }).Halts) :
    ¬ (Prog.loop (parseTurn buf len) (atHead l)).Halts := by
  apply Prog.loop_not_halts
  simp only [parseTurn,hm,if_false]
  exact Prog.not_halts_bind h _

theorem parse_head_throws (l : RawLine) {e : Fault} (hm : (atHead l).cur ≠ len)
    (h : (requestHeadParse buf len { atHead l with lineState := .incomplete }).Ends (.error e)) :
    (Prog.loop (parseTurn buf len) (atHead l)).Ends (.error e) := by
  apply Prog.throws_loop
  simp only [parseTurn,hm,if_false]
  exact Prog.throws_bind h _

structure AtBody (p : HttpParser) (request : HttpRequest) (cur : Int) : Prop where
  cur : p.cur = cur
  request : p.request = request
  processState : p.processState = .body
  finalState : p.finalState = .incomplete

def headRequest (l : RawLine) (hs : List RawHeader) : HttpRequest :=
  { line := l.requestLine, head := addHeaders {} hs }

def headText (l : RawLine) (hs : List RawHeader) : Bytes :=
  l.text++(headersText hs++[CR,LF])

structure AtTail (buf : Mem) (len : Int) (l : RawLine) (hs : List RawHeader) (tail : Bytes)
    (p : HttpParser) : Prop where
  begun : (atHead l).cur ≠ len
  more : p.cur ≠ len
  lEnd : p.lEnd = l.text.length+(headersText hs).length
  tail : slice buf p.lEnd len = tail
  inside : p.lEnd ≤ len
  request : p.request = headRequest l hs
  processState : p.processState = .head
  finalState : p.finalState = .incomplete
  goesOn : ∀ o, (requestHeadParse buf len { atHead l with lineState := .incomplete }).Ends o ↔
    (requestHeadParse buf len p).Ends o

theorem parse_toTail {l : RawLine} {hs : List RawHeader} {tail : Bytes}
    (h : slice buf 0 len = l.text++(headersText hs++tail))
    (hne : headersText hs++tail ≠ []) : ∃ p, AtTail buf len l hs tail p := by
  have hrest : slice buf (atHead l).lEnd len = headersText hs++tail := by
    have hr := (slice_split h).2
    rw [Int.zero_add] at hr
    exact hr
  have hlen := congrArg List.length hrest
  have hpos := List.length_pos_iff.mpr hne
  have hm : (atHead l).cur ≠ len := by
    intro he
    have hcur : (atHead l).lEnd = len := he
    rw [length_slice] at hlen
    omega
  obtain ⟨p,hp,ho⟩ := requestHead_headers
    (p := { atHead l with lineState := .incomplete }) hs hm hrest
  have hend : p.lEnd = (atHead l).lEnd+(headersText hs).length := hp.lEnd
  refine ⟨p,hm,hp.more,hend,?_,?_,hp.request,hp.processState,hp.finalState,ho⟩
  · rw [hend]
    exact (slice_split hrest).2
  · rw [length_slice] at hlen
    simp only [List.length_append] at hlen hpos
    omega

theorem requestHeadParse_complete (l : RawLine) (hs : List RawHeader) {rest : Bytes}
    (h : slice buf 0 len = headText l hs++rest) :
    (atHead l).cur ≠ len ∧
      ∃ p, (requestHeadParse buf len { atHead l with lineState := .incomplete }).Returns p ∧
        p.lineState = .ok ∧ p.cur = (headText l hs).length ∧ p.request = headRequest l hs ∧
        p.processState = .head ∧ p.finalState = .incomplete := by
  have h1 : slice buf 0 len = l.text++(headersText hs++CR::LF::rest) := by simp [h,headText]
  obtain ⟨p,hp⟩ := parse_toTail h1 (by simp)
  refine ⟨hp.begun,_,(hp.goesOn _).mpr (requestHeadParse_blankLine hp.more hp.tail),rfl,?_,
    hp.request,hp.processState,hp.finalState⟩
  simp only [hp.lEnd,headText,List.length_append,List.length_cons,List.length_nil]
  omega

theorem parse_get (l : RawLine) (hs : List RawHeader) {rest : Bytes} (hg : l.method = .GET)
    (h : slice buf 0 len = headText l hs++rest) :
    ∃ p, (parse buf len).Returns p ∧ p.finalState = .success ∧
      p.request = { headRequest l hs with parseSize := (headText l hs).length } := by
  obtain ⟨hm,p,hp,hok,hcur,hreq,-,-⟩ := requestHeadParse_complete l hs h
  refine ⟨{ p with request := { p.request with parseSize := p.cur }, finalState := .success },
    ?_,rfl,by simp [hreq,hcur]⟩
  have h1 : slice buf 0 len = l.text++((headersText hs++[CR,LF])++rest) := by
    simp [h,headText]
  refine (parse_toHead l h1 _).mpr (Prog.returns_loop_leave ?_)
  have hget : p.request.line.method = some .GET := by simp [hreq,headRequest,RawLine.requestLine,hg]
  simp only [parseTurn,hm,if_false]
  exact hp.bind (by simp [hok,hget])

theorem parse_toBody (l : RawLine) (hs : List RawHeader) {rest : Bytes} (hg : l.method = .POST)
    (h : slice buf 0 len = headText l hs++rest) :
    ∃ p, AtBody p (headRequest l hs) (headText l hs).length ∧
      ∀ o, (parse buf len).Ends o ↔ (Prog.loop (parseTurn buf len) p).Ends o := by
  obtain ⟨hm,p,hp,hok,hcur,hreq,hps,hfs⟩ := requestHeadParse_complete l hs h
  refine ⟨{ p with processState := .body },⟨hcur,hreq,rfl,hfs⟩,fun o => ?_⟩
  have h1 : slice buf 0 len = l.text++((headersText hs++[CR,LF])++rest) := by
    simp [h,headText]
  rw [parse_toHead l h1]
  have hpost : p.request.line.method = some .POST := by
    simp [hreq,headRequest,RawLine.requestLine,hg]
  apply Prog.ends_loop_again
  simp only [parseTurn,hm,if_false]
  exact hp.bind (by simp [hok,hpost])

theorem HttpRequestHead.find_key {h : HttpRequestHead} {k : Bytes} {kv : Bytes×Bytes}
    (hf : h.find k = some kv) : kv.1 = k := by
  have := List.find?_some hf
  simpa using this

theorem stoi_halts (s : Bytes) : (stoi s).Halts := by
  rw [stoi]
  simp only
  split_ifs <;>
    first
    | exact ⟨_,(Prog.ends_throw _ _).mpr rfl⟩
    | exact Prog.halts_pure _

section
variable {p : HttpParser} {l : RawLine} {hs : List RawHeader} {c : Int}

theorem AtBody.method (hp : AtBody p (headRequest l hs) c) :
    p.request.line.method = some l.method := by
  rw [hp.request]
  rfl

theorem AtBody.get {kv : Bytes×Bytes} (hp : AtBody p (headRequest l hs) c)
    (hf : (addHeaders {} hs).find contentLength = some kv) :
    p.request.head.get contentLength = kv ∧ kv.1 ≠ [] := by
  have hk : kv.1 ≠ [] := by
    rw [HttpRequestHead.find_key hf]
    decide
  refine ⟨?_,hk⟩
  rw [hp.request]
  simp [HttpRequestHead.get,headRequest,hf]

theorem body_noLength (hp : AtBody p (headRequest l hs) c) (hc : c < len)
    (hf : (addHeaders {} hs).find contentLength = none) :
    (Prog.loop (parseTurn buf len) p).Returns
      { p with lineState := .incomplete, finalState := .failed } := by
  have hg : p.request.head.get contentLength = ([],[]) := by
    rw [hp.request]
    simp [HttpRequestHead.get,headRequest,hf]
  apply Prog.returns_loop_leave
  simp [parseTurn,hp.cur,hp.processState,Int.ne_of_lt hc,hg]

variable {kv : Bytes×Bytes}

theorem body_turn (hp : AtBody p (headRequest l hs) c) (hc : c < len) (hm : l.method = .POST)
    (hf : (addHeaders {} hs).find contentLength = some kv) :
    parseTurn buf len p =
      stoi kv.2 >>= fun v => pure (bodyTurn buf len v { p with lineState := .incomplete }) := by
  obtain ⟨hg,hk⟩ := hp.get hf
  have hmp := hp.method
  obtain ⟨fs,ls,ps,request,lBeg,lEnd,cur⟩ := p
  obtain ⟨rfl,-,rfl,-⟩ := hp
  simp only at hg hmp
  simp [parseTurn,Int.ne_of_lt hc,hg,hk,hmp,hm,hc]

theorem body_throws {e : Fault} (hp : AtBody p (headRequest l hs) c) (hc : c < len)
    (hm : l.method = .POST) (hf : (addHeaders {} hs).find contentLength = some kv)
    (hv : (stoi kv.2).Ends (.error e)) :
    (Prog.loop (parseTurn buf len) p).Ends (.error e) := by
  apply Prog.throws_loop
  rw [body_turn hp hc hm hf]
  exact Prog.throws_bind hv _

theorem body_endless {v : Int} (hp : AtBody p (headRequest l hs) c) (hc : c < len)
    (hm : l.method = .POST) (hf : (addHeaders {} hs).find contentLength = some kv)
    (hv : (stoi kv.2).Returns v) (hneg : v ≤ 0) :
    ¬ (Prog.loop (parseTurn buf len) p).Halts := by
  refine Prog.loop_endless (fun q => AtBody q (headRequest l hs) c) ?_ p hp
  intro q hq
  refine ⟨{ q with lineState := .incomplete },?_,hq.cur,hq.request,hq.processState,
    hq.finalState⟩
  rw [body_turn hq hc hm hf]
  exact hv.bind (by simp [bodyTurn,Int.not_lt.mpr hneg])

theorem body_short {v : Int} (hp : AtBody p (headRequest l hs) c) (hc : c < len)
    (hm : l.method = .POST) (hf : (addHeaders {} hs).find contentLength = some kv)
    (hv : (stoi kv.2).Returns v) (hpos : 0 < v) (hw : len < wrapInt (c+v)) :
    (Prog.loop (parseTurn buf len) p).Returns { p with lineState := .incomplete } := by
  apply Prog.returns_loop_leave
  rw [body_turn hp hc hm hf]
  refine hv.bind ?_
  simp [bodyTurn,hpos,requestBodyParse,hp.cur,hw,hp.finalState]

theorem body_read {v : Int} (hp : AtBody p (headRequest l hs) c) (hc : c < len)
    (hm : l.method = .POST) (hf : (addHeaders {} hs).find contentLength = some kv)
    (hv : (stoi kv.2).Returns v) (hpos : 0 < v) (hw : wrapInt (c+v) ≤ len) :
    ∃ p', (Prog.loop (parseTurn buf len) p).Returns p' ∧ p'.finalState = .success ∧
      p'.request = { headRequest l hs with
        parseSize := wrapInt (c+v), body := slice buf c (c+v) } := by
  refine ⟨{ p with
    request := { headRequest l hs with parseSize := wrapInt (c+v), body := slice buf c (c+v) }
    cur := wrapInt (c+v), lineState := .ok, finalState := .success },
    Prog.returns_loop_leave ?_,rfl,rfl⟩
  rw [body_turn hp hc hm hf]
  refine hv.bind ?_
  simp [bodyTurn,hpos,requestBodyParse,hp.cur,Int.not_lt.mpr hw,hw,hp.request]

end

end AdlServer.Http
