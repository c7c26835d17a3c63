import AdlServer.RequestLine

/-! What `requestHeadParse` does with the bytes behind the request line: whole
header lines are consumed one a turn, and what follows them decides the end. -/
namespace AdlServer.Http
open Program Memory Cpp
variable {buf : Mem} {len : Int}

/-- A header line that is taken: the byte before the first space, whatever it is,
belongs neither to the key nor to the value. -/
structure RawHeader where
  key : Bytes
  sep : UInt8
  value : Bytes
  name_no_space : SP∉key++[sep]
  name_no_cr : CR∉key++[sep]
  value_no_cr : CR∉value

namespace RawHeader

def line (h : RawHeader) : Bytes := (h.key++[h.sep])++SP::h.value

def text (h : RawHeader) : Bytes := h.line++[CR,LF]

theorem line_no_cr (h : RawHeader) : CR∉h.line := by
  have hsp : CR ≠ SP := by decide
  intro hm
  cases List.mem_append.mp hm with
  | inl hm => exact h.name_no_cr hm
  | inr hm =>
    cases List.mem_cons.mp hm with
    | inl hm => exact hsp hm
    | inr hm => exact h.value_no_cr hm

end RawHeader

def headersText (hs : List RawHeader) : Bytes := hs.flatMap RawHeader.text

def addHeaders (head : HttpRequestHead) (hs : List RawHeader) : HttpRequestHead :=
  hs.foldl (fun head h => head.add h.key h.value) head

inductive HeadEnd : Bytes → Prop where
  | blank (rest : Bytes) : HeadEnd (CR::LF::rest)
  | noCr (seg : Bytes) (h : CR∉seg) : HeadEnd seg
  | lastCr (seg : Bytes) (h : CR∉seg) : HeadEnd (seg++[CR])
  | cutPair (seg : Bytes) (c : UInt8) (h : CR∉seg) (hc : c ≠ LF) : HeadEnd (seg++[CR,c])
  | loneCr (seg : Bytes) (c d : UInt8) (rest : Bytes) (h : CR∉seg) (hc : c ≠ LF) :
    HeadEnd (seg++CR::c::d::rest)
  | noSpace (seg rest : Bytes) (hne : seg ≠ []) (h : CR∉seg) (hs : SP∉seg) :
    HeadEnd (seg++CR::LF::rest)
  | spaceFirst (seg rest : Bytes) (h : CR∉seg) : HeadEnd (SP::(seg++CR::LF::rest))

inductive HeaderShape (seg : Bytes) : Prop where
  | noSpace (h : SP∉seg)
  | spaceFirst (t : Bytes) (h : seg = SP::t)
  | header (h : RawHeader) (he : seg = h.line)

theorem header_cases (seg : Bytes) (hcr : CR∉seg) : HeaderShape seg := by
  by_cases hsp : SP∈seg
  · obtain ⟨name,value,he,hn⟩ := List.eq_append_cons_of_mem hsp
    rw [he] at hcr
    cases List.eq_nil_or_concat name with
    | inl hnil => exact .spaceFirst value (by rw [he,hnil]; rfl)
    | inr hname =>
      obtain ⟨key,sep,hname⟩ := hname
      rw [hname] at he hn hcr
      refine .header ⟨key,sep,value,?_,?_,?_⟩ (by simpa [RawHeader.line] using he)
      · simpa using hn
      · exact fun hm => hcr (List.mem_append_left _ (by simpa using hm))
      · exact fun hm => hcr (List.mem_append_right _ (List.mem_cons_of_mem SP hm))
  · exact .noSpace hsp

theorem head_split (data : Bytes) :
    ∃ (hs : List RawHeader) (tail : Bytes), data = headersText hs++tail ∧ HeadEnd tail := by
  generalize hn : data.length = n
  induction n using Nat.strongRecOn generalizing data with
  | ind n ih =>
    subst hn
    have stop (h : HeadEnd data) : ∃ (hs : List RawHeader) (tail : Bytes),
        data = headersText hs++tail ∧ HeadEnd tail := ⟨[],data,rfl,h⟩
    by_cases hcr : CR∈data
    · obtain ⟨seg,rest,rfl,hseg⟩ := List.eq_append_cons_of_mem hcr
      cases rest with
      | nil => exact stop (.lastCr seg hseg)
      | cons c rest =>
        by_cases hc : c = LF
        · subst hc
          by_cases hne : seg = []
          · subst hne
            exact stop (.blank rest)
          · cases header_cases seg hseg with
            | noSpace hsp => exact stop (.noSpace seg rest hne hseg hsp)
            | spaceFirst t he =>
              subst he
              exact stop (.spaceFirst t rest fun hm => hseg (List.mem_cons_of_mem SP hm))
            | header h he =>
              subst he
              have hlt : rest.length < (h.line++CR::LF::rest).length := by
                simp only [List.length_append,List.length_cons]
                omega
              obtain ⟨hs,tail,hrest,hend⟩ := ih rest.length hlt rest rfl
              exact ⟨h::hs,tail,by simp [headersText,RawHeader.text,hrest],hend⟩
        · cases rest with
          | nil => exact stop (.cutPair seg c hseg hc)
          | cons d rest => exact stop (.loneCr seg c d rest hseg hc)
    · exact stop (.noCr data hcr)

section
variable {p : HttpParser}

def afterHeader (p : HttpParser) (h : RawHeader) : HttpParser :=
  { p with
    cur := p.lEnd+h.key.length+1
    lBeg := p.lEnd
    lEnd := p.lEnd+h.text.length
    lineState := .ok
    request.head := p.request.head.add h.key h.value }

theorem scan_line {a : Int} {seg rest : Bytes} (h : slice buf a len = seg++CR::LF::rest)
    (hcr : CR∉seg) :
    (scanTo buf CR len a).Returns (a+seg.length+1) ∧ a+seg.length+1 ≠ len ∧
      buf (a+seg.length+1) = LF ∧ slice buf a (a+seg.length+1+1) = seg++[CR,LF] := by
  obtain ⟨-,-,hr⟩ := slice_head (slice_split h).2
  obtain ⟨hlt,hlf,-⟩ := slice_head hr
  refine ⟨scanTo_hit h hcr,Int.ne_of_lt hlt,hlf,?_⟩
  have h' : slice buf a len = (seg++[CR,LF])++rest := by simp [h]
  rw [← (slice_split h').1]
  congr 1
  simp only [List.length_append,List.length_cons,List.length_nil]
  omega

theorem requestHeadTurn_header (h : RawHeader) {rest : Bytes} (hm : p.cur ≠ len)
    (hs : slice buf p.lEnd len = h.text++rest) :
    (requestHeadTurn buf len p).Returns (.again (afterHeader p h)) := by
  have hs' : slice buf p.lEnd len = h.line++CR::LF::rest := by simpa [RawHeader.text] using hs
  obtain ⟨hscan,hne,hlf,hline⟩ := scan_line hs' h.line_no_cr
  have hlen : (h.line.length:Int) = h.key.length+1+1+h.value.length := by
    simp only [RawHeader.line,List.length_append,List.length_cons,List.length_nil]
    omega
  have hname : slice buf p.lEnd (p.lEnd+h.line.length+1+1) =
      (h.key++[h.sep])++SP::(h.value++[CR,LF]) := by
    rw [hline]
    simp [RawHeader.line]
  have hspace := findSpace_hit hname h.name_no_space
  obtain ⟨-,-,hval⟩ := slice_head (slice_split hname).2
  have hkey : slice buf p.lEnd (p.lEnd+h.key.length) = h.key := by
    have hk : slice buf p.lEnd (p.lEnd+h.line.length+1+1) =
        h.key++(h.sep::SP::(h.value++[CR,LF])) := by simp [hname]
    exact (slice_split hk).1
  have hvalue := (slice_split hval).1
  have hn : ((h.key++[h.sep]).length:Int) = h.key.length+1 := by
    simp only [List.length_append,List.length_cons,List.length_nil]
    omega
  rw [hn] at hspace hvalue
  have hend : p.lEnd+(h.line.length:Int)+1+1 = p.lEnd+h.text.length := by
    simp only [RawHeader.text,List.length_append,List.length_cons,List.length_nil]
    omega
  rw [hend] at hspace
  simp only [requestHeadTurn,hm,if_false]
  refine hscan.bind ?_
  simp only [hne,hlf,if_false,ne_eq,not_true_eq_false,hend]
  rw [if_neg (by omega)]
  refine hspace.bind ?_
  rw [if_neg (by omega)]
  have hk : rangeString buf p.lEnd (p.lEnd+((h.key.length:Int)+1)-1) = pure h.key := by
    have he : p.lEnd+((h.key.length:Int)+1)-1 = p.lEnd+h.key.length := by omega
    rw [rangeString_eq buf (by omega),he,hkey]
  have hv : rangeString buf (p.lEnd+((h.key.length:Int)+1)+1) (p.lEnd+h.text.length-2) =
      pure h.value := by
    have he : p.lEnd+(h.text.length:Int)-2 =
        p.lEnd+((h.key.length:Int)+1)+1+h.value.length := by omega
    rw [rangeString_eq buf (by omega),he,hvalue]
  rw [hk,hv]
  simp [afterHeader,Int.add_assoc]

structure HeadersRead (len : Int) (p : HttpParser) (hs : List RawHeader) (p' : HttpParser) :
    Prop where
  more : p'.cur ≠ len
  lEnd : p'.lEnd = p.lEnd+(headersText hs).length
  request : p'.request = { p.request with head := addHeaders p.request.head hs }
  finalState : p'.finalState = p.finalState
  processState : p'.processState = p.processState

theorem requestHead_headers (hs : List RawHeader) {tail : Bytes} (hm : p.cur ≠ len)
    (h : slice buf p.lEnd len = headersText hs++tail) :
    ∃ p', HeadersRead len p hs p' ∧ ∀ o,
      (requestHeadParse buf len p).Ends o ↔ (requestHeadParse buf len p').Ends o := by
  induction hs generalizing p with
  | nil => exact ⟨p,⟨hm,by simp [headersText],rfl,rfl,rfl⟩,fun o => Iff.rfl⟩
  | cons a hs ih =>
    have hs' : slice buf p.lEnd len = a.text++(headersText hs++tail) := by
      simpa [headersText] using h
    have hturn := requestHeadTurn_header a hm hs'
    have hmore : (afterHeader p a).cur ≠ len := by
      have hlen := congrArg List.length hs'
      simp only [length_slice,RawHeader.text,RawHeader.line,List.length_append,
        List.length_cons] at hlen
      dsimp only [afterHeader]
      omega
    obtain ⟨p',hp,ho⟩ := ih hmore (slice_split hs').2
    refine ⟨p',⟨hp.more,?_,hp.request,hp.finalState,hp.processState⟩,fun o => ?_⟩
    · rw [hp.lEnd]
      simp only [afterHeader,headersText,List.flatMap_cons,List.length_append]
      omega
    · exact (Prog.ends_loop_again _ hturn o).trans (ho o)

theorem requestHeadParse_blankLine {rest : Bytes} (hm : p.cur ≠ len)
    (h : slice buf p.lEnd len = CR::LF::rest) :
    (requestHeadParse buf len p).Returns
      { p with cur := p.lEnd+2, lBeg := p.lEnd, lEnd := p.lEnd+2, lineState := .ok } := by
  have h' : slice buf p.lEnd len = []++CR::LF::rest := h
  obtain ⟨hscan,hne,hlf,-⟩ := scan_line h' (by simp)
  simp only [List.length_nil,Int.ofNat_zero,Int.add_zero] at hscan hne hlf
  have he : p.lEnd+1+1 = p.lEnd+2 := by omega
  apply Prog.returns_loop_leave
  simp only [requestHeadTurn,hm,if_false]
  refine hscan.bind ?_
  simp [hne,hlf,he]

inductive OpenEnd (seg : Bytes) : Prop where
  | noCr (h : CR∉seg)
  | lastCr (s : Bytes) (he : seg = s++[CR]) (h : CR∉s)
  | cutPair (s : Bytes) (c : UInt8) (he : seg = s++[CR,c]) (h : CR∉s) (hc : c ≠ LF)

theorem requestHeadParse_open {seg : Bytes} (hm : p.cur ≠ len) (hle : p.lEnd ≤ len)
    (h : slice buf p.lEnd len = seg) (ho : OpenEnd seg) :
    ∃ p', (requestHeadParse buf len p).Returns p' ∧ p'.lineState = .incomplete ∧
      p'.finalState = p.finalState ∧ p'.request = p.request := by
  have leave (hscan : (scanTo buf CR len p.lEnd).Returns len) :
      ∃ p', (requestHeadParse buf len p).Returns p' ∧ p'.lineState = .incomplete ∧
        p'.finalState = p.finalState ∧ p'.request = p.request := by
    refine ⟨{ p with cur := len, lBeg := p.lEnd, lineState := .incomplete },?_,rfl,rfl,rfl⟩
    apply Prog.returns_loop_leave
    simp only [requestHeadTurn,hm,if_false]
    exact hscan.bind (by simp)
  have hend := slice_end hle h
  cases ho with
  | noCr hs => exact leave (scanTo_miss hle (by rwa [h]))
  | lastCr s he hs =>
    subst he
    have hscan := scanTo_hit h hs
    simp only [List.length_append,List.length_cons,List.length_nil] at hend
    have hlast : p.lEnd+(s.length:Int)+1 = len := by omega
    rw [hlast] at hscan
    exact leave hscan
  | cutPair s c he hs hc =>
    subst he
    -- the byte behind the CR is the last one: the loop goes round once more
    have hscan := scanTo_hit h hs
    simp only [List.length_append,List.length_cons,List.length_nil] at hend
    obtain ⟨-,-,hr⟩ := slice_head (slice_split h).2
    obtain ⟨hlt,hb,-⟩ := slice_head hr
    refine ⟨{ p with cur := len, lBeg := p.lEnd, lineState := .incomplete },?_,rfl,rfl,rfl⟩
    refine (Prog.ends_loop_again
      { p with cur := len, lBeg := p.lEnd, lineState := .incomplete } ?_ _).mpr ?_
    · simp only [requestHeadTurn,hm,if_false]
      refine hscan.bind ?_
      simp [Int.ne_of_lt hlt,hb,hc]
      omega
    · apply Prog.returns_loop_leave
      simp [requestHeadTurn]

theorem requestHeadParse_loneCr {seg rest : Bytes} {c d : UInt8} (hm : p.cur ≠ len)
    (h : slice buf p.lEnd len = seg++CR::c::d::rest) (hs : CR∉seg) (hc : c ≠ LF) :
    ¬ (requestHeadParse buf len p).Halts := by
  have hscan := scanTo_hit h hs
  obtain ⟨-,-,hr⟩ := slice_head (slice_split h).2
  obtain ⟨hlt,hb,hr'⟩ := slice_head hr
  obtain ⟨hlt',-,-⟩ := slice_head hr'
  refine Prog.loop_endless (fun q => q.lEnd = p.lEnd ∧ q.cur ≠ len) ?_ p ⟨rfl,hm⟩
  intro q ⟨hq,hqm⟩
  refine ⟨{ q with
    cur := p.lEnd+seg.length+1+1, lBeg := q.lEnd, lineState := .incomplete },?_,
    hq,Int.ne_of_lt hlt'⟩
  simp only [requestHeadTurn,hqm,if_false]
  refine Prog.Returns.bind (a := p.lEnd+seg.length+1) (by rw [hq]; exact hscan) ?_
  simp [Int.ne_of_lt hlt,hb,hc]

theorem requestHeadParse_noSpace {seg rest : Bytes} (hm : p.cur ≠ len)
    (h : slice buf p.lEnd len = seg++CR::LF::rest) (hne : seg ≠ []) (hcr : CR∉seg)
    (hsp : SP∉seg) :
    ∃ p', (requestHeadParse buf len p).Returns p' ∧ p'.lineState = .bad ∧
      p'.request = p.request := by
  have hcr' : SP ≠ CR := by decide
  have hlf' : SP ≠ LF := by decide
  obtain ⟨hscan,hne',hlf,hline⟩ := scan_line h hcr
  have hpos := List.length_pos_iff.mpr hne
  have hspace : (findSpace buf (p.lEnd+seg.length+1+1) p.lEnd).Returns
      (p.lEnd+seg.length+1+1) :=
    findSpace_miss (by omega) (by rw [hline]; simp [hsp,hcr',hlf'])
  refine ⟨{ p with
    cur := p.lEnd+seg.length+1+1, lBeg := p.lEnd, lEnd := p.lEnd+seg.length+1+1,
    lineState := .bad },Prog.returns_loop_leave ?_,rfl,rfl⟩
  simp only [requestHeadTurn,hm,if_false]
  refine hscan.bind ?_
  simp only [hne',hlf,if_false,ne_eq,not_true_eq_false]
  rw [if_neg (by omega)]
  exact hspace.bind (by simp)

theorem requestHeadParse_spaceFirst {seg rest : Bytes} (hm : p.cur ≠ len)
    (h : slice buf p.lEnd len = SP::(seg++CR::LF::rest)) (hcr : CR∉seg) :
    (requestHeadParse buf len p).Ends (.error .lengthError) := by
  have h' : slice buf p.lEnd len = (SP::seg)++CR::LF::rest := by simpa using h
  have hsp : CR ≠ SP := by decide
  have hcr' : CR∉SP::seg := by simp [hcr,hsp]
  obtain ⟨hscan,hne',hlf,hline⟩ := scan_line h' hcr'
  have hline' : slice buf p.lEnd (p.lEnd+(SP::seg).length+1+1) = []++SP::(seg++[CR,LF]) := hline
  have hspace := findSpace_hit hline' (by simp)
  simp only [List.length_nil,Int.ofNat_zero,Int.add_zero] at hspace
  simp only [List.length_cons] at hscan hne' hlf hspace
  apply Prog.throws_loop
  simp only [requestHeadTurn,hm,if_false]
  refine (hscan.ends_bind _ _).mpr ?_
  simp only [hne',hlf,if_false,ne_eq,not_true_eq_false]
  rw [if_neg (by omega)]
  refine (hspace.ends_bind _ _).mpr ?_
  rw [if_neg (by omega)]
  rw [rangeString_throws buf (by omega)]
  exact Prog.throws_bind (by simp) _

end
end AdlServer.Http
